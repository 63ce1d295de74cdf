import RazorTokens.Rule

/-!
This module contains the rules for what code may hold between its tokens: comments and directives.
-/

namespace RazorTokens
namespace Rule
namespace Trivia

def afterLine (s : List Char) : List Char :=
  s.dropWhile (!Alphabet.isNewline ·)

def afterNewline : List Char → List Char
  | '\r' :: '\n' :: rest => rest
  | '\r' :: rest => rest
  | '\n' :: rest => rest
  | rest => rest

def afterBlock : List Char → List Char
  | '*' :: '/' :: rest => rest
  | _ :: rest => afterBlock rest
  | [] => []

end Trivia

/--
A comment: from `//` to the end of the line, or from `/*` to `*/` or the end of the input. A slash
that begins neither refuses the call.
-/
def comment : Rule := fun p =>
  match p.ahead with
  | '/' :: '/' :: rest => .emit .comment (p.moveTo (Trivia.afterLine rest))
  | '/' :: '*' :: rest => .emit .comment (p.moveTo (Trivia.afterBlock rest))
  | '/' :: rest => .refuse .straySlash (p.moveTo rest)
  | _ => .pass p

def directive : Rule := fun p =>
  match p.ahead with
  | '#' :: rest => .emit .directive (p.moveTo (Trivia.afterNewline (Trivia.afterLine rest)))
  | _ => .pass p

end Rule
end RazorTokens
