import RazorTokens.Rule

/-!
This module contains the rules that open and close regions. They are the only ones that change the
nesting.
-/

namespace RazorTokens
namespace Rule

/--
The region that a bracket behind an `@` opens, if the host would accept the token: its kind, the
region and what follows the bracket.
-/
def opening? (adm : Admissible) : List Char → Option (Kind × Region × List Char)
  | '{' :: rest =>
    if adm.allows .codeBlockStart then some (.codeBlockStart, .brace, rest) else none
  | '(' :: rest =>
    if adm.allows .expressionStart then some (.expressionStart, .paren, rest) else none
  | _ => none

/--
The `@` that leads into a code block or a parenthesised expression. Where either would be accepted,
an `@` belongs to this rule alone: without the right bracket behind it the call is refused.
-/
def regionStart (adm : Admissible) : Rule := fun p =>
  match p.ahead with
  | '@' :: rest =>
    if adm.allows .codeBlockStart || adm.allows .expressionStart then
      match opening? adm rest with
      | some (kind, region, rest) => .emit kind ((p.moveTo rest).enter region)
      | none => .refuse .strayAt (p.moveTo rest)
    else
      .pass p
  | _ => .pass p

def blockOpen : Rule := fun p =>
  let p := p.skipBlanks
  match p.ahead with
  | '{' :: rest => .emit .blockOpen ((p.moveTo rest).enter .brace)
  | _ => .pass p

/--
The bracket that closes the innermost region, with white space before it. Any other bracket is left
to the rules of the code language.
-/
def regionClose : Rule := fun p =>
  let p := p.skipBlanks
  match p.ahead with
  | [] => .pass p
  | c :: rest =>
    match p.nesting.close? c with
    | some (_, outer) => .emit .regionClose { p.moveTo rest with nesting := outer }
    | none => .pass p

end Rule
end RazorTokens
