import RazorTokens.Rule

/-!
This module contains the rule for plain text in markup. Text ends before a character that may begin
a tag, a transition into code or the continuation of an expression. It also ends before a keyword
that continues a block, if only indentation stands before that keyword on its line.
-/

namespace RazorTokens
namespace Rule
namespace Prose

def isStop (c : Char) : Bool :=
  c == '<' || c == '@' || c == '.' || c == '[' || c == '(' || Alphabet.isQuote c

/--
The characters that may stand between the start of a line and a keyword.
-/
def isIndent (c : Char) : Bool :=
  c == ' ' || c == '\t'

def keywords : List (List Char) :=
  [['e', 'l', 's', 'e'], ['c', 'a', 't', 'c', 'h'], ['f', 'i', 'n', 'a', 'l', 'l', 'y']]

def startsKeyword (s : List Char) : Bool :=
  keywords.contains (s.takeWhile Alphabet.isIdent)

/--
What follows the text at the front of `s`. The flag says whether a keyword would count here, because
only indentation stands before it on its line.
-/
def afterText (lineStart : Bool) : List Char → List Char
  | [] => []
  | c :: s =>
    if isStop c || (lineStart && startsKeyword (c :: s)) then
      c :: s
    else
      afterText (Alphabet.isNewline c || (lineStart && isIndent c)) s

end Prose

/--
Plain text. The call counts as the start of a line, and a keyword right there refuses it.
-/
def prose : Rule := fun p =>
  let rest := Prose.afterText true p.ahead
  if Prose.startsKeyword rest then
    let p' := (p.moveTo (rest.dropWhile Alphabet.isIdent)).markAt rest
    if rest = p.ahead then .refuse .keyword p' else .emit .markupText p'
  else if rest = p.ahead then
    .pass p
  else
    .emit .markupText ((p.moveTo rest).markAt rest)

end Rule
end RazorTokens
