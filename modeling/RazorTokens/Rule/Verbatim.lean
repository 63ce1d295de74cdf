import RazorTokens.Rule

/-!
This module contains the rule for the body of a raw element. The body reaches up to the first closing
tag of the element, whatever else it holds. A closing tag is recognised by `</` and the name of the
element, in upper or lower case, and nothing is required of what follows the name.
-/

namespace RazorTokens
namespace Rule
namespace Verbatim

def isEitherCase (letter c : Char) : Bool :=
  c == letter || c == letter.toUpper

def afterLetters? : List Char → List Char → Option (List Char)
  | [], s => some s
  | _ :: _, [] => none
  | letter :: letters, c :: s =>
    if isEitherCase letter c then afterLetters? letters s else none

def afterClosing? (letters : List Char) : List Char → Option (List Char)
  | '<' :: '/' :: s => afterLetters? letters s
  | _ => none

/--
The first closing tag: what lies ahead of the tag, and what follows its name.
-/
def findClosing? (letters : List Char) : List Char → Option (List Char × List Char)
  | [] => none
  | c :: s =>
    match afterClosing? letters (c :: s) with
    | some behind => some (c :: s, behind)
    | none => findClosing? letters s

end Verbatim

/--
The body of the element. Where a body is accepted the rule always decides: a body that is empty or
begins with `<` refuses the call.
-/
def verbatim (e : RawElement) : Rule := fun p =>
  match p.ahead with
  | [] => .refuse (.emptyBody e) p
  | '<' :: _ => .refuse (.markupBody e) p
  | s =>
    match Verbatim.findClosing? e.letters s with
    | some (closing, behind) => .emit (.rawText e) ((p.moveTo behind).markAt closing)
    | none => .emit (.rawText e) ((p.moveTo []).markAt [])

end Rule
end RazorTokens
