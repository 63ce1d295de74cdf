/-!
This module measures text in UTF-8 bytes: the size of a text, the byte ranges that tokens cover, and
the part of a text that a byte range cuts out.
-/

namespace RazorTokens

def byteSize : List Char → Nat
  | [] => 0
  | c :: s => c.utf8Size + byteSize s

@[simp]
theorem byteSize_nil : byteSize [] = 0 := rfl

@[simp]
theorem byteSize_cons (c : Char) (s : List Char) : byteSize (c :: s) = c.utf8Size + byteSize s := rfl

@[simp]
theorem byteSize_append (s t : List Char) : byteSize (s ++ t) = byteSize s + byteSize t := by
  induction s with
  | nil => simp
  | cons c s ih => simp [ih]; omega

/--
What is left of a text after its first `n` bytes, unless there are fewer bytes or the cut would fall
inside a character.
-/
def dropBytes? : Nat → List Char → Option (List Char)
  | 0, s => some s
  | _ + 1, [] => none
  | n + 1, c :: s => if c.utf8Size ≤ n + 1 then dropBytes? (n + 1 - c.utf8Size) s else none

def takeBytes? : Nat → List Char → Option (List Char)
  | 0, _ => some []
  | _ + 1, [] => none
  | n + 1, c :: s =>
    if c.utf8Size ≤ n + 1 then (takeBytes? (n + 1 - c.utf8Size) s).map (c :: ·) else none

/--
A half-open range of byte offsets.
-/
structure Span where
  start : Nat := 0
  stop : Nat := 0
  deriving DecidableEq, Repr, Inhabited

namespace Span

def length? (span : Span) : Option Nat :=
  if span.start ≤ span.stop then some (span.stop - span.start) else none

def isEmpty (span : Span) : Bool :=
  span.start == span.stop

/--
The part of a text that the range covers. There is none if the ends are in the wrong order, lie
outside the text or fall inside a character.
-/
def textIn? (span : Span) (source : List Char) : Option (List Char) := do
  let size ← span.length?
  let rest ← dropBytes? span.start source
  takeBytes? size rest

end Span
end RazorTokens
