/-!
This module contains the nesting of code regions in a template. Markup is not a region: a place is
in markup exactly if no region is open there.
-/

namespace RazorTokens

/--
A code region, by the bracket that opened it.
-/
inductive Region where
  | brace
  | paren
  deriving DecidableEq, Repr

namespace Region

def closer : Region → Char
  | brace => '}'
  | paren => ')'

/--
The byte that stands for the region in a saved state. Zero is left free.
-/
def toByte : Region → UInt8
  | brace => 1
  | paren => 2

def ofByte? (b : UInt8) : Option Region :=
  if b = 1 then some brace
  else if b = 2 then some paren
  else none

@[simp]
theorem ofByte?_toByte (r : Region) : ofByte? r.toByte = some r := by
  cases r <;> rfl

theorem toByte_of_ofByte? {b : UInt8} {r : Region} (h : ofByte? b = some r) : r.toByte = b := by
  unfold ofByte? at h
  split at h
  · cases h; simp_all [toByte]
  · split at h <;> cases h
    simp_all [toByte]

end Region

/--
The open regions, innermost first.
-/
@[ext]
structure Nesting where
  regions : List Region := []
  deriving DecidableEq, Repr, Inhabited

namespace Nesting

instance : EmptyCollection Nesting where
  emptyCollection := ⟨[]⟩

def isMarkup (n : Nesting) : Bool :=
  n.regions.isEmpty

def depth (n : Nesting) : Nat :=
  n.regions.length

def top? (n : Nesting) : Option Region :=
  n.regions.head?

def push (n : Nesting) (r : Region) : Nesting :=
  ⟨r :: n.regions⟩

def pushAll (n : Nesting) (rs : List Region) : Nesting :=
  rs.foldl push n

def close? (n : Nesting) (c : Char) : Option (Region × Nesting) :=
  match n.regions with
  | [] => none
  | r :: outer => if r.closer = c then some (r, ⟨outer⟩) else none

def ofOutermost (rs : List Region) : Nesting :=
  ⟨rs.reverse⟩

def toOutermost (n : Nesting) : List Region :=
  n.regions.reverse

@[simp]
theorem toOutermost_ofOutermost (rs : List Region) : (ofOutermost rs).toOutermost = rs := by
  simp [ofOutermost, toOutermost]

@[simp]
theorem ofOutermost_toOutermost (n : Nesting) : ofOutermost n.toOutermost = n := by
  simp [ofOutermost, toOutermost]

@[simp]
theorem length_toOutermost (n : Nesting) : n.toOutermost.length = n.depth := by
  simp [toOutermost, depth]

@[simp]
theorem toOutermost_push (n : Nesting) (r : Region)
    : (n.push r).toOutermost = n.toOutermost ++ [r] := by
  simp [toOutermost, push]

end Nesting
end RazorTokens
