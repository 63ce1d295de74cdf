import RazorTokens.Embedded

/-!
This module contains the embedded scanner that never finds a token. It keeps the state of a scanner
for the code language, so that a host with token rules of its own for code can still save and load
that state byte for byte.
-/

namespace RazorTokens

structure Interpolation where
  openBraces : UInt8 := 0
  quotes : UInt8 := 0
  dollars : UInt8 := 0
  form : UInt8 := 0
  deriving DecidableEq, Repr, Inhabited

namespace Interpolation

def toBytes (i : Interpolation) : Bytes :=
  [i.openBraces, i.quotes, i.dollars, i.form]

/--
The records that the bytes consist of. An incomplete record at the end does not count.
-/
def listOfBytes : Bytes → List Interpolation
  | a :: b :: c :: d :: bytes => ⟨a, b, c, d⟩ :: listOfBytes bytes
  | _ => []

def listToBytes (is : List Interpolation) : Bytes :=
  is.flatMap toBytes

@[simp]
theorem length_toBytes (i : Interpolation) : i.toBytes.length = Blob.recordSize := rfl

@[simp]
theorem length_listToBytes (is : List Interpolation)
    : (listToBytes is).length = Blob.recordSize * is.length := by
  induction is with
  | nil => rfl
  | cons i is ih =>
    simp only [listToBytes, List.flatMap_cons, List.length_append, length_toBytes] at ih ⊢
    rw [ih, List.length_cons, Nat.mul_succ, Nat.add_comm]

@[simp]
theorem listOfBytes_listToBytes (is : List Interpolation)
    : listOfBytes (listToBytes is) = is := by
  induction is with
  | nil => rfl
  | cons i is ih => simpa [listToBytes, toBytes, listOfBytes] using ih

end Interpolation

/--
What a scanner for the code language has to remember between its tokens: the number of quotation
marks around the string under way, and the interpolated strings it is in.
-/
structure CodeState where
  quotes : UInt8 := 0
  interpolations : List Interpolation := []
  deriving DecidableEq, Repr, Inhabited

namespace CodeState

def size (s : CodeState) : Nat :=
  Blob.headerSize + Blob.recordSize * s.interpolations.length

/--
The blob of a state. Its header is right if there are at most 255 records.
-/
def toBytes (s : CodeState) : Bytes :=
  s.quotes :: UInt8.ofNat s.interpolations.length :: Interpolation.listToBytes s.interpolations

/--
Reads a blob. What is missing counts as zero or absent.
-/
def ofBytes (bytes : Bytes) : CodeState where
  quotes := bytes.head?.getD 0
  interpolations :=
    match Blob.size? bytes with
    | none => []
    | some size => Interpolation.listOfBytes ((bytes.take size).drop Blob.headerSize)

def fits (s : CodeState) (capacity : Nat) : Bool :=
  s.interpolations.length ≤ 255 && s.size ≤ capacity

def save (s : CodeState) (buffer : Bytes) : Saved :=
  if s.fits buffer.length then
    ⟨s.size, s.toBytes ++ buffer.drop s.size⟩
  else
    ⟨0, buffer⟩

@[simp]
theorem length_toBytes (s : CodeState) : s.toBytes.length = s.size := by
  simp [toBytes, size, Blob.headerSize]
  omega

theorem length_save (s : CodeState) (buffer : Bytes)
    : (s.save buffer).buffer.length = buffer.length := by
  unfold save
  split
  · next h =>
    simp only [fits, Bool.and_eq_true, decide_eq_true_eq] at h
    simp
    omega
  · rfl

instance : Embedded CodeState where
  initial := {}
  scan s _ cur := (.decline, s, cur)
  save := save
  load _ bytes := ofBytes bytes
  length_save := length_save

end CodeState
end RazorTokens
