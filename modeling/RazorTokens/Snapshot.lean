import RazorTokens.Blob
import RazorTokens.Nesting

/-!
This module contains the byte format of a saved scanner. A snapshot is the blob of the embedded
scanner, followed by the depth of the nesting in one byte and by one byte for each open region, the
outermost first.
-/

namespace RazorTokens

inductive Fault where
  | overflow (needed capacity : Nat)
  | tooDeep (depth : Nat)
  /-- The embedded scanner has written nothing. -/
  | noBlob
  /-- The embedded scanner reports another length than the header of its blob. -/
  | misframed (written framed : Nat)
  | truncated (expected actual : Nat)
  | badRegion (byte : UInt8)
  deriving DecidableEq, Repr

def Fault.message : Fault → String
  | overflow needed capacity => s!"state needs {needed} bytes but the buffer holds {capacity}"
  | tooDeep depth => s!"mode stack depth {depth} does not fit in the one-byte depth field"
  | noBlob => "embedded scanner could not persist its state"
  | misframed written framed =>
    s!"embedded scanner wrote {written} bytes but its header frames {framed}"
  | truncated expected actual =>
    s!"persisted mode stack truncated: expected {expected} bytes, found {actual}"
  | badRegion byte => "invalid context tag byte 0x" ++ hexByte byte

namespace Snapshot

def capacity : Nat := 1024

def blank : Bytes :=
  List.replicate capacity 0

def nestingBytes (n : Nesting) : Bytes :=
  UInt8.ofNat n.depth :: n.toOutermost.map Region.toByte

/--
The size of a snapshot whose blob has `blobSize` bytes, if it may be written to a buffer that has
the blob at its front.
-/
def size (buffer : Bytes) (blobSize : Nat) (n : Nesting) : Except Fault Nat :=
  let framed := (Blob.size? (buffer.take blobSize)).getD 0
  let needed := blobSize + 1 + n.depth
  if 255 < n.depth then
    .error (.tooDeep n.depth)
  else if blobSize = 0 then
    .error .noBlob
  else if framed ≠ blobSize then
    .error (.misframed blobSize framed)
  else if buffer.length < needed then
    .error (.overflow needed buffer.length)
  else
    .ok needed

/--
Completes a buffer that has a blob of `blobSize` bytes at its front to a snapshot. The result is the
size of the snapshot and the buffer afterwards. What lies behind the snapshot stays as it is, and so
does the whole buffer if there is a fault.
-/
def write (buffer : Bytes) (blobSize : Nat) (n : Nesting) : Except Fault Nat × Bytes :=
  match size buffer blobSize n with
  | .ok needed => (.ok needed, buffer.take blobSize ++ nestingBytes n ++ buffer.drop needed)
  | .error fault => (.error fault, buffer)

/--
The regions that the bytes stand for, or the first byte that stands for none.
-/
def regionsOf : Bytes → Except Fault (List Region)
  | [] => .ok []
  | b :: bytes =>
    match Region.ofByte? b with
    | none => .error (.badRegion b)
    | some r => (regionsOf bytes).map (r :: ·)

/--
Reads the nesting from the part of a snapshot behind the blob. No bytes at all mean that no region
is open, and bytes behind the announced regions are ignored.
-/
def nestingOf : Bytes → Except Fault Nesting
  | [] => .ok ∅
  | d :: bytes =>
    if bytes.length < d.toNat then
      .error (.truncated (1 + d.toNat) (1 + bytes.length))
    else
      (regionsOf (bytes.take d.toNat)).map Nesting.ofOutermost

end Snapshot
end RazorTokens
