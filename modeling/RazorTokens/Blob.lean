/-!
This module contains the part of the byte format that belongs to the embedded scanner. Its state is
written as a blob, which is opaque but for its header: the second byte counts the records that
follow, so the header tells how long the blob is.
-/

namespace RazorTokens

abbrev Bytes := List UInt8

namespace Blob

/--
The size of the header: one byte of the embedded scanner's own, and the number of records.
-/
def headerSize : Nat := 2

def recordSize : Nat := 4

def size? (bytes : Bytes) : Option Nat :=
  bytes[1]?.map fun count => headerSize + recordSize * count.toNat

/--
Divides bytes behind the blob at their front. A blob that announces more bytes than there are takes
all of them.
-/
def split (bytes : Bytes) : Bytes × Bytes :=
  bytes.splitAt ((size? bytes).getD bytes.length)

end Blob

def hexDigit (n : Nat) : Char :=
  if n < 10 then Char.ofNat ('0'.toNat + n) else Char.ofNat ('a'.toNat + (n - 10))

def hexByte (b : UInt8) : String :=
  String.ofList [hexDigit (b.toNat / 16), hexDigit (b.toNat % 16)]

end RazorTokens
