import RazorTokens.Blob
import RazorTokens.Cursor
import RazorTokens.Token

/-!
This module contains what the template scanner expects of the scanner for the code language, to
which it hands over every call that none of its own rules decides.
-/

namespace RazorTokens

/--
A buffer after a state was written to it, with the number of bytes that the writer says it has
taken. The number is zero if the state could not be written.
-/
structure Saved where
  size : Nat
  buffer : Bytes
  deriving DecidableEq, Repr

def Saved.bytes (saved : Saved) : Bytes :=
  saved.buffer.take saved.size

/--
A scanner with states of type `σ` that can be embedded. Saving may change any byte of the buffer and
may report any size, but it can not make the buffer longer or shorter.
-/
class Embedded (σ : Type) where
  initial : σ
  scan : σ → Admissible → Cursor → Outcome × σ × Cursor
  save : σ → Bytes → Saved
  load : σ → Bytes → σ
  length_save (s : σ) (buffer : Bytes) : (save s buffer).buffer.length = buffer.length

end RazorTokens
