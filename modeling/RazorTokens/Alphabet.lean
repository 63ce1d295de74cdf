/-!
This module contains the character classes that the scanning rules are written in. A class is a
table of code point ranges or a combination of such tables, so that membership does not depend on
any locale.
-/

namespace RazorTokens
namespace Alphabet

structure Block where
  first : Nat
  last : Nat
  deriving DecidableEq, Repr

def Block.contains (b : Block) (n : Nat) : Bool :=
  b.first ≤ n && n ≤ b.last

/--
The blocks whose characters count as letters: ASCII, Latin-1 without the multiplication and the
division sign, Latin Extended A and B, Greek, Cyrillic, Hebrew, Arabic, Devanagari, Thai, Hiragana,
Katakana, the unified ideographs and the Hangul syllables.
-/
def letterBlocks : List Block :=
  [⟨0x0041, 0x005A⟩, ⟨0x0061, 0x007A⟩, ⟨0x00C0, 0x00D6⟩, ⟨0x00D8, 0x00F6⟩, ⟨0x00F8, 0x024F⟩,
   ⟨0x0370, 0x04FF⟩, ⟨0x0590, 0x06FF⟩, ⟨0x0900, 0x097F⟩, ⟨0x0E00, 0x0E7F⟩, ⟨0x3040, 0x30FF⟩,
   ⟨0x4E00, 0x9FFF⟩, ⟨0xAC00, 0xD7AF⟩]

/--
The code points with the Unicode property `White_Space`.
-/
def blankBlocks : List Block :=
  [⟨0x0009, 0x000D⟩, ⟨0x0020, 0x0020⟩, ⟨0x0085, 0x0085⟩, ⟨0x00A0, 0x00A0⟩, ⟨0x1680, 0x1680⟩,
   ⟨0x2000, 0x200A⟩, ⟨0x2028, 0x2029⟩, ⟨0x202F, 0x202F⟩, ⟨0x205F, 0x205F⟩, ⟨0x3000, 0x3000⟩]

def inBlocks (blocks : List Block) (c : Char) : Bool :=
  blocks.any (·.contains c.toNat)

def isLetter (c : Char) : Bool :=
  inBlocks letterBlocks c

/--
The ten ASCII digits. Digits of other scripts do not count.
-/
def isDigit (c : Char) : Bool :=
  '0' ≤ c && c ≤ '9'

/--
The characters that may stand on either side of a literal `@`: letters and digits.
-/
def isWord (c : Char) : Bool :=
  isLetter c || isDigit c

def isIdent (c : Char) : Bool :=
  isWord c || c == '_'

def isBlank (c : Char) : Bool :=
  inBlocks blankBlocks c

def isNewline (c : Char) : Bool :=
  c == '\n' || c == '\r'

def isQuote (c : Char) : Bool :=
  c == '\x22' || c == '\x27'

def isNext (p : Char → Bool) (lookahead : Option Char) : Bool :=
  lookahead.any p

def holdsAt (p : Char → Bool) (n : Nat) : Bool :=
  if n.isValidChar then p (Char.ofNat n) else false

/--
The maximal runs of consecutive code points of the class, among the `count` code points from
`first` on.
-/
def runs (p : Char → Bool) (first count : Nat) : List Block :=
  go first count none #[]
where
  go (n : Nat) : Nat → Option Nat → Array Block → List Block
    | 0, start?, acc => (close n start? acc).toList
    | k + 1, start?, acc =>
      if holdsAt p n then
        go (n + 1) k (some (start?.getD n)) acc
      else
        go (n + 1) k none (close n start? acc)
  close (n : Nat) (start? : Option Nat) (acc : Array Block) : Array Block :=
    match start? with
    | some first => acc.push ⟨first, n - 1⟩
    | none => acc

end Alphabet
end RazorTokens
