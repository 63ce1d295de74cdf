import RazorTokens.Rule

/-!
This module contains the rule for text in which an `@` stands for itself. An `@` between two word
characters, as in an e-mail address, does not lead into code.

Such text is a sequence of literal segments with plain text behind the last of them. A literal
segment is plain text that ends in a word character, then an `@`, then as many domain characters as
there are, the first of which is a word character.
-/

namespace RazorTokens
namespace Rule
namespace Address

/--
The characters of text that neither ends here nor holds an `@` to decide upon.
-/
def isPlain (c : Char) : Bool :=
  !(c == '<' || c == '@' || Alphabet.isQuote c)

def isDomain (c : Char) : Bool :=
  Alphabet.isWord c || c == '.' || c == '-'

def endsInWord (s : List Char) : Bool :=
  Alphabet.isNext Alphabet.isWord (s.takeWhile isPlain).getLast?

def afterSegment? (s : List Char) : Option (List Char) :=
  match s.dropWhile isPlain with
  | '@' :: rest =>
    if endsInWord s && Alphabet.isNext Alphabet.isWord rest.head? then
      some (rest.dropWhile isDomain)
    else
      none
  | _ => none

theorem length_lt_of_afterSegment? {s rest : List Char} (h : afterSegment? s = some rest)
    : rest.length < s.length := by
  unfold afterSegment? at h
  have hs := (List.dropWhile_suffix isPlain : s.dropWhile isPlain <:+ s).length_le
  split at h
  · next behind heq =>
    split at h <;> cases h
    have := (List.dropWhile_suffix isDomain : behind.dropWhile isDomain <:+ behind).length_le
    simp only [heq, List.length_cons] at hs
    omega
  · cases h

def afterSegments (s : List Char) : List Char :=
  match h : afterSegment? s with
  | some rest =>
    have := length_lt_of_afterSegment? h
    afterSegments rest
  | none => s
termination_by s.length

/--
Where the search for one more literal segment in `s` gives up. An `@` behind a word character is
passed, because what follows it decides.
-/
def giveUp (s : List Char) : List Char :=
  match s.dropWhile isPlain with
  | '@' :: rest => if endsInWord s then rest else '@' :: rest
  | rest => rest

end Address

/--
Text with at least one literal `@`. The rule never refuses a call.
-/
def address : Rule := fun p =>
  let rest := Address.afterSegments p.ahead
  if (Address.afterSegment? p.ahead).isSome then
    .emit .textWithAt ((p.moveTo (Address.giveUp rest)).markAt (rest.dropWhile Address.isPlain))
  else
    .pass (p.moveTo (Address.giveUp p.ahead))

end Rule
end RazorTokens
