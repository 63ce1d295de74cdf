import RazorTokens.Alphabet
import RazorTokens.Span

/-!
This module contains the cursor that scanners read a text with. A place in the text is kept as the
text that lies ahead of it. Returning to an earlier place is then a matter of remembering it, and
byte offsets are computed only when somebody asks for them.

A call of a scanner is bracketed by `Cursor.restart` at its start and by `Cursor.commit` or
`Cursor.rewind` at its end. Between the two the scanner may take characters into the token, skip
characters that come before the token, and record where the token ends.
-/

namespace RazorTokens

structure Cursor where
  source : List Char
  /-- What lies ahead of the cursor. -/
  ahead : List Char
  /-- What lay ahead when the call began. -/
  origin : List Char
  /-- What lies ahead of the first character of the token. -/
  start : List Char
  /-- What lies ahead of the recorded end of the token. -/
  marked : Option (List Char)
  deriving DecidableEq, Repr

namespace Cursor

def ofText (source : List Char) : Cursor where
  source := source
  ahead := source
  origin := source
  start := source
  marked := none

/--
The byte offset of the place that has `rest` ahead of it.
-/
def offset (cur : Cursor) (rest : List Char) : Nat :=
  byteSize cur.source - byteSize rest

def pos (cur : Cursor) : Nat :=
  cur.offset cur.ahead

def startPos (cur : Cursor) : Nat :=
  cur.offset cur.start

def peek? (cur : Cursor) : Option Char :=
  cur.ahead.head?

def atEnd (cur : Cursor) : Bool :=
  cur.ahead.isEmpty

def isAt (cur : Cursor) (c : Char) : Bool :=
  cur.peek? == some c

def moveTo (cur : Cursor) (rest : List Char) : Cursor :=
  { cur with ahead := rest }

def markAt (cur : Cursor) (rest : List Char) : Cursor :=
  { cur with marked := some rest }

def next (cur : Cursor) : Cursor :=
  cur.moveTo cur.ahead.tail

/--
Passes over the next character and lets the token start behind it. At the end of the text nothing
happens.
-/
def skip (cur : Cursor) : Cursor :=
  match cur.ahead with
  | [] => cur
  | _ :: rest => { cur with ahead := rest, start := rest }

/--
Skips white space. The start of the token stays where it is if there is none.
-/
def skipBlanks (cur : Cursor) : Cursor :=
  if Alphabet.isNext Alphabet.isBlank cur.peek? then
    let rest := cur.ahead.dropWhile Alphabet.isBlank
    { cur with ahead := rest, start := rest }
  else
    cur

def mark (cur : Cursor) : Cursor :=
  cur.markAt cur.ahead

/--
Begins a call: the token starts at the cursor, and it has no recorded end.
-/
def restart (cur : Cursor) : Cursor :=
  { cur with origin := cur.ahead, start := cur.ahead, marked := none }

/--
What lies ahead of the end of the token: its recorded end, or else the place of the cursor.
-/
def tokenRest (cur : Cursor) : List Char :=
  cur.marked.getD cur.ahead

/--
The bytes of the token. Skipping beyond a recorded end leaves an empty token at that end.
-/
def tokenSpan (cur : Cursor) : Span where
  start := min cur.startPos (cur.offset cur.tokenRest)
  stop := cur.offset cur.tokenRest

def commit (cur : Cursor) : Span × Cursor :=
  (cur.tokenSpan, (cur.moveTo cur.tokenRest).restart)

def rewind (cur : Cursor) : Cursor :=
  (cur.moveTo cur.origin).restart

def textOf? (cur : Cursor) (span : Span) : Option (List Char) :=
  span.textIn? cur.source

/--
Takes characters until `stop` lies ahead, or to the end of the text if it never does.
-/
def seek (cur : Cursor) (stop : List Char) : Cursor :=
  cur.moveTo (go cur.ahead)
where
  go : List Char → List Char
    | [] => []
    | c :: rest => if stop.isPrefixOf (c :: rest) then c :: rest else go rest

end Cursor
end RazorTokens
