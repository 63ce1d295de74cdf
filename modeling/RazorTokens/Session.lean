import RazorTokens.Scanner

/-!
This module contains the host's side: a document is played by calling the scanner again and again,
each time with the symbols that are acceptable there.
-/

namespace RazorTokens

structure Session (σ : Type) where
  scanner : Scanner σ
  cursor : Cursor
  deriving DecidableEq, Repr

/--
The answer to a call. The reach is how far the scanner had gone when it answered.
-/
inductive Reply where
  | token (symbol : Symbol) (span : Span) (reach : Nat)
  | declined (reach : Nat)
  deriving DecidableEq, Repr

structure Token where
  symbol : Symbol
  span : Span
  depth : Nat
  deriving DecidableEq, Repr

structure Plan where
  markup : Admissible
  code : Admissible
  /-- Whether the scanner is saved and loaded before each call. -/
  reloading : Bool := false
  deriving DecidableEq, Repr

namespace Session

variable {σ : Type} [Embedded σ]

/--
Calls the scanner once. Behind a token the cursor stands at the end of that token, and without one it
stands where it stood before the call.
-/
def call (s : Session σ) (adm : Admissible) : Reply × Session σ × List Event :=
  let result := s.scanner.scan adm s.cursor.restart
  let reach := result.cursor.pos
  match result.outcome with
  | .commit symbol =>
    let (span, cursor) := result.cursor.commit
    (.token symbol span reach, ⟨result.scanner, cursor⟩, result.log)
  | .decline => (.declined reach, ⟨result.scanner, result.cursor.rewind⟩, result.log)

def next (s : Session σ) : Session σ :=
  { s with cursor := s.cursor.next }

/--
Saves the scanner to the buffer and puts a new scanner that has loaded these bytes in its place. The
result tells the number of bytes.
-/
def reload (s : Session σ) (buffer : Bytes) : Nat × Session σ × List Event :=
  let (saved, saveLog) := s.scanner.save buffer
  let (scanner, loadLog) := (Scanner.initial : Scanner σ).load saved.bytes
  (saved.size, { s with scanner }, saveLog ++ loadLog)

def round (s : Session σ) (plan : Plan) : Option Token × Session σ × List Event :=
  let (s, reloadLog) := if plan.reloading then (s.reload Snapshot.blank).2 else (s, [])
  let (reply, after, callLog) := s.call (if s.scanner.isInCode then plan.code else plan.markup)
  let token? :=
    match reply with
    | .token symbol span _ => some ⟨symbol, span, after.scanner.nesting.depth⟩
    | .declined _ => none
  (token?, after, reloadLog ++ callLog)

/--
Where the round after this one begins. A round that has not moved the cursor is followed by a step
over the next character.
-/
def onward (s after : Session σ) : Session σ :=
  if after.cursor.pos = s.cursor.pos then after.next else after

/--
Plays the document from the cursor to its end, with at least one round. The result has the tokens in
their order. A scanner that moves the cursor back ends the play.
-/
def play (s : Session σ) (plan : Plan) : List Token × Session σ × List Event :=
  let (token?, after, log) := s.round plan
  if h : !after.cursor.atEnd ∧ (s.onward after).cursor.ahead.length < s.cursor.ahead.length then
    have := h.2
    let (tokens, last, logs) := (s.onward after).play plan
    (token?.toList ++ tokens, last, log ++ logs)
  else
    (token?.toList, after, log)
termination_by s.cursor.ahead.length

end Session
end RazorTokens
