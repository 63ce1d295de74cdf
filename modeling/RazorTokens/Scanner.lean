import RazorTokens.Embedded
import RazorTokens.Event
import RazorTokens.Rule.Address
import RazorTokens.Rule.Prose
import RazorTokens.Rule.Region
import RazorTokens.Rule.Trivia
import RazorTokens.Rule.Verbatim

/-!
This module contains the scanner for templates. It consists of the nesting of the open regions and of
an embedded scanner for the code language, and it can be saved to bytes and loaded from them.
-/

namespace RazorTokens

@[ext]
structure Scanner (σ : Type) where
  embedded : σ
  nesting : Nesting := ∅
  deriving DecidableEq, Repr

structure Scan (σ : Type) where
  outcome : Outcome
  scanner : Scanner σ
  cursor : Cursor
  log : List Event

namespace Rule

def ifAllowed (adm : Admissible) (k : Kind) (r : Rule) : Rule :=
  onlyIf (adm.allows k) r

def rawBody (adm : Admissible) : Rule :=
  match adm.rawElement? with
  | some e => verbatim e
  | none => silent

def all (adm : Admissible) : List Rule :=
  [inMarkup (ifAllowed adm .textWithAt address),
   inMarkup (ifAllowed adm .markupText prose),
   regionStart adm,
   ifAllowed adm .blockOpen blockOpen,
   inCode (ifAllowed adm .regionClose regionClose),
   inCode (ifAllowed adm .comment comment),
   inCode (ifAllowed adm .directive directive),
   rawBody adm]

def template (adm : Admissible) : Rule :=
  inOrder (all adm)

end Rule

namespace Scanner

variable {σ : Type} [Embedded σ]

def initial : Scanner σ where
  embedded := Embedded.initial

def isInCode (sc : Scanner σ) : Bool :=
  !sc.nesting.isMarkup

/--
Looks for a token at the cursor. Where all rules pass, the embedded scanner takes over from the place
that they have reached, and its outcome is reported to nobody.
-/
def scan (sc : Scanner σ) (adm : Admissible) (cur : Cursor) : Scan σ :=
  match Rule.template adm ⟨cur, sc.nesting⟩ with
  | .emit kind p =>
    { outcome := .ofKind kind
      scanner := { sc with nesting := p.nesting }
      cursor := p.cursor
      log := [.committed kind p.nesting.depth] }
  | .refuse why p =>
    { outcome := .decline
      scanner := { sc with nesting := p.nesting }
      cursor := p.cursor
      log := why.events p.nesting.depth }
  | .pass p =>
    let (outcome, embedded, cursor) := Embedded.scan sc.embedded adm p.cursor
    { outcome, cursor, scanner := ⟨embedded, p.nesting⟩, log := [] }

/--
Saves the scanner to the front of a buffer. The embedded scanner writes first, and what it has
written stays in the buffer if the nesting can not be added.
-/
def save (sc : Scanner σ) (buffer : Bytes) : Saved × List Event :=
  let blob := Embedded.save sc.embedded buffer
  match Snapshot.write blob.buffer blob.size sc.nesting with
  | (.ok size, buffer) => (⟨size, buffer⟩, [])
  | (.error fault, buffer) => (⟨0, buffer⟩, [.notSaved fault])

/--
Loads a saved scanner. The embedded scanner gets the blob, and a nesting that is not well-formed
counts as empty.
-/
def load (sc : Scanner σ) (bytes : Bytes) : Scanner σ × List Event :=
  let (blob, rest) := Blob.split bytes
  let embedded := Embedded.load sc.embedded blob
  match Snapshot.nestingOf rest with
  | .ok nesting => (⟨embedded, nesting⟩, [])
  | .error fault => (⟨embedded, ∅⟩, [.nestingDropped fault])

end Scanner
end RazorTokens
