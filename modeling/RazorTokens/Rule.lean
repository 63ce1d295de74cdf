import RazorTokens.Cursor
import RazorTokens.Nesting
import RazorTokens.Token

/-!
This module contains what the rules of the template scanner have in common. A rule looks at the text
ahead of the cursor and either emits a token, or refuses the whole call, or passes the call on to the
next rule. A rule that passes may have moved the cursor, and the next rule goes on from there.
-/

namespace RazorTokens

inductive Refusal where
  | keyword
  | strayAt
  | straySlash
  | emptyBody (element : RawElement)
  | markupBody (element : RawElement)
  deriving DecidableEq, Repr

@[ext]
structure Place where
  cursor : Cursor
  nesting : Nesting
  deriving DecidableEq, Repr

namespace Place

def ahead (p : Place) : List Char :=
  p.cursor.ahead

def moveTo (p : Place) (rest : List Char) : Place :=
  { p with cursor := p.cursor.moveTo rest }

def markAt (p : Place) (rest : List Char) : Place :=
  { p with cursor := p.cursor.markAt rest }

def skipBlanks (p : Place) : Place :=
  { p with cursor := p.cursor.skipBlanks }

def enter (p : Place) (r : Region) : Place :=
  { p with nesting := p.nesting.push r }

end Place

inductive Verdict where
  /-- There is a token of this kind, which ends at the mark or else at the cursor. -/
  | emit (kind : Kind) (place : Place)
  /-- There is no token here, whatever the other rules would say. -/
  | refuse (why : Refusal) (place : Place)
  | pass (place : Place)
  deriving DecidableEq, Repr

abbrev Rule := Place → Verdict

namespace Rule

def silent : Rule := .pass

def andThen (r s : Rule) : Rule := fun p =>
  match r p with
  | .pass p => s p
  | verdict => verdict

def inOrder (rules : List Rule) : Rule :=
  rules.foldr andThen silent

def onlyIf (b : Bool) (r : Rule) : Rule :=
  if b then r else silent

def inMarkup (r : Rule) : Rule := fun p =>
  onlyIf p.nesting.isMarkup r p

def inCode (r : Rule) : Rule := fun p =>
  onlyIf (!p.nesting.isMarkup) r p

end Rule
end RazorTokens
