import RazorTokens.Rule
import RazorTokens.Snapshot

/-!
This module contains the events that a scanner reports about its own work.
-/

namespace RazorTokens

inductive Level where
  | trace
  | debug
  | warn
  deriving DecidableEq, Repr

def Level.name : Level → String
  | trace => "TRACE"
  | debug => "DEBUG"
  | warn => "WARN"

inductive Event where
  /-- A rule emitted a token, after which regions are open to this depth. -/
  | committed (kind : Kind) (depth : Nat)
  | declined (depth : Nat)
  | markupBody (element : RawElement)
  | notSaved (fault : Fault)
  | nestingDropped (fault : Fault)
  deriving DecidableEq, Repr

namespace Event

def level : Event → Level
  | committed .. | declined .. | markupBody .. => .trace
  | notSaved .. => .debug
  | nestingDropped .. => .warn

def message : Event → String
  | committed .. => "commit"
  | declined .. => "decline"
  | markupBody .. => "raw content starts with `<`"
  | notSaved .. => "scanner state not persisted"
  | nestingDropped .. => "discarding malformed mode stack"

def fields : Event → List (String × String)
  | committed kind depth => [("token", kind.name), ("depth", toString depth)]
  | declined depth => [("depth", toString depth)]
  | markupBody element => [("element", element.tag)]
  | notSaved fault => [("err", fault.message)]
  | nestingDropped fault => [("err", fault.message)]

end Event

def Refusal.events (why : Refusal) (depth : Nat) : List Event :=
  match why with
  | markupBody element => [.markupBody element, .declined depth]
  | _ => [.declined depth]

end RazorTokens
