import RazorTokens.Proofs.Persistence
import RazorTokens.Session

/-!
This module contains the theory of interrupted sessions. A host that replaces its scanner by one that
was loaded from saved bytes, as often as it likes, sees the same session as one that never does.
-/

namespace RazorTokens

inductive Move where
  | call (adm : Admissible)
  | next
  deriving DecidableEq, Repr

structure Sight where
  reply? : Option Reply
  log : List Event
  nesting : Nesting
  cursor : Cursor
  deriving DecidableEq, Repr

/--
A session with everything that was seen of it, the latest first.
-/
structure Course (σ : Type) where
  seen : List Sight
  session : Session σ

abbrev Host (σ : Type) := Course σ → Move

namespace Session

variable {σ : Type} [Embedded σ]

def move (s : Session σ) : Move → Sight × Session σ
  | .call adm =>
    let (reply, after, log) := s.call adm
    (⟨some reply, log, after.scanner.nesting, after.cursor⟩, after)
  | .next => (⟨none, [], s.scanner.nesting, s.next.cursor⟩, s.next)

def reloadIf (s : Session σ) : Option Bytes → Session σ
  | some buffer => (s.reload buffer).2.1
  | none => s

theorem reload_eq_self {s : Session CodeState} {buffer : Bytes}
    (h : s.scanner.Fits buffer.length)
    : (s.reload buffer).2.1 = s := by
  unfold reload
  dsimp only
  rw [h.load_save_eq]

end Session

namespace Course

variable {σ : Type} [Embedded σ]

def turn (host : Host σ) (c : Course σ) (buffer? : Option Bytes) : Course σ :=
  let s := c.session.reloadIf buffer?
  let (sight, after) := s.move (host ⟨c.seen, s⟩)
  ⟨sight :: c.seen, after⟩

/--
As many moves of the host as the schedule has entries, each of which says whether the scanner is
reloaded before the move.
-/
def run (host : Host σ) (c : Course σ) (schedule : List (Option Bytes)) : Course σ :=
  schedule.foldl (turn host) c

theorem run_cons (host : Host σ) (c : Course σ) (buffer? : Option Bytes)
    (schedule : List (Option Bytes))
    : c.run host (buffer? :: schedule) = (c.turn host buffer?).run host schedule := rfl

/--
Whether every reload that the schedule asks for goes through a buffer of the host's size, and meets a
scanner that such a buffer can hold.
-/
def ReloadsFit (host : Host CodeState) (c : Course CodeState) (schedule : List (Option Bytes))
    : Prop :=
  ∀ (earlier : List (Option Bytes)) (buffer : Bytes) (later : List (Option Bytes)),
    schedule = earlier ++ some buffer :: later
      →
    buffer.length = Snapshot.capacity
      ∧ (c.run host earlier).session.scanner.Fits Snapshot.capacity

theorem reloadsFit_cons_iff {host : Host CodeState} {c : Course CodeState} {buffer? : Option Bytes}
    {schedule : List (Option Bytes)}
    : c.ReloadsFit host (buffer? :: schedule)
        ↔
      (∀ buffer, buffer? = some buffer →
        buffer.length = Snapshot.capacity ∧ c.session.scanner.Fits Snapshot.capacity)
        ∧ (c.turn host buffer?).ReloadsFit host schedule := by
  constructor
  · intro h
    constructor
    · intro buffer heq
      apply h [] buffer schedule
      rw [heq]
      rfl
    · intro earlier buffer later heq
      apply h (buffer? :: earlier) buffer later
      rw [heq]
      rfl
  · rintro ⟨hfirst, hrest⟩ earlier buffer later heq
    cases earlier with
    | nil =>
      injection heq with hbuffer
      exact hfirst buffer hbuffer
    | cons first earlier =>
      injection heq with hbuffer hschedule
      rw [run_cons, ← hbuffer]
      exact hrest earlier buffer later hschedule

theorem turn_eq_turn_none {host : Host CodeState} {c : Course CodeState} {buffer? : Option Bytes}
    (h : ∀ buffer, buffer? = some buffer →
      buffer.length = Snapshot.capacity ∧ c.session.scanner.Fits Snapshot.capacity)
    : c.turn host buffer? = c.turn host none := by
  cases buffer? with
  | none => rfl
  | some buffer =>
    have ⟨hlength, hfits⟩ := h buffer rfl
    rw [← hlength] at hfits
    have hreload : c.session.reloadIf (some buffer) = c.session := Session.reload_eq_self hfits
    unfold turn
    rw [hreload]
    rfl

/--
Reloading is invisible: whatever the host does, all that it sees and the session at the end are the
same as if the scanner had never been reloaded.
-/
theorem run_eq_run_without_reloads (host : Host CodeState) (c : Course CodeState)
    (schedule : List (Option Bytes)) (h : c.ReloadsFit host schedule)
    : c.run host schedule = c.run host (schedule.map fun _ => none) := by
  -- Each turn ends in the same course with and without its reload, so the rest of the schedule starts
  -- from the same course as well.
  induction schedule generalizing c with
  | nil => rfl
  | cons buffer? schedule ih =>
    rw [reloadsFit_cons_iff] at h
    rw [List.map_cons, run_cons, run_cons]
    rw [ih _ h.2]
    rw [turn_eq_turn_none h.1]

def bracketHost : Host CodeState := fun c =>
  .call (.ofSymbols [if c.session.scanner.isInCode then Kind.regionClose.symbol
    else Kind.codeBlockStart.symbol])

theorem run_bracketHost_eq_run_without_reloads
    : let c : Course CodeState :=
        ⟨[], ⟨⟨⟨2, [⟨1, 3, 1, 0⟩]⟩, ⟨[.paren]⟩⟩, .ofText [')', '@', '{', ' ', '}']⟩⟩
      let full := List.replicate Snapshot.capacity 255
      c.ReloadsFit bracketHost [some full, some Snapshot.blank, none, some full]
        ∧ c.run bracketHost [some full, some Snapshot.blank, none, some full]
            = c.run bracketHost [none, none, none, none] := by
  intro c full
  have hfull : full.length = Snapshot.capacity := List.length_replicate
  have hblank : Snapshot.blank.length = Snapshot.capacity := List.length_replicate
  have hfits : c.ReloadsFit bracketHost [some full, some Snapshot.blank, none, some full] := by
    rw [reloadsFit_cons_iff, reloadsFit_cons_iff, reloadsFit_cons_iff, reloadsFit_cons_iff]
    refine ⟨?_, ?_, ?_, ?_, ?_⟩
    · rintro _ ⟨⟩
      exact ⟨hfull, by decide, by decide, by decide⟩
    · rintro _ ⟨⟩
      exact ⟨hblank, by decide +kernel, by decide +kernel, by decide +kernel⟩
    · rintro _ ⟨⟩
    · rintro _ ⟨⟩
      exact ⟨hfull, by decide +kernel, by decide +kernel, by decide +kernel⟩
    · intro earlier buffer later heq
      simp at heq
  exact ⟨hfits, run_eq_run_without_reloads bracketHost c _ hfits⟩

end Course
end RazorTokens
