import RazorTokens.Embedded.CodeState
import RazorTokens.Session

/-!
This module breaks a call down to the verdict of the rules: what the verdict makes of the scanner,
and what the host makes of the cursor that the scanner has left behind.
-/

namespace RazorTokens

variable {σ : Type} [Embedded σ]

namespace Scanner

variable {sc : Scanner σ} {adm : Admissible} {cur : Cursor} {p : Place}

theorem scan_of_emit {kind : Kind} (h : Rule.template adm ⟨cur, sc.nesting⟩ = .emit kind p)
    : sc.scan adm cur
        =
      ⟨.ofKind kind, ⟨sc.embedded, p.nesting⟩, p.cursor, [.committed kind p.nesting.depth]⟩ := by
  unfold scan
  rw [h]

theorem scan_of_refuse {why : Refusal} (h : Rule.template adm ⟨cur, sc.nesting⟩ = .refuse why p)
    : sc.scan adm cur
        =
      ⟨.decline, ⟨sc.embedded, p.nesting⟩, p.cursor, why.events p.nesting.depth⟩ := by
  unfold scan
  rw [h]

theorem scan_of_pass (h : Rule.template adm ⟨cur, sc.nesting⟩ = .pass p)
    : sc.scan adm cur
        =
      ⟨(Embedded.scan sc.embedded adm p.cursor).1,
        ⟨(Embedded.scan sc.embedded adm p.cursor).2.1, p.nesting⟩,
        (Embedded.scan sc.embedded adm p.cursor).2.2, []⟩ := by
  unfold scan
  rw [h]

def Delegates (sc : Scanner σ) (adm : Admissible) (cur : Cursor) : Prop :=
  ∃ p, Rule.template adm ⟨cur, sc.nesting⟩ = .pass p

theorem exists_emit_of_commit {symbol : Symbol}
    (hcommit : (sc.scan adm cur).outcome = .commit symbol) (hown : ¬ sc.Delegates adm cur)
    : ∃ kind p, Rule.template adm ⟨cur, sc.nesting⟩ = .emit kind p ∧ symbol = kind.symbol := by
  cases hverdict : Rule.template adm ⟨cur, sc.nesting⟩ with
  | emit kind p =>
    rw [scan_of_emit hverdict] at hcommit
    injection hcommit with hsymbol
    exact ⟨kind, p, rfl, hsymbol.symm⟩
  | refuse why p =>
    rw [scan_of_refuse hverdict] at hcommit
    contradiction
  | pass p => exact absurd ⟨p, hverdict⟩ hown

theorem not_delegates_of_commit {sc : Scanner CodeState} {symbol : Symbol}
    (hcommit : (sc.scan adm cur).outcome = .commit symbol)
    : ¬ sc.Delegates adm cur := by
  rintro ⟨p, hpass⟩
  rw [scan_of_pass hpass] at hcommit
  contradiction

end Scanner

def Reply.ofOutcome : Outcome → Cursor → Reply
  | .commit symbol, cur => .token symbol cur.tokenSpan cur.pos
  | .decline, cur => .declined cur.pos

namespace Session

theorem call_of_commit {s : Session σ} {adm : Admissible} {symbol : Symbol}
    (h : (s.scanner.scan adm s.cursor.restart).outcome = .commit symbol)
    : s.call adm
        =
      (.token symbol (s.scanner.scan adm s.cursor.restart).cursor.tokenSpan
          (s.scanner.scan adm s.cursor.restart).cursor.pos,
        ⟨(s.scanner.scan adm s.cursor.restart).scanner,
          (s.scanner.scan adm s.cursor.restart).cursor.commit.2⟩,
        (s.scanner.scan adm s.cursor.restart).log) := by
  unfold call
  dsimp only
  rw [h]
  rfl

theorem call_of_emit {s : Session σ} {adm : Admissible} {kind : Kind} {p : Place}
    (h : Rule.template adm ⟨s.cursor.restart, s.scanner.nesting⟩ = .emit kind p)
    : s.call adm
        =
      (.token kind.symbol p.cursor.tokenSpan p.cursor.pos,
        ⟨⟨s.scanner.embedded, p.nesting⟩, p.cursor.commit.2⟩,
        [.committed kind p.nesting.depth]) := by
  have hscan := Scanner.scan_of_emit h
  have houtcome : (s.scanner.scan adm s.cursor.restart).outcome = .commit kind.symbol := by
    rw [hscan]
    rfl
  rw [call_of_commit houtcome, hscan]

theorem call_of_decline {s : Session σ} {adm : Admissible}
    (h : (s.scanner.scan adm s.cursor.restart).outcome = .decline)
    : s.call adm
        =
      (.declined (s.scanner.scan adm s.cursor.restart).cursor.pos,
        ⟨(s.scanner.scan adm s.cursor.restart).scanner,
          (s.scanner.scan adm s.cursor.restart).cursor.rewind⟩,
        (s.scanner.scan adm s.cursor.restart).log) := by
  unfold call
  dsimp only
  rw [h]

variable (s : Session σ) (adm : Admissible)

theorem call_reply
    : (s.call adm).1
        =
      .ofOutcome (s.scanner.scan adm s.cursor.restart).outcome
        (s.scanner.scan adm s.cursor.restart).cursor := by
  unfold call
  dsimp only
  cases (s.scanner.scan adm s.cursor.restart).outcome with
  | commit symbol => rfl
  | decline => rfl

theorem call_scanner
    : (s.call adm).2.1.scanner = (s.scanner.scan adm s.cursor.restart).scanner := by
  unfold call
  dsimp only
  split <;> rfl

theorem call_log : (s.call adm).2.2 = (s.scanner.scan adm s.cursor.restart).log := by
  unfold call
  dsimp only
  split <;> rfl

end Session
end RazorTokens
