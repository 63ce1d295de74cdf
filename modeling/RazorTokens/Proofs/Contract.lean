import RazorTokens.Proofs.Motion

/-!
This module contains the part of an argument about verdicts that does not depend on the property in
question. What every rule ensures where it is asked, all rules ensure when they are asked in order.
-/

namespace RazorTokens

namespace Rule

section Order

variable {p q : Place} {r s : Rule}

theorem andThen_of_pass (h : r p = .pass q) : andThen r s p = s q := by
  unfold andThen
  rw [h]

theorem andThen_of_emit {kind : Kind} (h : r p = .emit kind q) : andThen r s p = .emit kind q := by
  unfold andThen
  rw [h]

theorem andThen_of_refuse {why : Refusal} (h : r p = .refuse why q)
    : andThen r s p = .refuse why q := by
  unfold andThen
  rw [h]

theorem andThen_eq_emit {kind : Kind} (h : andThen r s p = .emit kind q)
    : r p = .emit kind q ∨ ∃ p', r p = .pass p' ∧ s p' = .emit kind q := by
  cases hfirst : r p with
  | emit kind' p' =>
    rw [andThen_of_emit hfirst] at h
    exact .inl h
  | refuse why p' =>
    rw [andThen_of_refuse hfirst] at h
    contradiction
  | pass p' =>
    rw [andThen_of_pass hfirst] at h
    exact .inr ⟨p', rfl, h⟩

theorem andThen_eq_pass (h : andThen r s p = .pass q)
    : ∃ p', r p = .pass p' ∧ s p' = .pass q := by
  cases hfirst : r p with
  | emit kind p' =>
    rw [andThen_of_emit hfirst] at h
    contradiction
  | refuse why p' =>
    rw [andThen_of_refuse hfirst] at h
    contradiction
  | pass p' =>
    rw [andThen_of_pass hfirst] at h
    exact ⟨p', rfl, h⟩

theorem ifAllowed_eq_emit {adm : Admissible} {k kind : Kind} (h : ifAllowed adm k r p = .emit kind q)
    : adm.allows k ∧ r p = .emit kind q := by
  unfold ifAllowed onlyIf at h
  split at h
  · next hallowed => exact ⟨hallowed, h⟩
  · contradiction

theorem onlyIf_of_pass {b : Bool} (h : r p = .pass p) : onlyIf b r p = .pass p := by
  unfold onlyIf
  split
  · exact h
  · rfl

theorem onlyIf_of_true {b : Bool} (r : Rule) (h : b) : onlyIf b r = r := by
  unfold onlyIf
  rw [if_pos h]

theorem onlyIf_of_false {b : Bool} (r : Rule) (h : b = false) : onlyIf b r = silent := by
  unfold onlyIf
  rw [h]
  rfl

theorem inMarkup_of_code (r : Rule) (h : p.nesting.isMarkup = false) : inMarkup r p = .pass p := by
  unfold inMarkup onlyIf
  simp [h, silent]

theorem inCode_of_code (r : Rule) (h : p.nesting.isMarkup = false) : inCode r p = r p := by
  unfold inCode
  rw [onlyIf_of_true]
  simp [h]

theorem inCode_eq_emit {kind : Kind} (h : inCode r p = .emit kind q)
    : p.nesting.isMarkup = false ∧ r p = .emit kind q := by
  unfold inCode onlyIf at h
  split at h
  · next hcode => exact ⟨by simpa using hcode, h⟩
  · contradiction

theorem eq_of_onlyIf_eq_pass {b : Bool} (hr : r p = .pass q → q = p)
    (h : onlyIf b r p = .pass q)
    : q = p := by
  unfold onlyIf at h
  split at h
  · exact hr h
  · cases h
    rfl

theorem andThen_silent (r : Rule) : andThen r silent = r := by
  funext p
  unfold andThen
  split
  · next q hpass =>
    rw [hpass]
    rfl
  · rfl

theorem andThen_assoc (r s t : Rule) : andThen (andThen r s) t = andThen r (andThen s t) := by
  funext p
  unfold andThen
  cases r p with
  | emit kind q => rfl
  | refuse why q => rfl
  | pass q => rfl

theorem inOrder_concat (rules : List Rule) (r : Rule)
    : inOrder (rules ++ [r]) = andThen (inOrder rules) r := by
  induction rules with
  | nil => apply andThen_silent
  | cons first rules ih =>
    have hcons : inOrder (first :: rules ++ [r]) = andThen first (inOrder (rules ++ [r])) := rfl
    rw [hcons, ih, ← andThen_assoc]
    rfl

end Order

/--
What a rule may rely on at the place where it is asked, and what its verdict has to ensure there. A
rule that passes leaves a place to the next rule that the same contract applies to.
-/
structure Contract where
  relies : Place → Prop
  ensures : Place → Verdict → Prop
  ensures_pass : ∀ {p}, relies p → ensures p (.pass p)
  relies_of_pass : ∀ {p q}, relies p → ensures p (.pass q) → relies q
  ensures_trans : ∀ {p q verdict}, ensures p (.pass q) → ensures q verdict → ensures p verdict

namespace Contract

def ofVerdict (ensures : Verdict → Prop) (h : ∀ p, ensures (.pass p)) : Contract where
  relies _ := True
  ensures _ := ensures
  ensures_pass _ := h _
  relies_of_pass _ _ := trivial
  ensures_trans _ hverdict := hverdict

variable (C : Contract) {p : Place} {r s : Rule} {adm : Admissible}

def Meets (r : Rule) : Prop :=
  ∀ p : Place, C.relies p → C.ensures p (r p)

theorem meets_silent : C.Meets silent := by
  intro p hp
  exact C.ensures_pass hp

theorem meets_andThen (hr : C.Meets r) (hs : C.Meets s) : C.Meets (andThen r s) := by
  intro p hp
  have hfirst := hr p hp
  unfold andThen
  cases hverdict : r p with
  | emit kind q =>
    rw [hverdict] at hfirst
    exact hfirst
  | refuse why q =>
    rw [hverdict] at hfirst
    exact hfirst
  | pass q =>
    rw [hverdict] at hfirst
    apply C.ensures_trans hfirst
    apply hs
    exact C.relies_of_pass hp hfirst

theorem meets_inOrder {rules : List Rule} (h : ∀ r ∈ rules, C.Meets r)
    : C.Meets (inOrder rules) := by
  induction rules with
  | nil => exact C.meets_silent
  | cons r rules ih =>
    rw [List.forall_mem_cons] at h
    exact C.meets_andThen h.1 (ih h.2)

theorem ensures_onlyIf {b : Bool} (hp : C.relies p) (hr : b → C.ensures p (r p))
    : C.ensures p (onlyIf b r p) := by
  unfold onlyIf
  split
  · next hb => exact hr hb
  · exact C.ensures_pass hp

theorem meets_ifAllowed {k : Kind}
    (hr : ∀ p, C.relies p → adm.allows k → C.ensures p (r p))
    : C.Meets (ifAllowed adm k r) := by
  intro p hp
  apply C.ensures_onlyIf hp
  exact hr p hp

theorem meets_inMarkup {k : Kind}
    (hr : ∀ p, C.relies p → p.nesting.isMarkup → adm.allows k → C.ensures p (r p))
    : C.Meets (inMarkup (ifAllowed adm k r)) := by
  intro p hp
  apply C.ensures_onlyIf hp
  intro hmarkup
  apply C.ensures_onlyIf hp
  exact hr p hp hmarkup

theorem meets_inCode {k : Kind}
    (hr : ∀ p, C.relies p → !p.nesting.isMarkup → adm.allows k → C.ensures p (r p))
    : C.Meets (inCode (ifAllowed adm k r)) := by
  intro p hp
  apply C.ensures_onlyIf hp
  intro hcode
  apply C.ensures_onlyIf hp
  exact hr p hp hcode

theorem meets_rawBody
    (hverbatim : ∀ e p, C.relies p → adm.rawElement? = some e → C.ensures p (verbatim e p))
    : C.Meets (rawBody adm) := by
  unfold rawBody
  split
  · next e helement =>
    intro p hp
    exact hverbatim e p hp helement
  · exact C.meets_silent

theorem meets_template
    (haddress : ∀ p, C.relies p → p.nesting.isMarkup → adm.allows .textWithAt
      → C.ensures p (address p))
    (hprose : ∀ p, C.relies p → p.nesting.isMarkup → adm.allows .markupText
      → C.ensures p (prose p))
    (hregionStart : C.Meets (regionStart adm))
    (hblockOpen : ∀ p, C.relies p → adm.allows .blockOpen → C.ensures p (blockOpen p))
    (hregionClose : ∀ p, C.relies p → !p.nesting.isMarkup → adm.allows .regionClose
      → C.ensures p (regionClose p))
    (hcomment : ∀ p, C.relies p → !p.nesting.isMarkup → adm.allows .comment
      → C.ensures p (comment p))
    (hdirective : ∀ p, C.relies p → !p.nesting.isMarkup → adm.allows .directive
      → C.ensures p (directive p))
    (hverbatim : ∀ e p, C.relies p → adm.rawElement? = some e → C.ensures p (verbatim e p))
    : C.Meets (template adm) := by
  apply template_induction C.meets_silent
  · intro r s hr hs
    exact C.meets_andThen hr hs
  · exact C.meets_inMarkup haddress
  · exact C.meets_inMarkup hprose
  · exact hregionStart
  · exact C.meets_ifAllowed hblockOpen
  · exact C.meets_inCode hregionClose
  · exact C.meets_inCode hcomment
  · exact C.meets_inCode hdirective
  · exact C.meets_rawBody hverbatim

end Contract
end Rule
end RazorTokens
