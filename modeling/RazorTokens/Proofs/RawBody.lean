import RazorTokens.Proofs.MarkupText

/-!
This module says how far the body of a raw element reaches: up to the first closing tag of the
element, or to the end of the input if there is none. It also shows that a single pass over the text
finds that tag, because no tag begins inside of what has looked like one.
-/

namespace RazorTokens

namespace Rule
namespace Verbatim

/--
The text begins with a closing tag of the element, up to its name. Each letter of the name may be in
upper or in lower case.
-/
def BeginsClosing (e : RawElement) (s : List Char) : Prop :=
  ∃ name behind, s = '<' :: '/' :: (name ++ behind) ∧ name.map Char.toLower = e.letters

structure Extent (e : RawElement) (s : List Char) (i : Nat) : Prop where
  le_length : i ≤ s.length
  ends : s.drop i = [] ∨ BeginsClosing e (s.drop i)
  first : ∀ j < i, ¬ BeginsClosing e (s.drop j)

theorem isLower_iff {c : Char} : c.isLower ↔ 97 ≤ c.val.toNat ∧ c.val.toNat ≤ 122 := by
  unfold Char.isLower
  simp [UInt32.le_iff_toNat_le]

theorem toNat_toUpper {c : Char} (h : c.isLower) : c.toUpper.val.toNat = c.val.toNat - 32 := by
  have hcode := isLower_iff.mp h
  have hlower : 'a'.val ≤ c.val ∧ c.val ≤ 'z'.val := by
    rw [UInt32.le_iff_toNat_le, UInt32.le_iff_toNat_le]
    exact hcode
  -- The distance from lower to upper case is negative, so that it wraps around.
  have hdistance : ('A'.val - 'a'.val).toNat = 2 ^ 32 - 32 := rfl
  unfold Char.toUpper
  rw [dif_pos hlower, UInt32.toNat_add, hdistance]
  omega

theorem toNat_toLower (c : Char)
    : c.toLower.val.toNat
        =
      if 65 ≤ c.val.toNat ∧ c.val.toNat ≤ 90 then c.val.toNat + 32 else c.val.toNat := by
  have hupper : (c.val ≥ 'A'.val ∧ c.val ≤ 'Z'.val) ↔ 65 ≤ c.val.toNat ∧ c.val.toNat ≤ 90 := by
    rw [ge_iff_le, UInt32.le_iff_toNat_le, UInt32.le_iff_toNat_le]
    rfl
  have hdistance : ('a'.val - 'A'.val).toNat = 32 := rfl
  unfold Char.toLower
  split
  next h =>
    have hcode := hupper.mp h
    rw [if_pos hcode, UInt32.toNat_add, hdistance]
    omega
  next h => rw [if_neg (mt hupper.mpr h)]

theorem isEitherCase_iff {letter c : Char} (h : letter.isLower)
    : isEitherCase letter c ↔ c.toLower = letter := by
  have hcode := isLower_iff.mp h
  unfold isEitherCase
  rw [Bool.or_eq_true, beq_iff_eq, beq_iff_eq]
  rw [Char.ext_iff, Char.ext_iff, Char.ext_iff]
  rw [← UInt32.toNat_inj, ← UInt32.toNat_inj, ← UInt32.toNat_inj]
  rw [toNat_toUpper h, toNat_toLower]
  split <;> omega

theorem afterLetters?_eq_some_iff {letters s behind : List Char}
    (hlower : ∀ letter ∈ letters, letter.isLower)
    : afterLetters? letters s = some behind
        ↔
      ∃ name, s = name ++ behind ∧ name.map Char.toLower = letters := by
  fun_induction afterLetters? letters s with
  | case1 s => simp [eq_comm]
  | case2 letter letters =>
    constructor
    · intro h
      contradiction
    · rintro ⟨name, hname, hmap⟩
      rw [(List.append_eq_nil_iff.mp hname.symm).1] at hmap
      contradiction
  | case3 letter letters c s hc ih =>
    rw [List.forall_mem_cons] at hlower
    rw [isEitherCase_iff hlower.1] at hc
    rw [ih hlower.2]
    constructor
    · rintro ⟨name, rfl, hmap⟩
      exact ⟨c :: name, rfl, by rw [List.map_cons, hc, hmap]⟩
    · rintro ⟨name, hname, hmap⟩
      rcases List.map_eq_cons_iff.mp hmap with ⟨d, name', rfl, _, hmap'⟩
      injection hname with _ hname'
      exact ⟨name', hname', hmap'⟩
  | case4 letter letters c s hc =>
    rw [List.forall_mem_cons] at hlower
    rw [isEitherCase_iff hlower.1] at hc
    constructor
    · intro h
      contradiction
    · rintro ⟨name, hname, hmap⟩
      rcases List.map_eq_cons_iff.mp hmap with ⟨d, name', rfl, hd, _⟩
      injection hname with hcd _
      rw [← hcd] at hd
      contradiction

theorem isLower_letters (e : RawElement) : ∀ letter ∈ e.letters, letter.isLower := by
  have hall : e.letters.all Char.isLower := by
    cases e <;> decide
  rw [List.all_eq_true] at hall
  exact hall

theorem isSome_afterClosing?_iff {e : RawElement} {s : List Char}
    : (afterClosing? e.letters s).isSome ↔ BeginsClosing e s := by
  rw [Option.isSome_iff_exists]
  constructor
  · rintro ⟨behind, h⟩
    unfold afterClosing? at h
    split at h
    · next s =>
      rcases (afterLetters?_eq_some_iff (isLower_letters e)).mp h with ⟨name, rfl, hmap⟩
      exact ⟨name, behind, rfl, hmap⟩
    · contradiction
  · rintro ⟨name, behind, rfl, hmap⟩
    exact ⟨behind, (afterLetters?_eq_some_iff (isLower_letters e)).mpr ⟨name, rfl, hmap⟩⟩

theorem exists_extent (e : RawElement) (s : List Char)
    : ∃ i, Extent e s i ∧ ((findClosing? e.letters s).map Prod.fst).getD [] = s.drop i := by
  induction s with
  | nil =>
    refine ⟨0, ⟨Nat.le_refl _, .inl rfl, ?_⟩, rfl⟩
    intro j hj
    omega
  | cons c s ih =>
    rw [findClosing?]
    split
    · next behind hclosing =>
      have hbegins : BeginsClosing e (c :: s) := by
        rw [← isSome_afterClosing?_iff, hclosing]
        rfl
      refine ⟨0, ⟨Nat.zero_le _, .inr hbegins, ?_⟩, rfl⟩
      intro j hj
      omega
    · next hnone =>
      rcases ih with ⟨i, hextent, hdrop⟩
      refine ⟨i + 1, ⟨?_, ?_, ?_⟩, hdrop⟩
      · simpa using hextent.le_length
      · exact hextent.ends
      · intro j hj
        cases j with
        | zero =>
          rw [List.drop_zero, ← isSome_afterClosing?_iff, hnone]
          simp
        | succ j => exact hextent.first j (by omega)

end Verbatim

section Only

variable {adm : Admissible} (honly : ∀ kind, adm.allows kind → ∃ e, kind = .rawText e)
include honly

end Only

end Rule

namespace Session

variable {σ : Type} [Embedded σ]

end Session
end RazorTokens
