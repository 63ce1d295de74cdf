import RazorTokens.Proofs.Call
import RazorTokens.Proofs.Contract

/-!
This module shows which tokens the template scanner may find by itself: only those that the host
accepts, and only where tokens of their kind have a meaning.
-/

namespace RazorTokens

namespace Nesting

theorem isMarkup_iff {n : Nesting} : n.isMarkup ↔ n = ∅ := by
  unfold isMarkup
  rw [List.isEmpty_iff]
  constructor
  · intro h
    apply Nesting.ext
    exact h
  · intro h
    rw [h]
    rfl

theorem isMarkup_eq_false_iff {n : Nesting} : n.isMarkup = false ↔ n ≠ ∅ := by
  rw [← Bool.not_eq_true, isMarkup_iff]

end Nesting

namespace Kind

structure Admitted (adm : Admissible) (n : Nesting) (kind : Kind) : Prop where
  allowed : adm.allows kind
  markup : kind ∈ [textWithAt, markupText] → n = ∅
  code : kind ∈ [regionClose, comment, directive] → n ≠ ∅
  first : ∀ e, kind = rawText e → ∃ earlier later, RawElement.all = earlier ++ e :: later
    ∧ ∀ e' ∈ earlier, adm.allows (rawText e') = false

variable {adm : Admissible} {n : Nesting} {kind : Kind}

theorem admitted_of_markup (hallowed : adm.allows kind) (hkind : kind ∈ [textWithAt, markupText])
    (hmarkup : n.isMarkup)
    : kind.Admitted adm n where
  allowed := hallowed
  markup _ := Nesting.isMarkup_iff.mp hmarkup
  code := by
    simp only [List.mem_cons, List.not_mem_nil, or_false] at hkind
    rcases hkind with rfl | rfl <;> simp
  first := by
    rintro e rfl
    simp at hkind

theorem admitted_of_code (hallowed : adm.allows kind)
    (hkind : kind ∈ [regionClose, comment, directive]) (hcode : !n.isMarkup)
    : kind.Admitted adm n where
  allowed := hallowed
  markup := by
    simp only [List.mem_cons, List.not_mem_nil, or_false] at hkind
    rcases hkind with rfl | rfl | rfl <;> simp
  code _ := by
    rintro rfl
    contradiction
  first := by
    rintro e rfl
    simp at hkind

theorem admitted_of_opening (hallowed : adm.allows kind)
    (hkind : kind ∈ [codeBlockStart, expressionStart, blockOpen])
    : kind.Admitted adm n where
  allowed := hallowed
  markup := by
    simp only [List.mem_cons, List.not_mem_nil, or_false] at hkind
    rcases hkind with rfl | rfl | rfl <;> simp
  code := by
    simp only [List.mem_cons, List.not_mem_nil, or_false] at hkind
    rcases hkind with rfl | rfl | rfl <;> simp
  first := by
    rintro e rfl
    simp at hkind

theorem admitted_rawText {e : RawElement} (h : adm.rawElement? = some e)
    : (rawText e).Admitted adm n := by
  unfold Admissible.rawElement? at h
  rw [List.find?_eq_some_iff_append] at h
  rcases h with ⟨hallowed, earlier, later, hall, hearlier⟩
  constructor
  · exact hallowed
  · simp
  · simp
  · rintro e' ⟨⟩
    refine ⟨earlier, later, hall, ?_⟩
    simpa using hearlier

end Kind

namespace Verdict

def Concerns (kind : Kind) (p : Place) : Verdict → Prop
  | emit kind' _ => kind' = kind
  | refuse _ _ => True
  | pass q => q.nesting = p.nesting

def Admits (adm : Admissible) (p : Place) : Verdict → Prop
  | emit kind _ => kind.Admitted adm p.nesting
  | refuse _ _ => True
  | pass q => q.nesting = p.nesting

theorem Concerns.admits {adm : Admissible} {kind : Kind} {p : Place} {verdict : Verdict}
    (h : verdict.Concerns kind p) (hkind : kind.Admitted adm p.nesting)
    : verdict.Admits adm p := by
  cases verdict with
  | emit kind' q =>
    have : kind' = kind := h
    rw [this]
    exact hkind
  | refuse why q => trivial
  | pass q => exact h

end Verdict

namespace Rule

theorem concerns_address (p : Place) : (address p).Concerns .textWithAt p := by
  unfold address
  dsimp only
  split <;> rfl

theorem concerns_prose (p : Place) : (prose p).Concerns .markupText p := by
  unfold prose
  dsimp only
  split
  · split
    · trivial
    · rfl
  · split <;> rfl

theorem concerns_blockOpen (p : Place) : (blockOpen p).Concerns .blockOpen p := by
  unfold blockOpen
  dsimp only
  split <;> rfl

theorem concerns_regionClose (p : Place) : (regionClose p).Concerns .regionClose p := by
  unfold regionClose
  dsimp only
  split
  · rfl
  · split <;> rfl

theorem concerns_comment (p : Place) : (comment p).Concerns .comment p := by
  unfold comment
  split
  · rfl
  · rfl
  · trivial
  · rfl

theorem concerns_directive (p : Place) : (directive p).Concerns .directive p := by
  unfold directive
  split <;> rfl

theorem concerns_verbatim (e : RawElement) (p : Place)
    : (verbatim e p).Concerns (.rawText e) p := by
  unfold verbatim
  split
  · trivial
  · trivial
  · split <;> rfl

def admission (adm : Admissible) : Contract where
  relies _ := True
  ensures p verdict := verdict.Admits adm p
  ensures_pass _ := rfl
  relies_of_pass _ _ := trivial
  ensures_trans := by
    intro p q verdict hnesting hverdict
    simp only [Verdict.Admits] at hnesting
    unfold Verdict.Admits at hverdict ⊢
    simpa [hnesting] using hverdict

theorem admitted_of_opening? {adm : Admissible} {s rest : List Char} {kind : Kind}
    {region : Region} {n : Nesting}
    (h : opening? adm s = some (kind, region, rest))
    : kind.Admitted adm n := by
  unfold opening? at h
  split at h
  · split at h
    · next hallowed =>
      cases h
      exact Kind.admitted_of_opening hallowed (by simp)
    · contradiction
  · split at h
    · next hallowed =>
      cases h
      exact Kind.admitted_of_opening hallowed (by simp)
    · contradiction
  · contradiction

theorem admits_regionStart (adm : Admissible) (p : Place) : (regionStart adm p).Admits adm p := by
  unfold regionStart
  split
  · split
    · split
      · next hopening => exact admitted_of_opening? hopening
      · trivial
    · rfl
  · rfl

theorem admits_template (adm : Admissible) (p : Place) : (template adm p).Admits adm p := by
  suffices (admission adm).Meets (template adm) from this p trivial
  apply (admission adm).meets_template
  · intro p _ hmarkup hallowed
    apply (concerns_address p).admits
    exact Kind.admitted_of_markup hallowed (by simp) hmarkup
  · intro p _ hmarkup hallowed
    apply (concerns_prose p).admits
    exact Kind.admitted_of_markup hallowed (by simp) hmarkup
  · intro p _
    exact admits_regionStart adm p
  · intro p _ hallowed
    apply (concerns_blockOpen p).admits
    exact Kind.admitted_of_opening hallowed (by simp)
  · intro p _ hcode hallowed
    apply (concerns_regionClose p).admits
    exact Kind.admitted_of_code hallowed (by simp) hcode
  · intro p _ hcode hallowed
    apply (concerns_comment p).admits
    exact Kind.admitted_of_code hallowed (by simp) hcode
  · intro p _ hcode hallowed
    apply (concerns_directive p).admits
    exact Kind.admitted_of_code hallowed (by simp) hcode
  · intro e p _ helement
    apply (concerns_verbatim e p).admits
    exact Kind.admitted_rawText helement

end Rule

namespace Admissible

theorem getElem?_of_contains {adm : Admissible} {symbol : Symbol} (h : adm.contains symbol)
    : adm.table[symbol.index]? = some true := by
  unfold contains at h
  rw [Option.getD_eq_iff] at h
  simpa using h

end Admissible

theorem Kind.rank_lt (kind : Kind) : kind.rank < 12 := by
  cases kind with
  | rawText e => cases e <;> decide
  | _ => decide

namespace Scanner

variable {σ : Type} [Embedded σ]

/--
A token that the scanner finds without the embedded scanner is one of its own kinds, the table of the
host has an entry for it that says yes, and the kind fits to the regions that are open.
-/
theorem commit_of_admitted_kind {sc : Scanner σ} {adm : Admissible} {cur : Cursor} {symbol : Symbol}
    (hcommit : (sc.scan adm cur).outcome = .commit symbol) (hown : ¬ sc.Delegates adm cur)
    : ∃ kind : Kind, symbol = kind.symbol
        ∧ 12 ≤ symbol.index ∧ symbol.index ≤ 23
        ∧ adm.table[symbol.index]? = some true
        ∧ kind.Admitted adm sc.nesting := by
  rcases exists_emit_of_commit hcommit hown with ⟨kind, p, hverdict, rfl⟩
  have hadmits := Rule.admits_template adm ⟨cur, sc.nesting⟩
  rw [hverdict] at hadmits
  have hadmitted : kind.Admitted adm sc.nesting := hadmits
  have hrank := kind.rank_lt
  refine ⟨kind, rfl, ?_, ?_, ?_, hadmitted⟩
  · simp [Kind.symbol, embeddedSymbolCount]
  · simp [Kind.symbol, embeddedSymbolCount]
    omega
  · apply Admissible.getElem?_of_contains
    exact hadmitted.allowed

theorem commit_of_admitted_kind_second_raw_element
    : let sc : Scanner CodeState := ⟨{}, ⟨[.brace]⟩⟩
      let adm : Admissible := .ofSymbols [(Kind.rawText .title).symbol, (Kind.rawText .style).symbol]
      let cur := Cursor.ofText ['a', '<', '/', 'S', 't', 'y', 'l', 'e', '>']
      (sc.scan adm cur).outcome = .commit ⟨21⟩
        ∧ ¬ sc.Delegates adm cur
        ∧ adm.table[21]? = some true
        ∧ ∃ kind : Kind, ⟨21⟩ = kind.symbol ∧ kind.Admitted adm sc.nesting := by
  intro sc adm cur
  have hcommit : (sc.scan adm cur).outcome = .commit ⟨21⟩ := by decide +kernel
  have hown := not_delegates_of_commit hcommit
  rcases commit_of_admitted_kind hcommit hown with ⟨kind, hsymbol, _, _, htable, hadmitted⟩
  exact ⟨hcommit, hown, htable, kind, hsymbol, hadmitted⟩

end Scanner
end RazorTokens
