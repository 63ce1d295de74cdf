import RazorTokens.Proofs.Admission
import RazorTokens.Proofs.Ending
import RazorTokens.Proofs.ProseLoop

/-!
This module says how far text in markup reaches, without a word about how the scanner finds that out.
Text ends at the first place that is the end of the input, or lies before a character that stops
text, or lies before a keyword with nothing but indentation between the start of the line and the
keyword.
-/

namespace RazorTokens

namespace Rule

def behindText (adm : Admissible) : Rule :=
  inOrder ((all adm).drop 2)

theorem template_of_markup {adm : Admissible} {p : Place} (h : p.nesting.isMarkup)
    : template adm p
        =
      andThen (ifAllowed adm .textWithAt address)
        (andThen (ifAllowed adm .markupText prose) (behindText adm)) p := by
  have htemplate : template adm
      = andThen (inMarkup (ifAllowed adm .textWithAt address))
          (andThen (inMarkup (ifAllowed adm .markupText prose)) (behindText adm)) := rfl
  have hopen (r : Rule) {q : Place} (hq : q.nesting.isMarkup) : inMarkup r q = r q := by
    unfold inMarkup onlyIf
    rw [if_pos hq]
  rw [htemplate]
  unfold andThen
  rw [hopen _ h]
  cases hfirst : ifAllowed adm .textWithAt address p with
  | emit kind q => rfl
  | refuse why q => rfl
  | pass q =>
    have hq : q.nesting.isMarkup := by
      have hconcerns := concerns_address p
      unfold ifAllowed onlyIf at hfirst
      split at hfirst
      · rw [hfirst] at hconcerns
        have hnesting : q.nesting = p.nesting := hconcerns
        rw [hnesting]
        exact h
      · cases hfirst
        exact h
    dsimp only
    rw [hopen _ hq]

namespace Prose

/--
Only indentation stands between the start of the line and the place that has `before` behind it. A
line starts where the text starts and behind each newline.
-/
def AtLineStart (before : List Char) : Prop :=
  ∃ lines indent, before = lines ++ indent
    ∧ (∀ c ∈ indent, c = ' ' ∨ c = '\t')
    ∧ (lines = [] ∨ ∃ c, lines.getLast? = some c ∧ (c = '\n' ∨ c = '\r'))

def AtKeyword (rest : List Char) : Prop :=
  rest.takeWhile Alphabet.isIdent
    ∈ [['e', 'l', 's', 'e'], ['c', 'a', 't', 'c', 'h'], ['f', 'i', 'n', 'a', 'l', 'l', 'y']]

instance (rest : List Char) : Decidable (AtKeyword rest) :=
  inferInstanceAs (Decidable (_ ∈ _))

inductive EndsBetween (before : List Char) : List Char → Prop where
  | atEnd : EndsBetween before []
  | stop {c : Char} {rest : List Char}
    : c ∈ ['<', '@', '.', '[', '(', '\x22', '\x27'] → EndsBetween before (c :: rest)
  | keyword {rest : List Char} : AtLineStart before → AtKeyword rest → EndsBetween before rest

structure Extent (s : List Char) (i : Nat) : Prop where
  le_length : i ≤ s.length
  ends : EndsBetween (s.take i) (s.drop i)
  first : ∀ j < i, ¬ EndsBetween (s.take j) (s.drop j)

theorem Extent.unique {s : List Char} {i j : Nat} (hi : Extent s i) (hj : Extent s j) : i = j := by
  rcases Nat.lt_trichotomy i j with hlt | heq | hgt
  · exact absurd hi.ends (hj.first i hlt)
  · exact heq
  · exact absurd hj.ends (hi.first j hgt)

theorem atLineStart_nil : AtLineStart [] :=
  ⟨[], [], rfl, by simp, .inl rfl⟩

theorem atLineStart_concat_iff {before : List Char} {c : Char}
    : AtLineStart (before ++ [c])
        ↔
      Alphabet.isNewline c ∨ (AtLineStart before ∧ isIndent c) := by
  rw [isNewline_iff, isIndent_iff]
  constructor
  · rintro ⟨lines, indent, heq, hindent, hlines⟩
    rcases List.eq_nil_or_concat indent with rfl | ⟨indent, d, rfl⟩
    · -- The line starts right behind the character.
      left
      rw [List.append_nil] at heq
      subst heq
      simpa using hlines
    · right
      rw [List.concat_eq_append, ← List.append_assoc] at heq
      rcases List.append_inj' heq rfl with ⟨rfl, hcd⟩
      cases hcd
      simp only [List.concat_eq_append, List.forall_mem_append, List.forall_mem_singleton] at hindent
      exact ⟨⟨lines, indent, rfl, hindent.1, hlines⟩, hindent.2⟩
  · rintro (hnewline | ⟨⟨lines, indent, rfl, hindent, hlines⟩, hc⟩)
    · exact ⟨before ++ [c], [], by simp, by simp, .inr ⟨c, by simp, hnewline⟩⟩
    · refine ⟨lines, indent ++ [c], by simp, ?_, hlines⟩
      simp only [List.forall_mem_append, List.forall_mem_singleton]
      exact ⟨hindent, hc⟩

theorem startsKeyword_iff {s : List Char} : startsKeyword s ↔ AtKeyword s := by
  unfold startsKeyword
  rw [List.contains_iff_mem]
  rfl

theorem endsBetween_cons_iff {before rest : List Char} {c : Char}
    : EndsBetween before (c :: rest)
        ↔
      isStop c ∨ (AtLineStart before ∧ startsKeyword (c :: rest)) := by
  rw [isStop_iff, startsKeyword_iff]
  constructor
  · intro h
    cases h with
    | stop hstop => exact .inl hstop
    | keyword hline hkeyword => exact .inr ⟨hline, hkeyword⟩
  · rintro (hstop | ⟨hline, hkeyword⟩)
    · exact .stop hstop
    · exact .keyword hline hkeyword

/--
The search for the end of the text, started anywhere, takes the characters up to the next place where
text ends. Its flag tells whether the line starts at the place it has come to.
-/
theorem exists_taken_of_afterText {lineStart : Bool} {before : List Char} (s : List Char)
    (hline : lineStart ↔ AtLineStart before)
    : ∃ taken, s = taken ++ afterText lineStart s
        ∧ EndsBetween (before ++ taken) (afterText lineStart s)
        ∧ ∀ u v, taken = u ++ v → v ≠ [] →
            ¬ EndsBetween (before ++ u) (v ++ afterText lineStart s) := by
  induction s generalizing lineStart before with
  | nil =>
    refine ⟨[], rfl, .atEnd, ?_⟩
    intro u v huv hv
    exact absurd (List.append_eq_nil_iff.mp huv.symm).2 hv
  | cons c s ih =>
    have hends : (isStop c || (lineStart && startsKeyword (c :: s))) = true
        ↔ EndsBetween before (c :: s) := by
      rw [endsBetween_cons_iff, Bool.or_eq_true, Bool.and_eq_true, hline]
    rw [afterText]
    split
    · next hstop =>
      refine ⟨[], rfl, by simpa using hends.mp hstop, ?_⟩
      intro u v huv hv
      exact absurd (List.append_eq_nil_iff.mp huv.symm).2 hv
    · next hgo =>
      have hline' : (Alphabet.isNewline c || (lineStart && isIndent c)) = true
          ↔ AtLineStart (before ++ [c]) := by
        rw [atLineStart_concat_iff, Bool.or_eq_true, Bool.and_eq_true, hline]
      rcases ih hline' with ⟨taken, hs, hend, hfirst⟩
      refine ⟨c :: taken, ?_, by simpa using hend, ?_⟩
      · rw [List.cons_append, ← hs]
      · intro u v huv hv
        cases u with
        | nil =>
          rw [List.nil_append] at huv
          rw [List.append_nil, ← huv, List.cons_append, ← hs, ← hends]
          exact hgo
        | cons d u =>
          injection huv with hcd huv
          subst hcd
          simpa using hfirst u v huv hv

theorem exists_extent (s : List Char)
    : ∃ i, Extent s i ∧ afterText true s = s.drop i := by
  rcases exists_taken_of_afterText s (iff_of_true rfl atLineStart_nil)
    with ⟨taken, hs, hend, hfirst⟩
  have htake (j : Nat) (hj : j ≤ taken.length) : s.take j = taken.take j := by
    rw [hs, List.take_append_of_le_length hj]
  have hdrop (j : Nat) (hj : j ≤ taken.length)
      : s.drop j = taken.drop j ++ afterText true s := by
    conv => lhs; rw [hs]
    rw [List.drop_append_of_le_length hj]
  have hrest : s.drop taken.length = afterText true s := by
    rw [hdrop _ (Nat.le_refl _), List.drop_length, List.nil_append]
  refine ⟨taken.length, ?_, hrest.symm⟩
  constructor
  · rw [hs]
    simp
  · rw [htake _ (Nat.le_refl _), hrest, List.take_length]
    exact hend
  · intro j hj
    rw [htake j (by omega), hdrop j (by omega)]
    apply hfirst
    · rw [List.take_append_drop]
    · simpa using hj

end Prose

theorem prose_of_extent {p : Place} {i : Nat} (hi : 0 < i) (hle : i ≤ p.ahead.length)
    (hafter : Prose.afterText true p.ahead = p.ahead.drop i)
    : ∃ reach, prose p = .emit .markupText ((p.moveTo reach).markAt (p.ahead.drop i)) := by
  have hne : p.ahead.drop i ≠ p.ahead := by
    intro heq
    have := congrArg List.length heq
    rw [List.length_drop] at this
    omega
  unfold prose
  dsimp only
  rw [hafter, if_neg hne, if_neg hne]
  split
  · exact ⟨_, rfl⟩
  · exact ⟨_, rfl⟩

theorem prose_of_keyword {p : Place} (hafter : Prose.afterText true p.ahead = p.ahead)
    (hkeyword : Prose.startsKeyword p.ahead)
    : ∃ q, prose p = .refuse .keyword q := by
  unfold prose
  dsimp only
  rw [hafter, if_pos hkeyword, if_pos rfl]
  exact ⟨_, rfl⟩

theorem prose_of_stay {p : Place} (hafter : Prose.afterText true p.ahead = p.ahead)
    (hkeyword : ¬ Prose.startsKeyword p.ahead)
    : prose p = .pass p := by
  unfold prose
  dsimp only
  rw [hafter, if_neg hkeyword, if_pos rfl]

theorem eq_of_prose_eq_pass {p q : Place} (h : prose p = .pass q) : q = p := by
  unfold prose at h
  dsimp only at h
  split at h
  · split at h <;> contradiction
  · split at h <;> cases h
    rfl

end Rule

namespace Session

variable {σ : Type} [Embedded σ]

/--
The extent of text in markup, where the host accepts text but no text with a literal `@`. If the text
at the cursor is not empty, then it is the token. If it is empty because of a keyword, then the call
is refused. Otherwise the rule for text passes and leaves the place as it was when the call began. A
loop that looks for keywords by taking up to seven characters decides everywhere as the rule does.
-/
theorem call_of_text_extent (s : Session σ) (adm : Admissible) (hs : s.cursor.InText)
    (hmarkup : s.scanner.nesting = ∅) (htext : adm.allows .markupText)
    (hat : adm.allows .textWithAt = false)
    : let text := s.cursor.ahead
      let p : Place := ⟨s.cursor.restart, s.scanner.nesting⟩
      (∃ i, Rule.Prose.Extent text i)
        ∧ (∀ i, Rule.Prose.Extent text i →
            (0 < i →
              s.EndsBy adm (.committed .markupText)
                ∧ ∃ reach, (s.call adm).1 = .token Kind.markupText.symbol
                    ⟨s.cursor.pos, s.cursor.pos + byteSize (text.take i)⟩ reach)
              ∧ (i = 0 → Rule.Prose.AtKeyword text → s.EndsBy adm .refused)
              ∧ (i = 0 → ¬ Rule.Prose.AtKeyword text →
                  Rule.prose p = .pass p
                    ∧ p.cursor.ahead = text
                    ∧ p.cursor.marked = none
                    ∧ Rule.template adm p = Rule.behindText adm p))
        ∧ ∀ q, Rule.Prose.walk false true q = Rule.prose q := by
  intro text p
  have htemplate : Rule.template adm p = Rule.andThen Rule.prose (Rule.behindText adm) p := by
    rw [Rule.template_of_markup (Nesting.isMarkup_iff.mpr hmarkup)]
    unfold Rule.ifAllowed Rule.onlyIf
    rw [if_pos htext, hat]
    rfl
  rcases Rule.Prose.exists_extent text with ⟨first, hfirst, hafter⟩
  refine ⟨⟨first, hfirst⟩, ?_, Rule.Prose.walk_eq_prose⟩
  intro i hextent
  rw [hfirst.unique hextent] at hafter
  refine ⟨?_, ?_, ?_⟩
  · intro hi
    rcases Rule.prose_of_extent (p := p) hi hextent.le_length hafter with ⟨reach, hemit⟩
    have hverdict : Rule.template adm p = _ := htemplate.trans (Rule.andThen_of_emit hemit)
    refine ⟨commits_of_emit hverdict, ?_⟩
    have hspan := Cursor.tokenSpan_markAt reach hs (List.take_append_drop i text).symm
    rw [call_of_emit hverdict]
    exact ⟨_, congrArg (Reply.token _ · _) hspan⟩
  · rintro rfl hkeyword
    have hstay : Rule.Prose.afterText true p.ahead = p.ahead := hafter
    rcases Rule.prose_of_keyword hstay (Rule.Prose.startsKeyword_iff.mpr hkeyword)
      with ⟨q, hrefuse⟩
    exact refuses_of_refuse (htemplate.trans (Rule.andThen_of_refuse hrefuse))
  · rintro rfl hkeyword
    have hstay : Rule.Prose.afterText true p.ahead = p.ahead := hafter
    have hpass : Rule.prose p = .pass p := by
      apply Rule.prose_of_stay hstay
      rw [Rule.Prose.startsKeyword_iff]
      exact hkeyword
    exact ⟨hpass, rfl, rfl, htemplate.trans (Rule.andThen_of_pass hpass)⟩

theorem call_of_text_extent_before_keyword
    : let s : Session CodeState :=
        ⟨.initial, (Cursor.ofText ['é', 'x', '\r', '\t', 'e', 'l', 's', 'e', '.']).next⟩
      let adm : Admissible := .ofSymbols [Kind.markupText.symbol]
      let p : Place := ⟨s.cursor.restart, ∅⟩
      s.scanner.nesting = ∅
        ∧ Rule.Prose.Extent s.cursor.ahead 3
        ∧ s.EndsBy adm (.committed .markupText)
        ∧ (s.call adm).1 = .token Kind.markupText.symbol ⟨2, 5⟩ 9
        ∧ Rule.Prose.walk false true p = Rule.prose p := by
  intro s adm p
  have hextent : Rule.Prose.Extent s.cursor.ahead 3 := by
    constructor
    · decide
    · exact .keyword ⟨['x', '\r'], ['\t'], rfl, by simp, .inr ⟨'\r', rfl, .inr rfl⟩⟩ (by decide)
    · intro j hj hends
      have hj : j = 0 ∨ j = 1 ∨ j = 2 := by omega
      rcases hj with rfl | rfl | rfl
      all_goals
        rcases Rule.Prose.endsBetween_cons_iff.mp hends with hstop | ⟨_, hkeyword⟩
        · exact absurd hstop (by decide)
        · exact absurd hkeyword (by decide)
  have hcall : (s.call adm).1 = .token Kind.markupText.symbol ⟨2, 5⟩ 9 := by decide +kernel
  rcases call_of_text_extent s adm ⟨['é'], rfl⟩ rfl (by decide) (by decide)
    with ⟨_, htoken, hwalk⟩
  rcases (htoken 3 hextent).1 (by decide) with ⟨hends, _⟩
  exact ⟨rfl, hextent, hends, hcall, hwalk p⟩

end Session
end RazorTokens
