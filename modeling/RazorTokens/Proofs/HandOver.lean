import RazorTokens.Proofs.OpenersBehindText
import RazorTokens.Proofs.Progress

/-!
This module is about calls that are left to the embedded scanner. Some rules move the cursor before
they pass, so the module follows the place through all of them. It shows that the embedded scanner
finds no recorded end of a token, and says what text lies between the start of the call and the place
where the embedded scanner takes over.
-/

namespace RazorTokens

theorem Admissible.rawElement?_eq_none_iff {adm : Admissible}
    : adm.rawElement? = none ↔ ∀ e, adm.allows (.rawText e) = false := by
  unfold rawElement?
  rw [List.find?_eq_none]
  constructor
  · intro h e
    have hall : e ∈ RawElement.all := by
      cases e <;> decide
    simpa using h e hall
  · intro h e _
    simp [h e]

namespace Place

/--
Where the rule for text with a literal `@` leaves the place if it passes: where it gives up, if it is
asked.
-/
def giveUp (p : Place) (adm : Admissible) : Place :=
  if p.nesting.isMarkup && adm.allows .textWithAt then
    p.moveTo (Rule.Address.giveUp p.ahead)
  else
    p

variable {p : Place} {adm : Admissible}

theorem giveUp_of_quiet (hquiet : p.nesting ≠ ∅ ∨ adm.allows .textWithAt = false)
    : p.giveUp adm = p := by
  unfold giveUp
  rw [if_neg]
  rw [Bool.and_eq_true, Nesting.isMarkup_iff]
  rintro ⟨hmarkup, hat⟩
  rcases hquiet with hcode | hnot
  · exact hcode hmarkup
  · rw [hat] at hnot
    contradiction

theorem giveUp_of_markup (hmarkup : p.nesting.isMarkup) (hat : adm.allows .textWithAt)
    : p.giveUp adm = p.moveTo (Rule.Address.giveUp p.ahead) := by
  unfold giveUp
  rw [hmarkup, hat]
  rfl

theorem trim_of_markup (hmarkup : p.nesting.isMarkup) (hbrace : adm.allows .blockOpen = false)
    : p.trim adm = p := by
  unfold trim
  rw [hmarkup, hbrace]
  rfl

theorem exists_blanks_of_trim (adm : Admissible) (hstart : p.cursor.start = p.ahead)
    : (p.trim adm).cursor.start = (p.trim adm).ahead
        ∧ ∃ blanks, p.ahead = blanks ++ (p.trim adm).ahead
            ∧ ∀ c ∈ blanks, Alphabet.isBlank c := by
  unfold trim
  split
  · rw [skipBlanks_eq hstart]
    exact ⟨rfl, _, List.takeWhile_append_dropWhile.symm, fun c => List.mem_takeWhile_imp⟩
  · exact ⟨hstart, [], rfl, by simp⟩

end Place

namespace Rule

variable {adm : Admissible} {p q : Place}

theorem verbatim_ne_pass (e : RawElement) (p q : Place) : verbatim e p ≠ .pass q := by
  unfold verbatim
  split
  · simp
  · simp
  · split <;> simp

theorem rawBody_eq_pass (h : rawBody adm p = .pass q) : adm.rawElement? = none ∧ q = p := by
  unfold rawBody at h
  cases helement : adm.rawElement? with
  | some e =>
    rw [helement] at h
    exact absurd h (verbatim_ne_pass e p q)
  | none =>
    rw [helement] at h
    cases h
    exact ⟨rfl, rfl⟩

theorem behindBrackets_eq_pass (h : behindBrackets adm p = .pass q)
    : adm.rawElement? = none ∧ q = p := by
  rw [behindBrackets_eq] at h
  rcases andThen_eq_pass h with ⟨p₁, hcomment, h₁⟩
  rcases andThen_eq_pass h₁ with ⟨p₂, hdirective, h₂⟩
  have hp₁ : p₁ = p := eq_of_onlyIf_eq_pass (eq_of_onlyIf_eq_pass eq_of_comment_eq_pass) hcomment
  have hp₂ : p₂ = p₁ :=
    eq_of_onlyIf_eq_pass (eq_of_onlyIf_eq_pass eq_of_directive_eq_pass) hdirective
  rw [hp₂, hp₁] at h₂
  exact rawBody_eq_pass h₂

theorem behindText_eq_pass (h : behindText adm p = .pass q)
    : adm.rawElement? = none ∧ q = p.trim adm := by
  rw [behindText_eq] at h
  rcases andThen_eq_pass h with ⟨p₁, hstart, h₁⟩
  rcases andThen_eq_pass h₁ with ⟨p₂, hbrackets, h₂⟩
  have hp₁ : p₁ = p := by
    rcases regionStart_cases adm p with ⟨_, _, _, _, _, _, hemit⟩ | ⟨_, hrefuse⟩ | hpass
    · rw [hemit] at hstart
      contradiction
    · rw [hrefuse] at hstart
      contradiction
    · rw [hpass] at hstart
      cases hstart
      rfl
  subst hp₁
  have hcases := brackets_cases adm p₁
  rw [hbrackets] at hcases
  cases hcases
  exact behindBrackets_eq_pass h₂

theorem eq_giveUp_of_address (hmarkup : p.nesting.isMarkup)
    (h : ifAllowed adm .textWithAt address p = .pass q)
    : q = p.giveUp adm := by
  unfold ifAllowed onlyIf at h
  split at h
  · next hat =>
    rw [Place.giveUp_of_markup hmarkup hat]
    exact (eq_moveTo_of_address h).2
  · next hat =>
    rw [Place.giveUp_of_quiet (.inr (by simpa using hat))]
    cases h
    rfl

theorem template_eq_pass (h : template adm p = .pass q)
    : adm.rawElement? = none ∧ q = (p.giveUp adm).trim adm := by
  cases hmarkup : p.nesting.isMarkup with
  | false =>
    have hcode : p.nesting ≠ ∅ := Nesting.isMarkup_eq_false_iff.mp hmarkup
    rw [template_of_quiet (.inl hcode)] at h
    rw [Place.giveUp_of_quiet (.inl hcode)]
    exact behindText_eq_pass h
  | true =>
    rw [template_of_markup hmarkup] at h
    rcases andThen_eq_pass h with ⟨p₁, haddress, h₁⟩
    rcases andThen_eq_pass h₁ with ⟨p₂, hprose, h₂⟩
    have hp₁ : p₁ = p.giveUp adm := eq_giveUp_of_address hmarkup haddress
    have hp₂ : p₂ = p₁ := eq_of_onlyIf_eq_pass eq_of_prose_eq_pass hprose
    rw [hp₂, hp₁] at h₂
    exact behindText_eq_pass h₂

theorem Address.exists_passed_of_giveUp (s : List Char)
    : ∃ passed, s = passed ++ giveUp s
        ∧ (∀ c ∈ passed, c ∉ ['<', '\x22', '\x27'])
        ∧ '@' ∉ passed.dropLast := by
  have hs := (List.takeWhile_append_dropWhile : s.takeWhile isPlain ++ s.dropWhile isPlain = s)
  have hfree : ∀ c ∈ s.takeWhile isPlain, c ∉ ['<', '\x22', '\x27'] := by
    intro c hc
    have hplain := isPlain_iff.mp (List.mem_takeWhile_imp hc)
    simp only [List.mem_cons, List.not_mem_nil, or_false, not_or] at hplain ⊢
    exact ⟨hplain.1, hplain.2.2⟩
  have hat : '@' ∉ s.takeWhile isPlain := at_not_mem_of_isPlain fun c => List.mem_takeWhile_imp
  rw [giveUp_eq_ite]
  split
  · next hpast =>
    rcases List.head?_eq_some_iff.mp hpast.1 with ⟨behind, hbehind⟩
    rw [hbehind] at hs ⊢
    refine ⟨s.takeWhile isPlain ++ ['@'], ?_, ?_, ?_⟩
    · simpa using hs.symm
    · simp only [List.forall_mem_append, List.forall_mem_singleton]
      exact ⟨hfree, by decide⟩
    · rw [List.dropLast_concat]
      exact hat
  · exact ⟨s.takeWhile isPlain, hs.symm, hfree, fun hmem => hat (List.dropLast_subset _ hmem)⟩

end Rule

/--
An embedded scanner that takes each character as a token, and leaves it to the cursor where the token
ends.
-/
inductive Letterwise where
  | ready
  deriving DecidableEq, Repr

instance : Embedded Letterwise where
  initial := .ready
  scan s _ cur := (if cur.atEnd then .decline else .commit ⟨0⟩, s, cur.next)
  save _ buffer := ⟨0, buffer⟩
  load s _ := s
  length_save _ _ := rfl

namespace Session

variable {σ : Type}

structure LeavesClean (s : Session σ) (adm : Admissible) (cur : Cursor) : Prop where
  source_eq : cur.source = s.cursor.source
  marked_eq : cur.marked = none
  not_raw : ∀ e, adm.allows (.rawText e) = false
  blank : s.scanner.nesting ≠ ∅ ∨ adm.allows .textWithAt = false →
    cur.startPos = cur.pos
      ∧ ∃ blanks, s.cursor.textOf? ⟨s.cursor.pos, cur.pos⟩ = some blanks
          ∧ ∀ c ∈ blanks, Alphabet.isBlank c
  plain : s.scanner.nesting = ∅ → adm.allows .textWithAt → adm.allows .blockOpen = false →
    cur.startPos = s.cursor.pos
      ∧ ∃ passed, s.cursor.textOf? ⟨s.cursor.pos, cur.pos⟩ = some passed
          ∧ (∀ c ∈ passed, c ∉ ['<', '\x22', '\x27'])
          ∧ '@' ∉ passed.dropLast

theorem textOf?_of_passed {s : Session σ} {cur : Cursor} {passed : List Char}
    (hs : s.cursor.InText) (hsource : cur.source = s.cursor.source)
    (hahead : s.cursor.ahead = passed ++ cur.ahead)
    : s.cursor.textOf? ⟨s.cursor.pos, cur.pos⟩ = some passed := by
  have hpos : cur.pos = s.cursor.offset cur.ahead := by
    unfold Cursor.pos Cursor.offset
    rw [hsource]
  rcases hs with ⟨before, hbefore⟩
  rw [hpos]
  unfold Cursor.pos
  rw [hahead] at hbefore ⊢
  exact Cursor.textOf?_of_append hbefore

theorem leavesClean_of_pass {s : Session σ} {adm : Admissible} {p : Place} (hs : s.cursor.InText)
    (h : Rule.template adm ⟨s.cursor.restart, s.scanner.nesting⟩ = .pass p)
    : s.LeavesClean adm p.cursor := by
  have honward := Rule.advances_template adm ⟨s.cursor.restart, s.scanner.nesting⟩
  have hyields := Rule.yields_template adm ⟨s.cursor.restart, s.scanner.nesting⟩
    ⟨List.suffix_refl _, rfl⟩
  rw [h] at honward hyields
  have hsource : p.cursor.source = s.cursor.source := honward.source_eq
  rcases Rule.template_eq_pass h with ⟨hraw, hp⟩
  constructor
  · exact hsource
  · -- The rules record an end only where they decide, so there is none if all of them pass.
    exact hyields.marked_eq
  · exact Admissible.rawElement?_eq_none_iff.mp hraw
  · intro hquiet
    rw [Place.giveUp_of_quiet hquiet] at hp
    rcases Place.exists_blanks_of_trim (p := ⟨s.cursor.restart, s.scanner.nesting⟩) adm rfl
      with ⟨hstart, blanks, hahead, hblanks⟩
    rw [← hp] at hstart hahead
    refine ⟨?_, blanks, textOf?_of_passed hs hsource hahead, hblanks⟩
    unfold Cursor.startPos
    rw [hstart]
    rfl
  · intro hmarkup hat hbrace
    have hmarkup : s.scanner.nesting.isMarkup := Nesting.isMarkup_iff.mpr hmarkup
    rw [Place.giveUp_of_markup hmarkup hat, Place.trim_of_markup hmarkup hbrace] at hp
    rcases Rule.Address.exists_passed_of_giveUp s.cursor.ahead with ⟨passed, hahead, hfree, hlast⟩
    rw [hp] at hsource ⊢
    exact ⟨rfl, passed, textOf?_of_passed hs hsource hahead, hfree, hlast⟩

variable [Embedded σ] {s : Session σ} {adm : Admissible}

theorem exists_pass_of_mem_asked {table : Admissible} {cur : Cursor}
    (h : (table, cur) ∈ s.asked adm)
    : table = adm
        ∧ ∃ p, Rule.template adm ⟨s.cursor.restart, s.scanner.nesting⟩ = .pass p
            ∧ cur = p.cursor := by
  cases hverdict : Rule.template adm ⟨s.cursor.restart, s.scanner.nesting⟩ with
  | emit kind p =>
    rw [(commits_of_emit hverdict).asked_eq] at h
    contradiction
  | refuse why p =>
    rw [(refuses_of_refuse hverdict).asked_eq] at h
    contradiction
  | pass p =>
    have hwatched : s.watched.scanner.scan adm s.cursor.restart = _ := Scanner.scan_of_pass hverdict
    have hasked : s.asked adm = [(adm, p.cursor)] := by
      rw [asked_eq_scan, hwatched]
      rfl
    rw [hasked, List.mem_singleton, Prod.mk.injEq] at h
    exact ⟨h.1, p, rfl, h.2⟩

omit [Embedded σ] in
theorem stop_eq_pos_of_ofOutcome {outcome : Outcome} {cur : Cursor} {symbol : Symbol} {span : Span}
    {reach : Nat} (h : Reply.ofOutcome outcome cur = .token symbol span reach)
    (hmarked : cur.marked = none)
    : span.stop = cur.pos := by
  cases outcome with
  | decline => contradiction
  | commit symbol' =>
    injection h with _ hspan _
    rw [← hspan]
    unfold Cursor.tokenSpan Cursor.tokenRest
    rw [hmarked]
    rfl

/--
The embedded scanner is given a clean cursor. No end of a token is recorded, so a token that it finds
without recording one ends where it has left the cursor. The host accepts no body of a raw element,
and what the rules have passed over is white space before the token, or else text without a tag, a
quotation mark or an `@`, except for one at its very end.
-/
theorem asked_with_clean_cursor (s : Session σ) (adm : Admissible) {table : Admissible}
    {cur : Cursor} (hs : s.cursor.InText) (hasked : (table, cur) ∈ s.asked adm)
    : table = adm
        ∧ s.LeavesClean adm cur
        ∧ ∀ symbol span reach, (s.call adm).1 = .token symbol span reach →
            let last := (Embedded.scan s.scanner.embedded adm cur).2.2
            last.marked = cur.marked → span.stop = last.pos := by
  rcases exists_pass_of_mem_asked hasked with ⟨htable, p, hpass, rfl⟩
  have hclean := leavesClean_of_pass hs hpass
  refine ⟨htable, hclean, ?_⟩
  intro symbol span reach hreply last hunmarked
  rw [call_reply, Scanner.scan_of_pass hpass] at hreply
  apply stop_eq_pos_of_ofOutcome hreply
  rw [hunmarked]
  exact hclean.marked_eq

theorem asked_with_clean_cursor_behind_blanks_or_at
    : let adm : Admissible := .ofSymbols [⟨0⟩, Kind.textWithAt.symbol, Kind.regionClose.symbol]
      let blank := ['}', ' ', '\u2003', 'x']
      let code : Session Letterwise := ⟨⟨.ready, ⟨[.brace]⟩⟩, (Cursor.ofText blank).next⟩
      let atCode : Cursor := ⟨blank, ['x'], blank.drop 1, ['x'], none⟩
      let text := ['<', 'é', ' ', 'a', '@', '<']
      let markup : Session Letterwise := ⟨⟨.ready, ∅⟩, (Cursor.ofText text).next⟩
      let atText : Cursor := ⟨text, ['<'], text.drop 1, text.drop 1, none⟩
      (code.asked adm = [(adm, atCode)]
          ∧ code.LeavesClean adm atCode
          ∧ (code.call adm).1 = .token ⟨0⟩ ⟨5, 6⟩ 6
          ∧ atCode.next.pos = 6)
        ∧ markup.asked adm = [(adm, atText)]
          ∧ markup.LeavesClean adm atText
          ∧ (markup.call adm).1 = .token ⟨0⟩ ⟨1, 7⟩ 7
          ∧ atText.next.pos = 7 := by
  intro adm blank code atCode text markup atText
  have hcode : code.asked adm = [(adm, atCode)] := by decide +kernel
  have hcodeToken : (code.call adm).1 = .token ⟨0⟩ ⟨5, 6⟩ 6 := by decide +kernel
  have hmarkup : markup.asked adm = [(adm, atText)] := by decide +kernel
  have hmarkupToken : (markup.call adm).1 = .token ⟨0⟩ ⟨1, 7⟩ 7 := by decide +kernel
  have hcodeAsked : (adm, atCode) ∈ code.asked adm := by
    rw [hcode]
    exact List.mem_singleton_self _
  have hmarkupAsked : (adm, atText) ∈ markup.asked adm := by
    rw [hmarkup]
    exact List.mem_singleton_self _
  rcases asked_with_clean_cursor code adm ⟨['}'], rfl⟩ hcodeAsked
    with ⟨_, hcodeClean, hcodeStop⟩
  rcases asked_with_clean_cursor markup adm ⟨['<'], rfl⟩ hmarkupAsked
    with ⟨_, hmarkupClean, hmarkupStop⟩
  exact ⟨⟨hcode, hcodeClean, hcodeToken, (hcodeStop _ _ _ hcodeToken rfl).symm⟩,
    hmarkup, hmarkupClean, hmarkupToken, (hmarkupStop _ _ _ hmarkupToken rfl).symm⟩

end Session
end RazorTokens
