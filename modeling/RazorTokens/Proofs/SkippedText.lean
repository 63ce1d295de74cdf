import RazorTokens.Proofs.LiteralAt
import RazorTokens.Proofs.Progress
import RazorTokens.Proofs.Transitions

/-!
This module says what a call may skip before its token. Where a region is open or the host accepts
no text with a literal `@`, only white space is skipped, and only by the rules for bare brackets.
-/

namespace RazorTokens

def Kind.unskipped : List Kind :=
  [markupText, codeBlockStart, expressionStart]

structure Skipped (adm : Admissible) (n : Nesting) (kind : Kind) (skipped token : List Char)
    : Prop where
  isBlank_of_mem : ∀ c ∈ skipped, Alphabet.isBlank c
  asked : skipped ≠ [] → adm.allows .blockOpen ∨ n ≠ ∅ ∧ adm.allows .regionClose
  eq_nil : kind ∈ Kind.unskipped → skipped = []
  longest : skipped ≠ [] → ∃ c, token.head? = some c ∧ Alphabet.isBlank c = false

namespace Skipped

variable {adm : Admissible} {n : Nesting} {kind : Kind}

theorem nil (adm : Admissible) (n : Nesting) (kind : Kind) (token : List Char)
    : Skipped adm n kind [] token where
  isBlank_of_mem := by simp
  asked h := absurd rfl h
  eq_nil _ := rfl
  longest h := absurd rfl h

theorem takeWhile {text token rest : List Char} (hkind : kind ∉ Kind.unskipped)
    (hasked : adm.allows .blockOpen ∨ n ≠ ∅ ∧ adm.allows .regionClose) (hne : token ≠ [])
    (h : token ++ rest = text.dropWhile Alphabet.isBlank)
    : Skipped adm n kind (text.takeWhile Alphabet.isBlank) token where
  isBlank_of_mem _ := List.mem_takeWhile_imp
  asked _ := hasked
  eq_nil hmem := absurd hmem hkind
  longest _ := by
    rcases List.exists_cons_of_ne_nil hne with ⟨c, token, rfl⟩
    exact ⟨c, rfl, eq_false_of_dropWhile_eq_cons h.symm⟩

end Skipped

namespace Rule

def steady : Contract where
  relies _ := True
  ensures p verdict := verdict.place.cursor.start = p.cursor.start
  ensures_pass _ := rfl
  relies_of_pass _ _ := trivial
  ensures_trans hpass hverdict := hverdict.trans hpass

theorem steady_comment : steady.Meets comment := by
  intro p _
  unfold comment
  split <;> rfl

theorem steady_directive : steady.Meets directive := by
  intro p _
  unfold directive
  split <;> rfl

theorem steady_verbatim (e : RawElement) : steady.Meets (verbatim e) := by
  intro p _
  unfold verbatim
  split
  · rfl
  · rfl
  · split <;> rfl

theorem steady_behindBrackets (adm : Admissible) : steady.Meets (behindBrackets adm) := by
  apply steady.meets_inOrder
  simp only [all, List.drop_succ_cons, List.drop_zero, List.forall_mem_cons]
  refine ⟨?_, ?_, ?_, ?_⟩
  · exact steady.meets_inCode fun p hp _ _ => steady_comment p hp
  · exact steady.meets_inCode fun p hp _ _ => steady_directive p hp
  · exact steady.meets_rawBody fun e p hp _ => steady_verbatim e p hp
  · intro r hr
    contradiction

variable {adm : Admissible} {p q : Place} {kind : Kind}

theorem prose_or_behindText (hquiet : p.nesting ≠ ∅ ∨ adm.allows .textWithAt = false)
    (h : template adm p = .emit kind q)
    : prose p = .emit kind q ∨ behindText adm p = .emit kind q := by
  cases hmarkup : p.nesting.isMarkup with
  | false =>
    rw [template_of_quiet (.inl (Nesting.isMarkup_eq_false_iff.mp hmarkup))] at h
    exact .inr h
  | true =>
    have hat : adm.allows .textWithAt = false := by
      apply hquiet.resolve_left
      rw [Nesting.isMarkup_iff.mp hmarkup]
      simp
    have hsilent : ifAllowed adm .textWithAt address p = .pass p := by
      unfold ifAllowed
      rw [onlyIf_of_false _ hat]
      rfl
    rw [template_of_markup hmarkup, andThen_of_pass hsilent] at h
    rcases andThen_eq_emit h with hprose | ⟨p', hpass, hbehind⟩
    · exact .inl (ifAllowed_eq_emit hprose).2
    · rw [eq_of_onlyIf_eq_pass eq_of_prose_eq_pass hpass] at hbehind
      exact .inr hbehind

/--
The token starts where the call began, or behind the white space that the rules for bare brackets
have skipped.
-/
theorem start_of_template (hquiet : p.nesting ≠ ∅ ∨ adm.allows .textWithAt = false)
    (h : template adm p = .emit kind q)
    : q.cursor.start
        =
      if kind ∈ Kind.unskipped then p.cursor.start else (p.trim adm).cursor.start := by
  rcases prose_or_behindText hquiet h with hprose | hbehind
  · rcases exists_taken_of_prose hprose with ⟨rfl, taken, rest, reach, _, rfl, _⟩
    rfl
  · rcases behindText_eq_emit hbehind
      with ⟨c, rest, region, _, hopened, rfl⟩ | hbracket | hbehind
    · rcases openedBy?_eq_some hopened with ⟨_, _, rfl, _⟩ | ⟨_, _, rfl, _⟩ <;> rfl
    · cases hbracket with
      | opens hallowed _ =>
        rw [if_neg (by decide)]
        unfold Place.trim
        rw [hallowed]
        rfl
      | closes hallowed hn _ =>
        rw [if_neg (by decide)]
        unfold Place.trim
        rw [hallowed, hn, Bool.and_true, if_pos]
        · rfl
        · simp [Nesting.isMarkup, Nesting.push]
    · have hsteady := steady_behindBrackets adm (p.trim adm) trivial
      rw [hbehind] at hsteady
      have hstart : q.cursor.start = (p.trim adm).cursor.start := hsteady
      rw [hstart, if_neg]
      rcases behindBrackets_eq_emit hbehind with ⟨rfl, _⟩ | ⟨rfl, _⟩ | ⟨e, rfl⟩
      · decide
      · decide
      · simp [Kind.unskipped]

theorem exists_skipped_of_template {token rest : List Char}
    (hquiet : p.nesting ≠ ∅ ∨ adm.allows .textWithAt = false) (hstart : p.cursor.start = p.ahead)
    (h : template adm p = .emit kind q) (hne : token ≠ []) (htoken : token ++ rest = q.cursor.start)
    : ∃ skipped, p.ahead = skipped ++ (token ++ rest)
        ∧ Skipped adm p.nesting kind skipped token := by
  rw [start_of_template hquiet h] at htoken
  split at htoken
  · refine ⟨[], ?_, .nil ..⟩
    rw [htoken, hstart]
    rfl
  · next hkind =>
    unfold Place.trim at htoken
    split at htoken
    · next hasked =>
      rw [Bool.or_eq_true, Bool.and_eq_true, Bool.not_eq_true', Nesting.isMarkup_eq_false_iff]
        at hasked
      rw [Place.skipBlanks_eq hstart] at htoken
      refine ⟨p.ahead.takeWhile Alphabet.isBlank, ?_, .takeWhile hkind hasked hne htoken⟩
      rw [htoken, List.takeWhile_append_dropWhile]
    · refine ⟨[], ?_, .nil ..⟩
      rw [htoken, hstart]
      rfl

end Rule

namespace Session

variable {σ : Type} [Embedded σ]

/--
No text but white space is lost between the start of a call and its token, where a region is open or
the host accepts no text with a literal `@`. White space is skipped only where the host accepts a
bare bracket, never before text in markup or an `@` that leads into a region, and always all of it.
-/
theorem skipped_before_token (s : Session σ) (adm : Admissible) {kind : Kind} {span : Span}
    {reach : Nat} (hs : s.cursor.InText)
    (hquiet : s.scanner.nesting ≠ ∅ ∨ adm.allows .textWithAt = false)
    (hreply : (s.call adm).1 = .token kind.symbol span reach) (hown : s.asked adm = [])
    : ∃ skipped token,
        s.cursor.textOf? ⟨s.cursor.pos, span.start⟩ = some skipped
          ∧ s.cursor.textOf? span = some token
          ∧ Skipped adm s.scanner.nesting kind skipped token := by
  let p : Place := ⟨s.cursor.restart, s.scanner.nesting⟩
  rcases exists_emit_of_token hreply hown with ⟨q, hemit, rfl⟩
  have honward := Rule.advances_template adm p
  have hyields := Rule.yields_template adm p ⟨List.suffix_refl _, rfl⟩
  rw [hemit] at honward hyields
  have hord : q.cursor.Ordered := honward.ordered (Cursor.ordered_restart hs)
  have hsource : q.cursor.source = s.cursor.source := honward.source_eq
  have htokenStart := Cursor.HasToken.tokenSpan_start hyields hord
  rcases hyields with ⟨token, hne, htoken⟩
  rcases Rule.exists_skipped_of_template (p := p) hquiet rfl hemit hne htoken
    with ⟨skipped, hahead, hskipped⟩
  have hahead : s.cursor.ahead = skipped ++ (token ++ q.cursor.tokenRest) := hahead
  refine ⟨skipped, token, ?_, ?_, hskipped⟩
  · have hstart : q.cursor.tokenSpan.start = s.cursor.offset (token ++ q.cursor.tokenRest) := by
      rw [htokenStart, htoken]
      unfold Cursor.offset
      rw [hsource]
    rcases hs with ⟨before, hbefore⟩
    rw [hstart]
    unfold Cursor.pos
    rw [hahead] at hbefore ⊢
    exact Cursor.textOf?_of_append hbefore
  · have htext := hord.textOf?_tokenSpan htoken
    unfold Cursor.textOf? at htext ⊢
    rw [← hsource]
    exact htext

theorem skipped_before_token_behind_blanks
    : let source := ['é', ' ', '\u2003', '/', '/', '}', '\n']
      let s : Session CodeState := ⟨⟨{}, ⟨[.brace]⟩⟩, (Cursor.ofText source).next⟩
      let adm : Admissible := .ofSymbols [Kind.textWithAt.symbol, Kind.blockOpen.symbol,
        Kind.regionClose.symbol, Kind.comment.symbol]
      s.scanner.nesting ≠ ∅
        ∧ (s.call adm).1 = .token Kind.comment.symbol ⟨6, 9⟩ 9
        ∧ s.asked adm = []
        ∧ s.cursor.textOf? ⟨2, 6⟩ = some [' ', '\u2003']
        ∧ s.cursor.textOf? ⟨6, 9⟩ = some ['/', '/', '}']
        ∧ Skipped adm s.scanner.nesting .comment [' ', '\u2003'] ['/', '/', '}'] := by
  intro source s adm
  have hopen : s.scanner.nesting ≠ ∅ := by decide
  have hreply : (s.call adm).1 = .token Kind.comment.symbol ⟨6, 9⟩ 9 := by decide +kernel
  have hown : s.asked adm = [] := by decide +kernel
  have hblanks : s.cursor.textOf? ⟨2, 6⟩ = some [' ', '\u2003'] := by decide +kernel
  have hcomment : s.cursor.textOf? ⟨6, 9⟩ = some ['/', '/', '}'] := by decide +kernel
  rcases skipped_before_token s adm ⟨['é'], rfl⟩ (.inl hopen) hreply hown
    with ⟨skipped, token, htext, htoken, hskipped⟩
  have hpos : s.cursor.pos = 2 := by decide
  rw [hpos, hblanks] at htext
  rw [hcomment] at htoken
  cases htext
  cases htoken
  exact ⟨hopen, hreply, hown, hblanks, hcomment, hskipped⟩

end Session
end RazorTokens
