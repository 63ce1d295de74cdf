import RazorTokens.Proofs.Contract
import RazorTokens.Proofs.Locality
import RazorTokens.Proofs.Resumption

/-!
This module shows that tokens lead forward. A token that the template scanner finds is never empty,
it lies between the start of the call and the place that the scanner has reached, and the next call
begins at its end. So the tokens of a session follow each other in the text.
-/

namespace RazorTokens

namespace Cursor

def HasToken (cur : Cursor) : Prop :=
  ∃ text, text ≠ [] ∧ text ++ cur.tokenRest = cur.start

end Cursor

namespace Place

structure Unmarked (p : Place) : Prop where
  ahead_suffix : p.ahead <:+ p.cursor.start
  marked_eq : p.cursor.marked = none

namespace Unmarked

variable {p : Place} {rest : List Char} (h : p.Unmarked)
include h

theorem moveTo (hrest : rest <:+ p.ahead) : (p.moveTo rest).Unmarked where
  ahead_suffix := hrest.trans h.ahead_suffix
  marked_eq := h.marked_eq

theorem skipBlanks : p.skipBlanks.Unmarked := by
  unfold Place.skipBlanks Cursor.skipBlanks
  split
  · constructor
    · apply List.suffix_refl
    · exact h.marked_eq
  · exact h

theorem hasToken {q : Place} (hstart : q.cursor.start = p.cursor.start)
    (hrest : q.cursor.tokenRest <:+ p.ahead) (hne : q.cursor.tokenRest ≠ p.ahead)
    : q.cursor.HasToken := by
  rcases hrest with ⟨text, htext⟩
  rcases h.ahead_suffix with ⟨gap, hgap⟩
  refine ⟨gap ++ text, ?_, ?_⟩
  · intro hnil
    simp only [List.append_eq_nil_iff] at hnil
    apply hne
    simpa [hnil.2] using htext
  · rw [hstart, ← hgap, ← htext, List.append_assoc]

theorem hasToken_markAt {ahead : List Char} (hrest : rest <:+ p.ahead) (hne : rest ≠ p.ahead)
    : ((p.moveTo ahead).markAt rest).cursor.HasToken := by
  apply h.hasToken
  · rfl
  · exact hrest
  · exact hne

theorem hasToken_moveTo {c : Char} {s : List Char} (hahead : p.ahead = c :: s) (hrest : rest <:+ s)
    : (p.moveTo rest).cursor.HasToken := by
  have htoken : (p.moveTo rest).cursor.tokenRest = rest := by
    unfold Cursor.tokenRest
    simp only [Place.moveTo, Cursor.moveTo, h.marked_eq, Option.getD_none]
  apply h.hasToken
  · rfl
  · rw [htoken, hahead]
    apply hrest.trans
    apply List.suffix_cons
  · rw [htoken, hahead]
    apply ne_cons_of_suffix
    exact hrest

end Unmarked
end Place

def Verdict.Yields : Verdict → Prop
  | emit _ q => q.cursor.HasToken
  | refuse _ _ => True
  | pass q => q.Unmarked

namespace Rule

def progress : Contract where
  relies := Place.Unmarked
  ensures _ := Verdict.Yields
  ensures_pass hp := hp
  relies_of_pass _ hq := hq
  ensures_trans _ hverdict := hverdict

theorem Address.afterSegments_ne {s : List Char} (h : (afterSegment? s).isSome)
    : (afterSegments s).dropWhile isPlain ≠ s := by
  intro heq
  rw [Option.isSome_iff_exists] at h
  rcases h with ⟨rest, hrest⟩
  have hlength := length_lt_of_afterSegment? hrest
  have hsegments := (afterSegments_suffix rest).length_le
  have hplain := (List.dropWhile_suffix isPlain : _ <:+ afterSegments rest).length_le
  rw [afterSegments_of_some hrest] at heq
  rw [heq] at hplain
  omega

theorem yields_address : progress.Meets address := by
  intro p hp
  unfold address
  dsimp only
  split
  · next hsegment =>
    apply hp.hasToken_markAt
    · apply (List.dropWhile_suffix _).trans
      apply Address.afterSegments_suffix
    · apply Address.afterSegments_ne
      exact hsegment
  · apply hp.moveTo
    apply Address.giveUp_suffix

theorem yields_prose : progress.Meets prose := by
  intro p hp
  have hrest := Prose.afterText_suffix true p.ahead
  unfold prose
  dsimp only
  split
  · split
    · trivial
    · next hne => exact hp.hasToken_markAt hrest hne
  · split
    · exact hp
    · next hne => exact hp.hasToken_markAt hrest hne

theorem yields_regionStart (adm : Admissible) : progress.Meets (regionStart adm) := by
  intro p hp
  unfold regionStart
  split
  · next hahead =>
    split
    · split
      · next hopening =>
        apply hp.hasToken_moveTo hahead
        exact suffix_of_opening? hopening
      · trivial
    · exact hp
  · exact hp

theorem yields_blockOpen : progress.Meets blockOpen := by
  intro p hp
  unfold blockOpen
  dsimp only
  split
  · next hahead =>
    apply hp.skipBlanks.hasToken_moveTo hahead
    apply List.suffix_refl
  · exact hp.skipBlanks

theorem yields_regionClose : progress.Meets regionClose := by
  intro p hp
  unfold regionClose
  dsimp only
  split
  · exact hp.skipBlanks
  · next hahead =>
    split
    · apply hp.skipBlanks.hasToken_moveTo hahead
      apply List.suffix_refl
    · exact hp.skipBlanks

theorem yields_comment : progress.Meets comment := by
  intro p hp
  unfold comment
  split
  · next hahead =>
    apply hp.hasToken_moveTo hahead
    apply (List.dropWhile_suffix _).trans
    apply List.suffix_cons
  · next hahead =>
    apply hp.hasToken_moveTo hahead
    apply (Trivia.afterBlock_suffix _).trans
    apply List.suffix_cons
  · trivial
  · exact hp

theorem yields_directive : progress.Meets directive := by
  intro p hp
  unfold directive
  split
  · next hahead =>
    apply hp.hasToken_moveTo hahead
    apply (Trivia.afterNewline_suffix _).trans
    apply List.dropWhile_suffix
  · exact hp

theorem yields_verbatim (e : RawElement) : progress.Meets (verbatim e) := by
  intro p hp
  unfold verbatim
  split
  · trivial
  · trivial
  · next hnil hangle =>
    split
    · next closing behind hfind =>
      rcases Verbatim.exists_tag_of_findClosing? (isEitherCase_letters_eq_false e) hfind
        with ⟨before, tag, hahead, hclosing⟩
      apply hp.hasToken_markAt
      · rw [hahead]
        apply List.suffix_append
      · -- The body does not begin with a closing tag, because it does not begin with `<` at all.
        intro heq
        apply hangle (tag ++ behind)
        rw [← heq, hclosing]
        rfl
    · apply hp.hasToken_markAt
      · apply List.nil_suffix
      · intro heq
        exact hnil heq.symm

theorem yields_template (adm : Admissible) : progress.Meets (template adm) := by
  apply progress.meets_template
  · exact fun p hp _ _ => yields_address p hp
  · exact fun p hp _ _ => yields_prose p hp
  · exact yields_regionStart adm
  · exact fun p hp _ => yields_blockOpen p hp
  · exact fun p hp _ _ => yields_regionClose p hp
  · exact fun p hp _ _ => yields_comment p hp
  · exact fun p hp _ _ => yields_directive p hp
  · exact fun e p hp _ => yields_verbatim e p hp

end Rule

namespace Cursor

variable {cur : Cursor}

theorem HasToken.offset_start_lt (h : cur.HasToken) (hord : cur.Ordered)
    : cur.offset cur.start < cur.offset cur.tokenRest := by
  rcases h with ⟨text, htext, hstart⟩
  have hsource := hord.start_suffix.trans hord.origin_suffix
  rw [← hstart] at hsource ⊢
  exact offset_lt_offset_append htext hsource

theorem HasToken.tokenSpan_start (h : cur.HasToken) (hord : cur.Ordered)
    : cur.tokenSpan.start = cur.offset cur.start := by
  have := h.offset_start_lt hord
  unfold tokenSpan startPos
  dsimp only
  omega

theorem pos_rewind (cur : Cursor)
    : cur.rewind.pos = byteSize cur.source - byteSize cur.origin := rfl

theorem Ordered.ahead_suffix_tokenRest (hord : cur.Ordered) : cur.ahead <:+ cur.tokenRest := by
  unfold tokenRest
  cases hmarked : cur.marked with
  | none => apply List.suffix_refl
  | some rest => exact (hord.marked_suffix rest hmarked).2

end Cursor

namespace Session

variable {σ : Type}

structure StepsOver (s : Session σ) (span : Span) (reach : Nat) (after : Session σ) : Prop where
  pos_le_start : s.cursor.pos ≤ span.start
  start_lt_stop : span.start < span.stop
  stop_le_reach : span.stop ≤ reach
  reach_le : reach ≤ byteSize s.cursor.source
  isBoundary_start : IsBoundary s.cursor.source span.start
  isBoundary_stop : IsBoundary s.cursor.source span.stop
  pos_after : after.cursor.pos = span.stop

theorem stepsOver_of_emit {s after : Session σ} {adm : Admissible} {kind : Kind} {p : Place}
    (hs : s.cursor.InText)
    (hverdict : Rule.template adm ⟨s.cursor.restart, s.scanner.nesting⟩ = .emit kind p)
    (hafter : after.cursor = p.cursor.commit.2)
    : s.StepsOver p.cursor.tokenSpan p.cursor.pos after := by
  have honward := Rule.advances_template adm ⟨s.cursor.restart, s.scanner.nesting⟩
  have hyields := Rule.yields_template adm ⟨s.cursor.restart, s.scanner.nesting⟩
    ⟨List.suffix_refl _, rfl⟩
  rw [hverdict] at honward hyields
  have hord : p.cursor.Ordered := honward.ordered (Cursor.ordered_restart hs)
  have htoken : p.cursor.HasToken := hyields
  have hsource : p.cursor.source = s.cursor.source := honward.source_eq
  have horigin : p.cursor.origin = s.cursor.ahead := honward.origin_eq
  have hstart := htoken.tokenSpan_start hord
  constructor
  · rw [hstart]
    have : s.cursor.pos = p.cursor.offset s.cursor.ahead := by
      unfold Cursor.pos Cursor.offset
      rw [hsource]
    rw [this]
    apply Cursor.offset_le_offset
    rw [← horigin]
    exact hord.start_suffix
  · rw [hstart]
    exact htoken.offset_start_lt hord
  · apply Cursor.offset_le_offset
    exact hord.ahead_suffix_tokenRest
  · rw [← hsource]
    apply Cursor.offset_le
  · rw [hstart, ← hsource]
    apply Cursor.isBoundary_offset
    exact hord.start_suffix.trans hord.origin_suffix
  · rw [← hsource]
    apply Cursor.isBoundary_offset
    exact hord.tokenRest_suffix.trans hord.origin_suffix
  · rw [hafter]
    rfl

theorem stepsOver_of_call [Embedded σ] {s after : Session σ} {adm : Admissible} {symbol : Symbol}
    {span : Span} {reach : Nat} {log : List Event} (hs : s.cursor.InText)
    (hcall : s.call adm = (.token symbol span reach, after, log))
    (hown : ¬ s.scanner.Delegates adm s.cursor.restart)
    : s.StepsOver span reach after := by
  cases houtcome : (s.scanner.scan adm s.cursor.restart).outcome with
  | decline =>
    rw [call_of_decline houtcome] at hcall
    cases hcall
  | commit symbol' =>
    rcases Scanner.exists_emit_of_commit houtcome hown with ⟨kind, p, hverdict, _⟩
    rw [call_of_emit hverdict] at hcall
    cases hcall
    apply stepsOver_of_emit hs hverdict
    rfl

end Session

def Sight.span? (sight : Sight) : Option Span :=
  match sight.reply? with
  | some (.token _ span _) => some span
  | _ => none

namespace Session

theorem inText_call {s : Session CodeState} (hs : s.cursor.InText) (adm : Admissible)
    : (s.call adm).2.1.cursor.InText := by
  have honward := s.scanner.onward_scan adm s.cursor.restart
  have hord := honward.ordered (Cursor.ordered_restart hs)
  cases houtcome : (s.scanner.scan adm s.cursor.restart).outcome with
  | commit symbol =>
    rw [call_of_commit houtcome]
    exact hord.tokenRest_suffix.trans hord.origin_suffix
  | decline =>
    rw [call_of_decline houtcome]
    exact hord.origin_suffix

theorem pos_call_of_decline {s : Session CodeState} {adm : Admissible}
    (h : (s.scanner.scan adm s.cursor.restart).outcome = .decline)
    : (s.call adm).2.1.cursor.pos = s.cursor.pos := by
  have honward := s.scanner.onward_scan adm s.cursor.restart
  rw [call_of_decline h]
  dsimp only
  rw [Cursor.pos_rewind, honward.source_eq, honward.origin_eq]
  rfl

structure MovesOn (s : Session CodeState) (sight : Sight) (after : Session CodeState) : Prop where
  inText : after.cursor.InText
  count : s.cursor.pos + sight.span?.toList.length ≤ after.cursor.pos
  token : ∀ span ∈ sight.span?.toList,
    s.cursor.pos ≤ span.start ∧ span.start < span.stop ∧ span.stop = after.cursor.pos

theorem movesOn_call {s : Session CodeState} (hs : s.cursor.InText) (adm : Admissible)
    : s.MovesOn (s.move (.call adm)).1 (s.move (.call adm)).2 := by
  cases houtcome : (s.scanner.scan adm s.cursor.restart).outcome with
  | commit symbol =>
    have hstep := stepsOver_of_call hs (call_of_commit houtcome)
      (Scanner.not_delegates_of_commit houtcome)
    have hstart := hstep.pos_le_start
    have hstop := hstep.start_lt_stop
    have hafter := hstep.pos_after
    dsimp only at hafter
    constructor
    · exact inText_call hs adm
    · simp [move, call_of_commit houtcome, Sight.span?]
      omega
    · simp [move, call_of_commit houtcome, Sight.span?]
      omega
  | decline =>
    have hpos : (s.move (.call adm)).2.cursor.pos = s.cursor.pos := pos_call_of_decline houtcome
    constructor
    · exact inText_call hs adm
    · rw [hpos]
      simp [move, call_of_decline houtcome, Sight.span?]
    · simp [move, call_of_decline houtcome, Sight.span?]

theorem movesOn_next {s : Session CodeState} (hs : s.cursor.InText)
    : s.MovesOn (s.move .next).1 (s.move .next).2 := by
  constructor
  · exact (List.tail_suffix _).trans hs
  · apply Cursor.offset_le_offset
    apply List.tail_suffix
  · simp [move, Sight.span?]

theorem movesOn_move {s : Session CodeState} (hs : s.cursor.InText) (m : Move)
    : s.MovesOn (s.move m).1 (s.move m).2 := by
  cases m with
  | call adm => exact movesOn_call hs adm
  | next => exact movesOn_next hs

theorem cursor_reloadIf (s : Session CodeState) (buffer? : Option Bytes)
    : (s.reloadIf buffer?).cursor = s.cursor := by
  cases buffer? with
  | none => rfl
  | some buffer => rfl

end Session

namespace Course

def spans {σ : Type} (c : Course σ) : List Span :=
  (c.seen.filterMap Sight.span?).reverse

structure InOrder (first : Nat) (c : Course CodeState) : Prop where
  inText : c.session.cursor.InText
  count : first + c.spans.length ≤ c.session.cursor.pos
  start_lt_stop : ∀ span ∈ c.spans, span.start < span.stop
  stop_le_pos : ∀ span ∈ c.spans, span.stop ≤ c.session.cursor.pos
  disjoint : c.spans.Pairwise fun earlier later => earlier.stop ≤ later.start

variable {host : Host CodeState} {c : Course CodeState} {first : Nat}

theorem spans_cons (c : Course CodeState) (sight : Sight) (after : Session CodeState)
    : spans ⟨sight :: c.seen, after⟩ = c.spans ++ sight.span?.toList := by
  unfold spans
  rw [List.filterMap_cons]
  cases sight.span? with
  | none => simp
  | some span => simp

theorem InOrder.append {sight : Sight} {after : Session CodeState} (h : c.InOrder first)
    (hmove : c.session.MovesOn sight after)
    : InOrder first ⟨sight :: c.seen, after⟩ := by
  have hcount := hmove.count
  constructor
  · exact hmove.inText
  · have := h.count
    simp only [spans_cons, List.length_append]
    omega
  · simp only [spans_cons, List.forall_mem_append]
    refine ⟨h.start_lt_stop, ?_⟩
    intro span hspan
    exact (hmove.token span hspan).2.1
  · simp only [spans_cons, List.forall_mem_append]
    constructor
    · intro span hspan
      have := h.stop_le_pos span hspan
      omega
    · intro span hspan
      have := hmove.token span hspan
      omega
  · rw [spans_cons, List.pairwise_append]
    refine ⟨h.disjoint, ?_, ?_⟩
    · cases sight.span? <;> simp
    · intro earlier hearlier later hlater
      have := h.stop_le_pos earlier hearlier
      have := hmove.token later hlater
      omega

theorem InOrder.turn (h : c.InOrder first) (buffer? : Option Bytes)
    : (c.turn host buffer?).InOrder first := by
  -- A reload changes nothing but the scanner, and none of the conditions speaks about the scanner.
  have hcursor := c.session.cursor_reloadIf buffer?
  have hreload : InOrder first ⟨c.seen, c.session.reloadIf buffer?⟩ := by
    constructor
    · rw [hcursor]
      exact h.inText
    · rw [hcursor]
      exact h.count
    · exact h.start_lt_stop
    · rw [hcursor]
      exact h.stop_le_pos
    · exact h.disjoint
  apply hreload.append
  apply Session.movesOn_move
  exact hreload.inText

theorem InOrder.run (h : c.InOrder first) (schedule : List (Option Bytes))
    : (c.run host schedule).InOrder first := by
  induction schedule generalizing c with
  | nil => exact h
  | cons buffer? schedule ih =>
    rw [run_cons]
    apply ih
    exact h.turn buffer?

theorem inOrder_of_seen_eq_nil (hseen : c.seen = []) (hc : c.session.cursor.InText)
    : c.InOrder c.session.cursor.pos := by
  have hspans : c.spans = [] := by
    simp [spans, hseen]
  constructor
  · exact hc
  · simp [hspans]
  · simp [hspans]
  · simp [hspans]
  · simp [hspans]

theorem InOrder.increasing (h : c.InOrder first)
    : c.spans.Pairwise fun earlier later =>
        earlier.stop ≤ later.start ∧ earlier.start < later.start ∧ earlier.stop < later.stop := by
  apply h.disjoint.imp_of_mem
  intro earlier later hearlier hlater hdisjoint
  have := h.start_lt_stop earlier hearlier
  have := h.start_lt_stop later hlater
  omega

/--
Tokens lead forward. A token that is not left to the embedded scanner is not empty, lies between the
start of the call and the place that the scanner has reached, and the session goes on at its end.
Hence the tokens of any session are not empty, do not overlap and get further in the text with each
call, and there are at most as many of them as the session has passed over bytes.
-/
theorem tokens_lead_forward
    : (∀ (σ : Type) [Embedded σ] (s after : Session σ) (adm : Admissible) (symbol : Symbol)
        (span : Span) (reach : Nat) (log : List Event),
        s.cursor.InText
          → s.call adm = (.token symbol span reach, after, log)
          → ¬ s.scanner.Delegates adm s.cursor.restart
          → s.StepsOver span reach after)
        ∧
      (∀ (host : Host CodeState) (c : Course CodeState) (schedule : List (Option Bytes)),
        c.seen = []
          → c.session.cursor.InText
          → let last := c.run host schedule
            (∀ span ∈ last.spans, span.start < span.stop)
              ∧ (last.spans.Pairwise fun earlier later =>
                  earlier.stop ≤ later.start ∧ earlier.start < later.start
                    ∧ earlier.stop < later.stop)
              ∧ c.session.cursor.pos + last.spans.length ≤ last.session.cursor.pos) := by
  constructor
  · intro σ _ s after adm symbol span reach log hs hcall hown
    exact Session.stepsOver_of_call hs hcall hown
  · intro host c schedule hseen hc last
    have hlast : last.InOrder c.session.cursor.pos := (inOrder_of_seen_eq_nil hseen hc).run schedule
    exact ⟨hlast.start_lt_stop, hlast.increasing, hlast.count⟩

theorem tokens_lead_forward_past_blanks
    : let source := ['é', '@', '{', ' ', '}', '@', '{']
      let s : Session CodeState := ⟨⟨{}, ⟨[.brace]⟩⟩, ⟨source, [' ', '}', '@', '{'], [], [], none⟩⟩
      let adm : Admissible := .ofSymbols [Kind.regionClose.symbol]
      let c : Course CodeState := ⟨[], ⟨⟨{}, ∅⟩, (Cursor.ofText source).next⟩⟩
      let last := c.run bracketHost [none, none, none]
      (s.call adm).1 = .token Kind.regionClose.symbol ⟨5, 6⟩ 6
        ∧ s.StepsOver ⟨5, 6⟩ 6 (s.call adm).2.1
        ∧ last.spans = [⟨2, 4⟩, ⟨5, 6⟩, ⟨6, 8⟩]
        ∧ last.spans.Pairwise fun earlier later =>
            earlier.stop ≤ later.start ∧ earlier.start < later.start
              ∧ earlier.stop < later.stop := by
  intro source s adm c last
  have hcommit : (s.scanner.scan adm s.cursor.restart).outcome = .commit Kind.regionClose.symbol :=
    rfl
  have hcall : s.call adm
      = (.token Kind.regionClose.symbol ⟨5, 6⟩ 6, (s.call adm).2.1, (s.call adm).2.2) := rfl
  refine ⟨by rw [hcall], ?_, by decide +kernel, ?_⟩
  · exact tokens_lead_forward.1 CodeState s _ adm _ _ _ _ ⟨['é', '@', '{'], rfl⟩ hcall
      (Scanner.not_delegates_of_commit hcommit)
  · exact (tokens_lead_forward.2 bracketHost c [none, none, none] rfl ⟨['é'], rfl⟩).2.1

end Course
end RazorTokens
