import RazorTokens.Proofs.Brackets

/-!
This module shows how a call ends. Either a rule of the template scanner finds a token, or one of
them refuses the call, or the embedded scanner is asked, exactly once. The events of the call tell
which of the three it was, and a call that finds no token leaves everything as it was before.
-/

namespace RazorTokens

/--
An embedded scanner under watch. It does what the scanner inside does, and keeps a record of the
tables that it was asked with and of the cursors that it was given.
-/
structure Watched (σ : Type) where
  inner : σ
  asked : List (Admissible × Cursor) := []

instance {σ : Type} [Embedded σ] : Embedded (Watched σ) where
  initial := ⟨Embedded.initial, []⟩
  scan w adm cur :=
    let (outcome, inner, cur') := Embedded.scan w.inner adm cur
    (outcome, ⟨inner, w.asked ++ [(adm, cur)]⟩, cur')
  save w := Embedded.save w.inner
  load w bytes := { w with inner := Embedded.load w.inner bytes }
  length_save w := Embedded.length_save w.inner

def Event.report (event : Event) : Level × String × List (String × String) :=
  (event.level, event.message, event.fields)

namespace Rule

def beforeRaw (adm : Admissible) : Rule :=
  inOrder (all adm).dropLast

theorem template_eq_andThen_rawBody (adm : Admissible)
    : template adm = andThen (beforeRaw adm) (rawBody adm) := by
  unfold beforeRaw
  rw [← inOrder_concat]
  rfl

def markupBodyAt? (adm : Admissible) (p : Place) : Option RawElement :=
  match beforeRaw adm p with
  | .pass q => if q.cursor.isAt '<' then adm.rawElement? else none
  | _ => none

end Rule

def Verdict.SparesBody : Verdict → Prop
  | refuse why _ => ∀ e, why ≠ .markupBody e
  | _ => True

namespace Rule

def sparing : Contract :=
  .ofVerdict Verdict.SparesBody fun _ => trivial

theorem spares_address : sparing.Meets address := by
  intro p _
  unfold address
  dsimp only
  split <;> trivial

theorem spares_prose : sparing.Meets prose := by
  intro p _
  unfold prose
  dsimp only
  split
  · split
    · intro e heq
      contradiction
    · trivial
  · split <;> trivial

theorem spares_regionStart (adm : Admissible) : sparing.Meets (regionStart adm) := by
  intro p _
  unfold regionStart
  split
  · split
    · split
      · trivial
      · intro e heq
        contradiction
    · trivial
  · trivial

theorem spares_blockOpen : sparing.Meets blockOpen := by
  intro p _
  unfold blockOpen
  dsimp only
  split <;> trivial

theorem spares_regionClose : sparing.Meets regionClose := by
  intro p _
  unfold regionClose
  dsimp only
  split
  · trivial
  · split <;> trivial

theorem spares_comment : sparing.Meets comment := by
  intro p _
  unfold comment
  split
  · trivial
  · trivial
  · intro e heq
    contradiction
  · trivial

theorem spares_directive : sparing.Meets directive := by
  intro p _
  unfold directive
  split <;> trivial

theorem spares_beforeRaw (adm : Admissible) : sparing.Meets (beforeRaw adm) := by
  apply sparing.meets_inOrder
  simp only [all, List.dropLast_cons_cons, List.dropLast_singleton, List.forall_mem_cons]
  refine ⟨?_, ?_, ?_, ?_, ?_, ?_, ?_, ?_⟩
  · exact sparing.meets_inMarkup fun p hp _ _ => spares_address p hp
  · exact sparing.meets_inMarkup fun p hp _ _ => spares_prose p hp
  · exact spares_regionStart adm
  · exact sparing.meets_ifAllowed fun p hp _ => spares_blockOpen p hp
  · exact sparing.meets_inCode fun p hp _ _ => spares_regionClose p hp
  · exact sparing.meets_inCode fun p hp _ _ => spares_comment p hp
  · exact sparing.meets_inCode fun p hp _ _ => spares_directive p hp
  · intro r hr
    contradiction

theorem events_of_rawBody {adm : Admissible} {p q : Place} {why : Refusal}
    (h : rawBody adm p = .refuse why q) (depth : Nat)
    : why.events depth
        =
      (if p.cursor.isAt '<' then adm.rawElement? else none).toList.map .markupBody
        ++ [.declined depth] := by
  unfold rawBody at h
  unfold Cursor.isAt Cursor.peek?
  cases helement : adm.rawElement? with
  | none =>
    rw [helement] at h
    contradiction
  | some e =>
    rw [helement] at h
    dsimp only at h
    cases hahead : p.ahead with
    | nil =>
      have : p.cursor.ahead = [] := hahead
      rw [verbatim_of_nil e hahead] at h
      cases h
      simp [this, Refusal.events]
    | cons c rest =>
      have : p.cursor.ahead = c :: rest := hahead
      by_cases hc : c = '<'
      · subst hc
        rw [verbatim_of_angle e hahead] at h
        cases h
        simp [this, Refusal.events]
      · rw [verbatim_of_ne_angle e hahead hc] at h
        split at h <;> contradiction

theorem events_of_refuse {adm : Admissible} {p q : Place} {why : Refusal}
    (h : template adm p = .refuse why q) (depth : Nat)
    : why.events depth
        =
      (markupBodyAt? adm p).toList.map .markupBody ++ [.declined depth] := by
  have hspares := spares_beforeRaw adm p trivial
  rw [template_eq_andThen_rawBody] at h
  unfold andThen at h
  unfold markupBodyAt?
  cases hbefore : beforeRaw adm p with
  | emit kind r =>
    rw [hbefore] at h
    contradiction
  | refuse why' r =>
    rw [hbefore] at h hspares
    cases h
    cases why with
    | markupBody e => exact absurd rfl (hspares e)
    | _ => rfl
  | pass r =>
    rw [hbefore] at h
    exact events_of_rawBody h depth

end Rule

theorem Kind.eq_of_symbol_eq {kind kind' : Kind} (h : kind.symbol = kind'.symbol)
    : kind = kind' := by
  have hkind := ofSymbol?_symbol kind
  rw [h, ofSymbol?_symbol] at hkind
  injection hkind with hkind
  exact hkind.symm

inductive Ending where
  | committed (kind : Kind)
  | refused
  | delegated
  deriving DecidableEq, Repr

namespace Session

variable {σ : Type} [Embedded σ]

def watched (s : Session σ) : Session (Watched σ) :=
  ⟨⟨⟨s.scanner.embedded, []⟩, s.scanner.nesting⟩, s.cursor⟩

def unwatched (s : Session (Watched σ)) : Session σ :=
  ⟨⟨s.scanner.embedded.inner, s.scanner.nesting⟩, s.cursor⟩

def asked (s : Session σ) (adm : Admissible) : List (Admissible × Cursor) :=
  (s.watched.call adm).2.1.scanner.embedded.asked

/--
A rule finds a token of the kind. This is told together with the depth behind the token, and the
embedded scanner is left alone.
-/
structure Commits (s : Session σ) (adm : Admissible) (kind : Kind) : Prop where
  reply : ∃ span reach, (s.call adm).1 = .token kind.symbol span reach
  log : (s.call adm).2.2.map Event.report
    = [(.trace, "commit", [("token", kind.name),
        ("depth", toString (s.call adm).2.1.scanner.nesting.depth)])]
  embedded_eq : (s.call adm).2.1.scanner.embedded = s.scanner.embedded
  asked_eq : s.asked adm = []

/--
A rule refuses the call. This is told with the depth, behind a note about the body of a raw element
if it begins with `<`. The scanner stays as it is, and the embedded scanner is left alone.
-/
structure Refuses (s : Session σ) (adm : Admissible) : Prop where
  reply : ∃ reach, (s.call adm).1 = .declined reach
  log : (s.call adm).2.2.map Event.report
    = ((Rule.markupBodyAt? adm ⟨s.cursor.restart, s.scanner.nesting⟩).toList.map fun e =>
        (.trace, "raw content starts with `<`", [("element", e.tag)]))
      ++ [(.trace, "decline", [("depth", toString s.scanner.nesting.depth)])]
  scanner_eq : (s.call adm).2.1.scanner = s.scanner
  asked_eq : s.asked adm = []

/--
The embedded scanner is asked once, with the table of the host, and its answer is the answer of the
call. Nothing is told, and the same regions are open as before.
-/
structure HandsOver (s : Session σ) (adm : Admissible) : Prop where
  answer : ∃ cur, s.asked adm = [(adm, cur)]
    ∧ (s.call adm).1 = .ofOutcome (Embedded.scan s.scanner.embedded adm cur).1
        (Embedded.scan s.scanner.embedded adm cur).2.2
    ∧ (s.call adm).2.1.scanner.embedded = (Embedded.scan s.scanner.embedded adm cur).2.1
  log : (s.call adm).2.2 = []
  nesting_eq : (s.call adm).2.1.scanner.nesting = s.scanner.nesting

def EndsBy (s : Session σ) (adm : Admissible) : Ending → Prop
  | .committed kind => s.Commits adm kind
  | .refused => s.Refuses adm
  | .delegated => s.HandsOver adm

omit [Embedded σ] in
theorem tracks_call (s : Session σ) (adm : Admissible)
    : (Rule.template adm ⟨s.cursor.restart, s.scanner.nesting⟩).Tracks
        ⟨s.cursor.restart, s.scanner.nesting⟩ := by
  apply Rule.tracks_template
  intro _
  exact ⟨rfl, rfl⟩

theorem asked_eq_scan (s : Session σ) (adm : Admissible)
    : s.asked adm
        =
      (s.watched.scanner.scan adm s.cursor.restart).scanner.embedded.asked := by
  unfold asked
  rw [call_scanner]
  rfl

variable {s : Session σ} {adm : Admissible} {p : Place}

theorem commits_of_emit {kind : Kind}
    (h : Rule.template adm ⟨s.cursor.restart, s.scanner.nesting⟩ = .emit kind p)
    : s.Commits adm kind := by
  have hcall := call_of_emit h
  have hwatched : s.watched.scanner.scan adm s.cursor.restart = _ := Scanner.scan_of_emit h
  constructor
  · rw [hcall]
    exact ⟨p.cursor.tokenSpan, p.cursor.pos, rfl⟩
  · rw [hcall]
    rfl
  · rw [hcall]
  · rw [asked_eq_scan, hwatched]
    rfl

theorem refuses_of_refuse {why : Refusal}
    (h : Rule.template adm ⟨s.cursor.restart, s.scanner.nesting⟩ = .refuse why p)
    : s.Refuses adm := by
  have hscan := Scanner.scan_of_refuse h
  have hwatched : s.watched.scanner.scan adm s.cursor.restart = _ := Scanner.scan_of_refuse h
  have htracks := s.tracks_call adm
  rw [h] at htracks
  have hnesting : p.nesting = s.scanner.nesting := htracks
  constructor
  · rw [call_reply, hscan]
    exact ⟨p.cursor.pos, rfl⟩
  · rw [call_log, hscan, hnesting]
    dsimp only
    rw [Rule.events_of_refuse h, List.map_append, List.map_map]
    rfl
  · rw [call_scanner, hscan, hnesting]
  · rw [asked_eq_scan, hwatched]
    rfl

theorem handsOver_of_pass
    (h : Rule.template adm ⟨s.cursor.restart, s.scanner.nesting⟩ = .pass p)
    : s.HandsOver adm := by
  have hscan := Scanner.scan_of_pass h
  have hwatched : s.watched.scanner.scan adm s.cursor.restart = _ := Scanner.scan_of_pass h
  have htracks := s.tracks_call adm
  rw [h] at htracks
  have hnesting : p.nesting = s.scanner.nesting := htracks.1
  constructor
  · refine ⟨p.cursor, ?_, ?_, ?_⟩
    · rw [asked_eq_scan, hwatched]
      rfl
    · rw [call_reply, hscan]
    · rw [call_scanner, hscan]
  · rw [call_log, hscan]
  · rw [call_scanner, hscan, hnesting]

theorem exists_endsBy (s : Session σ) (adm : Admissible) : ∃ ending, s.EndsBy adm ending := by
  cases h : Rule.template adm ⟨s.cursor.restart, s.scanner.nesting⟩ with
  | emit kind p => exact ⟨.committed kind, commits_of_emit h⟩
  | refuse why p => exact ⟨.refused, refuses_of_refuse h⟩
  | pass p => exact ⟨.delegated, handsOver_of_pass h⟩

theorem Commits.kind_eq {kind kind' : Kind} (h : s.Commits adm kind) (h' : s.Commits adm kind')
    : kind' = kind := by
  rcases h.reply with ⟨span, reach, hreply⟩
  rcases h'.reply with ⟨span', reach', hreply'⟩
  rw [hreply] at hreply'
  injection hreply' with hsymbol
  exact Kind.eq_of_symbol_eq hsymbol.symm

theorem Commits.not_refuses {kind : Kind} (h : s.Commits adm kind) : ¬ s.Refuses adm := by
  intro h'
  rcases h.reply with ⟨span, reach, hreply⟩
  rcases h'.reply with ⟨reach', hreply'⟩
  rw [hreply] at hreply'
  contradiction

theorem HandsOver.asked_ne_nil (h : s.HandsOver adm) : s.asked adm ≠ [] := by
  rcases h.answer with ⟨cur, hasked, _⟩
  rw [hasked]
  simp

theorem exists_emit_of_token {kind : Kind} {span : Span} {reach : Nat}
    (hreply : (s.call adm).1 = .token kind.symbol span reach) (hown : s.asked adm = [])
    : ∃ p, Rule.template adm ⟨s.cursor.restart, s.scanner.nesting⟩ = .emit kind p
        ∧ span = p.cursor.tokenSpan := by
  cases h : Rule.template adm ⟨s.cursor.restart, s.scanner.nesting⟩ with
  | emit kind' p =>
    rw [call_of_emit h] at hreply
    injection hreply with hsymbol hspan
    rw [Kind.eq_of_symbol_eq hsymbol]
    exact ⟨p, rfl, hspan.symm⟩
  | refuse why p =>
    rcases (refuses_of_refuse h).reply with ⟨reach', hdeclined⟩
    rw [hdeclined] at hreply
    contradiction
  | pass p => exact absurd hown (handsOver_of_pass h).asked_ne_nil

theorem commits_iff_emit {kind : Kind}
    : s.Commits adm kind
        ↔
      ∃ p, Rule.template adm ⟨s.cursor.restart, s.scanner.nesting⟩ = .emit kind p := by
  constructor
  · intro hcommits
    rcases hcommits.reply with ⟨span, reach, hreply⟩
    rcases exists_emit_of_token hreply hcommits.asked_eq with ⟨p, hemit, _⟩
    exact ⟨p, hemit⟩
  · rintro ⟨p, hemit⟩
    exact commits_of_emit hemit

theorem EndsBy.unique {ending other : Ending} (h : s.EndsBy adm ending) (h' : s.EndsBy adm other)
    : other = ending := by
  cases ending with
  | committed kind =>
    cases other with
    | committed kind' => rw [Commits.kind_eq h h']
    | refused => exact absurd h' (Commits.not_refuses h)
    | delegated => exact absurd h.asked_eq (HandsOver.asked_ne_nil h')
  | refused =>
    cases other with
    | committed kind' => exact absurd h (Commits.not_refuses h')
    | refused => rfl
    | delegated => exact absurd h.asked_eq (HandsOver.asked_ne_nil h')
  | delegated =>
    cases other with
    | committed kind' => exact absurd h'.asked_eq (HandsOver.asked_ne_nil h)
    | refused => exact absurd h'.asked_eq (HandsOver.asked_ne_nil h)
    | delegated => rfl

/--
Nobody sees that the embedded scanner is under watch.
-/
theorem call_watched (s : Session σ) (adm : Admissible)
    : ((s.watched.call adm).1, (s.watched.call adm).2.1.unwatched, (s.watched.call adm).2.2)
        =
      s.call adm := by
  have hcursor : s.watched.cursor = s.cursor := rfl
  unfold call
  dsimp only
  rw [hcursor]
  cases h : Rule.template adm ⟨s.cursor.restart, s.scanner.nesting⟩ with
  | emit kind p =>
    have hwatched : s.watched.scanner.scan adm s.cursor.restart = _ := Scanner.scan_of_emit h
    rw [Scanner.scan_of_emit h, hwatched]
    rfl
  | refuse why p =>
    have hwatched : s.watched.scanner.scan adm s.cursor.restart = _ := Scanner.scan_of_refuse h
    rw [Scanner.scan_of_refuse h, hwatched]
    rfl
  | pass p =>
    have hwatched : s.watched.scanner.scan adm s.cursor.restart = _ := Scanner.scan_of_pass h
    have houtcome : (Embedded.scan s.watched.scanner.embedded adm p.cursor).1
        = (Embedded.scan s.scanner.embedded adm p.cursor).1 := rfl
    rw [Scanner.scan_of_pass h, hwatched]
    dsimp only
    rw [houtcome]
    cases (Embedded.scan s.scanner.embedded adm p.cursor).1 with
    | commit symbol => rfl
    | decline => rfl

end Session

def Embedded.Passive (σ : Type) [Embedded σ] : Prop :=
  ∀ (e : σ) (adm : Admissible) (cur : Cursor), Embedded.scan e adm cur = (.decline, e, cur)

theorem CodeState.passive : Embedded.Passive CodeState := by
  intro e adm cur
  rfl

theorem Cursor.Onward.rewind_eq {cur cur' : Cursor} (h : cur.restart.Onward cur')
    : cur'.rewind = cur.restart := by
  have hsource : cur'.source = cur.source := h.source_eq
  have horigin : cur'.origin = cur.ahead := h.origin_eq
  unfold Cursor.rewind Cursor.restart Cursor.moveTo
  dsimp only
  rw [hsource, horigin]

namespace Session

variable {σ : Type} [Embedded σ] {s : Session σ} {adm : Admissible}

theorem call_eq_of_declined (hpassive : Embedded.Passive σ) {reach : Nat}
    (h : (s.call adm).1 = .declined reach)
    : (s.call adm).2.1 = ⟨s.scanner, s.cursor.restart⟩ := by
  have htracks := s.tracks_call adm
  have honward := Rule.advances_template adm ⟨s.cursor.restart, s.scanner.nesting⟩
  cases hverdict : Rule.template adm ⟨s.cursor.restart, s.scanner.nesting⟩ with
  | emit kind p =>
    rw [call_of_emit hverdict] at h
    contradiction
  | refuse why p =>
    rw [hverdict] at htracks honward
    have hnesting : p.nesting = s.scanner.nesting := htracks
    have hrewind : p.cursor.rewind = s.cursor.restart := honward.rewind_eq
    have hscan := Scanner.scan_of_refuse hverdict
    rw [call_of_decline (by rw [hscan]), hscan]
    dsimp only
    rw [hnesting, hrewind]
  | pass p =>
    rw [hverdict] at htracks honward
    have hnesting : p.nesting = s.scanner.nesting := htracks.1
    have hrewind : p.cursor.rewind = s.cursor.restart := honward.rewind_eq
    have hscan := Scanner.scan_of_pass hverdict
    rw [hpassive] at hscan
    rw [call_of_decline (by rw [hscan]), hscan]
    dsimp only
    rw [hnesting, hrewind]

theorem call_restart (s : Session σ) (adm : Admissible)
    : call ⟨s.scanner, s.cursor.restart⟩ adm = s.call adm := rfl

/--
A call ends in exactly one way: a rule has found a token, or a rule has refused the call, or the
embedded scanner was asked, which a watch upon it does not disturb. If the embedded scanner is passive
and there is no token, then the cursor is where it was, the scanner is saved to the same bytes as
before, and the same call gives the same answer once more.
-/
theorem call_ends_in_one_way (s : Session σ) (adm : Admissible)
    : (∃ ending, s.EndsBy adm ending ∧ ∀ other, s.EndsBy adm other → other = ending)
        ∧ ((s.watched.call adm).1, (s.watched.call adm).2.1.unwatched, (s.watched.call adm).2.2)
            = s.call adm
        ∧ (Embedded.Passive σ → ∀ reach, (s.call adm).1 = .declined reach →
            let after := (s.call adm).2.1
            after.cursor.pos = s.cursor.pos
              ∧ (∀ buffer, after.scanner.save buffer = s.scanner.save buffer)
              ∧ after.call adm = s.call adm) := by
  refine ⟨?_, s.call_watched adm, ?_⟩
  · rcases s.exists_endsBy adm with ⟨ending, hending⟩
    exact ⟨ending, hending, fun other hother => hending.unique hother⟩
  · intro hpassive reach hdeclined after
    have hafter : after = ⟨s.scanner, s.cursor.restart⟩ := call_eq_of_declined hpassive hdeclined
    rw [hafter]
    exact ⟨rfl, fun _ => rfl, s.call_restart adm⟩

theorem call_ends_in_one_way_behind_blanks
    : let s : Session CodeState := ⟨⟨⟨1, [⟨1, 2, 3, 4⟩]⟩, ⟨[.brace]⟩⟩, .ofText [' ', '\n', ')']⟩
      let adm : Admissible := .ofSymbols [Kind.regionClose.symbol, Kind.comment.symbol]
      let after := (s.call adm).2.1
      (s.call adm).1 = .declined 2
        ∧ (∃ ending, s.EndsBy adm ending ∧ ∀ other, s.EndsBy adm other → other = ending)
        ∧ after.cursor.pos = 0
        ∧ after.scanner.save Snapshot.blank = s.scanner.save Snapshot.blank
        ∧ after.call adm = s.call adm := by
  intro s adm after
  have hdeclined : (s.call adm).1 = .declined 2 := by decide +kernel
  rcases call_ends_in_one_way s adm with ⟨hends, _, hpassive⟩
  rcases hpassive CodeState.passive 2 hdeclined with ⟨hpos, hsave, hcall⟩
  exact ⟨hdeclined, hends, hpos, hsave _, hcall⟩

end Session
end RazorTokens
