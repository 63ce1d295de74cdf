import RazorTokens.Proofs.Progress

/-!
This module shows that a cursor never loses its place, whatever is done with it and in whatever order.
All offsets stay in the text and in their order, none of them falls inside of a character, and the
tokens can be cut out of the text and follow each other in it.

The same operations are also written for offsets that are kept as numbers. Reading at a number fails
outside of the text and inside of a character, and it is shown that this never happens.
-/

namespace RazorTokens

namespace Cursor

inductive Operation where
  | restart
  | commit
  | rewind
  | mark
  | next
  | skip
  | advance (skipping : Bool)
  deriving DecidableEq, Repr

def perform (cur : Cursor) : Operation → Option Span × Cursor
  | .restart => (none, cur.restart)
  | .commit => (some cur.commit.1, cur.commit.2)
  | .rewind => (none, cur.rewind)
  | .mark => (none, cur.mark)
  | .next => (none, cur.next)
  | .skip => (none, cur.skip)
  | .advance skipping => (none, if skipping then cur.skip else cur.next)

def performAll (cur : Cursor) : List Operation → List Span × Cursor
  | [] => ([], cur)
  | op :: ops =>
    let (span?, cur) := cur.perform op
    let (spans, cur) := cur.performAll ops
    (span?.toList ++ spans, cur)

end Cursor

structure Offsets where
  pos : Nat := 0
  origin : Nat := 0
  start : Nat := 0
  marked : Option Nat := none
  deriving DecidableEq, Repr

namespace Offsets

def restart (o : Offsets) : Offsets :=
  { o with origin := o.pos, start := o.pos, marked := none }

def advance? (source : List Char) (o : Offsets) (skipping : Bool) : Option Offsets := do
  let ahead ← dropBytes? o.pos source
  match ahead with
  | [] => return o
  | c :: _ =>
    let pos := o.pos + c.utf8Size
    return { o with pos, start := if skipping then pos else o.start }

def perform? (source : List Char) (o : Offsets) : Cursor.Operation → Option (Option Span × Offsets)
  | .restart => some (none, o.restart)
  | .commit =>
    let stop := o.marked.getD o.pos
    some (some ⟨min o.start stop, stop⟩, restart { o with pos := stop })
  | .rewind => some (none, restart { o with pos := o.origin })
  | .mark => some (none, { o with marked := some o.pos })
  | .next => (o.advance? source false).map (none, ·)
  | .skip => (o.advance? source true).map (none, ·)
  | .advance skipping => (o.advance? source skipping).map (none, ·)

def performAll? (source : List Char) (o : Offsets)
    : List Cursor.Operation → Option (List Span × Offsets)
  | [] => some ([], o)
  | op :: ops => do
    let (span?, o) ← o.perform? source op
    let (spans, o) ← o.performAll? source ops
    return (span?.toList ++ spans, o)

structure Valid (source : List Char) (o : Offsets) : Prop where
  origin_le_start : o.origin ≤ o.start
  start_le_pos : o.start ≤ o.pos
  pos_le_size : o.pos ≤ byteSize source
  marked_between : ∀ stop, o.marked = some stop → o.origin ≤ stop ∧ stop ≤ o.pos
  isBoundary_origin : IsBoundary source o.origin
  isBoundary_start : IsBoundary source o.start
  isBoundary_pos : IsBoundary source o.pos
  isBoundary_marked : ∀ stop, o.marked = some stop → IsBoundary source stop

end Offsets

theorem Span.start_le_stop_of_textIn? {span : Span} {source text : List Char}
    (h : span.textIn? source = some text)
    : span.start ≤ span.stop := by
  apply Decidable.byContradiction
  intro hnot
  unfold textIn? length? at h
  rw [if_neg hnot] at h
  contradiction

namespace Cursor

variable {cur : Cursor}

def offsets (cur : Cursor) : Offsets where
  pos := cur.pos
  origin := cur.offset cur.origin
  start := cur.startPos
  marked := cur.marked.map cur.offset

namespace Ordered

variable (h : cur.Ordered)
include h

theorem inText : cur.InText :=
  h.ahead_suffix.trans (h.start_suffix.trans h.origin_suffix)

theorem valid_offsets : cur.offsets.Valid cur.source where
  origin_le_start := offset_le_offset h.start_suffix
  start_le_pos := offset_le_offset h.ahead_suffix
  pos_le_size := cur.offset_le cur.ahead
  marked_between := by
    intro stop hstop
    rcases Option.map_eq_some_iff.mp hstop with ⟨rest, hrest, rfl⟩
    rcases h.marked_suffix rest hrest with ⟨hhigh, hlow⟩
    exact ⟨offset_le_offset hhigh, offset_le_offset hlow⟩
  isBoundary_origin := isBoundary_offset h.origin_suffix
  isBoundary_start := isBoundary_offset (h.start_suffix.trans h.origin_suffix)
  isBoundary_pos := isBoundary_offset h.inText
  isBoundary_marked := by
    intro stop hstop
    rcases Option.map_eq_some_iff.mp hstop with ⟨rest, hrest, rfl⟩
    exact isBoundary_offset ((h.marked_suffix rest hrest).1.trans h.origin_suffix)

/--
A token can be cut out of the text, also where it is empty because its start was moved beyond its end.
-/
theorem exists_textOf?_tokenSpan : ∃ text, cur.textOf? cur.tokenSpan = some text := by
  rcases List.suffix_or_suffix_of_suffix h.tokenRest_suffix h.start_suffix with hrest | hstart
  · rcases hrest with ⟨text, htext⟩
    exact ⟨text, h.textOf?_tokenSpan htext⟩
  · have hspan : cur.tokenSpan = ⟨cur.offset ([] ++ cur.tokenRest), cur.offset cur.tokenRest⟩ := by
      unfold tokenSpan startPos
      rw [Nat.min_eq_right (offset_le_offset hstart)]
      rfl
    rcases h.tokenRest_suffix.trans h.origin_suffix with ⟨before, hbefore⟩
    rw [hspan]
    exact ⟨[], textOf?_of_append hbefore⟩

theorem origin_le_tokenSpan_start : cur.offset cur.origin ≤ cur.tokenSpan.start := by
  have hstart : cur.offset cur.origin ≤ cur.offset cur.start := offset_le_offset h.start_suffix
  have hstop : cur.offset cur.origin ≤ cur.offset cur.tokenRest :=
    offset_le_offset h.tokenRest_suffix
  unfold tokenSpan startPos
  dsimp only
  omega

end Ordered

/--
What one operation makes of a cursor. The call may have begun anew, but then behind the token if there
was one, and never further back than before.
-/
structure Steps (cur : Cursor) (span? : Option Span) (cur' : Cursor) : Prop where
  ordered : cur'.Ordered
  source_eq : cur'.source = cur.source
  origin_suffix : cur'.origin <:+ cur.origin
  token : ∀ span, span? = some span → span = cur.tokenSpan ∧ cur'.origin = cur.tokenRest

theorem Onward.steps {cur' : Cursor} (h : cur.Onward cur') (hord : cur.Ordered)
    : cur.Steps none cur' where
  ordered := h.ordered hord
  source_eq := h.source_eq
  origin_suffix := by
    simp only [h.origin_eq, List.suffix_rfl]
  token := by
    intro span hspan
    contradiction

theorem Ordered.steps_restart (h : cur.Ordered) {rest : List Char} (hrest : rest <:+ cur.origin)
    {span? : Option Span} (htoken : ∀ span, span? = some span → span = cur.tokenSpan
      ∧ rest = cur.tokenRest)
    : cur.Steps span? (cur.moveTo rest).restart where
  ordered := ordered_restart (hrest.trans h.origin_suffix)
  source_eq := rfl
  origin_suffix := hrest
  token := htoken

theorem onward_next (cur : Cursor) : cur.Onward cur.next :=
  .moveTo (List.tail_suffix cur.ahead)

theorem onward_skip (cur : Cursor) : cur.Onward cur.skip := by
  unfold skip
  split
  · apply Onward.refl
  · next c rest hahead =>
    have hrest : rest <:+ cur.ahead := by
      rw [hahead]
      apply List.suffix_cons
    constructor
    · rfl
    · rfl
    · exact hrest
    · exact .inr ⟨List.suffix_refl _, hrest⟩
    · exact .inl rfl

theorem Ordered.steps_perform (h : cur.Ordered) (op : Operation)
    : cur.Steps (cur.perform op).1 (cur.perform op).2 := by
  cases op with
  | restart =>
    apply h.steps_restart (h.ahead_suffix.trans h.start_suffix)
    intro span hspan
    contradiction
  | commit =>
    apply h.steps_restart h.tokenRest_suffix
    rintro span ⟨⟩
    exact ⟨rfl, rfl⟩
  | rewind =>
    apply h.steps_restart (List.suffix_refl _)
    intro span hspan
    contradiction
  | mark => exact (Onward.moveTo_markAt (List.suffix_refl _) (List.suffix_refl _)).steps h
  | next => exact cur.onward_next.steps h
  | skip => exact cur.onward_skip.steps h
  | advance skipping =>
    cases skipping with
    | false => exact cur.onward_next.steps h
    | true => exact cur.onward_skip.steps h

structure Runs (cur : Cursor) (spans : List Span) (cur' : Cursor) : Prop where
  ordered : cur'.Ordered
  source_eq : cur'.source = cur.source
  origin_le_start : ∀ span ∈ spans, cur.offset cur.origin ≤ span.start
  readable : ∀ span ∈ spans, ∃ text, cur.textOf? span = some text
  disjoint : spans.Pairwise fun earlier later => earlier.stop ≤ later.start

theorem Steps.runs {cur₁ cur₂ : Cursor} {span? : Option Span} {spans : List Span}
    (h : cur.Ordered) (hstep : cur.Steps span? cur₁) (hrun : cur₁.Runs spans cur₂)
    : cur.Runs (span?.toList ++ spans) cur₂ := by
  have hoffset (rest : List Char) : cur₁.offset rest = cur.offset rest := by
    unfold offset
    rw [hstep.source_eq]
  have horigin : cur.offset cur.origin ≤ cur.offset cur₁.origin :=
    offset_le_offset hstep.origin_suffix
  constructor
  · exact hrun.ordered
  · exact hrun.source_eq.trans hstep.source_eq
  · rw [List.forall_mem_append]
    constructor
    · intro span hspan
      rw [Option.mem_toList] at hspan
      rw [(hstep.token span hspan).1]
      exact h.origin_le_tokenSpan_start
    · intro span hspan
      have hstart := hrun.origin_le_start span hspan
      rw [hoffset] at hstart
      omega
  · rw [List.forall_mem_append]
    constructor
    · intro span hspan
      rw [Option.mem_toList] at hspan
      rw [(hstep.token span hspan).1]
      exact h.exists_textOf?_tokenSpan
    · intro span hspan
      have htext := hrun.readable span hspan
      unfold textOf? at htext ⊢
      rw [← hstep.source_eq]
      exact htext
  · rw [List.pairwise_append]
    refine ⟨?_, hrun.disjoint, ?_⟩
    · cases span? <;> simp
    · -- The call in which the later token was found began at the end of the earlier one.
      intro earlier hearlier later hlater
      rw [Option.mem_toList] at hearlier
      rcases hstep.token earlier hearlier with ⟨rfl, htokenRest⟩
      have hstart := hrun.origin_le_start later hlater
      rw [hoffset, htokenRest] at hstart
      exact hstart

theorem Ordered.runs_performAll (h : cur.Ordered) (ops : List Operation)
    : cur.Runs (cur.performAll ops).1 (cur.performAll ops).2 := by
  induction ops generalizing cur with
  | nil =>
    constructor
    · exact h
    · rfl
    · simp [performAll]
    · simp [performAll]
    · exact List.Pairwise.nil
  | cons op ops ih =>
    have hstep := h.steps_perform op
    exact hstep.runs h (ih hstep.ordered)

theorem InText.dropBytes?_pos (h : cur.InText) : dropBytes? cur.pos cur.source = some cur.ahead := by
  rcases h with ⟨before, hsource⟩
  have hpos : cur.pos = byteSize before := offset_of_append hsource
  rw [hpos, ← hsource, dropBytes?_append]

theorem InText.takeBytes?_pos (h : cur.InText)
    : ∃ before, takeBytes? cur.pos cur.source = some before ∧ before ++ cur.ahead = cur.source := by
  rcases h with ⟨before, hsource⟩
  have hpos : cur.pos = byteSize before := offset_of_append hsource
  refine ⟨before, ?_, hsource⟩
  rw [hpos, ← hsource, takeBytes?_append]

theorem InText.atEnd_iff (h : cur.InText) : cur.atEnd ↔ byteSize cur.source ≤ cur.pos := by
  have hle := byteSize_le_of_suffix h
  unfold atEnd pos offset
  rw [List.isEmpty_iff]
  constructor
  · intro hahead
    rw [hahead]
    simp
  · intro hpos
    apply Decidable.byContradiction
    intro hahead
    have := byteSize_pos hahead
    omega

theorem InText.offset_of_cons (h : cur.InText) {c : Char} {rest : List Char}
    (hahead : cur.ahead = c :: rest)
    : cur.offset rest = cur.pos + c.utf8Size := by
  rcases h with ⟨before, hsource⟩
  have hpos : cur.pos = byteSize before := offset_of_append hsource
  have hrest : (before ++ [c]) ++ rest = cur.source := by
    rw [← hsource, hahead]
    simp
  rw [offset_of_append hrest, hpos]
  simp

theorem InText.advance?_offsets (h : cur.InText) (skipping : Bool)
    : cur.offsets.advance? cur.source skipping
        =
      some (if skipping then cur.skip else cur.next).offsets := by
  have hread : dropBytes? cur.offsets.pos cur.source = some cur.ahead := h.dropBytes?_pos
  unfold Offsets.advance?
  rw [hread, Option.bind_eq_bind, Option.bind_some]
  split
  · next hahead =>
    have hskip : cur.skip = cur := by
      unfold skip
      rw [hahead]
    have hnext : cur.next = cur := by
      unfold next moveTo
      rw [hahead, List.tail_nil, ← hahead]
    rw [hskip, hnext, ite_self]
    rfl
  · next c rest hahead =>
    have hpos : cur.offsets.pos + c.utf8Size = cur.offset rest := (h.offset_of_cons hahead).symm
    have hskip : cur.skip = { cur with ahead := rest, start := rest } := by
      unfold skip
      rw [hahead]
    have hnext : cur.next = { cur with ahead := rest } := by
      unfold next moveTo
      rw [hahead, List.tail_cons]
    rw [hpos, hskip, hnext]
    cases skipping with
    | false => rfl
    | true => rfl

theorem Ordered.perform?_offsets (h : cur.Ordered) (op : Operation)
    : cur.offsets.perform? cur.source op
        =
      some ((cur.perform op).1, (cur.perform op).2.offsets) := by
  cases op with
  | restart => rfl
  | commit =>
    have hstop : (cur.marked.map cur.offset).getD cur.pos = cur.offset cur.tokenRest := by
      unfold tokenRest
      cases cur.marked with
      | none => rfl
      | some rest => rfl
    unfold Offsets.perform? offsets
    dsimp only
    rw [hstop]
    rfl
  | rewind => rfl
  | mark => rfl
  | next => exact congrArg (Option.map (none, ·)) (h.inText.advance?_offsets false)
  | skip => exact congrArg (Option.map (none, ·)) (h.inText.advance?_offsets true)
  | advance skipping => exact congrArg (Option.map (none, ·)) (h.inText.advance?_offsets skipping)

theorem Ordered.performAll?_offsets (h : cur.Ordered) (ops : List Operation)
    : cur.offsets.performAll? cur.source ops
        =
      some ((cur.performAll ops).1, (cur.performAll ops).2.offsets) := by
  induction ops generalizing cur with
  | nil => rfl
  | cons op ops ih =>
    have hstep := h.steps_perform op
    have hrest := ih hstep.ordered
    rw [hstep.source_eq] at hrest
    unfold Offsets.performAll?
    rw [h.perform?_offsets op, Option.bind_eq_bind, Option.bind_some]
    dsimp only
    rw [hrest]
    rfl

theorem ordered_ofText (source : List Char) : (ofText source).Ordered where
  origin_suffix := List.suffix_refl _
  start_suffix := List.suffix_refl _
  ahead_suffix := List.suffix_refl _
  marked_suffix := by
    intro rest hrest
    contradiction

theorem offsets_ofText (source : List Char) : (ofText source).offsets = {} := by
  unfold offsets pos startPos offset ofText
  simp

/--
A cursor keeps its place under all operations in any order. Its offsets are those of places in the
text, the text splits at the cursor into what was read and what lies ahead, and the end is reached
exactly where no character is left. Numbers that are kept for the offsets come out the same, and the
text can always be read where they say. The tokens are parts of the text, and each of them ends before
the next one starts.
-/
theorem performAll_keeps_place (source : List Char) (ops : List Operation)
    : let spans := ((ofText source).performAll ops).1
      let cur := ((ofText source).performAll ops).2
      cur.offsets.Valid source
        ∧ Offsets.performAll? source {} ops = some (spans, cur.offsets)
        ∧ dropBytes? cur.pos source = some cur.ahead
        ∧ (∃ before, takeBytes? cur.pos source = some before ∧ before ++ cur.ahead = source)
        ∧ charAt? source cur.pos = cur.peek?
        ∧ (cur.atEnd ↔ cur.peek? = none)
        ∧ (cur.atEnd ↔ byteSize source ≤ cur.pos)
        ∧ (∀ span ∈ spans, span.start ≤ span.stop
            ∧ span.length? = some (span.stop - span.start)
            ∧ ∃ text, cur.textOf? span = some text)
        ∧ spans.Pairwise fun earlier later => earlier.stop ≤ later.start := by
  intro spans cur
  have hstart := ordered_ofText source
  have hruns : (ofText source).Runs spans cur := hstart.runs_performAll ops
  have hsource : cur.source = source := hruns.source_eq
  have hinText := hruns.ordered.inText
  have hread := hinText.dropBytes?_pos
  rw [hsource] at hread
  refine ⟨?_, ?_, hread, ?_, ?_, ?_, ?_, ?_, hruns.disjoint⟩
  · rw [← hsource]
    exact hruns.ordered.valid_offsets
  · rw [← offsets_ofText source]
    exact hstart.performAll?_offsets ops
  · rw [← hsource]
    exact hinText.takeBytes?_pos
  · unfold charAt?
    rw [hread]
    rfl
  · unfold atEnd peek?
    rw [List.isEmpty_iff, List.head?_eq_none_iff]
  · rw [← hsource]
    exact hinText.atEnd_iff
  · intro span hspan
    rcases hruns.readable span hspan with ⟨text, htext⟩
    have hle := Span.start_le_stop_of_textIn? htext
    refine ⟨hle, if_pos hle, text, ?_⟩
    unfold textOf? at htext ⊢
    rw [hsource]
    exact htext

theorem performAll_keeps_place_behind_skipped_mark
    : let source := ['é', ' ', '😀', 'x']
      let ops : List Operation := [.next, .mark, .skip, .commit, .rewind, .advance true, .next,
        .commit, .next, .next, .restart, .rewind]
      let spans := ((ofText source).performAll ops).1
      let cur := ((ofText source).performAll ops).2
      spans = [⟨2, 2⟩, ⟨3, 7⟩]
        ∧ cur.pos = 8
        ∧ Offsets.performAll? source {} ops = some (spans, cur.offsets)
        ∧ ⟨3, 7⟩ ∈ spans
        ∧ (∃ text, cur.textOf? ⟨3, 7⟩ = some text)
        ∧ spans.Pairwise fun earlier later => earlier.stop ≤ later.start := by
  intro source ops spans cur
  have hmem : ⟨3, 7⟩ ∈ spans := by decide
  rcases performAll_keeps_place source ops with ⟨_, hnumbers, _, _, _, _, _, hspans, hdisjoint⟩
  exact ⟨by decide, by decide, hnumbers, hmem, (hspans _ hmem).2.2, hdisjoint⟩

end Cursor
end RazorTokens
