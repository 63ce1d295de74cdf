import RazorTokens.Proofs.Extent
import RazorTokens.Proofs.Lookahead

/-!
This module shows how the rules move the cursor. Within a call the cursor only goes forward, the
token never starts or ends outside of what the call has read, and the text stays the same.
-/

namespace RazorTokens

namespace Rule

variable {s : List Char}

namespace Address

theorem giveUp_eq_ite (s : List Char)
    : giveUp s
        =
      if (s.dropWhile isPlain).head? = some '@' ∧ endsInWord s then
        (s.dropWhile isPlain).tail
      else
        s.dropWhile isPlain := by
  unfold giveUp
  split
  · next rest heq => simp [heq]
  · next hne =>
    rw [if_neg]
    rintro ⟨hat, _⟩
    exact head?_ne_some_of_ne_cons hne hat

theorem afterSegment?_eq_ite (s : List Char)
    : afterSegment? s
        =
      if (s.dropWhile isPlain).head? = some '@' ∧ endsInWord s
          ∧ Alphabet.isNext Alphabet.isWord (s.dropWhile isPlain).tail.head? then
        some ((s.dropWhile isPlain).tail.dropWhile isDomain)
      else
        none := by
  unfold afterSegment?
  split
  · next rest heq => simp [heq]
  · next hne =>
    rw [if_neg]
    rintro ⟨hat, _⟩
    exact head?_ne_some_of_ne_cons hne hat

theorem giveUp_suffix_dropWhile (s : List Char) : giveUp s <:+ s.dropWhile isPlain := by
  rw [giveUp_eq_ite]
  split
  · apply List.tail_suffix
  · apply List.suffix_refl

theorem giveUp_suffix (s : List Char) : giveUp s <:+ s :=
  (giveUp_suffix_dropWhile s).trans (List.dropWhile_suffix isPlain)

theorem suffix_of_afterSegment? {rest : List Char} (h : afterSegment? s = some rest)
    : rest <:+ (s.dropWhile isPlain).tail := by
  rw [afterSegment?_eq_ite] at h
  split at h
  · cases h
    apply List.dropWhile_suffix
  · contradiction

theorem afterSegments_of_some {rest : List Char} (h : afterSegment? s = some rest)
    : afterSegments s = afterSegments rest := by
  rw [afterSegments]
  split
  · next rest' heq =>
    rw [h] at heq
    cases heq
    rfl
  · next heq =>
    rw [h] at heq
    contradiction

theorem afterSegments_of_none (h : afterSegment? s = none) : afterSegments s = s := by
  rw [afterSegments]
  split
  · next rest heq =>
    rw [h] at heq
    contradiction
  · rfl

theorem afterSegments_suffix (s : List Char) : afterSegments s <:+ s := by
  induction s using afterSegments.induct with
  | case1 s rest hrest _ ih =>
    rw [afterSegments_of_some hrest]
    apply ih.trans
    apply (suffix_of_afterSegment? hrest).trans
    apply (List.tail_suffix _).trans
    apply List.dropWhile_suffix
  | case2 s hnone =>
    rewrite [afterSegments_of_none hnone]
    apply List.suffix_refl

end Address

namespace Prose

/--
How far the rule for prose has read when the text ends where `rest` lies ahead: behind the keyword,
if the text ends before one.
-/
def reach (rest : List Char) : List Char :=
  if startsKeyword rest then rest.dropWhile Alphabet.isIdent else rest

theorem reach_suffix (rest : List Char) : reach rest <:+ rest := by
  unfold reach
  split
  · apply List.dropWhile_suffix
  · apply List.suffix_refl

theorem afterText_suffix (lineStart : Bool) (s : List Char) : afterText lineStart s <:+ s := by
  induction s generalizing lineStart with
  | nil => apply List.suffix_refl
  | cons c s ih =>
    rw [afterText]
    split
    · apply List.suffix_refl
    · exact (ih _).trans (List.suffix_cons c s)

end Prose

namespace Trivia

def past (c : Char) (s : List Char) : List Char :=
  if s.head? = some c then s.tail else s

theorem past_suffix (c : Char) (s : List Char) : past c s <:+ s := by
  unfold past
  split
  · apply List.tail_suffix
  · apply List.suffix_refl

theorem afterNewline_eq_past (s : List Char) : afterNewline s = past '\n' (past '\r' s) := by
  unfold afterNewline
  split
  · rfl
  · next rest hne =>
    have hlf : rest.head? ≠ some '\n' :=
      head?_ne_some_of_ne_cons fun rest' heq => hne rest' (by rw [heq])
    unfold past
    rw [List.head?_cons, if_pos rfl, List.tail_cons, if_neg hlf]
  · rfl
  · next hcr hlf =>
    unfold past
    rw [if_neg (head?_ne_some_of_ne_cons hcr), if_neg (head?_ne_some_of_ne_cons hlf)]

theorem afterNewline_suffix (s : List Char) : afterNewline s <:+ s := by
  rw [afterNewline_eq_past]
  exact (past_suffix _ _).trans (past_suffix _ _)

theorem afterBlock_cons (c : Char) (s : List Char)
    : afterBlock (c :: s) = if c = '*' ∧ s.head? = some '/' then s.tail else afterBlock s := by
  rw [afterBlock.eq_def]
  split
  · next heq =>
    cases heq
    rw [if_pos ⟨rfl, rfl⟩]
    rfl
  · next hne heq =>
    cases heq
    rw [if_neg]
    rintro ⟨hstar, hslash⟩
    exact head?_ne_some_of_ne_cons (hne · hstar) hslash
  · contradiction

theorem afterBlock_suffix (s : List Char) : afterBlock s <:+ s := by
  induction s with
  | nil => apply List.suffix_refl
  | cons c s ih =>
    rw [afterBlock_cons]
    split
    · exact (List.tail_suffix s).trans (List.suffix_cons c s)
    · exact ih.trans (List.suffix_cons c s)

end Trivia

namespace Verbatim

variable {letters : List Char}

theorem exists_name_of_afterLetters? {behind : List Char}
    (hletters : ∀ letter ∈ letters, isEitherCase letter '<' = false)
    (h : afterLetters? letters s = some behind)
    : ∃ name, s = name ++ behind ∧ '<' ∉ name
        ∧ ∀ rest, afterLetters? letters (name ++ rest) = some rest := by
  fun_induction afterLetters? letters s with
  | case1 s =>
    cases h
    exact ⟨[], rfl, List.not_mem_nil, fun _ => rfl⟩
  | case2 => contradiction
  | case3 letter letters c s hc ih =>
    rw [List.forall_mem_cons] at hletters
    rcases ih hletters.2 h with ⟨name, rfl, hname, hmatch⟩
    refine ⟨c :: name, rfl, ?_, ?_⟩
    · rw [List.mem_cons, not_or]
      refine ⟨?_, hname⟩
      rintro rfl
      rw [hletters.1] at hc
      contradiction
    · intro rest
      rw [List.cons_append, afterLetters?, if_pos hc]
      exact hmatch rest
  | case4 => contradiction

theorem exists_tag_of_afterClosing? {behind : List Char}
    (hletters : ∀ letter ∈ letters, isEitherCase letter '<' = false)
    (h : afterClosing? letters s = some behind)
    : ∃ tag, s = ('<' :: tag) ++ behind ∧ '<' ∉ tag
        ∧ ∀ rest, afterClosing? letters (('<' :: tag) ++ rest) = some rest := by
  unfold afterClosing? at h
  split at h
  · next s =>
    rcases exists_name_of_afterLetters? hletters h with ⟨name, rfl, hname, hmatch⟩
    refine ⟨'/' :: name, rfl, ?_, hmatch⟩
    rw [List.mem_cons, not_or]
    exact ⟨by decide, hname⟩
  · contradiction

theorem exists_tag_of_findClosing? {closing behind : List Char}
    (hletters : ∀ letter ∈ letters, isEitherCase letter '<' = false)
    (h : findClosing? letters s = some (closing, behind))
    : ∃ before tag, s = before ++ closing ∧ closing = ('<' :: tag) ++ behind := by
  induction s with
  | nil => contradiction
  | cons c s ih =>
    rw [findClosing?] at h
    split at h
    · next hclosing =>
      cases h
      rcases exists_tag_of_afterClosing? hletters hclosing with ⟨tag, hs, _⟩
      exact ⟨[], tag, rfl, hs⟩
    · rcases ih h with ⟨before, tag, hs, hclosing⟩
      exact ⟨c :: before, tag, by rw [hs]; rfl, hclosing⟩

end Verbatim
end Rule

namespace Cursor

structure Ordered (cur : Cursor) : Prop where
  origin_suffix : cur.origin <:+ cur.source
  start_suffix : cur.start <:+ cur.origin
  ahead_suffix : cur.ahead <:+ cur.start
  marked_suffix : ∀ rest, cur.marked = some rest → rest <:+ cur.origin ∧ cur.ahead <:+ rest

/--
The second cursor can be reached from the first one within a call. A start or an end of the token
that is new lies between the two.
-/
structure Onward (cur cur' : Cursor) : Prop where
  source_eq : cur'.source = cur.source
  origin_eq : cur'.origin = cur.origin
  ahead_suffix : cur'.ahead <:+ cur.ahead
  start_between : cur'.start = cur.start ∨ cur'.ahead <:+ cur'.start ∧ cur'.start <:+ cur.ahead
  marked_between : cur'.marked = cur.marked
    ∨ ∃ rest, cur'.marked = some rest ∧ cur'.ahead <:+ rest ∧ rest <:+ cur.ahead

theorem ordered_restart {cur : Cursor} (h : cur.InText) : cur.restart.Ordered where
  origin_suffix := h
  start_suffix := List.suffix_refl _
  ahead_suffix := List.suffix_refl _
  marked_suffix := by intro rest hrest; contradiction

theorem Ordered.tokenRest_suffix {cur : Cursor} (h : cur.Ordered)
    : cur.tokenRest <:+ cur.origin := by
  unfold tokenRest
  cases hmarked : cur.marked with
  | none => exact h.ahead_suffix.trans h.start_suffix
  | some rest => exact (h.marked_suffix rest hmarked).1

theorem Ordered.textOf?_tokenSpan {cur : Cursor} {text : List Char} (h : cur.Ordered)
    (htext : text ++ cur.tokenRest = cur.start)
    : cur.textOf? cur.tokenSpan = some text := by
  -- The token ends behind its start here, so the minimum in its span is the start.
  rcases h.start_suffix.trans h.origin_suffix with ⟨before, hsource⟩
  rw [← htext] at hsource
  have hstart := offset_of_append hsource
  have hstop : cur.offset cur.tokenRest = byteSize before + byteSize text := by
    rw [← byteSize_append]
    apply offset_of_append
    rw [List.append_assoc]
    exact hsource
  have hspan : cur.tokenSpan = ⟨cur.offset (text ++ cur.tokenRest), cur.offset cur.tokenRest⟩ := by
    unfold tokenSpan startPos
    rw [← htext, hstart, hstop, Nat.min_eq_left (by omega)]
  rw [hspan]
  exact textOf?_of_append hsource

namespace Onward

theorem refl (cur : Cursor) : cur.Onward cur where
  source_eq := rfl
  origin_eq := rfl
  ahead_suffix := List.suffix_refl _
  start_between := .inl rfl
  marked_between := .inl rfl

theorem trans {cur₁ cur₂ cur₃ : Cursor} (h : cur₁.Onward cur₂) (h' : cur₂.Onward cur₃)
    : cur₁.Onward cur₃ where
  source_eq := h'.source_eq.trans h.source_eq
  origin_eq := h'.origin_eq.trans h.origin_eq
  ahead_suffix := h'.ahead_suffix.trans h.ahead_suffix
  start_between := by
    rcases h'.start_between with heq | ⟨hlow, hhigh⟩
    · rw [heq]
      rcases h.start_between with heq' | ⟨hlow', hhigh'⟩
      · exact .inl heq'
      · exact .inr ⟨h'.ahead_suffix.trans hlow', hhigh'⟩
    · exact .inr ⟨hlow, hhigh.trans h.ahead_suffix⟩
  marked_between := by
    rcases h'.marked_between with heq | ⟨rest, heq, hlow, hhigh⟩
    · rw [heq]
      rcases h.marked_between with heq' | ⟨rest, heq', hlow', hhigh'⟩
      · exact .inl heq'
      · exact .inr ⟨rest, heq', h'.ahead_suffix.trans hlow', hhigh'⟩
    · exact .inr ⟨rest, heq, hlow, hhigh.trans h.ahead_suffix⟩

theorem ordered {cur cur' : Cursor} (h : cur.Onward cur') (hord : cur.Ordered) : cur'.Ordered where
  origin_suffix := by
    rw [h.origin_eq, h.source_eq]
    exact hord.origin_suffix
  start_suffix := by
    rw [h.origin_eq]
    rcases h.start_between with heq | ⟨_, hhigh⟩
    · rw [heq]
      exact hord.start_suffix
    · exact hhigh.trans (hord.ahead_suffix.trans hord.start_suffix)
  ahead_suffix := by
    rcases h.start_between with heq | ⟨hlow, _⟩
    · rw [heq]
      exact h.ahead_suffix.trans hord.ahead_suffix
    · exact hlow
  marked_suffix := by
    intro rest hrest
    rw [h.origin_eq]
    rcases h.marked_between with heq | ⟨rest', heq, hlow, hhigh⟩
    · rw [heq] at hrest
      have ⟨hhigh, hlow⟩ := hord.marked_suffix rest hrest
      exact ⟨hhigh, h.ahead_suffix.trans hlow⟩
    · rw [heq] at hrest
      cases hrest
      exact ⟨hhigh.trans (hord.ahead_suffix.trans hord.start_suffix), hlow⟩

theorem moveTo {cur : Cursor} {rest : List Char} (h : rest <:+ cur.ahead)
    : cur.Onward (cur.moveTo rest) where
  source_eq := rfl
  origin_eq := rfl
  ahead_suffix := h
  start_between := .inl rfl
  marked_between := .inl rfl

theorem moveTo_markAt {cur : Cursor} {rest stop : List Char} (h : rest <:+ stop)
    (hstop : stop <:+ cur.ahead)
    : cur.Onward ((cur.moveTo rest).markAt stop) where
  source_eq := rfl
  origin_eq := rfl
  ahead_suffix := h.trans hstop
  start_between := .inl rfl
  marked_between := .inr ⟨stop, rfl, h, hstop⟩

theorem skipBlanks (cur : Cursor) : cur.Onward cur.skipBlanks := by
  unfold Cursor.skipBlanks
  split
  · constructor
    · rfl
    · rfl
    · apply List.dropWhile_suffix
    · exact .inr ⟨List.suffix_refl _, List.dropWhile_suffix _⟩
    · exact .inl rfl
  · apply refl

end Onward
end Cursor

def Verdict.place : Verdict → Place
  | emit _ p => p
  | refuse _ p => p
  | pass p => p

namespace Rule

theorem template_induction {P : Rule → Prop} {adm : Admissible} (hsilent : P silent)
    (handThen : ∀ r s, P r → P s → P (andThen r s))
    (haddress : P (inMarkup (ifAllowed adm .textWithAt address)))
    (hprose : P (inMarkup (ifAllowed adm .markupText prose)))
    (hregionStart : P (regionStart adm))
    (hblockOpen : P (ifAllowed adm .blockOpen blockOpen))
    (hregionClose : P (inCode (ifAllowed adm .regionClose regionClose)))
    (hcomment : P (inCode (ifAllowed adm .comment comment)))
    (hdirective : P (inCode (ifAllowed adm .directive directive)))
    (hrawBody : P (rawBody adm))
    : P (template adm) := by
  unfold template all inOrder
  simp only [List.foldr_cons, List.foldr_nil]
  apply handThen _ _ haddress
  apply handThen _ _ hprose
  apply handThen _ _ hregionStart
  apply handThen _ _ hblockOpen
  apply handThen _ _ hregionClose
  apply handThen _ _ hcomment
  apply handThen _ _ hdirective
  exact handThen _ _ hrawBody hsilent

def Advances (r : Rule) : Prop :=
  ∀ p : Place, p.cursor.Onward (r p).place.cursor

theorem advances_silent : Advances silent := by
  intro p
  apply Cursor.Onward.refl

theorem Advances.andThen {r s : Rule} (hr : Advances r) (hs : Advances s)
    : Advances (andThen r s) := by
  intro p
  have hfirst := hr p
  unfold Rule.andThen
  cases hp : r p with
  | emit kind q =>
    rw [hp] at hfirst
    exact hfirst
  | refuse why q =>
    rw [hp] at hfirst
    exact hfirst
  | pass q =>
    rw [hp] at hfirst
    exact hfirst.trans (hs q)

theorem Advances.onlyIf {r : Rule} (hr : Advances r) (b : Bool) : Advances (onlyIf b r) := by
  unfold Rule.onlyIf
  split
  · exact hr
  · exact advances_silent

theorem Advances.inMarkup {r : Rule} (hr : Advances r) : Advances (inMarkup r) := by
  intro p
  exact hr.onlyIf _ p

theorem Advances.inCode {r : Rule} (hr : Advances r) : Advances (inCode r) := by
  intro p
  exact hr.onlyIf _ p

theorem advances_address : Advances address := by
  intro p
  unfold address
  dsimp only
  split
  · apply Cursor.Onward.moveTo_markAt
    · apply Address.giveUp_suffix_dropWhile
    · exact (List.dropWhile_suffix _).trans (Address.afterSegments_suffix _)
  · apply Cursor.Onward.moveTo
    apply Address.giveUp_suffix

theorem advances_prose : Advances prose := by
  intro p
  have hrest := Prose.afterText_suffix true p.ahead
  unfold prose
  dsimp only
  split
  · split
    · exact Cursor.Onward.moveTo_markAt (List.dropWhile_suffix _) hrest
    · exact Cursor.Onward.moveTo_markAt (List.dropWhile_suffix _) hrest
  · split
    · apply Cursor.Onward.refl
    · exact Cursor.Onward.moveTo_markAt (List.suffix_refl _) hrest

theorem suffix_of_ahead_eq_cons {p : Place} {c : Char} {rest : List Char}
    (h : p.ahead = c :: rest)
    : rest <:+ p.cursor.ahead := by
  have hahead : p.cursor.ahead = c :: rest := h
  rw [hahead]
  apply List.suffix_cons

theorem suffix_of_opening? {adm : Admissible} {s rest : List Char} {kind : Kind} {region : Region}
    (h : opening? adm s = some (kind, region, rest))
    : rest <:+ s := by
  unfold opening? at h
  split at h
  · split at h <;> cases h
    apply List.suffix_cons
  · split at h <;> cases h
    apply List.suffix_cons
  · contradiction

theorem advances_regionStart (adm : Admissible) : Advances (regionStart adm) := by
  intro p
  unfold regionStart
  split
  · next rest hahead =>
    have hrest := suffix_of_ahead_eq_cons hahead
    split
    · split
      · next hopening =>
        apply Cursor.Onward.moveTo
        exact (suffix_of_opening? hopening).trans hrest
      · exact Cursor.Onward.moveTo hrest
    · apply Cursor.Onward.refl
  · apply Cursor.Onward.refl

theorem advances_blockOpen : Advances blockOpen := by
  intro p
  have hskip := Cursor.Onward.skipBlanks p.cursor
  unfold blockOpen
  dsimp only
  split
  · next rest hahead =>
    apply hskip.trans
    exact Cursor.Onward.moveTo (suffix_of_ahead_eq_cons hahead)
  · exact hskip

theorem advances_regionClose : Advances regionClose := by
  intro p
  have hskip := Cursor.Onward.skipBlanks p.cursor
  unfold regionClose
  dsimp only
  split
  · exact hskip
  · next c rest hahead =>
    split
    · apply hskip.trans
      exact Cursor.Onward.moveTo (suffix_of_ahead_eq_cons hahead)
    · exact hskip

theorem advances_comment : Advances comment := by
  intro p
  unfold comment
  split
  · next rest hahead =>
    apply Cursor.Onward.moveTo
    apply (List.dropWhile_suffix _).trans
    exact (List.suffix_cons _ rest).trans (suffix_of_ahead_eq_cons hahead)
  · next rest hahead =>
    apply Cursor.Onward.moveTo
    apply (Trivia.afterBlock_suffix rest).trans
    exact (List.suffix_cons _ rest).trans (suffix_of_ahead_eq_cons hahead)
  · next rest _ _ hahead => exact Cursor.Onward.moveTo (suffix_of_ahead_eq_cons hahead)
  · apply Cursor.Onward.refl

theorem advances_directive : Advances directive := by
  intro p
  unfold directive
  split
  · next rest hahead =>
    apply Cursor.Onward.moveTo
    apply (Trivia.afterNewline_suffix _).trans
    apply (List.dropWhile_suffix _).trans
    exact suffix_of_ahead_eq_cons hahead
  · apply Cursor.Onward.refl

theorem isEitherCase_letters_eq_false (e : RawElement)
    : ∀ letter ∈ e.letters, Verbatim.isEitherCase letter '<' = false := by
  have hall : e.letters.all (!Verbatim.isEitherCase · '<') := by
    cases e <;> decide
  rw [List.all_eq_true] at hall
  intro letter hletter
  simpa using hall letter hletter

theorem advances_verbatim (e : RawElement) : Advances (verbatim e) := by
  intro p
  unfold verbatim
  split
  · apply Cursor.Onward.refl
  · apply Cursor.Onward.refl
  · split
    · next closing behind hfind =>
      rcases Verbatim.exists_tag_of_findClosing? (isEitherCase_letters_eq_false e) hfind
        with ⟨before, tag, hahead, hclosing⟩
      apply Cursor.Onward.moveTo_markAt
      · rw [hclosing]
        apply List.suffix_append
      · have : p.cursor.ahead = _ := hahead
        rw [this]
        apply List.suffix_append
    · exact Cursor.Onward.moveTo_markAt (List.suffix_refl _) List.nil_suffix

theorem advances_rawBody (adm : Admissible) : Advances (rawBody adm) := by
  unfold rawBody
  split
  · apply advances_verbatim
  · exact advances_silent

theorem advances_template (adm : Admissible) : Advances (template adm) := by
  apply template_induction advances_silent
  · intro r s hr hs
    exact hr.andThen hs
  · exact (advances_address.onlyIf _).inMarkup
  · exact (advances_prose.onlyIf _).inMarkup
  · exact advances_regionStart adm
  · exact advances_blockOpen.onlyIf _
  · exact (advances_regionClose.onlyIf _).inCode
  · exact (advances_comment.onlyIf _).inCode
  · exact (advances_directive.onlyIf _).inCode
  · exact advances_rawBody adm

end Rule
end RazorTokens
