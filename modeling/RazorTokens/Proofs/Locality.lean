import RazorTokens.Embedded.CodeState
import RazorTokens.Proofs.Call
import RazorTokens.Proofs.Locality.Text

/-!
This module shows that a call depends on nothing but the text that it walks over and one character of
lookahead. What lies before the start of the call and what lies behind the lookahead has no influence
on the answer.
-/

namespace RazorTokens

variable {u v : List Char}

structure Cursor.Alike (u v : List Char) (cur cur' : Cursor) : Prop where
  ahead : RazorTokens.Alike u v cur.ahead cur'.ahead
  start : RazorTokens.Alike u v cur.start cur'.start
  marked : Option.Rel (RazorTokens.Alike u v) cur.marked cur'.marked

namespace Place

structure Alike (u v : List Char) (p q : Place) : Prop where
  cursor : p.cursor.Alike u v q.cursor
  nesting : p.nesting = q.nesting

variable {p q : Place} {s t : List Char}

theorem Alike.ahead (h : p.Alike u v q) : RazorTokens.Alike u v p.ahead q.ahead :=
  h.cursor.ahead

theorem Alike.moveTo (h : p.Alike u v q) (hs : RazorTokens.Alike u v s t)
    : (p.moveTo s).Alike u v (q.moveTo t) where
  cursor := ⟨hs, h.cursor.start, h.cursor.marked⟩
  nesting := h.nesting

theorem Alike.markAt (h : p.Alike u v q) (hs : RazorTokens.Alike u v s t)
    : (p.markAt s).Alike u v (q.markAt t) where
  cursor := ⟨h.cursor.ahead, h.cursor.start, .some hs⟩
  nesting := h.nesting

theorem Alike.enter (h : p.Alike u v q) (r : Region) : (p.enter r).Alike u v (q.enter r) where
  cursor := h.cursor
  nesting := by
    unfold Place.enter
    rw [h.nesting]

theorem Alike.skipBlanks (hhead : u.head? = v.head?) (h : p.Alike u v q)
    (hu : u <:+ p.skipBlanks.ahead)
    : p.skipBlanks.Alike u v q.skipBlanks := by
  have hpeek : p.cursor.peek? = q.cursor.peek? := h.ahead.head?_eq hhead
  unfold Place.skipBlanks Cursor.skipBlanks at hu ⊢
  dsimp only [Place.ahead] at hu ⊢
  rw [← hpeek]
  split
  · next hblank =>
    rw [if_pos hblank] at hu
    have hdrop := h.ahead.dropWhile hhead hu
    exact ⟨⟨hdrop, hdrop, h.cursor.marked⟩, h.nesting⟩
  · exact h

end Place

inductive Verdict.Alike (u v : List Char) : Verdict → Verdict → Prop where
  | emit {p q : Place} (kind : Kind) : p.Alike u v q → Alike u v (.emit kind p) (.emit kind q)
  | refuse {p q : Place} (why : Refusal) : p.Alike u v q → Alike u v (.refuse why p) (.refuse why q)
  | pass {p q : Place} : p.Alike u v q → Alike u v (.pass p) (.pass q)

namespace Verdict.Alike

variable {p : Place} {verdict : Verdict}

theorem exists_emit {kind : Kind} (h : Verdict.Alike u v (.emit kind p) verdict)
    : ∃ q, verdict = .emit kind q ∧ p.Alike u v q := by
  cases h with
  | emit _ h => exact ⟨_, rfl, h⟩

theorem exists_refuse {why : Refusal} (h : Verdict.Alike u v (.refuse why p) verdict)
    : ∃ q, verdict = .refuse why q ∧ p.Alike u v q := by
  cases h with
  | refuse _ h => exact ⟨_, rfl, h⟩

theorem exists_pass (h : Verdict.Alike u v (.pass p) verdict)
    : ∃ q, verdict = .pass q ∧ p.Alike u v q := by
  cases h with
  | pass h => exact ⟨_, rfl, h⟩

end Verdict.Alike

namespace Rule

/--
The rule decides by what it passes over and the character behind that. The ends of the two texts may
differ as long as the rule stops before them.
-/
structure IsLocal (r : Rule) : Prop where
  advances : Advances r
  alike {u v : List Char} {p q : Place} (hhead : u.head? = v.head?) (h : p.Alike u v q)
    (hu : u <:+ (r p).place.ahead) : Verdict.Alike u v (r p) (r q)

theorem isLocal_silent : IsLocal silent where
  advances := advances_silent
  alike _ h _ := .pass h

theorem IsLocal.andThen {r s : Rule} (hr : IsLocal r) (hs : IsLocal s)
    : IsLocal (andThen r s) where
  advances := hr.advances.andThen hs.advances
  alike {u v p q} hhead h hu := by
    have hfirst := hr.alike hhead h
    unfold Rule.andThen at hu ⊢
    cases hp : r p with
    | emit kind p' =>
      rw [hp] at hu hfirst
      rcases (hfirst hu).exists_emit with ⟨q', hq, h'⟩
      rw [hq]
      exact .emit kind h'
    | refuse why p' =>
      rw [hp] at hu hfirst
      rcases (hfirst hu).exists_refuse with ⟨q', hq, h'⟩
      rw [hq]
      exact .refuse why h'
    | pass p' =>
      rw [hp] at hu hfirst
      -- What the second rule leaves ahead is a part of what the first one has left.
      have hu' := hu.trans (hs.advances p').ahead_suffix
      rcases (hfirst hu').exists_pass with ⟨q', hq, h'⟩
      rw [hq]
      exact hs.alike hhead h' hu

theorem IsLocal.onlyIf {r : Rule} (hr : IsLocal r) (b : Bool) : IsLocal (onlyIf b r) := by
  unfold Rule.onlyIf
  split
  · exact hr
  · exact isLocal_silent

theorem IsLocal.inMarkup {r : Rule} (hr : IsLocal r) : IsLocal (inMarkup r) where
  advances := hr.advances.inMarkup
  alike hhead h hu := by
    unfold Rule.inMarkup
    rw [← h.nesting]
    exact (hr.onlyIf _).alike hhead h hu

theorem IsLocal.inCode {r : Rule} (hr : IsLocal r) : IsLocal (inCode r) where
  advances := hr.advances.inCode
  alike hhead h hu := by
    unfold Rule.inCode
    rw [← h.nesting]
    exact (hr.onlyIf _).alike hhead h hu

theorem isLocal_address : IsLocal address where
  advances := advances_address
  alike {u v p q} hhead h hu := by
    unfold address at hu ⊢
    dsimp only at hu ⊢
    cases hseg : Address.afterSegment? p.ahead with
    | some rest =>
      rw [hseg, Option.isSome_some, if_pos rfl] at hu
      have hplain := hu.trans (Address.giveUp_suffix_dropWhile _)
      have ⟨hafter, hsome⟩ := Address.afterSegments_of_alike hhead h.ahead hu
      rw [hseg, Option.isSome_some] at hsome
      rw [← hsome, Option.isSome_some, if_pos rfl, if_pos rfl]
      apply Verdict.Alike.emit
      apply (h.moveTo (Address.giveUp_of_alike hhead hafter hu)).markAt
      exact hafter.dropWhile hhead hplain
    | none =>
      rw [hseg, if_neg (by simp)] at hu
      have hnone := Address.afterSegment?_of_alike_of_none hhead h.ahead hseg hu
      rw [hnone, if_neg (by simp), if_neg (by simp)]
      apply Verdict.Alike.pass
      exact h.moveTo (Address.giveUp_of_alike hhead h.ahead hu)

theorem reach_eq_ahead_of_prose (p : Place)
    : (prose p).place.ahead = Prose.reach (Prose.afterText true p.ahead) := by
  unfold prose Prose.reach
  dsimp only
  split
  · split <;> rfl
  · split
    · next hsame => exact hsame.symm
    · rfl

theorem isLocal_prose : IsLocal prose where
  advances := advances_prose
  alike {u v p q} hhead h hu := by
    rw [reach_eq_ahead_of_prose] at hu
    have ⟨hafter, hkeyword⟩ := Prose.afterText_of_alike hhead h.ahead hu
    have hsame := hafter.eq_iff h.ahead
    unfold Prose.reach at hu
    unfold prose
    dsimp only
    rw [← hkeyword]
    simp only [← hsame]
    split
    · next hstarts =>
      rw [if_pos hstarts] at hu
      have hplace := (h.moveTo (hafter.dropWhile hhead hu)).markAt hafter
      split
      · exact .refuse .keyword hplace
      · exact .emit .markupText hplace
    · split
      · exact .pass h
      · exact .emit .markupText ((h.moveTo hafter).markAt hafter)

theorem opening?_of_alike_of_some {adm : Admissible} {s t rest : List Char} {kind : Kind}
    {region : Region} (h : Alike u v s t) (hopening : opening? adm s = some (kind, region, rest))
    (hu : u <:+ rest)
    : ∃ rest', opening? adm t = some (kind, region, rest') ∧ Alike u v rest rest' := by
  cases s with
  | nil => contradiction
  | cons c s =>
    rw [opening?_cons, Option.map_eq_some_iff] at hopening
    rcases hopening with ⟨opened, hopened, heq⟩
    cases heq
    rcases h.uncons hu with ⟨t, rfl, hrest⟩
    refine ⟨t, ?_, hrest⟩
    rw [opening?_cons, hopened]
    rfl

theorem opening?_of_alike_of_none {adm : Admissible} {s t : List Char} (hhead : u.head? = v.head?)
    (h : Alike u v s t) (hnone : opening? adm s = none)
    : opening? adm t = none := by
  cases s with
  | nil =>
    rw [h.eq_nil hhead]
    rfl
  | cons c s =>
    rcases h.exists_cons hhead with ⟨t, rfl⟩
    rw [opening?_cons, Option.map_eq_none_iff] at hnone
    rw [opening?_cons, hnone]
    rfl

theorem isLocal_regionStart (adm : Admissible) : IsLocal (regionStart adm) where
  advances := advances_regionStart adm
  alike {u v p q} hhead h hu := by
    by_cases hat : p.ahead.head? = some '@'
    · rcases List.head?_eq_some_iff.mp hat with ⟨rest, hp⟩
      have hahead := h.ahead
      rw [hp] at hahead
      rw [regionStart_of_at adm hp] at hu ⊢
      split
      · next hallowed =>
        rw [if_pos hallowed] at hu
        cases hopening : opening? adm rest with
        | some opened =>
          rw [hopening] at hu
          rcases hahead.uncons (List.IsSuffix.trans hu (suffix_of_opening? hopening))
            with ⟨rest', hq, hrest⟩
          rcases opening?_of_alike_of_some hrest hopening hu with ⟨behind, hopening', hbehind⟩
          rw [regionStart_of_at adm hq, if_pos hallowed, hopening']
          exact .emit _ ((h.moveTo hbehind).enter _)
        | none =>
          rw [hopening] at hu
          rcases hahead.uncons hu with ⟨rest', hq, hrest⟩
          have hopening' := opening?_of_alike_of_none hhead hrest hopening
          rw [regionStart_of_at adm hq, if_pos hallowed, hopening']
          exact .refuse .strayAt (h.moveTo hrest)
      · next hallowed =>
        rcases hahead.exists_cons hhead with ⟨rest', hq⟩
        rw [regionStart_of_at adm hq, if_neg hallowed]
        exact .pass h
    · rw [regionStart_of_not_at adm hat]
      rw [h.ahead.head?_eq hhead] at hat
      rw [regionStart_of_not_at adm hat]
      exact .pass h

theorem isLocal_blockOpen : IsLocal blockOpen where
  advances := advances_blockOpen
  alike {u v p q} hhead h hu := by
    by_cases hbrace : p.skipBlanks.ahead.head? = some '{'
    · rcases List.head?_eq_some_iff.mp hbrace with ⟨rest, hp⟩
      rw [blockOpen_of_brace hp] at hu ⊢
      have hskip := h.skipBlanks hhead (List.IsSuffix.trans hu (suffix_of_ahead_eq_cons hp))
      have hahead := hskip.ahead
      rw [hp] at hahead
      rcases hahead.uncons hu with ⟨rest', hq, hrest⟩
      rw [blockOpen_of_brace hq]
      exact .emit .blockOpen ((hskip.moveTo hrest).enter .brace)
    · rw [blockOpen_of_not_brace hbrace] at hu ⊢
      have hskip := h.skipBlanks hhead hu
      rw [hskip.ahead.head?_eq hhead] at hbrace
      rw [blockOpen_of_not_brace hbrace]
      exact .pass hskip

theorem isLocal_regionClose : IsLocal regionClose where
  advances := advances_regionClose
  alike {u v p q} hhead h hu := by
    cases hp : p.skipBlanks.ahead with
    | nil =>
      rw [regionClose_of_nil hp] at hu ⊢
      have hskip := h.skipBlanks hhead hu
      have hahead := hskip.ahead
      rw [hp] at hahead
      rw [regionClose_of_nil (hahead.eq_nil hhead)]
      exact .pass hskip
    | cons c rest =>
      rw [regionClose_of_cons hp] at hu ⊢
      cases hclose : p.nesting.close? c with
      | none =>
        rw [hclose] at hu
        have hskip := h.skipBlanks hhead hu
        have hahead := hskip.ahead
        rw [hp] at hahead
        rcases hahead.exists_cons hhead with ⟨rest', hq⟩
        rw [regionClose_of_cons hq, ← h.nesting, hclose]
        exact .pass hskip
      | some closed =>
        rw [hclose] at hu
        have hskip := h.skipBlanks hhead (List.IsSuffix.trans hu (suffix_of_ahead_eq_cons hp))
        have hahead := hskip.ahead
        rw [hp] at hahead
        rcases hahead.uncons hu with ⟨rest', hq, hrest⟩
        rw [regionClose_of_cons hq, ← h.nesting, hclose]
        exact .emit .regionClose ⟨(hskip.moveTo hrest).cursor, rfl⟩

theorem isLocal_comment : IsLocal comment where
  advances := advances_comment
  alike {u v p q} hhead h hu := by
    by_cases hslash : p.ahead.head? = some '/'
    · rcases List.head?_eq_some_iff.mp hslash with ⟨rest, hp⟩
      have hahead := h.ahead
      rw [hp] at hahead
      rw [comment_of_slash hp] at hu ⊢
      split at hu
      · next hline =>
        have htail : u <:+ rest.tail := List.IsSuffix.trans hu (List.dropWhile_suffix _)
        rcases hahead.uncons (htail.trans (List.tail_suffix rest)) with ⟨rest', hq, hrest⟩
        rw [comment_of_slash hq, ← hrest.head?_eq hhead, if_pos hline, if_pos hline]
        apply Verdict.Alike.emit
        apply h.moveTo
        exact (hrest.tail hline htail).dropWhile hhead hu
      · next hline =>
        split at hu
        · next hblock =>
          have htail : u <:+ rest.tail := List.IsSuffix.trans hu (Trivia.afterBlock_suffix _)
          rcases hahead.uncons (htail.trans (List.tail_suffix rest)) with ⟨rest', hq, hrest⟩
          rw [comment_of_slash hq, ← hrest.head?_eq hhead]
          rw [if_neg hline, if_neg hline, if_pos hblock, if_pos hblock]
          apply Verdict.Alike.emit
          apply h.moveTo
          exact Trivia.afterBlock_of_alike hhead (hrest.tail hblock htail) hu
        · next hblock =>
          rcases hahead.uncons hu with ⟨rest', hq, hrest⟩
          rw [comment_of_slash hq, ← hrest.head?_eq hhead]
          rw [if_neg hline, if_neg hline, if_neg hblock, if_neg hblock]
          exact .refuse .straySlash (h.moveTo hrest)
    · rw [comment_of_not_slash hslash]
      rw [h.ahead.head?_eq hhead] at hslash
      rw [comment_of_not_slash hslash]
      exact .pass h

theorem isLocal_directive : IsLocal directive where
  advances := advances_directive
  alike {u v p q} hhead h hu := by
    by_cases hhash : p.ahead.head? = some '#'
    · rcases List.head?_eq_some_iff.mp hhash with ⟨rest, hp⟩
      have hahead := h.ahead
      rw [hp] at hahead
      rw [directive_of_hash hp] at hu ⊢
      have hline : u <:+ Trivia.afterLine rest :=
        List.IsSuffix.trans hu (Trivia.afterNewline_suffix _)
      rcases hahead.uncons (hline.trans (List.dropWhile_suffix _)) with ⟨rest', hq, hrest⟩
      rw [directive_of_hash hq]
      apply Verdict.Alike.emit
      apply h.moveTo
      exact Trivia.afterNewline_of_alike hhead (hrest.dropWhile hhead hline) hu
    · rw [directive_of_not_hash hhash]
      rw [h.ahead.head?_eq hhead] at hhash
      rw [directive_of_not_hash hhash]
      exact .pass h

theorem isLocal_verbatim (e : RawElement) : IsLocal (verbatim e) where
  advances := advances_verbatim e
  alike {u v p q} hhead h hu := by
    have hahead := h.ahead
    cases hp : p.ahead with
    | nil =>
      rw [hp] at hahead
      rw [verbatim_of_nil e hp, verbatim_of_nil e (hahead.eq_nil hhead)]
      exact .refuse _ h
    | cons c rest =>
      rw [hp] at hahead
      rcases hahead.exists_cons hhead with ⟨rest', hq⟩
      rw [hq] at hahead
      by_cases hc : c = '<'
      · subst hc
        rw [verbatim_of_angle e hp, verbatim_of_angle e hq]
        exact .refuse _ h
      · rw [verbatim_of_ne_angle e hp hc] at hu ⊢
        rw [verbatim_of_ne_angle e hq hc]
        cases hfind : Verbatim.findClosing? e.letters (c :: rest) with
        | some found =>
          rw [hfind] at hu
          rcases Verbatim.findClosing?_of_alike (isEitherCase_letters_eq_false e) hahead hfind hu
            with ⟨closing, behind, hfind', hclosing, hbehind⟩
          rw [hfind']
          exact .emit _ ((h.moveTo hbehind).markAt hclosing)
        | none =>
          rw [hfind] at hu
          -- The rule has gone to the end of the text, so that the two texts are the same.
          have hunil := List.suffix_nil.mp hu
          subst hunil
          have hvnil := Alike.ends.eq_nil hhead
          subst hvnil
          rw [← hahead.eq_of_nil, hfind]
          exact .emit _ ((h.moveTo Alike.ends).markAt Alike.ends)

theorem isLocal_rawBody (adm : Admissible) : IsLocal (rawBody adm) := by
  unfold rawBody
  split
  · apply isLocal_verbatim
  · exact isLocal_silent

theorem isLocal_template (adm : Admissible) : IsLocal (template adm) := by
  apply template_induction isLocal_silent
  · intro r s hr hs
    exact hr.andThen hs
  · exact (isLocal_address.onlyIf _).inMarkup
  · exact (isLocal_prose.onlyIf _).inMarkup
  · exact isLocal_regionStart adm
  · exact isLocal_blockOpen.onlyIf _
  · exact (isLocal_regionClose.onlyIf _).inCode
  · exact (isLocal_comment.onlyIf _).inCode
  · exact (isLocal_directive.onlyIf _).inCode
  · exact isLocal_rawBody adm

end Rule

namespace Scanner

theorem cursor_scan (sc : Scanner CodeState) (adm : Admissible) (cur : Cursor)
    : (sc.scan adm cur).cursor = (Rule.template adm ⟨cur, sc.nesting⟩).place.cursor := by
  cases h : Rule.template adm ⟨cur, sc.nesting⟩ with
  | emit kind p =>
    rw [scan_of_emit h]
    rfl
  | refuse why p =>
    rw [scan_of_refuse h]
    rfl
  | pass p =>
    rw [scan_of_pass h]
    rfl

theorem onward_scan (sc : Scanner CodeState) (adm : Admissible) (cur : Cursor)
    : cur.Onward (sc.scan adm cur).cursor := by
  rw [cursor_scan]
  exact Rule.advances_template adm ⟨cur, sc.nesting⟩

theorem scan_of_alike (sc : Scanner CodeState) (adm : Admissible) {cur cur' : Cursor}
    (hhead : u.head? = v.head?) (h : cur.Alike u v cur')
    (hu : u <:+ (sc.scan adm cur).cursor.ahead)
    : (sc.scan adm cur').outcome = (sc.scan adm cur).outcome
        ∧ (sc.scan adm cur').scanner = (sc.scan adm cur).scanner
        ∧ (sc.scan adm cur').log = (sc.scan adm cur).log
        ∧ (sc.scan adm cur).cursor.Alike u v (sc.scan adm cur').cursor := by
  have hplace : Place.Alike u v ⟨cur, sc.nesting⟩ ⟨cur', sc.nesting⟩ := ⟨h, rfl⟩
  rw [cursor_scan] at hu
  have hverdict := (Rule.isLocal_template adm).alike hhead hplace hu
  cases hp : Rule.template adm ⟨cur, sc.nesting⟩ with
  | emit kind p =>
    rw [hp] at hverdict
    rcases hverdict.exists_emit with ⟨q, hq, hsame⟩
    rw [scan_of_emit hp, scan_of_emit hq, hsame.nesting]
    exact ⟨rfl, rfl, rfl, hsame.cursor⟩
  | refuse why p =>
    rw [hp] at hverdict
    rcases hverdict.exists_refuse with ⟨q, hq, hsame⟩
    rw [scan_of_refuse hp, scan_of_refuse hq, hsame.nesting]
    exact ⟨rfl, rfl, rfl, hsame.cursor⟩
  | pass p =>
    rw [hp] at hverdict
    rcases hverdict.exists_pass with ⟨q, hq, hsame⟩
    rw [scan_of_pass hp, scan_of_pass hq, hsame.nesting]
    exact ⟨rfl, rfl, rfl, hsame.cursor⟩

end Scanner

namespace Reply

def shift (n : Nat) : Reply → Reply
  | token symbol span reach => token symbol ⟨n + span.start, n + span.stop⟩ (n + reach)
  | declined reach => declined (n + reach)

def reach : Reply → Nat
  | token _ _ reach => reach
  | declined reach => reach

theorem reach_ofOutcome (outcome : Outcome) (cur : Cursor)
    : (ofOutcome outcome cur).reach = cur.pos := by
  cases outcome with
  | commit symbol => rfl
  | decline => rfl

end Reply

namespace Cursor

variable {cur cur' : Cursor}

theorem Alike.tokenRest (h : cur.Alike u v cur')
    : RazorTokens.Alike u v cur.tokenRest cur'.tokenRest := by
  have hmarked := h.marked
  unfold Cursor.tokenRest
  generalize cur.marked = stop?, cur'.marked = stop?' at hmarked
  cases hmarked with
  | none => exact h.ahead
  | some hstop => exact hstop

theorem exists_ahead_of_same_text {cur₁ cur₂ : Cursor} {before₁ before₂ front u : List Char}
    (hsource₁ : before₁ ++ (front ++ u) = cur₁.source)
    (hsource₂ : before₂ ++ cur₂.ahead = cur₂.source)
    (htext : cur₁.textOf? ⟨byteSize before₁, cur₁.offset u⟩
      = cur₂.textOf? ⟨byteSize before₂, byteSize before₂ + (cur₁.offset u - byteSize before₁)⟩)
    (hnext : charAt? cur₁.source (cur₁.offset u)
      = charAt? cur₂.source (byteSize before₂ + (cur₁.offset u - byteSize before₁)))
    : ∃ v, front ++ v = cur₂.ahead ∧ u.head? = v.head? := by
  -- The hypotheses speak about byte offsets. Here they become statements about what lies ahead: the
  -- second cursor has the same text in front of it as the first one has up to `u`, and then the
  -- same character.
  have hfront := textOf?_of_append hsource₁
  rw [offset_of_append hsource₁] at hfront
  rw [← List.append_assoc] at hsource₁
  have hoffset := offset_of_append hsource₁
  have hsize : cur₁.offset u - byteSize before₁ = byteSize front := by
    rw [hoffset, byteSize_append]
    omega
  rw [hsize] at htext hnext
  rw [hfront] at htext
  unfold textOf? at htext
  rw [← hsource₂] at htext
  rcases Span.eq_append_of_textIn?_append htext.symm with ⟨v, hv, _⟩
  refine ⟨v, hv.symm, ?_⟩
  rw [hoffset, ← hsource₁, charAt?_append] at hnext
  rw [← hsource₂, hv, ← List.append_assoc, ← byteSize_append, charAt?_append] at hnext
  exact hnext

variable {before before' front : List Char}
  (hsource : before ++ (front ++ u) = cur.source)
  (hsource' : before' ++ (front ++ v) = cur'.source)
include hsource hsource'

theorem exists_offset_of_alike {s t : List Char} (h : RazorTokens.Alike u v s t)
    (hs : s <:+ front ++ u)
    : ∃ n, cur.offset s = byteSize before + n ∧ cur'.offset t = byteSize before' + n := by
  rcases h with ⟨part, rfl, rfl⟩
  rcases hs with ⟨gap, hgap⟩
  rw [← List.append_assoc, List.append_cancel_right_eq] at hgap
  subst hgap
  refine ⟨byteSize gap, ?_, ?_⟩
  · rw [← byteSize_append]
    apply offset_of_append
    rw [← hsource]
    simp
  · rw [← byteSize_append]
    apply offset_of_append
    rw [← hsource']
    simp

theorem exists_reply_of_alike (outcome : Outcome) (h : cur.Alike u v cur') (hord : cur.Ordered)
    (horigin : cur.origin = front ++ u)
    : ∃ reply : Reply, .ofOutcome outcome cur = reply.shift (byteSize before)
        ∧ .ofOutcome outcome cur' = reply.shift (byteSize before') := by
  have hahead := hord.ahead_suffix.trans hord.start_suffix
  have hstart := hord.start_suffix
  have hstop := hord.tokenRest_suffix
  rw [horigin] at hahead hstart hstop
  rcases exists_offset_of_alike hsource hsource' h.ahead hahead with ⟨reach, hreach, hreach'⟩
  rcases exists_offset_of_alike hsource hsource' h.start hstart with ⟨start, hstart, hstart'⟩
  rcases exists_offset_of_alike hsource hsource' h.tokenRest hstop with ⟨stop, hstop, hstop'⟩
  cases outcome with
  | commit symbol =>
    refine ⟨.token symbol ⟨min start stop, stop⟩ reach, ?_, ?_⟩
    · unfold Reply.ofOutcome Reply.shift tokenSpan pos startPos
      dsimp only
      rw [hreach, hstart, hstop, Nat.add_min_add_left]
    · unfold Reply.ofOutcome Reply.shift tokenSpan pos startPos
      dsimp only
      rw [hreach', hstart', hstop', Nat.add_min_add_left]
  | decline =>
    refine ⟨.declined reach, ?_, ?_⟩
    · unfold Reply.ofOutcome Reply.shift pos
      dsimp only
      rw [hreach]
    · unfold Reply.ofOutcome Reply.shift pos
      dsimp only
      rw [hreach']

end Cursor

namespace Session

theorem call_of_alike (sc : Scanner CodeState) (adm : Admissible) {cur₁ cur₂ : Cursor}
    {before₁ before₂ front u v : List Char} (hhead : u.head? = v.head?)
    (hsource₁ : before₁ ++ cur₁.ahead = cur₁.source)
    (hsource₂ : before₂ ++ cur₂.ahead = cur₂.source)
    (hahead₁ : front ++ u = cur₁.ahead) (hahead₂ : front ++ v = cur₂.ahead)
    (hu : (sc.scan adm cur₁.restart).cursor.ahead = u)
    : (∃ reply : Reply, (call ⟨sc, cur₁⟩ adm).1 = reply.shift (byteSize before₁)
          ∧ (call ⟨sc, cur₂⟩ adm).1 = reply.shift (byteSize before₂))
        ∧ (call ⟨sc, cur₂⟩ adm).2.1.scanner = (call ⟨sc, cur₁⟩ adm).2.1.scanner
        ∧ (call ⟨sc, cur₂⟩ adm).2.2 = (call ⟨sc, cur₁⟩ adm).2.2 := by
  have hstart : Alike u v cur₁.ahead cur₂.ahead := ⟨front, hahead₁.symm, hahead₂.symm⟩
  have halike : cur₁.restart.Alike u v cur₂.restart := ⟨hstart, hstart, .none⟩
  have hreach : u <:+ (sc.scan adm cur₁.restart).cursor.ahead := by
    rewrite [hu]
    apply List.suffix_refl
  rcases sc.scan_of_alike adm hhead halike hreach with ⟨houtcome, hscanner, hlog, hcursor⟩
  have honward₁ := sc.onward_scan adm cur₁.restart
  have honward₂ := sc.onward_scan adm cur₂.restart
  rw [call_reply, call_reply, call_scanner, call_scanner, call_log, call_log]
  refine ⟨?_, hscanner, hlog⟩
  dsimp only
  rw [houtcome]
  apply Cursor.exists_reply_of_alike (u := u) (v := v)
  · rw [honward₁.source_eq, hahead₁]
    exact hsource₁
  · rw [honward₂.source_eq, hahead₂]
    exact hsource₂
  · exact hcursor
  · exact honward₁.ordered (Cursor.ordered_restart ⟨before₁, hsource₁⟩)
  · rw [honward₁.origin_eq, hahead₁]
    rfl

/--
The answer to a call is determined by the text that the scanner has walked over and the character
behind it. Where another text has the same there, the scanner gives the same answer and ends up in
the same state, with all offsets counted from the start of the call.
-/
theorem call_eq_of_same_walk {sc : Scanner CodeState} {adm : Admissible} {cur₁ cur₂ : Cursor}
    {reply₁ : Reply} {after₁ : Session CodeState} {log : List Event}
    (h₁ : cur₁.InText) (h₂ : cur₂.InText)
    (hcall : call ⟨sc, cur₁⟩ adm = (reply₁, after₁, log))
    (htext : cur₁.textOf? ⟨cur₁.pos, reply₁.reach⟩
      = cur₂.textOf? ⟨cur₂.pos, cur₂.pos + (reply₁.reach - cur₁.pos)⟩)
    (hnext : charAt? cur₁.source reply₁.reach
      = charAt? cur₂.source (cur₂.pos + (reply₁.reach - cur₁.pos)))
    : ∃ (reply : Reply) (after₂ : Session CodeState),
        reply₁ = reply.shift cur₁.pos
          ∧ call ⟨sc, cur₂⟩ adm = (reply.shift cur₂.pos, after₂, log)
          ∧ after₂.scanner = after₁.scanner := by
  rcases h₁ with ⟨before₁, hsource₁⟩
  rcases h₂ with ⟨before₂, hsource₂⟩
  have hpos₁ : cur₁.pos = byteSize before₁ := Cursor.offset_of_append hsource₁
  have hpos₂ : cur₂.pos = byteSize before₂ := Cursor.offset_of_append hsource₂
  have honward := sc.onward_scan adm cur₁.restart
  rcases honward.ahead_suffix with ⟨front, hfront⟩
  have hreach : reply₁.reach = cur₁.offset (sc.scan adm cur₁.restart).cursor.ahead := by
    have hreply := call_reply ⟨sc, cur₁⟩ adm
    rw [hcall] at hreply
    dsimp only at hreply
    rw [hreply, Reply.reach_ofOutcome]
    unfold Cursor.pos Cursor.offset
    rw [honward.source_eq]
    rfl
  rw [hreach, hpos₁, hpos₂] at htext hnext
  have hahead₁ : front ++ (sc.scan adm cur₁.restart).cursor.ahead = cur₁.ahead := hfront
  rw [← hahead₁] at hsource₁
  rcases Cursor.exists_ahead_of_same_text hsource₁ hsource₂ htext hnext with ⟨v, hahead₂, hhead⟩
  rw [hahead₁] at hsource₁
  have hsame := call_of_alike sc adm hhead hsource₁ hsource₂ hahead₁ hahead₂ rfl
  rw [hcall] at hsame
  rcases hsame with ⟨⟨reply, hreply₁, hreply₂⟩, hscanner, hlog⟩
  refine ⟨reply, (call ⟨sc, cur₂⟩ adm).2.1, ?_, ?_, hscanner⟩
  · rw [hpos₁]
    exact hreply₁
  · rw [hpos₂, ← hreply₂]
    dsimp only at hlog
    rw [← hlog]

theorem call_eq_of_same_walk_before_keyword
    : let sc : Scanner CodeState := Scanner.initial
      let adm := Admissible.ofSymbols [Kind.markupText.symbol]
      let cur₁ := (Cursor.ofText ['é', '\n', 'e', 'l', 's', 'e', ' ', '{']).next
      let cur₂ := Cursor.ofText ['\n', 'e', 'l', 's', 'e', ' ', 'i', 'f']
      (call ⟨sc, cur₁⟩ adm).1 = .token Kind.markupText.symbol ⟨2, 3⟩ 7
        ∧ ∃ reply after₂,
            .token Kind.markupText.symbol ⟨2, 3⟩ 7 = Reply.shift 2 reply
              ∧ call ⟨sc, cur₂⟩ adm = (Reply.shift 0 reply, after₂, [.committed .markupText 0])
              ∧ after₂.scanner = sc := by
  intro sc adm cur₁ cur₂
  have h₁ : cur₁.InText := ⟨['é'], rfl⟩
  have h₂ : cur₂.InText := ⟨[], rfl⟩
  have hcall : call ⟨sc, cur₁⟩ adm
      = (.token Kind.markupText.symbol ⟨2, 3⟩ 7, _, [.committed .markupText 0]) := rfl
  refine ⟨by rw [hcall], ?_⟩
  exact call_eq_of_same_walk h₁ h₂ hcall rfl rfl

end Session
end RazorTokens
