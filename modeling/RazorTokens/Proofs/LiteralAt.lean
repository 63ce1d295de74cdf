import Mathlib.Data.List.Basic
import Mathlib.Data.List.TakeWhile
import RazorTokens.Proofs.MarkupText

/-!
This module is about the `@` in text. An `@` between two word characters stands for itself, and any
other `@` leads into code. The module says which `@` a token of text may cover, and which `@` may
stand behind a token of text that holds a literal one.
-/

namespace RazorTokens

def Flanked (before after : List Char) : Prop :=
  Alphabet.isNext Alphabet.isWord before.getLast? ∧ Alphabet.isNext Alphabet.isWord after.head?

instance (before after : List Char) : Decidable (Flanked before after) :=
  inferInstanceAs (Decidable (_ ∧ _))

theorem Alphabet.isNext_or {p : Char → Bool} {first : Option Char} (h : isNext p first)
    (second : Option Char)
    : isNext p (first.or second) := by
  cases first with
  | none => contradiction
  | some c => exact h

namespace Flanked

variable {before after : List Char} (h : Flanked before after)
include h

theorem append_before (front : List Char) : Flanked (front ++ before) after := by
  refine ⟨?_, h.2⟩
  rw [List.getLast?_append]
  exact Alphabet.isNext_or h.1 _

theorem append_after (back : List Char) : Flanked before (after ++ back) := by
  refine ⟨h.1, ?_⟩
  rw [List.head?_append]
  exact Alphabet.isNext_or h.2 _

end Flanked

theorem Flanked.of_append_before {front before after : List Char} (hbefore : before ≠ [])
    (h : Flanked (front ++ before) after)
    : Flanked before after := by
  refine ⟨?_, h.2⟩
  rw [← List.getLast?_append_of_ne_nil front hbefore]
  exact h.1

def AllFlanked (text : List Char) : Prop :=
  ∀ u v, text = u ++ '@' :: v → Flanked u v

namespace AllFlanked

theorem of_not_mem {text : List Char} (h : '@' ∉ text) : AllFlanked text := by
  rintro u v rfl
  simp at h

theorem append {s t : List Char} (hs : AllFlanked s) (ht : AllFlanked t) : AllFlanked (s ++ t) := by
  intro u v heq
  rcases List.append_eq_append_iff.mp heq with ⟨u', rfl, htext⟩ | ⟨v', rfl, hv⟩
  · exact (ht u' v htext).append_before s
  · cases v' with
    | nil =>
      -- The second text would begin with an `@` that has no character of this text before it.
      have hflanked := ht [] v hv.symm
      exact absurd hflanked.1 (by simp [Alphabet.isNext])
    | cons c v' =>
      injection hv with hc hv
      subst hc hv
      exact (hs u v' rfl).append_after t

theorem flatMap {α : Type} {f : α → List Char} (h : ∀ a, AllFlanked (f a)) (as : List α)
    : AllFlanked (as.flatMap f) := by
  induction as with
  | nil => exact of_not_mem List.not_mem_nil
  | cons a as ih =>
    rw [List.flatMap_cons]
    exact (h a).append ih

end AllFlanked

namespace Rule
namespace Address

theorem isPlain_iff {c : Char} : isPlain c ↔ c ∉ ['<', '@', '\x22', '\x27'] := by
  simp [isPlain, Alphabet.isQuote]
  tauto

theorem isPlain_eq_false_iff_mem {c : Char}
    : isPlain c = false ↔ c ∈ ['<', '@', '\x22', '\x27'] := by
  rw [← Bool.not_eq_true, isPlain_iff, Decidable.not_not]

theorem isDomain_iff {c : Char} : isDomain c ↔ Alphabet.isWord c ∨ c = '.' ∨ c = '-' := by
  simp [isDomain, or_assoc]

theorem isDomain_eq_false_iff {c : Char}
    : isDomain c = false ↔ ¬ (Alphabet.isWord c ∨ c = '.' ∨ c = '-') := by
  rw [← Bool.not_eq_true, isDomain_iff]

/--
A literal segment: plain text, an `@`, and domain characters, with word characters on both sides of
the `@`.
-/
structure Segment where
  plain : List Char
  domain : List Char
  plain_avoids : ∀ c ∈ plain, c ∉ ['<', '@', '\x22', '\x27']
  domain_within : ∀ c ∈ domain, Alphabet.isWord c ∨ c = '.' ∨ c = '-'
  flanked : Flanked plain domain

def Segment.text (g : Segment) : List Char :=
  g.plain ++ '@' :: g.domain

theorem Segment.isPlain_of_mem (g : Segment) : ∀ c ∈ g.plain, isPlain c := by
  intro c hc
  rw [isPlain_iff]
  exact g.plain_avoids c hc

theorem Segment.isDomain_of_mem (g : Segment) : ∀ c ∈ g.domain, isDomain c := by
  intro c hc
  rw [isDomain_iff]
  exact g.domain_within c hc

theorem at_not_mem_of_isPlain {s : List Char} (h : ∀ c ∈ s, isPlain c) : '@' ∉ s := by
  intro hat
  have := h '@' hat
  contradiction

theorem Segment.at_not_mem_domain (g : Segment) : '@' ∉ g.domain := by
  intro hat
  have : isDomain '@' = true := g.isDomain_of_mem '@' hat
  revert this
  decide

theorem Segment.allFlanked_text (g : Segment) : AllFlanked g.text := by
  intro u v heq
  unfold text at heq
  rw [List.append_cons_inj_of_notMem (at_not_mem_of_isPlain g.isPlain_of_mem) g.at_not_mem_domain]
    at heq
  rcases heq with ⟨rfl, _, rfl⟩
  exact g.flanked

theorem exists_segment_of_afterSegment? {s rest : List Char} (h : afterSegment? s = some rest)
    : ∃ g : Segment, s = g.text ++ rest := by
  rw [afterSegment?_eq_ite] at h
  split at h
  · next hsegment =>
    rcases hsegment with ⟨hat, hword, hnext⟩
    cases h
    have hs := (List.takeWhile_append_dropWhile : s.takeWhile isPlain ++ s.dropWhile isPlain = s)
    rw [List.head?_eq_some_iff] at hat
    rcases hat with ⟨behind, hbehind⟩
    rw [hbehind] at hs hnext ⊢
    rw [List.tail_cons] at hnext ⊢
    have hflanked : Flanked (s.takeWhile isPlain) (behind.takeWhile isDomain) := by
      refine ⟨hword, ?_⟩
      cases behind with
      | nil => contradiction
      | cons c behind =>
        have hdomain : isDomain c = true := by
          have hc : Alphabet.isWord c = true := hnext
          simp [isDomain, hc]
        rw [List.takeWhile_cons_of_pos hdomain]
        exact hnext
    refine ⟨⟨s.takeWhile isPlain, behind.takeWhile isDomain, ?_, ?_, hflanked⟩, ?_⟩
    · exact fun c hc => isPlain_iff.mp (List.mem_takeWhile_imp hc)
    · exact fun c hc => isDomain_iff.mp (List.mem_takeWhile_imp hc)
    · unfold Segment.text
      rw [List.append_assoc, List.cons_append, List.takeWhile_append_dropWhile]
      exact hs.symm
  · contradiction

theorem exists_segments (s : List Char)
    : ∃ gs : List Segment, s = gs.flatMap Segment.text ++ afterSegments s
        ∧ ((afterSegment? s).isSome → gs ≠ [])
        ∧ afterSegment? (afterSegments s) = none := by
  induction s using afterSegments.induct with
  | case1 s rest hrest _ ih =>
    rcases exists_segment_of_afterSegment? hrest with ⟨g, hg⟩
    rcases ih with ⟨gs, hgs, _, hnone⟩
    rw [afterSegments_of_some hrest]
    refine ⟨g :: gs, ?_, by simp, hnone⟩
    rw [List.flatMap_cons, List.append_assoc, ← hgs]
    exact hg
  | case2 s hnone =>
    rw [afterSegments_of_none hnone]
    exact ⟨[], by simp, by simp [hnone], hnone⟩

section Plain

variable {plain : List Char} (hplain : ∀ c ∈ plain, isPlain c) (rest : List Char)
include hplain

theorem dropWhile_isPlain_append : (plain ++ '@' :: rest).dropWhile isPlain = '@' :: rest := by
  rw [List.dropWhile_append_of_pos hplain, List.dropWhile_cons_of_neg (by decide)]

theorem endsInWord_append
    : endsInWord (plain ++ '@' :: rest) = Alphabet.isNext Alphabet.isWord plain.getLast? := by
  unfold endsInWord
  rw [List.takeWhile_append_of_pos hplain, List.takeWhile_cons_of_neg (by decide), List.append_nil]

theorem afterSegment?_append
    : afterSegment? (plain ++ '@' :: rest)
        =
      if Flanked plain rest then some (rest.dropWhile isDomain) else none := by
  rw [afterSegment?_eq_ite, dropWhile_isPlain_append hplain, endsInWord_append hplain]
  by_cases h : Flanked plain rest
  · rw [if_pos h, if_pos ⟨rfl, h⟩]
    rfl
  · rw [if_neg h, if_neg]
    rintro ⟨_, hflanked⟩
    exact h hflanked

theorem giveUp_append
    : giveUp (plain ++ '@' :: rest)
        =
      if Alphabet.isNext Alphabet.isWord plain.getLast? then rest else '@' :: rest := by
  rw [giveUp_eq_ite, dropWhile_isPlain_append hplain, endsInWord_append hplain]
  simp

end Plain

theorem afterSegment?_of_flanked {tail rest : List Char} (hplain : ∀ c ∈ tail, isPlain c)
    (h : Flanked tail rest)
    : afterSegment? (tail ++ '@' :: rest) = some (rest.dropWhile isDomain) := by
  rw [afterSegment?_append hplain, if_pos h]

theorem isPlain_eq_false_iff {c : Char}
    : isPlain c = false ↔ c = '<' ∨ c = '@' ∨ Alphabet.isQuote c := by
  unfold isPlain
  rw [Bool.not_eq_eq_eq_not, Bool.not_false, Bool.or_eq_true, Bool.or_eq_true, beq_iff_eq,
    beq_iff_eq, or_assoc]

/--
Where there is no segment, the search gives up before a plain character only behind an `@`, and that
`@` has a word character before it and none behind it.
-/
theorem exists_at_of_giveUp {s behind : List Char} {c : Char} (hnone : afterSegment? s = none)
    (hgiveUp : giveUp s = c :: behind) (hc : isPlain c)
    : ∃ front, s = front ++ '@' :: c :: behind
        ∧ (∀ d ∈ front, isPlain d)
        ∧ Alphabet.isNext Alphabet.isWord front.getLast?
        ∧ Alphabet.isWord c = false := by
  rw [giveUp_eq_ite] at hgiveUp
  split at hgiveUp
  · next hat =>
    rcases hat with ⟨hat, hword⟩
    have hsplit : s.dropWhile isPlain = '@' :: c :: behind := by
      rw [List.head?_eq_some_iff] at hat
      rcases hat with ⟨rest, hrest⟩
      rw [hrest, List.tail_cons] at hgiveUp
      rw [hrest, hgiveUp]
    refine ⟨s.takeWhile isPlain, ?_, fun d => List.mem_takeWhile_imp, hword, ?_⟩
    · rw [← hsplit, List.takeWhile_append_dropWhile]
    · rw [← Bool.not_eq_true]
      intro hnext
      have hsegment : Alphabet.isNext Alphabet.isWord (s.dropWhile isPlain).tail.head? := by
        rw [hgiveUp]
        exact hnext
      rw [afterSegment?_eq_ite, if_pos ⟨hat, hword, hsegment⟩] at hnone
      contradiction
  · rw [eq_false_of_dropWhile_eq_cons hgiveUp] at hc
    contradiction

end Address

inductive Composed (adm : Admissible) : Kind → List Char → List Char → Prop where
  /-- Literal segments, and plain text behind the last of them that goes on as far as it can. -/
  | segments {gs : List Address.Segment} {tail rest : List Char}
    : gs ≠ [] → (∀ c ∈ tail, Address.isPlain c) →
      (∀ c after, rest = c :: after → Address.isPlain c = false) →
      (∀ after, rest = '@' :: after → ¬ Flanked tail after) →
      Composed adm .textWithAt (gs.flatMap Address.Segment.text ++ tail) rest
  /-- Text without an `@`, found at the place where the call began. -/
  | plain {text rest : List Char}
    : adm.allows .textWithAt = false → '@' ∉ text → Composed adm .markupText text rest
  /-- Plain text behind an `@` that is literal only to the left, with all that stands before it. -/
  | resumed {front back rest : List Char}
    : adm.allows .textWithAt → '@' ∉ front → '@' ∉ back → back ≠ [] →
      Alphabet.isNext Alphabet.isWord front.getLast? →
      Alphabet.isNext Alphabet.isWord back.head? = false →
      Composed adm .markupText (front ++ '@' :: back) rest

namespace Composed

variable {adm : Admissible} {kind : Kind} {text rest : List Char}

theorem flanks_at (h : Composed adm kind text rest) {u v : List Char} (htext : text = u ++ '@' :: v)
    : Alphabet.isNext Alphabet.isWord u.getLast?
        ∧ (Alphabet.isNext Alphabet.isWord (v ++ rest).head? ↔ kind = .textWithAt)
        ∧ (kind = .markupText → adm.allows .textWithAt
            ∧ ∀ u' v', text = u' ++ '@' :: v' → u' = u) := by
  cases h with
  | @segments gs tail _ hgs hplain hstop hend =>
    have hsegments := AllFlanked.flatMap Address.Segment.allFlanked_text gs
    have htail := AllFlanked.of_not_mem (Address.at_not_mem_of_isPlain hplain)
    have hflanked := hsegments.append htail u v htext
    exact ⟨hflanked.1, by simpa using (hflanked.append_after rest).2, nofun⟩
  | plain hadm hat =>
    rw [htext] at hat
    simp at hat
  | @resumed front back _ hadm hfront hback hne hbefore hbehind =>
    have hunique {u v : List Char} (h : front ++ '@' :: back = u ++ '@' :: v)
        : front = u ∧ back = v := by
      rw [List.append_cons_inj_of_notMem hfront hback] at h
      exact ⟨h.1, h.2.2⟩
    rcases hunique htext with ⟨rfl, rfl⟩
    rw [List.head?_append_of_ne_nil _ hne]
    refine ⟨hbefore, by simp [hbehind], ?_⟩
    intro _
    exact ⟨hadm, fun u' v' heq => (hunique heq).1.symm⟩

theorem isPlain_eq_false_of_cons (h : Composed adm .textWithAt text rest) {c : Char}
    {after : List Char} (hrest : rest = c :: after)
    : Address.isPlain c = false := by
  cases h with
  | segments hgs hplain hstop hend => exact hstop c after hrest

/--
The search for the next segment does not look back at the word characters of a domain. So it misses
a segment only where the text ends in a domain.
-/
theorem ends_in_domain_of_flanked (h : Composed adm .textWithAt text rest) {front after : List Char}
    (hrest : rest = '@' :: after) (hflanked : Flanked (front ++ text) after)
    : ∃ u domain, text = u ++ '@' :: domain ∧ ∀ c ∈ domain, Address.isDomain c := by
  cases h with
  | @segments gs tail _ hgs hplain hstop hend =>
    cases tail with
    | cons c tail =>
      rw [← List.append_assoc] at hflanked
      exact absurd (hflanked.of_append_before (by simp)) (hend after hrest)
    | nil =>
      rcases List.eq_nil_or_concat gs with rfl | ⟨gs, g, rfl⟩
      · exact absurd rfl hgs
      · refine ⟨gs.flatMap Address.Segment.text ++ g.plain, g.domain, ?_, g.isDomain_of_mem⟩
        rw [List.concat_eq_append, List.flatMap_append, List.flatMap_singleton]
        rw [List.append_nil, List.append_assoc]
        rfl

end Composed

def Finds (adm : Admissible) (kind : Kind) (p q : Place) : Prop :=
  ∃ text rest reach, p.ahead = text ++ rest
    ∧ q = (p.moveTo reach).markAt rest
    ∧ Composed adm kind text rest

theorem finds_of_address {adm : Admissible} {kind : Kind} {p q : Place}
    (h : address p = .emit kind q)
    : Finds adm kind p q := by
  unfold address at h
  dsimp only at h
  split at h
  · next hsegment =>
    cases h
    rcases Address.exists_segments p.ahead with ⟨gs, hahead, hgs, hnone⟩
    have htail := (List.takeWhile_append_dropWhile :
      (Address.afterSegments p.ahead).takeWhile Address.isPlain
        ++ (Address.afterSegments p.ahead).dropWhile Address.isPlain
          = Address.afterSegments p.ahead)
    have hplain : ∀ c ∈ (Address.afterSegments p.ahead).takeWhile Address.isPlain,
        Address.isPlain c := fun c => List.mem_takeWhile_imp
    refine ⟨_, _, _, ?_, rfl, Composed.segments (hgs hsegment) hplain ?_ ?_⟩
    · rw [List.append_assoc, htail]
      exact hahead
    · exact fun c after => eq_false_of_dropWhile_eq_cons
    · intro after heq hflanked
      have hsome := Address.afterSegment?_of_flanked hplain hflanked
      rw [← heq, htail, hnone] at hsome
      contradiction
  · contradiction

theorem exists_taken_of_prose {kind : Kind} {p q : Place} (h : prose p = .emit kind q)
    : kind = .markupText ∧ ∃ taken rest reach, p.ahead = taken ++ rest
        ∧ q = (p.moveTo reach).markAt rest
        ∧ taken ≠ []
        ∧ ∀ c ∈ taken, Prose.isStop c = false := by
  rcases Prose.exists_taken_of_afterText p.ahead (iff_of_true rfl Prose.atLineStart_nil)
    with ⟨taken, hahead, _, hfirst⟩
  have hfree : ∀ c ∈ taken, Prose.isStop c = false := by
    intro c hc
    rcases List.append_of_mem hc with ⟨u, v, rfl⟩
    by_contra hstop
    rw [Bool.not_eq_false] at hstop
    apply hfirst u (c :: v) rfl (by simp)
    exact .stop (Prose.isStop_iff.mp hstop)
  have hne (hmoved : Prose.afterText true p.ahead ≠ p.ahead) : taken ≠ [] := by
    rintro rfl
    exact hmoved hahead.symm
  unfold prose at h
  dsimp only at h
  split at h
  · split at h
    · contradiction
    · next hmoved =>
      cases h
      exact ⟨rfl, taken, _, _, hahead, rfl, hne hmoved, hfree⟩
  · split at h
    · contradiction
    · next hmoved =>
      cases h
      exact ⟨rfl, taken, _, _, hahead, rfl, hne hmoved, hfree⟩

theorem eq_moveTo_of_address {p q : Place} (h : address p = .pass q)
    : Address.afterSegment? p.ahead = none ∧ q = p.moveTo (Address.giveUp p.ahead) := by
  unfold address at h
  dsimp only at h
  split at h
  · contradiction
  · next hnone =>
    cases h
    exact ⟨by simpa using hnone, rfl⟩

namespace Prose

theorem at_not_mem_of_not_isStop {s : List Char} (h : ∀ c ∈ s, isStop c = false) : '@' ∉ s := by
  intro hat
  have := h '@' hat
  contradiction

theorem isPlain_of_not_isStop {c : Char} (h : isStop c = false) : Address.isPlain c := by
  unfold isStop at h
  unfold Address.isPlain
  simp only [Bool.or_eq_false_iff] at h
  simp [h]

end Prose

theorem finds_of_prose {adm : Admissible} {kind : Kind} {p q : Place}
    (hadm : adm.allows .textWithAt = false) (h : prose p = .emit kind q)
    : Finds adm kind p q := by
  rcases exists_taken_of_prose h with ⟨rfl, taken, rest, reach, hahead, hq, _, hfree⟩
  exact ⟨taken, rest, reach, hahead, hq, .plain hadm (Prose.at_not_mem_of_not_isStop hfree)⟩

/--
The rule for text with a literal `@` has passed, and the rule for plain text goes on from the place
that it has reached. There is something left to find only if that place is behind an `@`.
-/
theorem finds_of_address_of_prose {adm : Admissible} {kind : Kind} {p q r : Place}
    (hadm : adm.allows .textWithAt) (hpass : address p = .pass q) (h : prose q = .emit kind r)
    : Finds adm kind p r := by
  rcases eq_moveTo_of_address hpass with ⟨hnone, rfl⟩
  rcases exists_taken_of_prose h with ⟨rfl, taken, rest, reach, hgiveUp, hr, hne, hfree⟩
  rcases List.exists_cons_of_ne_nil hne with ⟨c, behind, rfl⟩
  have hc := Prose.isPlain_of_not_isStop (hfree c List.mem_cons_self)
  rcases Address.exists_at_of_giveUp hnone hgiveUp hc with ⟨front, hahead, hfront, hword, hnext⟩
  refine ⟨front ++ '@' :: c :: behind, rest, reach, ?_, hr, ?_⟩
  · rw [hahead]
    simp
  · apply Composed.resumed hadm _ _ hne hword hnext
    · exact Address.at_not_mem_of_isPlain hfront
    · exact Prose.at_not_mem_of_not_isStop hfree

end Rule

def Verdict.EmitsNoText : Verdict → Prop
  | emit kind _ => kind ∉ [Kind.textWithAt, Kind.markupText]
  | _ => True

theorem Verdict.Concerns.emitsNoText {kind : Kind} {p : Place} {verdict : Verdict}
    (h : verdict.Concerns kind p) (hkind : kind ∉ [Kind.textWithAt, Kind.markupText])
    : verdict.EmitsNoText := by
  cases verdict with
  | emit kind' q =>
    have : kind' = kind := h
    rw [this]
    exact hkind
  | refuse why q => trivial
  | pass q => trivial

namespace Rule

def textless : Contract :=
  .ofVerdict Verdict.EmitsNoText fun _ => trivial

theorem textless_regionStart (adm : Admissible) : textless.Meets (regionStart adm) := by
  intro p _
  unfold regionStart
  split
  · split
    · split
      · next hopening =>
        -- A kind that opens a region changes the nesting, and text does not.
        rcases after?_of_opening? ∅ hopening with ⟨hafter, _⟩
        intro hkind
        simp only [List.mem_cons, List.not_mem_nil, or_false] at hkind
        rcases hkind with rfl | rfl <;> cases hafter
      · trivial
    · trivial
  · trivial

theorem textless_behindText (adm : Admissible) : textless.Meets (behindText adm) := by
  apply textless.meets_inOrder
  simp only [all, List.drop_succ_cons, List.drop_zero, List.forall_mem_cons]
  refine ⟨?_, ?_, ?_, ?_, ?_, ?_, ?_⟩
  · exact textless_regionStart adm
  · exact textless.meets_ifAllowed fun p _ _ => (concerns_blockOpen p).emitsNoText (by decide)
  · exact textless.meets_inCode fun p _ _ _ => (concerns_regionClose p).emitsNoText (by decide)
  · exact textless.meets_inCode fun p _ _ _ => (concerns_comment p).emitsNoText (by decide)
  · exact textless.meets_inCode fun p _ _ _ => (concerns_directive p).emitsNoText (by decide)
  · exact textless.meets_rawBody fun e p _ _ => (concerns_verbatim e p).emitsNoText (by simp)
  · intro r hr
    contradiction

theorem finds_of_template {adm : Admissible} {kind : Kind} {p q : Place}
    (hkind : kind ∈ [Kind.textWithAt, Kind.markupText]) (h : template adm p = .emit kind q)
    : Finds adm kind p q := by
  have hadmitted := admits_template adm p
  rw [h] at hadmitted
  have hmarkup : p.nesting.isMarkup := Nesting.isMarkup_iff.mpr (hadmitted.markup hkind)
  rw [template_of_markup hmarkup] at h
  rcases andThen_eq_emit h with haddress | ⟨r, hpass, hrest⟩
  · exact finds_of_address (ifAllowed_eq_emit haddress).2
  · rcases andThen_eq_emit hrest with hprose | ⟨r', _, hemit⟩
    · have hprose := (ifAllowed_eq_emit hprose).2
      unfold ifAllowed onlyIf at hpass
      split at hpass
      · next hat => exact finds_of_address_of_prose hat hpass hprose
      · next hat =>
        cases hpass
        exact finds_of_prose (by simpa using hat) hprose
    · have htextless := textless_behindText adm r' trivial
      rw [hemit] at htextless
      exact absurd hkind htextless

end Rule

structure Span.CoversAt (span : Span) (source before after : List Char) : Prop where
  source_eq : source = before ++ '@' :: after
  start_le : span.start ≤ byteSize before
  lt_stop : byteSize before < span.stop

namespace Session

variable {σ : Type} [Embedded σ] {s : Session σ} {adm : Admissible} {span : Span} {reach : Nat}

theorem exists_composed_of_token {kind : Kind} (hs : s.cursor.InText)
    (hkind : kind ∈ [Kind.textWithAt, Kind.markupText])
    (hreply : (s.call adm).1 = .token kind.symbol span reach) (hown : s.asked adm = [])
    : ∃ front text rest, s.cursor.source = front ++ (text ++ rest)
        ∧ span = ⟨byteSize front, byteSize front + byteSize text⟩
        ∧ Rule.Composed adm kind text rest := by
  rcases exists_emit_of_token hreply hown with ⟨p, hemit, hspan⟩
  rcases Rule.finds_of_template hkind hemit with ⟨text, rest, ahead, hahead, rfl, hcomposed⟩
  have hahead : s.cursor.ahead = text ++ rest := hahead
  rcases hs with ⟨front, hsource⟩
  refine ⟨front, text, rest, ?_, ?_, hcomposed⟩
  · rw [← hahead, hsource]
  · have hpos : s.cursor.pos = byteSize front := Cursor.offset_of_append hsource
    rw [hspan, ← hpos]
    exact Cursor.tokenSpan_markAt ahead ⟨front, hsource⟩ hahead

/--
An `@` in a token of text has a word character before it. In text with a literal `@` it has a word
character behind it, too. In plain text it has none behind it, and there is such an `@` only if the
host accepts text with a literal `@` as well, and then only one.
-/
theorem at_in_text_token {kind : Kind} {before after : List Char} (hs : s.cursor.InText)
    (hkind : kind ∈ [Kind.textWithAt, Kind.markupText])
    (hreply : (s.call adm).1 = .token kind.symbol span reach) (hown : s.asked adm = [])
    (hat : span.CoversAt s.cursor.source before after)
    : Alphabet.isNext Alphabet.isWord before.getLast?
        ∧ (Alphabet.isNext Alphabet.isWord after.head? ↔ kind = .textWithAt)
        ∧ (kind = .markupText → adm.allows .textWithAt
            ∧ ∀ before' after', span.CoversAt s.cursor.source before' after' →
                before' = before) := by
  rcases exists_composed_of_token hs hkind hreply hown with ⟨front, text, rest, hsource, rfl, htext⟩
  have hsplit {before after : List Char}
      (hat : Span.CoversAt ⟨byteSize front, byteSize front + byteSize text⟩ s.cursor.source
        before after)
      : ∃ u v, before = front ++ u ∧ text = u ++ '@' :: v ∧ after = v ++ rest :=
    exists_split_of_byteSize (hsource.symm.trans hat.source_eq) hat.start_le hat.lt_stop
  rcases hsplit hat with ⟨u, v, rfl, huv, rfl⟩
  rcases htext.flanks_at huv with ⟨hbefore, hbehind, honly⟩
  refine ⟨?_, hbehind, ?_⟩
  · rw [List.getLast?_append]
    exact Alphabet.isNext_or hbefore _
  · intro hprose
    rcases honly hprose with ⟨hadm, hunique⟩
    refine ⟨hadm, fun before' after' hat' => ?_⟩
    rcases hsplit hat' with ⟨u', v', rfl, huv', _⟩
    rw [hunique u' v' huv']

theorem at_in_text_token_second_segment
    : let source := ['<', 'a', '@', 'b', ' ', 'é', '@', '1', '.', '!']
      let s : Session CodeState := ⟨.initial, (Cursor.ofText source).next⟩
      let adm : Admissible := .ofSymbols [Kind.textWithAt.symbol, Kind.markupText.symbol]
      (s.call adm).1 = .token Kind.textWithAt.symbol ⟨1, 11⟩ 11
        ∧ s.asked adm = []
        ∧ Span.CoversAt ⟨1, 11⟩ source ['<', 'a', '@', 'b', ' ', 'é'] ['1', '.', '!']
        ∧ Flanked ['<', 'a', '@', 'b', ' ', 'é'] ['1', '.', '!'] := by
  intro source s adm
  have hreply : (s.call adm).1 = .token Kind.textWithAt.symbol ⟨1, 11⟩ 11 := by decide +kernel
  have hown : s.asked adm = [] := by decide +kernel
  have hat : Span.CoversAt ⟨1, 11⟩ source ['<', 'a', '@', 'b', ' ', 'é'] ['1', '.', '!'] :=
    ⟨rfl, by decide, by decide⟩
  rcases at_in_text_token ⟨['<'], rfl⟩ (by simp) hreply hown hat with ⟨hbefore, hbehind, _⟩
  exact ⟨hreply, hown, hat, hbefore, hbehind.mpr rfl⟩

/--
Where the host accepts both kinds of text, plain text may cover an `@` that has no word character
behind it.
-/
theorem at_in_text_token_before_blank
    : let source := ['u', 's', 'e', 'r', '@', ' ', 'e', 'x', 'a', 'm', 'p', 'l', 'e']
      let s : Session CodeState := ⟨.initial, .ofText source⟩
      let adm : Admissible := .ofSymbols [Kind.textWithAt.symbol, Kind.markupText.symbol]
      s.scanner.nesting = ∅
        ∧ (s.call adm).1 = .token Kind.markupText.symbol ⟨0, 13⟩ 13
        ∧ Span.CoversAt ⟨0, 13⟩ source ['u', 's', 'e', 'r']
            [' ', 'e', 'x', 'a', 'm', 'p', 'l', 'e']
        ∧ ¬ Flanked ['u', 's', 'e', 'r'] [' ', 'e', 'x', 'a', 'm', 'p', 'l', 'e'] :=
  ⟨rfl, by decide +kernel, ⟨rfl, by decide, by decide⟩, by decide⟩

/--
Text with a literal `@` ends with the source, or before a character that is not plain. It may leave
a literal `@` behind only where nothing but the domain of an earlier one stands before it.
-/
theorem behind_at_token {before after : List Char} (hs : s.cursor.InText)
    (hreply : (s.call adm).1 = .token Kind.textWithAt.symbol span reach) (hown : s.asked adm = [])
    (hsource : s.cursor.source = before ++ after) (hstop : byteSize before = span.stop)
    : after = [] ∨ ∃ c rest, after = c :: rest
        ∧ (c = '<' ∨ c = '@' ∨ Alphabet.isQuote c)
        ∧ (c = '@' → Flanked before rest →
            ∃ front domain, span.CoversAt s.cursor.source front (domain ++ after)
              ∧ ∀ d ∈ domain, Rule.Address.isDomain d) := by
  rcases exists_composed_of_token hs (by simp) hreply hown
    with ⟨front, text, rest, htoken, rfl, htext⟩
  have hparts : before = front ++ text ∧ after = rest := by
    apply eq_and_eq_of_byteSize_eq
    · rw [← hsource, htoken, List.append_assoc]
    · rw [byteSize_append]
      exact hstop
  rcases hparts with ⟨rfl, rfl⟩
  cases after with
  | nil => exact .inl rfl
  | cons c rest =>
    right
    refine ⟨c, rest, rfl, ?_, ?_⟩
    · exact Rule.Address.isPlain_eq_false_iff.mp (htext.isPlain_eq_false_of_cons rfl)
    · rintro rfl hflanked
      rcases htext.ends_in_domain_of_flanked rfl hflanked with ⟨u, domain, rfl, hdomain⟩
      refine ⟨front ++ u, domain, ⟨?_, ?_, ?_⟩, hdomain⟩
      · rw [htoken]
        simp
      · simp
      · have := byteSize_pos (s := '@' :: domain) (by simp)
        simp only [byteSize_append]
        omega

theorem behind_at_token_behind_domain
    : let source := ['x', ' ', 'a', '@', 'b', '-', 'c', '@', 'd']
      let s : Session CodeState := ⟨.initial, .ofText source⟩
      let adm : Admissible := .ofSymbols [Kind.textWithAt.symbol]
      (s.call adm).1 = .token Kind.textWithAt.symbol ⟨0, 7⟩ 7
        ∧ s.asked adm = []
        ∧ Flanked ['x', ' ', 'a', '@', 'b', '-', 'c'] ['d']
        ∧ ∃ front domain, Span.CoversAt ⟨0, 7⟩ source front (domain ++ ['@', 'd'])
            ∧ ∀ d ∈ domain, Rule.Address.isDomain d := by
  intro source s adm
  have hreply : (s.call adm).1 = .token Kind.textWithAt.symbol ⟨0, 7⟩ 7 := by decide +kernel
  have hown : s.asked adm = [] := by decide +kernel
  have hflanked : Flanked ['x', ' ', 'a', '@', 'b', '-', 'c'] ['d'] := by decide
  have hsource : s.cursor.source = ['x', ' ', 'a', '@', 'b', '-', 'c'] ++ ['@', 'd'] := rfl
  rcases behind_at_token ⟨[], rfl⟩ hreply hown hsource (by decide)
    with hend | ⟨c, rest, hrest, _, hdomain⟩
  · contradiction
  · cases hrest
    exact ⟨hreply, hown, hflanked, hdomain rfl hflanked⟩

/--
A literal `@` right behind the domain of another one is left behind, because the characters of the
domain do not count for the next segment.
-/
theorem behind_at_token_literal_at
    : let source := ['a', '@', 'b', '@', 'c']
      let s : Session CodeState := ⟨.initial, .ofText source⟩
      let adm : Admissible := .ofSymbols [Kind.textWithAt.symbol]
      s.scanner.nesting = ∅
        ∧ (s.call adm).1 = .token Kind.textWithAt.symbol ⟨0, 3⟩ 3
        ∧ source = ['a', '@', 'b'] ++ '@' :: ['c']
        ∧ byteSize ['a', '@', 'b'] = 3
        ∧ Flanked ['a', '@', 'b'] ['c'] :=
  ⟨rfl, by decide +kernel, rfl, by decide, by decide⟩

end Session
end RazorTokens
