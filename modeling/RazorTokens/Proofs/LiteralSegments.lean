import RazorTokens.Proofs.AddressLoop

/-!
This module says how far text with a literal `@` reaches: over as many literal segments as follow each
other from the place of the call on, and over the plain text behind the last of them.
-/

namespace RazorTokens

namespace Rule
namespace Address

structure Segment.Begins (g : Segment) (s rest : List Char) : Prop where
  eq_append : s = g.text ++ rest
  longest : ∀ c after, rest = c :: after → ¬ (Alphabet.isWord c ∨ c = '.' ∨ c = '-')

inductive Follow : List Char → List Segment → List Char → Prop where
  | nil (s : List Char) : Follow s [] s
  | cons {s behind rest : List Char} {g : Segment} {gs : List Segment}
    : g.Begins s behind → Follow behind gs rest → Follow s (g :: gs) rest

/--
Text with a literal `@` stands at the front of `s`, and `rest` lies behind it. The text consists of
at least one segment, of as many as can follow each other, and of all plain characters behind them.
-/
inductive Extent (s : List Char) : List Char → List Char → Prop where
  | intro {gs : List Segment} {tail rest : List Char}
    : gs ≠ [] → Follow s gs (tail ++ rest) →
      (∀ gs' rest', Follow s gs' rest' → gs'.length ≤ gs.length) →
      (∀ c ∈ tail, c ∉ ['<', '@', '\x22', '\x27']) →
      (∀ c after, rest = c :: after → c ∈ ['<', '@', '\x22', '\x27']) →
      Extent s (gs.flatMap Segment.text ++ tail) rest

variable {s rest : List Char}

theorem afterSegment?_of_begins {g : Segment} (h : g.Begins s rest)
    : afterSegment? s = some rest := by
  have hs : s = g.plain ++ '@' :: (g.domain ++ rest) := by
    rw [h.eq_append]
    simp [Segment.text]
  rw [hs, afterSegment?_of_flanked g.isPlain_of_mem (g.flanked.append_after rest)]
  rw [dropWhile_append_of_stop g.isDomain_of_mem]
  simp only [isDomain_eq_false_iff]
  exact h.longest

theorem exists_begins_of_afterSegment? (h : afterSegment? s = some rest)
    : ∃ g : Segment, g.Begins s rest := by
  rcases exists_segment_of_afterSegment? h with ⟨g, hs⟩
  refine ⟨g, hs, ?_⟩
  rintro c after rfl
  rw [← isDomain_eq_false_iff]
  rw [afterSegment?_eq_ite] at h
  split at h
  · injection h with hdrop
    exact eq_false_of_dropWhile_eq_cons hdrop
  · contradiction

theorem isSome_afterSegment?_iff
    : (afterSegment? s).isSome ↔ ∃ (g : Segment) (rest : List Char), g.Begins s rest := by
  rw [Option.isSome_iff_exists]
  constructor
  · rintro ⟨rest, h⟩
    rcases exists_begins_of_afterSegment? h with ⟨g, hg⟩
    exact ⟨g, rest, hg⟩
  · rintro ⟨g, rest, hg⟩
    exact ⟨rest, afterSegment?_of_begins hg⟩

namespace Follow

variable {gs : List Segment}

theorem eq_append (h : Follow s gs rest) : s = gs.flatMap Segment.text ++ rest := by
  induction h with
  | nil s => rfl
  | cons hg _ ih =>
    rw [List.flatMap_cons, List.append_assoc, ← ih]
    exact hg.eq_append

theorem concat {g : Segment} {behind : List Char} (h : Follow s gs rest)
    (hg : g.Begins rest behind)
    : Follow s (gs ++ [g]) behind := by
  induction h with
  | nil s => exact .cons hg (.nil behind)
  | cons hfirst _ ih => exact .cons hfirst (ih hg)

theorem afterSegments_eq (h : Follow s gs rest) : afterSegments s = afterSegments rest := by
  induction h with
  | nil s => rfl
  | cons hg _ ih =>
    rw [afterSegments_of_some (afterSegment?_of_begins hg)]
    exact ih

theorem rest_eq (h : Follow s gs rest)
    (hmost : ∀ gs' rest', Follow s gs' rest' → gs'.length ≤ gs.length)
    : rest = afterSegments s := by
  have hnone : afterSegment? rest = none := by
    cases hsegment : afterSegment? rest with
    | none => rfl
    | some behind =>
      rcases exists_begins_of_afterSegment? hsegment with ⟨g, hg⟩
      have := hmost _ _ (h.concat hg)
      simp only [List.length_append, List.length_singleton] at this
      omega
  rw [h.afterSegments_eq, afterSegments_of_none hnone]

end Follow

theorem exists_follow (s : List Char)
    : ∃ gs, Follow s gs (afterSegments s)
        ∧ ∀ gs' rest', Follow s gs' rest' → gs'.length ≤ gs.length := by
  induction s using afterSegments.induct with
  | case1 s behind hbehind _ ih =>
    rcases exists_begins_of_afterSegment? hbehind with ⟨g, hg⟩
    rcases ih with ⟨gs, hgs, hmost⟩
    refine ⟨g :: gs, ?_, ?_⟩
    · rw [afterSegments_of_some hbehind]
      exact .cons hg hgs
    · intro gs' rest' h
      cases h with
      | nil => simp
      | @cons _ behind' _ g' gs' hg' hgs' =>
        -- There is only one segment that the text begins with.
        have : behind' = behind := by
          have hbehind' := afterSegment?_of_begins hg'
          rw [hbehind] at hbehind'
          injection hbehind' with heq
          exact heq.symm
        subst this
        simpa using hmost _ _ hgs'
  | case2 s hnone =>
    rw [afterSegments_of_none hnone]
    refine ⟨[], .nil s, ?_⟩
    intro gs' rest' h
    cases h with
    | nil => simp
    | cons hg' _ =>
      rw [afterSegment?_of_begins hg'] at hnone
      contradiction

theorem exists_extent (h : (afterSegment? s).isSome) : ∃ text rest, Extent s text rest := by
  rcases exists_follow s with ⟨gs, hgs, hmost⟩
  have hne : gs ≠ [] := by
    rintro rfl
    rcases isSome_afterSegment?_iff.mp h with ⟨g, behind, hg⟩
    have := hmost _ _ (.cons hg (.nil behind))
    simp at this
  rw [← List.takeWhile_append_dropWhile (p := isPlain) (l := afterSegments s)] at hgs
  refine ⟨_, _, .intro hne hgs hmost ?_ ?_⟩
  · exact fun c hc => isPlain_iff.mp (List.mem_takeWhile_imp hc)
  · exact fun c after h => isPlain_eq_false_iff_mem.mp (eq_false_of_dropWhile_eq_cons h)

namespace Extent

variable {text : List Char}

theorem eq_append (h : Extent s text rest) : s = text ++ rest := by
  cases h with
  | intro _ hgs _ _ _ =>
    rw [List.append_assoc]
    exact hgs.eq_append

theorem isSome_afterSegment? (h : Extent s text rest) : (afterSegment? s).isSome := by
  cases h with
  | intro hne hgs _ _ _ =>
    cases hgs with
    | nil => contradiction
    | cons hg _ =>
      rw [afterSegment?_of_begins hg]
      rfl

theorem rest_eq (h : Extent s text rest) : rest = (afterSegments s).dropWhile isPlain := by
  cases h with
  | intro _ hgs hmost hplain hstop =>
    simp only [← isPlain_iff] at hplain
    simp only [← isPlain_eq_false_iff_mem] at hstop
    rw [← hgs.rest_eq hmost]
    rw [dropWhile_append_of_stop hplain hstop]

end Extent
end Address

theorem address_of_extent {p : Place} {text rest : List Char}
    (h : Address.Extent p.ahead text rest)
    : ∃ reach, address p = .emit .textWithAt ((p.moveTo reach).markAt rest) := by
  unfold address
  dsimp only
  rw [if_pos h.isSome_afterSegment?, ← h.rest_eq]
  exact ⟨_, rfl⟩

theorem address_of_none {p : Place} (h : Address.afterSegment? p.ahead = none)
    : address p = .pass (p.moveTo (Address.giveUp p.ahead)) := by
  unfold address
  rw [h]
  rfl

theorem isSome_afterSegment?_of_template {adm : Admissible} {p q : Place}
    (hmarkup : p.nesting.isMarkup) (h : template adm p = .emit .textWithAt q)
    : (Address.afterSegment? p.ahead).isSome := by
  rw [template_of_markup hmarkup] at h
  rcases andThen_eq_emit h with haddress | ⟨r, _, hrest⟩
  · have haddress := (ifAllowed_eq_emit haddress).2
    by_contra hnone
    rw [address_of_none (by simpa using hnone)] at haddress
    contradiction
  · -- No other rule emits text with a literal `@`.
    rcases andThen_eq_emit hrest with hprose | ⟨r', _, hemit⟩
    · have hconcerns := concerns_prose r
      rw [(ifAllowed_eq_emit hprose).2] at hconcerns
      contradiction
    · have htextless := textless_behindText adm r' trivial
      rw [hemit] at htextless
      exact absurd List.mem_cons_self htextless

end Rule

namespace Session

variable {σ : Type} [Embedded σ]

/--
The extent of text with a literal `@`, where the host accepts such text and no region is open. There
is a token of this kind exactly if a literal segment stands at the cursor, and then it covers as many
segments as follow each other and the plain text behind them. Otherwise the rule for such text passes
without having recorded an end of the token, and the next rules go on from where it has come to. A
loop that takes an `@` first and looks at what follows it afterwards decides everywhere as the rule
does.
-/
theorem call_of_segments (s : Session σ) (adm : Admissible) (hs : s.cursor.InText)
    (hmarkup : s.scanner.nesting = ∅) (hat : adm.allows .textWithAt)
    : let text := s.cursor.ahead
      let p : Place := ⟨s.cursor.restart, s.scanner.nesting⟩
      let begins := ∃ (g : Rule.Address.Segment) (rest : List Char), g.Begins text rest
      (s.EndsBy adm (.committed .textWithAt) ↔ begins)
        ∧ (begins → ∃ taken rest, Rule.Address.Extent text taken rest)
        ∧ (∀ taken rest, Rule.Address.Extent text taken rest →
            ∃ reach, (s.call adm).1 = .token Kind.textWithAt.symbol
              ⟨s.cursor.pos, s.cursor.pos + byteSize taken⟩ reach)
        ∧ (¬ begins →
            ∃ q, Rule.address p = .pass q
              ∧ q.cursor.marked = none
              ∧ Rule.template adm p
                  = Rule.andThen (Rule.ifAllowed adm .markupText Rule.prose)
                      (Rule.behindText adm) q)
        ∧ ∀ q, Rule.Address.walk false false q = Rule.address q := by
  intro text p begins
  have hempty : p.nesting.isMarkup := Nesting.isMarkup_iff.mpr hmarkup
  have htemplate : Rule.template adm p
      = Rule.andThen Rule.address
          (Rule.andThen (Rule.ifAllowed adm .markupText Rule.prose) (Rule.behindText adm)) p := by
    rw [Rule.template_of_markup hempty]
    unfold Rule.ifAllowed Rule.onlyIf
    rw [if_pos hat]
  have hverdict {taken rest : List Char} (h : Rule.Address.Extent text taken rest)
      : ∃ reach, Rule.template adm p = .emit .textWithAt ((p.moveTo reach).markAt rest) := by
    rcases Rule.address_of_extent (p := p) h with ⟨reach, hemit⟩
    exact ⟨reach, htemplate.trans (Rule.andThen_of_emit hemit)⟩
  refine ⟨⟨?_, ?_⟩, ?_, ?_, ?_, Rule.Address.walk_eq_address⟩
  · intro hcommits
    rcases commits_iff_emit.mp hcommits with ⟨q, hemit⟩
    exact Rule.Address.isSome_afterSegment?_iff.mp
      (Rule.isSome_afterSegment?_of_template hempty hemit)
  · intro hbegins
    rcases Rule.Address.exists_extent (Rule.Address.isSome_afterSegment?_iff.mpr hbegins)
      with ⟨taken, rest, hextent⟩
    rcases hverdict hextent with ⟨reach, hemit⟩
    exact commits_of_emit hemit
  · intro hbegins
    exact Rule.Address.exists_extent (Rule.Address.isSome_afterSegment?_iff.mpr hbegins)
  · intro taken rest hextent
    rcases hverdict hextent with ⟨reach, hemit⟩
    have hspan := Cursor.tokenSpan_markAt reach hs hextent.eq_append
    rw [call_of_emit hemit]
    exact ⟨_, congrArg (Reply.token _ · _) hspan⟩
  · intro hbegins
    have hnone : Rule.Address.afterSegment? p.ahead = none := by
      rw [← Option.not_isSome_iff_eq_none, Rule.Address.isSome_afterSegment?_iff]
      exact hbegins
    have hpass := Rule.address_of_none hnone
    exact ⟨_, hpass, rfl, htemplate.trans (Rule.andThen_of_pass hpass)⟩

theorem call_of_segments_before_stray_at
    : let source := ['<', 'a', '@', 'b', '-', 'c', ' ', 'é', '@', '1', ' ', 'z', '@', ' ']
      let s : Session CodeState := ⟨.initial, (Cursor.ofText source).next⟩
      let adm : Admissible := .ofSymbols [Kind.textWithAt.symbol, Kind.codeBlockStart.symbol]
      let p : Place := ⟨s.cursor.restart, ∅⟩
      s.scanner.nesting = ∅
        ∧ s.EndsBy adm (.committed .textWithAt)
        ∧ Rule.Address.Extent s.cursor.ahead
            ['a', '@', 'b', '-', 'c', ' ', 'é', '@', '1', ' ', 'z'] ['@', ' ']
        ∧ (∃ reach, (s.call adm).1 = .token Kind.textWithAt.symbol ⟨1, 13⟩ reach)
        ∧ Rule.Address.walk false false p = Rule.address p := by
  intro source s adm p
  have hbegins : ∃ (g : Rule.Address.Segment) (rest : List Char), g.Begins s.cursor.ahead rest := by
    have hdomain : ['b', '-', 'c'].all Rule.Address.isDomain := by decide
    rw [List.all_eq_true] at hdomain
    refine ⟨⟨['a'], ['b', '-', 'c'], by simp, ?_, by decide⟩, _, rfl, ?_⟩
    · intro c hc
      rw [← Rule.Address.isDomain_iff]
      exact hdomain c hc
    · rintro c after ⟨⟩
      decide
  rcases call_of_segments s adm ⟨['<'], rfl⟩ rfl (by decide) with ⟨hends, hextent, htoken, _, hwalk⟩
  rcases hextent hbegins with ⟨taken, rest, htaken⟩
  have hrest : rest = ['@', ' '] := htaken.rest_eq.trans (by decide +kernel)
  have htext : taken = ['a', '@', 'b', '-', 'c', ' ', 'é', '@', '1', ' ', 'z'] := by
    have happend := htaken.eq_append
    rw [hrest] at happend
    exact List.append_cancel_right (happend.symm.trans rfl)
  rw [hrest, htext] at htaken
  exact ⟨rfl, hends.mpr hbegins, htaken, htoken _ _ htaken, hwalk p⟩

end Session
end RazorTokens
