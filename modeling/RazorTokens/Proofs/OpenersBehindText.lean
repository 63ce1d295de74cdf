import RazorTokens.Proofs.LiteralSegments
import RazorTokens.Proofs.Transitions

/-!
This module is about regions that open where the host accepts text with a literal `@` as well. The
rule for such text is asked first, and it passes over plain characters before it gives up. A region
opens only if an opener stands right where the rule gives up, and then the token covers everything
that the rule has passed over.
-/

namespace RazorTokens

namespace Rule

def openers : List (Kind × Char × Region) :=
  [(.codeBlockStart, '{', .brace), (.expressionStart, '(', .paren)]

namespace Address

/--
Plain text with an opener behind it. An `@` right behind a word character does not belong to the
opener, so that another one has to follow it.
-/
inductive Approach (bracket : Char) : List Char → Prop where
  | direct {plain : List Char}
    : (∀ c ∈ plain, c ∉ ['<', '@', '\x22', '\x27']) →
      ¬ Alphabet.isNext Alphabet.isWord plain.getLast? →
      Approach bracket (plain ++ ['@', bracket])
  | doubled {plain : List Char}
    : (∀ c ∈ plain, c ∉ ['<', '@', '\x22', '\x27']) →
      Alphabet.isNext Alphabet.isWord plain.getLast? →
      Approach bracket (plain ++ ['@', '@', bracket])

variable {s rest token : List Char} {bracket : Char}

theorem giveUp_of_approach (rest : List Char) (h : Approach bracket token)
    : afterSegment? (token ++ rest) = none
        ∧ giveUp (token ++ rest) = '@' :: bracket :: rest := by
  cases h with
  | @direct plain hplain hlast =>
    simp only [← isPlain_iff] at hplain
    rw [List.append_assoc]
    dsimp only [List.cons_append, List.nil_append]
    rw [afterSegment?_append hplain, giveUp_append hplain, if_neg hlast, if_neg]
    · exact ⟨rfl, rfl⟩
    · intro hflanked
      exact hlast hflanked.1
  | @doubled plain hplain hlast =>
    simp only [← isPlain_iff] at hplain
    have hat : Alphabet.isWord '@' = false := by decide
    rw [List.append_assoc]
    dsimp only [List.cons_append, List.nil_append]
    rw [afterSegment?_append hplain, giveUp_append hplain, if_pos hlast, if_neg]
    · exact ⟨rfl, rfl⟩
    · intro hflanked
      have hword : Alphabet.isWord '@' = true := hflanked.2
      rw [hat] at hword
      contradiction

theorem exists_approach_of_giveUp (h : giveUp s = '@' :: bracket :: rest)
    : ∃ token, s = token ++ rest ∧ Approach bracket token := by
  have hs := (List.takeWhile_append_dropWhile : s.takeWhile isPlain ++ s.dropWhile isPlain = s)
  have hplain : ∀ c ∈ s.takeWhile isPlain, c ∉ ['<', '@', '\x22', '\x27'] :=
    fun c hc => isPlain_iff.mp (List.mem_takeWhile_imp hc)
  rw [giveUp_eq_ite] at h
  split at h
  · next hat =>
    rcases List.head?_eq_some_iff.mp hat.1 with ⟨behind, hbehind⟩
    rw [hbehind, List.tail_cons] at h
    refine ⟨_, ?_, .doubled hplain hat.2⟩
    rw [hbehind, h] at hs
    simpa using hs.symm
  · next hat =>
    have hlast : ¬ endsInWord s := by
      intro hword
      apply hat
      rw [h]
      exact ⟨rfl, hword⟩
    refine ⟨_, ?_, .direct hplain hlast⟩
    rw [h] at hs
    simpa using hs.symm

end Address

variable {adm : Admissible} {p q : Place} {kind : Kind} {bracket : Char} {region : Region}

theorem openedBy?_of_mem_openers (h : (kind, bracket, region) ∈ openers)
    (hallowed : adm.allows kind)
    : openedBy? adm bracket = some (kind, region) := by
  simp only [openers, List.mem_cons, Prod.mk.injEq, List.not_mem_nil, or_false] at h
  rcases h with ⟨rfl, rfl, rfl⟩ | ⟨rfl, rfl, rfl⟩
  · simp [openedBy?, hallowed]
  · simp [openedBy?, hallowed]

theorem eq_of_openedBy? {c : Char} {region' : Region} (h : (kind, bracket, region) ∈ openers)
    (hopened : openedBy? adm c = some (kind, region'))
    : c = bracket := by
  rcases openedBy?_eq_some hopened with ⟨rfl, _, rfl, _⟩ | ⟨rfl, _, rfl, _⟩
  · simp [openers] at h
    exact h.1.symm
  · simp [openers] at h
    exact h.1.symm

section Address

variable (hmarkup : p.nesting.isMarkup) (hat : adm.allows .textWithAt)
include hmarkup hat

theorem template_of_approach {token rest : List Char}
    (hopened : openedBy? adm bracket = some (kind, region)) (hahead : p.ahead = token ++ rest)
    (h : Address.Approach bracket token)
    : template adm p = .emit kind ((p.moveTo rest).enter region) := by
  let q := p.moveTo ('@' :: bracket :: rest)
  rcases Address.giveUp_of_approach rest h with ⟨hnone, hgiveUp⟩
  rw [← hahead] at hnone hgiveUp
  have hpass : address p = .pass q := by
    rw [address_of_none hnone, hgiveUp]
  -- Asked again at the opener, the rule for text stays there, so the call could have begun there.
  have hstay : address q = .pass q := address_of_at rfl
  have htemplate : template adm p = template adm q := by
    rw [template_of_markup hmarkup, template_of_markup (p := q) hmarkup]
    unfold ifAllowed
    rw [onlyIf_of_true _ hat, andThen_of_pass hpass, andThen_of_pass hstay]
  rw [htemplate]
  exact template_of_opening rfl hopened

theorem behindText_of_template (hkind : kind ∉ [Kind.textWithAt, Kind.markupText])
    (h : template adm p = .emit kind q)
    : behindText adm (p.moveTo (Address.giveUp p.ahead)) = .emit kind q := by
  simp only [List.mem_cons, List.not_mem_nil, or_false, not_or] at hkind
  rw [template_of_markup hmarkup] at h
  rcases andThen_eq_emit h with haddress | ⟨p₁, hpass₁, h₁⟩
  · have hconcerns := concerns_address p
    rw [(ifAllowed_eq_emit haddress).2] at hconcerns
    exact absurd hconcerns hkind.1
  · unfold ifAllowed at hpass₁
    rw [onlyIf_of_true _ hat] at hpass₁
    rw [← (eq_moveTo_of_address hpass₁).2]
    rcases andThen_eq_emit h₁ with hprose | ⟨p₂, hpass₂, h₂⟩
    · have hconcerns := concerns_prose p₁
      rw [(ifAllowed_eq_emit hprose).2] at hconcerns
      exact absurd hconcerns hkind.2
    · rw [← eq_of_onlyIf_eq_pass eq_of_prose_eq_pass hpass₂]
      exact h₂

theorem exists_approach_of_template (hopener : (kind, bracket, region) ∈ openers)
    (h : template adm p = .emit kind q)
    : ∃ token rest, p.ahead = token ++ rest ∧ Address.Approach bracket token := by
  have hkind : kind ∉ [Kind.textWithAt, Kind.markupText] := by
    rintro hkind
    simp only [List.mem_cons, List.not_mem_nil, or_false] at hkind
    rcases hkind with rfl | rfl <;> simp [openers] at hopener
  rcases behindText_eq_emit (behindText_of_template hmarkup hat hkind h)
    with ⟨c, rest, region', hahead, hopened, _⟩ | hbracket | hbehind
  · have hgiveUp : Address.giveUp p.ahead = '@' :: bracket :: rest := by
      rw [← eq_of_openedBy? hopener hopened]
      exact hahead
    rcases Address.exists_approach_of_giveUp hgiveUp with ⟨token, htoken, happroach⟩
    exact ⟨token, rest, htoken, happroach⟩
  · cases hbracket <;> simp [openers] at hopener
  · rcases behindBrackets_eq_emit hbehind with ⟨rfl, _⟩ | ⟨rfl, _⟩ | ⟨e, rfl⟩ <;>
      simp [openers] at hopener

end Address

end Rule

namespace Session

variable {σ : Type} [Embedded σ]

/--
The openers where no region is open and the host accepts text with a literal `@`. A call leads into
a region exactly if such an opener stands behind plain text at the cursor, and the `@` before the
bracket is not one right behind a word character. The token then reaches from the start of the call
through the bracket, with the plain text in it, and the one region of the opener is open.
-/
theorem call_of_opener_behind_text (s : Session σ) (adm : Admissible) {kind : Kind} {bracket : Char}
    {region : Region} (hs : s.cursor.InText) (hmarkup : s.scanner.nesting = ∅)
    (hat : adm.allows .textWithAt) (hopener : (kind, bracket, region) ∈ Rule.openers)
    (hallowed : adm.allows kind)
    : (s.EndsBy adm (.committed kind) ↔
          ∃ token rest, s.cursor.ahead = token ++ rest ∧ Rule.Address.Approach bracket token)
        ∧ ∀ token rest, s.cursor.ahead = token ++ rest → Rule.Address.Approach bracket token →
            (s.call adm).2.1.scanner.nesting = s.scanner.nesting.push region
              ∧ ∃ reach, (s.call adm).1 = .token kind.symbol
                  ⟨s.cursor.pos, s.cursor.pos + byteSize token⟩ reach := by
  let p : Place := ⟨s.cursor.restart, s.scanner.nesting⟩
  have hempty : p.nesting.isMarkup := Nesting.isMarkup_iff.mpr hmarkup
  have hopened := Rule.openedBy?_of_mem_openers hopener hallowed
  refine ⟨⟨?_, ?_⟩, ?_⟩
  · intro hcommits
    rcases commits_iff_emit.mp hcommits with ⟨q, hemit⟩
    exact Rule.exists_approach_of_template (p := p) hempty hat hopener hemit
  · rintro ⟨token, rest, hahead, happroach⟩
    exact commits_of_emit (Rule.template_of_approach (p := p) hempty hat hopened hahead happroach)
  · intro token rest hahead happroach
    have hemit := Rule.template_of_approach (p := p) hempty hat hopened hahead happroach
    refine ⟨?_, ?_⟩
    · rw [call_of_emit hemit]
      rfl
    · have hplace : (p.moveTo rest).enter region
          = ⟨{ s.cursor.restart with ahead := rest, start := token ++ rest },
              p.nesting.push region⟩ := by
        rw [← hahead]
        rfl
      rw [hplace] at hemit
      have hskipped : s.cursor.ahead = [] ++ (token ++ rest) := hahead
      exact reply_of_skipped hs hskipped hemit

theorem call_of_opener_behind_text_doubled_at
    : let source := ['<', '.', ' ', 'é', '@', '@', '(', '@', '{']
      let s : Session CodeState := ⟨.initial, (Cursor.ofText source).next⟩
      let adm : Admissible := .ofSymbols [Kind.textWithAt.symbol, Kind.markupText.symbol,
        Kind.codeBlockStart.symbol, Kind.expressionStart.symbol, Kind.blockOpen.symbol]
      s.scanner.nesting = ∅
        ∧ s.EndsBy adm (.committed .expressionStart)
        ∧ (s.call adm).2.1.scanner.nesting = ⟨[.paren]⟩
        ∧ (∃ reach, (s.call adm).1 = .token Kind.expressionStart.symbol ⟨1, 8⟩ reach)
        ∧ ¬ s.EndsBy adm (.committed .codeBlockStart) := by
  intro source s adm
  have hplain : ∀ c ∈ ['.', ' ', 'é'], c ∉ ['<', '@', '\x22', '\x27'] := by simp
  have happroach : Rule.Address.Approach '(' ['.', ' ', 'é', '@', '@', '('] :=
    Rule.Address.Approach.doubled hplain (by decide)
  have hopener : (Kind.expressionStart, '(', Region.paren) ∈ Rule.openers := by decide
  rcases call_of_opener_behind_text s adm ⟨['<'], rfl⟩ rfl (by decide) hopener (by decide)
    with ⟨hends, htoken⟩
  have hcommits := hends.mpr ⟨_, ['@', '{'], rfl, happroach⟩
  rcases htoken _ ['@', '{'] rfl happroach with ⟨hnesting, hreply⟩
  exact ⟨rfl, hcommits, hnesting, hreply, fun h => by cases hcommits.unique h⟩

end Session
end RazorTokens
