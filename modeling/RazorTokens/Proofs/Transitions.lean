import RazorTokens.Proofs.MarkupText

/-!
This module says exactly when a call leads into a region or out of one, where no rule for text is
asked. It first breaks the rules down to what they can do there: the rule for an `@`, then the rules
for bare brackets, which skip white space, and then all others.
-/

namespace RazorTokens

namespace Region

theorem closer_ne_brace (r : Region) : r.closer ≠ '{' := by
  cases r <;> decide

theorem closer_ne_at (r : Region) : r.closer ≠ '@' := by
  cases r <;> decide

end Region

theorem Nesting.push_inj {n n' : Nesting} {r r' : Region}
    : n.push r = n'.push r' ↔ n = n' ∧ r = r' := by
  unfold push
  rw [Nesting.mk.injEq, List.cons.injEq, Nesting.ext_iff, and_comm]

namespace Place

theorem skipBlanks_of_not_blank {p : Place} (h : ¬ Alphabet.isNext Alphabet.isBlank p.ahead.head?)
    : p.skipBlanks = p := by
  have hpeek : ¬ Alphabet.isNext Alphabet.isBlank p.cursor.peek? := h
  unfold Place.skipBlanks Cursor.skipBlanks
  rw [if_neg hpeek]

theorem ahead_skipBlanks (p : Place) : p.skipBlanks.ahead = p.ahead.dropWhile Alphabet.isBlank := by
  by_cases hblank : Alphabet.isNext Alphabet.isBlank p.ahead.head?
  · unfold Place.skipBlanks Cursor.skipBlanks
    have hpeek : Alphabet.isNext Alphabet.isBlank p.cursor.peek? := hblank
    rw [if_pos hpeek]
    rfl
  · rw [skipBlanks_of_not_blank hblank]
    cases hahead : p.ahead with
    | nil => rfl
    | cons c rest =>
      have hc : ¬ Alphabet.isBlank c := by
        rw [hahead] at hblank
        exact hblank
      rw [List.dropWhile_cons_of_neg hc]

theorem skipBlanks_eq {p : Place} (hstart : p.cursor.start = p.ahead)
    : p.skipBlanks
        =
      ⟨{ p.cursor with
          ahead := p.ahead.dropWhile Alphabet.isBlank
          start := p.ahead.dropWhile Alphabet.isBlank }, p.nesting⟩ := by
  have hahead := p.ahead_skipBlanks
  unfold Place.skipBlanks Cursor.skipBlanks at hahead ⊢
  split
  · rfl
  · next hblank =>
    -- Nothing is skipped, but the token starts at the cursor already.
    rw [if_neg hblank] at hahead
    rw [← hahead]
    rcases p with ⟨⟨source, ahead, origin, start, marked⟩, nesting⟩
    dsimp only [Place.ahead] at hstart ⊢
    rw [hstart]

theorem skipBlanks_skipBlanks (p : Place) : p.skipBlanks.skipBlanks = p.skipBlanks := by
  apply skipBlanks_of_not_blank
  rw [ahead_skipBlanks]
  cases hrest : p.ahead.dropWhile Alphabet.isBlank with
  | nil => simp [Alphabet.isNext]
  | cons c rest => simp [Alphabet.isNext, eq_false_of_dropWhile_eq_cons hrest]

/--
Where the rules for bare brackets leave the place if they pass: behind the white space, if one of
them is asked.
-/
def trim (p : Place) (adm : Admissible) : Place :=
  if adm.allows .blockOpen || (!p.nesting.isMarkup && adm.allows .regionClose) then
    p.skipBlanks
  else
    p

end Place

namespace Rule

variable {adm : Admissible} {p q : Place}

def brackets (adm : Admissible) : Rule :=
  andThen (ifAllowed adm .blockOpen blockOpen) (inCode (ifAllowed adm .regionClose regionClose))

def behindBrackets (adm : Admissible) : Rule :=
  inOrder ((all adm).drop 5)

theorem behindText_eq (adm : Admissible)
    : behindText adm
        =
      andThen (regionStart adm) (andThen (brackets adm) (behindBrackets adm)) := by
  unfold brackets
  rw [andThen_assoc]
  rfl

theorem behindBrackets_eq (adm : Admissible)
    : behindBrackets adm
        =
      andThen (inCode (ifAllowed adm .comment comment))
        (andThen (inCode (ifAllowed adm .directive directive)) (rawBody adm)) := by
  rw [← andThen_silent (rawBody adm)]
  rfl

section Quiet

variable (hquiet : p.nesting ≠ ∅ ∨ adm.allows .textWithAt = false ∧ adm.allows .markupText = false)
include hquiet

theorem template_of_quiet : template adm p = behindText adm p := by
  have hsilent {k : Kind} (r : Rule) (h : p.nesting ≠ ∅ ∨ adm.allows k = false)
      : inMarkup (ifAllowed adm k r) p = .pass p := by
    rcases h with hcode | hnot
    · exact inMarkup_of_code _ (Nesting.isMarkup_eq_false_iff.mpr hcode)
    · unfold inMarkup ifAllowed
      rw [onlyIf_of_false _ hnot]
      apply onlyIf_of_pass
      rfl
  have htemplate : template adm
      = andThen (inMarkup (ifAllowed adm .textWithAt address))
          (andThen (inMarkup (ifAllowed adm .markupText prose)) (behindText adm)) := rfl
  rw [htemplate]
  rw [andThen_of_pass (hsilent _ (hquiet.imp_right And.left))]
  rw [andThen_of_pass (hsilent _ (hquiet.imp_right And.right))]

theorem template_of_quiet_of_not_at (hat : p.ahead.head? ≠ some '@')
    : template adm p = andThen (brackets adm) (behindBrackets adm) p := by
  rw [template_of_quiet hquiet, behindText_eq]
  rw [andThen_of_pass (regionStart_of_not_at adm hat)]

end Quiet

theorem address_of_at {rest : List Char} (h : p.ahead = '@' :: rest) : address p = .pass p := by
  have hplain : Address.isPlain '@' = false := by decide
  have hnone : Address.afterSegment? p.ahead = none := by
    rw [Address.afterSegment?_eq_ite]
    simp [h, hplain, Address.endsInWord, Alphabet.isNext]
  have hstay : Address.giveUp p.ahead = p.ahead := by
    rw [Address.giveUp_eq_ite]
    simp [h, hplain, Address.endsInWord, Alphabet.isNext]
  unfold address
  simp only [hnone, hstay, Option.isSome_none, Bool.false_eq_true, ↓reduceIte]
  rfl

theorem prose_of_at {rest : List Char} (h : p.ahead = '@' :: rest) : prose p = .pass p := by
  have hident : Alphabet.isIdent '@' = false := by decide
  have hstay : Prose.afterText true p.ahead = p.ahead := by
    simp [h, Prose.afterText, Prose.isStop]
  have hkeyword : Prose.startsKeyword p.ahead = false := by
    simp [h, Prose.startsKeyword, hident, Prose.keywords]
  unfold prose
  simp [hstay, hkeyword]

theorem template_of_opening {c : Char} {rest : List Char} {kind : Kind} {region : Region}
    (h : p.ahead = '@' :: c :: rest) (hopened : openedBy? adm c = some (kind, region))
    : template adm p = .emit kind ((p.moveTo rest).enter region) := by
  have haddress : inMarkup (ifAllowed adm .textWithAt address) p = .pass p := by
    apply onlyIf_of_pass
    apply onlyIf_of_pass
    exact address_of_at h
  have hprose : inMarkup (ifAllowed adm .markupText prose) p = .pass p := by
    apply onlyIf_of_pass
    apply onlyIf_of_pass
    exact prose_of_at h
  have hstart : regionStart adm p = .emit kind ((p.moveTo rest).enter region) := by
    have hallowed : adm.allows .codeBlockStart || adm.allows .expressionStart := by
      rw [Bool.or_eq_true]
      exact (openedBy?_eq_some hopened).imp (·.2.1) (·.2.1)
    rw [regionStart_of_at adm h, if_pos hallowed, opening?_cons, hopened]
    rfl
  unfold template all inOrder
  simp only [List.foldr_cons]
  rw [andThen_of_pass haddress]
  rw [andThen_of_pass hprose]
  rw [andThen_of_emit hstart]

theorem regionStart_cases (adm : Admissible) (p : Place)
    : (∃ c rest kind region, p.ahead = '@' :: c :: rest ∧ openedBy? adm c = some (kind, region)
          ∧ regionStart adm p = .emit kind ((p.moveTo rest).enter region))
        ∨ (∃ q, regionStart adm p = .refuse .strayAt q)
        ∨ regionStart adm p = .pass p := by
  by_cases hat : p.ahead.head? = some '@'
  · rcases List.head?_eq_some_iff.mp hat with ⟨behind, hahead⟩
    rw [regionStart_of_at adm hahead]
    split
    · cases behind with
      | nil => exact .inr (.inl ⟨_, rfl⟩)
      | cons c rest =>
        rw [opening?_cons]
        cases hopened : openedBy? adm c with
        | none => exact .inr (.inl ⟨_, rfl⟩)
        | some opened => exact .inl ⟨c, rest, opened.1, opened.2, hahead, hopened, rfl⟩
    · exact .inr (.inr rfl)
  · exact .inr (.inr (regionStart_of_not_at adm hat))

inductive Brackets (adm : Admissible) (p : Place) : Verdict → Prop where
  | opens {rest : List Char}
    : adm.allows .blockOpen → p.skipBlanks.ahead = '{' :: rest →
      Brackets adm p (.emit .blockOpen ((p.skipBlanks.moveTo rest).enter .brace))
  | closes {r : Region} {outer : Nesting} {rest : List Char}
    : adm.allows .regionClose → p.nesting = outer.push r →
      p.skipBlanks.ahead = r.closer :: rest →
      Brackets adm p (.emit .regionClose { p.skipBlanks.moveTo rest with nesting := outer })
  | passes
    : (adm.allows .blockOpen → p.skipBlanks.ahead.head? ≠ some '{') →
      (adm.allows .regionClose → ∀ (r : Region) (outer : Nesting), p.nesting = outer.push r →
        p.skipBlanks.ahead.head? ≠ some r.closer) →
      Brackets adm p (.pass (p.trim adm))

theorem regionClose_cases (p : Place)
    : (∃ r outer rest, p.nesting = Nesting.push outer r
          ∧ p.skipBlanks.ahead = r.closer :: rest
          ∧ regionClose p = .emit .regionClose { p.skipBlanks.moveTo rest with nesting := outer })
        ∨ ((∀ (r : Region) (outer : Nesting), p.nesting = outer.push r →
              p.skipBlanks.ahead.head? ≠ some r.closer)
            ∧ regionClose p = .pass p.skipBlanks) := by
  cases hahead : p.skipBlanks.ahead with
  | nil =>
    right
    rw [regionClose_of_nil hahead]
    simp
  | cons c rest =>
    rw [regionClose_of_cons hahead]
    cases hclose : p.nesting.close? c with
    | some closed =>
      left
      rcases Nesting.eq_push_of_close? hclose with ⟨hnesting, rfl⟩
      exact ⟨closed.1, closed.2, rest, hnesting, rfl, rfl⟩
    | none =>
      right
      refine ⟨?_, rfl⟩
      rintro r outer hnesting ⟨⟩
      rw [hnesting] at hclose
      simp [Nesting.close?, Nesting.push] at hclose

theorem regionClose_of_not_asked (h : (!p.nesting.isMarkup && adm.allows .regionClose) = false)
    : inCode (ifAllowed adm .regionClose regionClose) p = .pass p := by
  rw [Bool.and_eq_false_iff] at h
  unfold inCode ifAllowed
  rcases h with hmarkup | hnot
  · rw [onlyIf_of_false _ hmarkup]
    rfl
  · rw [onlyIf_of_false _ hnot]
    apply onlyIf_of_pass
    rfl

/--
Whether or not the rule for the opening brace has skipped white space, the one for the closing bracket
finds the same.
-/
theorem brackets_of_not_brace (hq : q = if adm.allows .blockOpen then p.skipBlanks else p)
    (hopen : adm.allows .blockOpen → p.skipBlanks.ahead.head? ≠ some '{')
    : Brackets adm p (inCode (ifAllowed adm .regionClose regionClose) q) := by
  have hnesting : q.nesting = p.nesting := by
    rw [hq]
    split <;> rfl
  have hskip : q.skipBlanks = p.skipBlanks := by
    rw [hq]
    split
    · apply Place.skipBlanks_skipBlanks
    · rfl
  cases hasked : !p.nesting.isMarkup && adm.allows .regionClose with
  | true =>
    have htrim : p.trim adm = p.skipBlanks := by
      unfold Place.trim
      rw [hasked, Bool.or_true, if_pos rfl]
    rw [Bool.and_eq_true, Bool.not_eq_true'] at hasked
    rcases hasked with ⟨hcode, hallowed⟩
    have hrule : inCode (ifAllowed adm .regionClose regionClose) q = regionClose q := by
      rw [← hnesting] at hcode
      unfold ifAllowed
      rw [inCode_of_code _ hcode, onlyIf_of_true _ hallowed]
    rw [hrule]
    rcases regionClose_cases q with ⟨r, outer, rest, hpush, hahead, hemit⟩ | ⟨hno, hpass⟩
    · rw [hnesting] at hpush
      rw [hskip] at hahead hemit
      rw [hemit]
      exact .closes hallowed hpush hahead
    · rw [hnesting, hskip] at hno
      rw [hpass, hskip, ← htrim]
      exact .passes hopen fun _ => hno
  | false =>
    have htrim : p.trim adm = q := by
      unfold Place.trim
      rw [hasked, Bool.or_false]
      exact hq.symm
    rw [← hnesting] at hasked
    rw [regionClose_of_not_asked hasked, ← htrim]
    apply Brackets.passes hopen
    intro hallowed r outer hpush
    rw [hallowed, hnesting, hpush] at hasked
    contradiction

theorem brackets_cases (adm : Admissible) (p : Place) : Brackets adm p (brackets adm p) := by
  unfold brackets ifAllowed
  cases hallowed : adm.allows .blockOpen with
  | true =>
    rw [onlyIf_of_true _ rfl]
    by_cases hbrace : p.skipBlanks.ahead.head? = some '{'
    · rcases List.head?_eq_some_iff.mp hbrace with ⟨rest, hahead⟩
      rw [andThen_of_emit (blockOpen_of_brace hahead)]
      exact .opens hallowed hahead
    · rw [andThen_of_pass (blockOpen_of_not_brace hbrace)]
      apply brackets_of_not_brace
      · rw [if_pos hallowed]
      · exact fun _ => hbrace
  | false =>
    have hpass : onlyIf false blockOpen p = .pass p := rfl
    rw [andThen_of_pass hpass]
    apply brackets_of_not_brace
    · rw [hallowed]
      rfl
    · rw [hallowed]
      exact fun h => absurd h (by decide)

theorem brackets_of_brace {rest : List Char} (hallowed : adm.allows .blockOpen)
    (h : p.skipBlanks.ahead = '{' :: rest)
    : brackets adm p = .emit .blockOpen ((p.skipBlanks.moveTo rest).enter .brace) := by
  unfold brackets ifAllowed
  rw [onlyIf_of_true _ hallowed]
  exact andThen_of_emit (blockOpen_of_brace h)

theorem brackets_of_closer {r : Region} {outer : Nesting} {rest : List Char}
    (hallowed : adm.allows .regionClose) (hn : p.nesting = outer.push r)
    (h : p.skipBlanks.ahead = r.closer :: rest)
    : brackets adm p = .emit .regionClose { p.skipBlanks.moveTo rest with nesting := outer } := by
  have hcases := brackets_cases adm p
  generalize hverdict : brackets adm p = verdict at hcases
  cases hcases with
  | opens _ hahead =>
    rw [h] at hahead
    injection hahead with hbrace
    exact absurd hbrace r.closer_ne_brace
  | closes _ hn' hahead =>
    rcases Nesting.push_inj.mp (hn.symm.trans hn') with ⟨rfl, rfl⟩
    rw [h] at hahead
    cases hahead
    rfl
  | passes _ hclose =>
    rw [h] at hclose
    exact absurd rfl (hclose hallowed r outer hn)

theorem eq_of_comment_eq_pass (h : comment p = .pass q) : q = p := by
  unfold comment at h
  split at h <;> cases h
  rfl

theorem eq_of_directive_eq_pass (h : directive p = .pass q) : q = p := by
  unfold directive at h
  split at h <;> cases h
  rfl

theorem behindBrackets_eq_emit {kind : Kind} (h : behindBrackets adm p = .emit kind q)
    : (kind = .comment ∧ comment p = .emit kind q)
        ∨ (kind = .directive ∧ directive p = .emit kind q)
        ∨ ∃ e, kind = .rawText e := by
  rw [behindBrackets_eq] at h
  rcases andThen_eq_emit h with hcomment | ⟨p₁, hpass₁, h₁⟩
  · left
    have hemit := (ifAllowed_eq_emit (inCode_eq_emit hcomment).2).2
    have hconcerns := concerns_comment p
    rw [hemit] at hconcerns
    exact ⟨hconcerns, hemit⟩
  · have hp₁ : p₁ = p :=
      eq_of_onlyIf_eq_pass (eq_of_onlyIf_eq_pass eq_of_comment_eq_pass) hpass₁
    subst hp₁
    right
    rcases andThen_eq_emit h₁ with hdirective | ⟨p₂, _, h₂⟩
    · left
      have hemit := (ifAllowed_eq_emit (inCode_eq_emit hdirective).2).2
      have hconcerns := concerns_directive p₁
      rw [hemit] at hconcerns
      exact ⟨hconcerns, hemit⟩
    · right
      unfold rawBody at h₂
      cases helement : adm.rawElement? with
      | none =>
        rw [helement] at h₂
        contradiction
      | some e =>
        rw [helement] at h₂
        dsimp only at h₂
        have hconcerns := concerns_verbatim e p₂
        rw [h₂] at hconcerns
        exact ⟨e, hconcerns⟩

theorem behindText_eq_emit {kind : Kind} (h : behindText adm p = .emit kind q)
    : (∃ c rest region, p.ahead = '@' :: c :: rest ∧ openedBy? adm c = some (kind, region)
          ∧ q = (p.moveTo rest).enter region)
        ∨ Brackets adm p (.emit kind q)
        ∨ behindBrackets adm (p.trim adm) = .emit kind q := by
  rw [behindText_eq] at h
  rcases regionStart_cases adm p
    with ⟨c, rest, kind', region, hahead, hopened, hemit⟩ | ⟨_, hrefuse⟩ | hpass
  · rw [andThen_of_emit hemit] at h
    cases h
    exact .inl ⟨c, rest, region, hahead, hopened, rfl⟩
  · rw [andThen_of_refuse hrefuse] at h
    contradiction
  · right
    rw [andThen_of_pass hpass] at h
    have hcases := brackets_cases adm p
    rcases andThen_eq_emit h with hbracket | ⟨p', hpass', hbehind⟩
    · rw [hbracket] at hcases
      exact .inl hcases
    · rw [hpass'] at hcases
      cases hcases
      exact .inr hbehind

end Rule

def Kind.transitions : List Kind :=
  [codeBlockStart, expressionStart, blockOpen, regionClose]

/--
A transition of the given kind stands at the front of the text, where the regions of `n` are open:
which white space stands before it, its own characters, and the regions that are open behind it.
-/
inductive Transition (n : Nesting) (text : List Char)
    : Kind → List Char → List Char → Nesting → Prop where
  | block
    : ['@', '{'] <+: text → Transition n text .codeBlockStart [] ['@', '{'] (n.push .brace)
  | expression
    : ['@', '('] <+: text → Transition n text .expressionStart [] ['@', '('] (n.push .paren)
  | brace
    : ['{'] <+: text.dropWhile Alphabet.isBlank →
      Transition n text .blockOpen (text.takeWhile Alphabet.isBlank) ['{'] (n.push .brace)
  | close {r : Region} {outer : Nesting}
    : n = outer.push r → [r.closer] <+: text.dropWhile Alphabet.isBlank →
      Transition n text .regionClose (text.takeWhile Alphabet.isBlank) [r.closer] outer

namespace Transition

theorem mem_transitions {n n' : Nesting} {text blanks bracket : List Char} {kind : Kind}
    (h : Transition n text kind blanks bracket n')
    : kind ∈ Kind.transitions := by
  cases h <;> decide

theorem head?_ne_at {text : List Char} {c : Char} (h : [c] <+: text.dropWhile Alphabet.isBlank)
    (hc : c ≠ '@')
    : text.head? ≠ some '@' := by
  intro hat
  rcases List.head?_eq_some_iff.mp hat with ⟨rest, rfl⟩
  rw [List.dropWhile_cons_of_neg (by decide)] at h
  rcases h with ⟨rest', heq⟩
  injection heq with heq
  exact hc heq

variable {n n' : Nesting} {adm : Admissible} {p : Place} {kind : Kind} {blanks bracket : List Char}

theorem exists_rest {text : List Char} (h : Transition n text kind blanks bracket n')
    : ∃ rest, text = blanks ++ (bracket ++ rest) := by
  have hbehind {c : Char} (hc : [c] <+: text.dropWhile Alphabet.isBlank)
      : ∃ rest, text = text.takeWhile Alphabet.isBlank ++ ([c] ++ rest) := by
    rcases hc with ⟨rest, hrest⟩
    exact ⟨rest, by rw [hrest, List.takeWhile_append_dropWhile]⟩
  cases h with
  | block hbrace => exact hbrace.imp fun _ => Eq.symm
  | expression hparen => exact hparen.imp fun _ => Eq.symm
  | brace hbrace => exact hbehind hbrace
  | close _ hcloser => exact hbehind hcloser

section Quiet

variable (hquiet : p.nesting ≠ ∅ ∨ adm.allows .textWithAt = false ∧ adm.allows .markupText = false)
include hquiet

theorem template_eq {rest : List Char} (h : Transition p.nesting p.ahead kind blanks bracket n')
    (hallowed : adm.allows kind) (hstart : p.cursor.start = p.ahead)
    (hahead : p.ahead = blanks ++ (bracket ++ rest))
    : Rule.template adm p
        =
      .emit kind ⟨{ p.cursor with ahead := rest, start := bracket ++ rest }, n'⟩ := by
  -- White space has been skipped where the bare brackets are looked for.
  have hskip (hblanks : blanks = p.ahead.takeWhile Alphabet.isBlank)
      : p.skipBlanks.ahead = bracket ++ rest := by
    rw [hblanks] at hahead
    rw [p.ahead_skipBlanks]
    exact List.append_cancel_left (List.takeWhile_append_dropWhile.trans hahead)
  cases h with
  | block _ =>
    have hopened : Rule.openedBy? adm '{' = some (.codeBlockStart, .brace) := by
      simp [Rule.openedBy?, hallowed]
    rw [Rule.template_of_opening hahead hopened, ← List.nil_append (_ ++ rest), ← hahead, ← hstart]
    rfl
  | expression _ =>
    have hopened : Rule.openedBy? adm '(' = some (.expressionStart, .paren) := by
      simp [Rule.openedBy?, hallowed]
    rw [Rule.template_of_opening hahead hopened, ← List.nil_append (_ ++ rest), ← hahead, ← hstart]
    rfl
  | brace hbrace =>
    have hat := head?_ne_at hbrace (by decide)
    have hskipped := hskip rfl
    rw [Rule.template_of_quiet_of_not_at hquiet hat]
    rw [Rule.andThen_of_emit (Rule.brackets_of_brace hallowed hskipped)]
    rw [Place.skipBlanks_eq hstart, ← p.ahead_skipBlanks, hskipped]
    rfl
  | @close r _ hn hcloser =>
    have hat := head?_ne_at hcloser r.closer_ne_at
    have hskipped := hskip rfl
    rw [Rule.template_of_quiet_of_not_at hquiet hat]
    rw [Rule.andThen_of_emit (Rule.brackets_of_closer hallowed hn hskipped)]
    rw [Place.skipBlanks_eq hstart, ← p.ahead_skipBlanks, hskipped]
    rfl

theorem exists_or_behind {q : Place} (h : Rule.template adm p = .emit kind q)
    : (∃ blanks bracket n', Transition p.nesting p.ahead kind blanks bracket n')
        ∨ Rule.behindBrackets adm (p.trim adm) = .emit kind q := by
  rw [Rule.template_of_quiet hquiet] at h
  rcases Rule.behindText_eq_emit h with ⟨c, rest, region, hahead, hopened, _⟩ | hbracket | hbehind
  · left
    rcases Rule.openedBy?_eq_some hopened with ⟨rfl, _, rfl, _⟩ | ⟨rfl, _, rfl, _⟩
    · exact ⟨_, _, _, .block ⟨rest, hahead.symm⟩⟩
    · exact ⟨_, _, _, .expression ⟨rest, hahead.symm⟩⟩
  · left
    cases hbracket with
    | opens _ hahead =>
      rw [p.ahead_skipBlanks] at hahead
      exact ⟨_, _, _, .brace ⟨_, hahead.symm⟩⟩
    | closes _ hn hahead =>
      rw [p.ahead_skipBlanks] at hahead
      exact ⟨_, _, _, .close hn ⟨_, hahead.symm⟩⟩
  · exact .inr hbehind

theorem exists_of_template_eq {q : Place} (hkind : kind ∈ Kind.transitions)
    (h : Rule.template adm p = .emit kind q)
    : ∃ blanks bracket n', Transition p.nesting p.ahead kind blanks bracket n' := by
  rcases exists_or_behind hquiet h with htransition | hbehind
  · exact htransition
  · rcases Rule.behindBrackets_eq_emit hbehind with ⟨rfl, _⟩ | ⟨rfl, _⟩ | ⟨e, rfl⟩
    · exact absurd hkind (by decide)
    · exact absurd hkind (by decide)
    · simp [Kind.transitions] at hkind

end Quiet

end Transition

theorem Nesting.after?_of_not_mem_transitions (n : Nesting) {kind : Kind}
    (h : kind ∉ Kind.transitions)
    : n.after? kind = some n := by
  unfold after?
  split
  · exact absurd (by decide) h
  · exact absurd (by decide) h
  · exact absurd (by decide) h
  · exact absurd (by decide) h
  · rfl

namespace Session

variable {σ : Type} [Embedded σ] {s : Session σ} {adm : Admissible} {kind : Kind}

theorem reply_of_skipped {skipped token rest : List Char} {n : Nesting} (hs : s.cursor.InText)
    (hahead : s.cursor.ahead = skipped ++ (token ++ rest))
    (hemit : Rule.template adm ⟨s.cursor.restart, s.scanner.nesting⟩
      = .emit kind ⟨{ s.cursor.restart with ahead := rest, start := token ++ rest }, n⟩)
    : ∃ reach, (s.call adm).1 = .token kind.symbol
        ⟨s.cursor.pos + byteSize skipped, s.cursor.pos + byteSize skipped + byteSize token⟩
        reach := by
  have hspan := Cursor.tokenSpan_of_skipped hs hahead
  rw [call_of_emit hemit]
  exact ⟨_, congrArg (Reply.token _ · _) hspan⟩

theorem nesting_of_no_transition
    (h : ∀ kind ∈ Kind.transitions, ¬ s.EndsBy adm (.committed kind))
    : (s.call adm).2.1.scanner.nesting = s.scanner.nesting := by
  have htracks := s.tracks_call adm
  cases hverdict : Rule.template adm ⟨s.cursor.restart, s.scanner.nesting⟩ with
  | emit kind p =>
    have hkind : kind ∉ Kind.transitions := fun hmem => h kind hmem (commits_of_emit hverdict)
    rw [hverdict] at htracks
    have hafter : s.scanner.nesting.after? kind = some p.nesting := htracks.1
    rw [Nesting.after?_of_not_mem_transitions _ hkind] at hafter
    injection hafter with hnesting
    rw [call_of_emit hverdict]
    exact hnesting.symm
  | refuse why p => rw [(refuses_of_refuse hverdict).scanner_eq]
  | pass p => exact (handsOver_of_pass hverdict).nesting_eq

/--
The transitions, where a region is open or the host accepts no text. A call leads into a region or out
of one exactly if the host accepts that and such a bracket stands at the cursor, behind white space
where the relation allows it. The token then is the bracket alone, and the nesting behind it is that
of the relation, whatever else the host accepts. All other calls leave the nesting as it is.
-/
theorem call_of_transition (s : Session σ) (adm : Admissible) (hs : s.cursor.InText)
    (hquiet : s.scanner.nesting ≠ ∅
      ∨ adm.allows .textWithAt = false ∧ adm.allows .markupText = false)
    : let n := s.scanner.nesting
      let text := s.cursor.ahead
      let pos := s.cursor.pos
      (∀ kind ∈ Kind.transitions, s.EndsBy adm (.committed kind) ↔
          adm.allows kind ∧ ∃ blanks bracket n', Transition n text kind blanks bracket n')
        ∧ (∀ kind blanks bracket n', Transition n text kind blanks bracket n' → adm.allows kind →
            (s.call adm).2.1.scanner.nesting = n'
              ∧ ∃ reach, (s.call adm).1 = .token kind.symbol
                  ⟨pos + byteSize blanks, pos + byteSize blanks + byteSize bracket⟩ reach)
        ∧ ((∀ kind ∈ Kind.transitions, ¬ s.EndsBy adm (.committed kind)) →
            (s.call adm).2.1.scanner.nesting = n) := by
  intro n text pos
  let p : Place := ⟨s.cursor.restart, n⟩
  refine ⟨?_, ?_, nesting_of_no_transition⟩
  · intro kind hkind
    constructor
    · intro hcommits
      rcases commits_iff_emit.mp hcommits with ⟨q, hemit⟩
      have hadmits := Rule.admits_template adm p
      rw [hemit] at hadmits
      exact ⟨hadmits.allowed, Transition.exists_of_template_eq hquiet hkind hemit⟩
    · rintro ⟨hallowed, blanks, bracket, n', htransition⟩
      rcases htransition.exists_rest with ⟨rest, hahead⟩
      exact commits_of_emit (Transition.template_eq (p := p) hquiet htransition hallowed rfl hahead)
  · intro kind blanks bracket n' htransition hallowed
    rcases htransition.exists_rest with ⟨rest, hahead⟩
    have hemit := Transition.template_eq (p := p) hquiet htransition hallowed rfl hahead
    refine ⟨?_, reply_of_skipped hs hahead hemit⟩
    rw [call_of_emit hemit]

theorem call_of_transition_behind_blanks
    : let source := ['é', '\u00a0', '\n', ')', '{']
      let s : Session CodeState := ⟨⟨{}, ⟨[.paren, .brace]⟩⟩, (Cursor.ofText source).next⟩
      let adm : Admissible := .ofSymbols [Kind.blockOpen.symbol, Kind.regionClose.symbol,
        Kind.codeBlockStart.symbol, Kind.markupText.symbol, (Kind.rawText .script).symbol]
      s.scanner.nesting ≠ ∅
        ∧ s.EndsBy adm (.committed .regionClose)
        ∧ (s.call adm).2.1.scanner.nesting = ⟨[.brace]⟩
        ∧ ∃ reach, (s.call adm).1 = .token Kind.regionClose.symbol ⟨5, 6⟩ reach := by
  intro source s adm
  have hopen : s.scanner.nesting ≠ ∅ := by decide
  have hcloses : Transition s.scanner.nesting s.cursor.ahead .regionClose ['\u00a0', '\n'] [')']
      ⟨[.brace]⟩ := .close (r := .paren) rfl ⟨['{'], rfl⟩
  rcases call_of_transition s adm ⟨['é'], rfl⟩ (.inl hopen) with ⟨hends, htoken, _⟩
  rcases htoken _ _ _ _ hcloses (by decide) with ⟨hnesting, hreply⟩
  exact ⟨hopen, (hends _ (by decide)).mpr ⟨by decide, _, _, _, hcloses⟩, hnesting, hreply⟩

end Session
end RazorTokens
