import Mathlib.Data.List.TakeWhile
import Mathlib.Data.Nat.Find
import RazorTokens.Proofs.Transitions

/-!
This module says how far comments and directives in code reach. The scanner records no end for them:
the token ends where the cursor stops, and that is the end of a line or the end of a block.
-/

namespace RazorTokens

namespace Place

variable {p : Place}

theorem trim_eq {adm : Admissible} (h : p.nesting ≠ ∅)
    : p.trim adm
        =
      if adm.allows .blockOpen || adm.allows .regionClose then p.skipBlanks else p := by
  rw [← Nesting.isMarkup_eq_false_iff] at h
  unfold trim
  rw [h, Bool.not_false, Bool.true_and]

theorem nesting_trim (p : Place) (adm : Admissible) : (p.trim adm).nesting = p.nesting := by
  unfold trim
  split <;> rfl

theorem trim_of_not_blank (adm : Admissible)
    (h : ¬ Alphabet.isNext Alphabet.isBlank p.ahead.head?)
    : p.trim adm = p := by
  unfold trim
  split
  · exact skipBlanks_of_not_blank h
  · rfl

end Place

namespace Rule
namespace Trivia

inductive Terminates : List Char → List Char → Prop where
  | crlf (rest : List Char) : Terminates ['\r', '\n'] rest
  | cr {rest : List Char} : rest.head? ≠ some '\n' → Terminates ['\r'] rest
  | lf (rest : List Char) : Terminates ['\n'] rest
  | atEnd : Terminates [] []

structure FirstLine (text line terminator rest : List Char) : Prop where
  eq_append : text = line ++ (terminator ++ rest)
  not_newline : ∀ c ∈ line, c ≠ '\n' ∧ c ≠ '\r'
  terminates : Terminates terminator rest

/--
The comment at the front of the text. It consists of `//` and the rest of the line, or it reaches from
`/*` up to the first `*/` behind that, or to the end of the text if there is none.
-/
inductive Comment : List Char → List Char → Prop where
  | line {text line terminator rest : List Char}
    : FirstLine text line terminator rest → Comment ('/' :: '/' :: text) ('/' :: '/' :: line)
  | block {text : List Char} {i : Nat}
    : ['*', '/'] <+: text.drop i → (∀ j < i, ¬ ['*', '/'] <+: text.drop j) →
      Comment ('/' :: '*' :: text) ('/' :: '*' :: text.take (i + 2))
  | unclosed {text : List Char}
    : (∀ j, ¬ ['*', '/'] <+: text.drop j) → Comment ('/' :: '*' :: text) ('/' :: '*' :: text)

inductive Directive : List Char → List Char → Prop where
  | intro {text line terminator rest : List Char}
    : FirstLine text line terminator rest → Directive ('#' :: text) ('#' :: (line ++ terminator))

theorem Terminates.afterNewline_eq {terminator rest : List Char} (h : Terminates terminator rest)
    : afterNewline (terminator ++ rest) = rest := by
  cases h with
  | crlf => rfl
  | cr hrest =>
    rw [afterNewline_eq_past]
    unfold past
    simp [hrest]
  | lf => rfl
  | atEnd => rfl

theorem Terminates.isNewline_of_cons {terminator rest after : List Char} {c : Char}
    (h : Terminates terminator rest) (hc : terminator ++ rest = c :: after)
    : Alphabet.isNewline c := by
  cases h with
  | crlf =>
    cases hc
    decide
  | cr =>
    cases hc
    decide
  | lf =>
    cases hc
    decide
  | atEnd => contradiction

theorem isNewline_eq_false_iff {c : Char}
    : Alphabet.isNewline c = false ↔ c ≠ '\n' ∧ c ≠ '\r' := by
  simp [Alphabet.isNewline]

theorem FirstLine.afterLine_eq {text line terminator rest : List Char}
    (h : FirstLine text line terminator rest)
    : afterLine text = terminator ++ rest := by
  unfold afterLine
  rw [h.eq_append]
  apply dropWhile_append_of_stop
  · intro c hc
    rw [isNewline_eq_false_iff.mpr (h.not_newline c hc)]
    rfl
  · intro c after heq
    rw [h.terminates.isNewline_of_cons heq]
    rfl

theorem exists_terminates {s : List Char} (h : ∀ c after, s = c :: after → Alphabet.isNewline c)
    : ∃ terminator rest, s = terminator ++ rest ∧ Terminates terminator rest := by
  cases s with
  | nil => exact ⟨[], [], rfl, .atEnd⟩
  | cons c after =>
    have hc := h c after rfl
    unfold Alphabet.isNewline at hc
    rw [Bool.or_eq_true, beq_iff_eq, beq_iff_eq] at hc
    rcases hc with rfl | rfl
    · exact ⟨['\n'], after, rfl, .lf after⟩
    · by_cases hlf : after.head? = some '\n'
      · rcases List.head?_eq_some_iff.mp hlf with ⟨rest, rfl⟩
        exact ⟨['\r', '\n'], rest, rfl, .crlf rest⟩
      · exact ⟨['\r'], after, rfl, .cr hlf⟩

theorem exists_firstLine (text : List Char)
    : ∃ line terminator rest, FirstLine text line terminator rest := by
  have hstop (c : Char) (after : List Char) (h : afterLine text = c :: after)
      : Alphabet.isNewline c := by
    simpa using eq_false_of_dropWhile_eq_cons h
  rcases exists_terminates hstop with ⟨terminator, rest, hafter, hterminates⟩
  refine ⟨text.takeWhile (!Alphabet.isNewline ·), terminator, rest, ?_, ?_, hterminates⟩
  · rw [← hafter]
    exact List.takeWhile_append_dropWhile.symm
  · intro c hc
    rw [← isNewline_eq_false_iff]
    simpa using List.mem_takeWhile_imp hc

theorem closes_cons_iff {c : Char} {s : List Char}
    : ['*', '/'] <+: c :: s ↔ c = '*' ∧ s.head? = some '/' := by
  rw [List.cons_prefix_cons, List.head?_eq_some_iff]
  constructor
  · rintro ⟨rfl, rest, hrest⟩
    exact ⟨rfl, rest, hrest.symm⟩
  · rintro ⟨rfl, rest, hrest⟩
    exact ⟨rfl, rest, hrest.symm⟩

theorem afterBlock_of_first {s : List Char} {i : Nat} (h : ['*', '/'] <+: s.drop i)
    (hfirst : ∀ j < i, ¬ ['*', '/'] <+: s.drop j)
    : afterBlock s = s.drop (i + 2) := by
  induction i generalizing s with
  | zero =>
    rcases h with ⟨rest, hrest⟩
    rw [List.drop_zero] at hrest
    rw [← hrest]
    rfl
  | succ i ih =>
    cases s with
    | nil => simp at h
    | cons c s =>
      have hopen : ¬ (c = '*' ∧ s.head? = some '/') := by
        rw [← closes_cons_iff]
        exact hfirst 0 (by omega)
      rw [afterBlock_cons, if_neg hopen]
      exact ih h fun j hj => hfirst (j + 1) (by omega)

theorem afterBlock_of_unclosed {s : List Char} (h : ∀ j, ¬ ['*', '/'] <+: s.drop j)
    : afterBlock s = [] := by
  induction s with
  | nil => rfl
  | cons c s ih =>
    have hopen : ¬ (c = '*' ∧ s.head? = some '/') := by
      rw [← closes_cons_iff]
      exact h 0
    rw [afterBlock_cons, if_neg hopen]
    exact ih fun j => h (j + 1)

theorem exists_comment {text : List Char} (h : ['/', '/'] <+: text ∨ ['/', '*'] <+: text)
    : ∃ taken, Comment text taken := by
  rcases h with ⟨body, rfl⟩ | ⟨body, rfl⟩
  · rcases exists_firstLine body with ⟨line, terminator, rest, hline⟩
    exact ⟨_, .line hline⟩
  · by_cases hclosed : ∃ i, ['*', '/'] <+: body.drop i
    · exact ⟨_, .block (Nat.find_spec hclosed) fun j => Nat.find_min hclosed⟩
    · exact ⟨_, .unclosed (not_exists.mp hclosed)⟩

theorem exists_directive {text : List Char} (h : ['#'] <+: text)
    : ∃ taken, Directive text taken := by
  rcases h with ⟨body, rfl⟩
  rcases exists_firstLine body with ⟨line, terminator, rest, hline⟩
  exact ⟨_, .intro hline⟩

end Trivia

variable {adm : Admissible} {p q : Place} {taken : List Char}

theorem comment_of_star {text : List Char} (h : p.ahead = '/' :: '*' :: text)
    : comment p = .emit .comment (p.moveTo (Trivia.afterBlock text)) := by
  unfold comment
  rw [h]
  rfl

theorem comment_of_extent (h : Trivia.Comment p.ahead taken)
    : ∃ rest, p.ahead = taken ++ rest ∧ comment p = .emit .comment (p.moveTo rest) := by
  generalize hahead : p.ahead = ahead at h
  cases h with
  | @line text line terminator rest hline =>
    refine ⟨terminator ++ rest, ?_, ?_⟩
    · rw [hline.eq_append]
      rfl
    · rw [comment_of_slash hahead, List.head?_cons, if_pos rfl, List.tail_cons, hline.afterLine_eq]
  | @block text i hcloses hfirst =>
    refine ⟨text.drop (i + 2), ?_, ?_⟩
    · rw [List.cons_append, List.cons_append, List.take_append_drop]
    · rw [comment_of_star hahead, Trivia.afterBlock_of_first hcloses hfirst]
  | @unclosed text hopen =>
    refine ⟨[], ?_, ?_⟩
    · rw [List.append_nil]
    · rw [comment_of_star hahead, Trivia.afterBlock_of_unclosed hopen]

theorem directive_of_extent (h : Trivia.Directive p.ahead taken)
    : ∃ rest, p.ahead = taken ++ rest ∧ directive p = .emit .directive (p.moveTo rest) := by
  generalize hahead : p.ahead = ahead at h
  cases h with
  | @intro text line terminator rest hline =>
    refine ⟨rest, ?_, ?_⟩
    · rw [hline.eq_append]
      simp
    · rw [directive_of_hash hahead, hline.afterLine_eq, hline.terminates.afterNewline_eq]

theorem begins_of_comment {kind : Kind} (h : comment p = .emit kind q)
    : ['/', '/'] <+: p.ahead ∨ ['/', '*'] <+: p.ahead := by
  unfold comment at h
  split at h
  · next rest hahead => exact .inl ⟨rest, hahead.symm⟩
  · next rest hahead => exact .inr ⟨rest, hahead.symm⟩
  · contradiction
  · contradiction

theorem begins_of_directive {kind : Kind} (h : directive p = .emit kind q) : ['#'] <+: p.ahead := by
  unfold directive at h
  split at h
  · next rest hahead => exact ⟨rest, hahead.symm⟩
  · contradiction

theorem behindBrackets_of_comment (hcode : p.nesting.isMarkup = false)
    (hallowed : adm.allows .comment) (h : comment p = .emit .comment q)
    : behindBrackets adm p = .emit .comment q := by
  have hcomment : inCode (ifAllowed adm .comment comment) p = .emit .comment q := by
    unfold ifAllowed
    rw [inCode_of_code _ hcode, onlyIf_of_true _ hallowed]
    exact h
  exact andThen_of_emit hcomment

theorem behindBrackets_of_directive (hcode : p.nesting.isMarkup = false)
    (hallowed : adm.allows .directive) (hcomment : comment p = .pass p)
    (h : directive p = .emit .directive q)
    : behindBrackets adm p = .emit .directive q := by
  have hpass : inCode (ifAllowed adm .comment comment) p = .pass p := by
    apply onlyIf_of_pass
    apply onlyIf_of_pass
    exact hcomment
  have hdirective : inCode (ifAllowed adm .directive directive) p = .emit .directive q := by
    unfold ifAllowed
    rw [inCode_of_code _ hcode, onlyIf_of_true _ hallowed]
    exact h
  have hrest := andThen_of_emit (s := andThen (rawBody adm) silent) hdirective
  exact (andThen_of_pass hpass).trans hrest

theorem template_of_no_bracket {c : Char} (hopen : p.nesting ≠ ∅) (hat : c ≠ '@') (hbrace : c ≠ '{')
    (hcloser : ∀ r : Region, r.closer ≠ c) (h : (p.trim adm).ahead.head? = some c)
    : template adm p = behindBrackets adm (p.trim adm) := by
  have hhead : p.ahead.head? ≠ some '@' := by
    intro hat'
    have hblank : ¬ Alphabet.isNext Alphabet.isBlank p.ahead.head? := by
      rw [hat']
      decide
    rw [Place.trim_of_not_blank adm hblank, hat'] at h
    injection h with h
    exact hat h.symm
  rw [template_of_quiet_of_not_at (.inl hopen) hhead]
  have hcases := brackets_cases adm p
  generalize hverdict : brackets adm p = verdict at hcases
  cases hcases with
  | opens hallowed hahead =>
    rw [Place.trim_eq hopen, if_pos (by simp [hallowed]), hahead] at h
    injection h with h
    exact absurd h.symm hbrace
  | @closes r _ _ hallowed _ hahead =>
    rw [Place.trim_eq hopen, if_pos (by simp [hallowed]), hahead] at h
    injection h with h
    exact absurd h (hcloser r)
  | passes _ _ => exact andThen_of_pass hverdict

theorem template_of_comment (hopen : p.nesting ≠ ∅) (hallowed : adm.allows .comment)
    (h : Trivia.Comment (p.trim adm).ahead taken)
    : ∃ rest, (p.trim adm).ahead = taken ++ rest
        ∧ template adm p = .emit .comment ((p.trim adm).moveTo rest) := by
  have hhead : (p.trim adm).ahead.head? = some '/' := by
    generalize (p.trim adm).ahead = ahead at h
    cases h <;> rfl
  have hcloser (r : Region) : r.closer ≠ '/' := by
    cases r <;> decide
  rcases comment_of_extent h with ⟨rest, hahead, hemit⟩
  refine ⟨rest, hahead, ?_⟩
  rw [template_of_no_bracket hopen (by decide) (by decide) hcloser hhead]
  apply behindBrackets_of_comment _ hallowed hemit
  rw [p.nesting_trim, Nesting.isMarkup_eq_false_iff]
  exact hopen

theorem template_of_directive (hopen : p.nesting ≠ ∅) (hallowed : adm.allows .directive)
    (h : Trivia.Directive (p.trim adm).ahead taken)
    : ∃ rest, (p.trim adm).ahead = taken ++ rest
        ∧ template adm p = .emit .directive ((p.trim adm).moveTo rest) := by
  have hhead : (p.trim adm).ahead.head? = some '#' := by
    generalize (p.trim adm).ahead = ahead at h
    cases h
    rfl
  have hcloser (r : Region) : r.closer ≠ '#' := by
    cases r <;> decide
  have hcomment : comment (p.trim adm) = .pass (p.trim adm) := by
    apply comment_of_not_slash
    rw [hhead]
    decide
  rcases directive_of_extent h with ⟨rest, hahead, hemit⟩
  refine ⟨rest, hahead, ?_⟩
  rw [template_of_no_bracket hopen (by decide) (by decide) hcloser hhead]
  apply behindBrackets_of_directive _ hallowed hcomment hemit
  rw [p.nesting_trim, Nesting.isMarkup_eq_false_iff]
  exact hopen

/--
What begins in the given way inside of a region becomes a token of the kind, and nothing else does.
The relation tells how far the token reaches.
-/
structure Decides (adm : Admissible) (kind : Kind) (begins : List Char → Prop)
    (extent : List Char → List Char → Prop) : Prop where
  exists_extent : ∀ text, begins text → ∃ taken, extent text taken
  template_of_extent : ∀ (p : Place) (taken : List Char), p.nesting ≠ ∅ →
    extent (p.trim adm).ahead taken →
    ∃ rest, (p.trim adm).ahead = taken ++ rest
      ∧ template adm p = .emit kind ((p.trim adm).moveTo rest)
  begins_of_template : ∀ p q : Place, p.nesting ≠ ∅ → template adm p = .emit kind q →
    begins (p.trim adm).ahead

theorem decides_comment (hallowed : adm.allows .comment)
    : Decides adm .comment (fun text => ['/', '/'] <+: text ∨ ['/', '*'] <+: text)
        Trivia.Comment where
  exists_extent _ := Trivia.exists_comment
  template_of_extent _ _ hopen := template_of_comment hopen hallowed
  begins_of_template p q hopen hemit := by
    rcases Transition.exists_or_behind (.inl hopen) hemit with ⟨_, _, _, htransition⟩ | hbehind
    · exact absurd htransition.mem_transitions (by decide)
    · rcases behindBrackets_eq_emit hbehind with ⟨_, hcomment⟩ | ⟨heq, _⟩ | ⟨e, heq⟩
      · exact begins_of_comment hcomment
      · contradiction
      · contradiction

theorem decides_directive (hallowed : adm.allows .directive)
    : Decides adm .directive (['#'] <+: ·) Trivia.Directive where
  exists_extent _ := Trivia.exists_directive
  template_of_extent _ _ hopen := template_of_directive hopen hallowed
  begins_of_template p q hopen hemit := by
    rcases Transition.exists_or_behind (.inl hopen) hemit with ⟨_, _, _, htransition⟩ | hbehind
    · exact absurd htransition.mem_transitions (by decide)
    · rcases behindBrackets_eq_emit hbehind with ⟨heq, _⟩ | ⟨_, hdirective⟩ | ⟨e, heq⟩
      · contradiction
      · exact begins_of_directive hdirective
      · contradiction

end Rule

namespace Session

variable {σ : Type} [Embedded σ]

theorem call_of_decides (s : Session σ) {adm : Admissible} {kind : Kind} {begins : List Char → Prop}
    {extent : List Char → List Char → Prop} (hs : s.cursor.InText) (hopen : s.scanner.nesting ≠ ∅)
    (h : Rule.Decides adm kind begins extent)
    : let text := s.cursor.ahead
      let skips := adm.allows .blockOpen || adm.allows .regionClose
      let skipped := if skips then text.takeWhile Alphabet.isBlank else []
      let ahead := if skips then text.dropWhile Alphabet.isBlank else text
      let start := s.cursor.pos + byteSize skipped
      (s.EndsBy adm (.committed kind) ↔ begins ahead)
        ∧ (begins ahead → ∃ taken, extent ahead taken)
        ∧ ∀ taken, extent ahead taken →
            ∃ reach, (s.call adm).1 = .token kind.symbol ⟨start, start + byteSize taken⟩ reach := by
  intro text skips skipped ahead start
  let p : Place := ⟨s.cursor.restart, s.scanner.nesting⟩
  have htext : text = skipped ++ ahead := by
    unfold skipped ahead
    split
    · exact List.takeWhile_append_dropWhile.symm
    · rfl
  have htrim : p.trim adm
      = ⟨{ s.cursor.restart with ahead := ahead, start := ahead }, s.scanner.nesting⟩ := by
    rw [Place.trim_eq hopen]
    unfold ahead
    split
    · exact Place.skipBlanks_eq rfl
    · rfl
  have hahead : (p.trim adm).ahead = ahead := congrArg Place.ahead htrim
  refine ⟨⟨?_, ?_⟩, h.exists_extent ahead, ?_⟩
  · intro hcommits
    rcases commits_iff_emit.mp hcommits with ⟨q, hemit⟩
    have hbegins := h.begins_of_template p q hopen hemit
    rw [hahead] at hbegins
    exact hbegins
  · intro hbegins
    rcases h.exists_extent ahead hbegins with ⟨taken, htaken⟩
    rw [← hahead] at htaken
    rcases h.template_of_extent p taken hopen htaken with ⟨rest, _, hemit⟩
    exact commits_of_emit hemit
  · intro taken htaken
    rw [← hahead] at htaken
    rcases h.template_of_extent p taken hopen htaken with ⟨rest, hrest, hemit⟩
    rw [hahead] at hrest
    rw [htrim, hrest] at hemit
    rw [hrest] at htext
    exact reply_of_skipped hs htext hemit

/--
The extent of comments and directives inside of a region. White space before them is skipped if the
host accepts a bare bracket. The call finds a comment exactly if `//` or `/*` stands there, and a
directive exactly if `#` stands there, whatever else the host accepts. The token is the whole comment
or the whole directive.
-/
theorem call_of_trivia (s : Session σ) (adm : Admissible) (hs : s.cursor.InText)
    (hopen : s.scanner.nesting ≠ ∅)
    : let text := s.cursor.ahead
      let skips := adm.allows .blockOpen || adm.allows .regionClose
      let skipped := if skips then text.takeWhile Alphabet.isBlank else []
      let ahead := if skips then text.dropWhile Alphabet.isBlank else text
      let start := s.cursor.pos + byteSize skipped
      (adm.allows .comment →
          (s.EndsBy adm (.committed .comment) ↔ ['/', '/'] <+: ahead ∨ ['/', '*'] <+: ahead)
            ∧ (['/', '/'] <+: ahead ∨ ['/', '*'] <+: ahead →
                ∃ taken, Rule.Trivia.Comment ahead taken)
            ∧ ∀ taken, Rule.Trivia.Comment ahead taken →
                ∃ reach, (s.call adm).1 = .token Kind.comment.symbol
                  ⟨start, start + byteSize taken⟩ reach)
        ∧ (adm.allows .directive →
            (s.EndsBy adm (.committed .directive) ↔ ['#'] <+: ahead)
              ∧ (['#'] <+: ahead → ∃ taken, Rule.Trivia.Directive ahead taken)
              ∧ ∀ taken, Rule.Trivia.Directive ahead taken →
                  ∃ reach, (s.call adm).1 = .token Kind.directive.symbol
                    ⟨start, start + byteSize taken⟩ reach) := by
  intro text skips skipped ahead start
  refine ⟨?_, ?_⟩
  · intro hallowed
    exact s.call_of_decides hs hopen (Rule.decides_comment hallowed)
  · intro hallowed
    exact s.call_of_decides hs hopen (Rule.decides_directive hallowed)

theorem call_of_trivia_behind_blanks
    : let source := ['é', ' ', '\u2003', '/', '*', '/', '*', '*', '/', '#']
      let s : Session CodeState := ⟨⟨{}, ⟨[.brace]⟩⟩, (Cursor.ofText source).next⟩
      let adm : Admissible := .ofSymbols [Kind.regionClose.symbol, Kind.comment.symbol,
        Kind.directive.symbol, (Kind.rawText .title).symbol]
      s.scanner.nesting ≠ ∅
        ∧ s.EndsBy adm (.committed .comment)
        ∧ ¬ s.EndsBy adm (.committed .directive)
        ∧ ∃ reach, (s.call adm).1 = .token Kind.comment.symbol ⟨6, 12⟩ reach := by
  intro source s adm
  have hopen : s.scanner.nesting ≠ ∅ := by decide
  have hcomment : Rule.Trivia.Comment ['/', '*', '/', '*', '*', '/', '#']
      ['/', '*', '/', '*', '*', '/'] := .block (i := 2) ⟨['#'], rfl⟩ (by decide)
  rcases call_of_trivia s adm ⟨['é'], rfl⟩ hopen with ⟨hcomments, hdirectives⟩
  rcases hcomments (by decide) with ⟨hends, _, htoken⟩
  rcases hdirectives (by decide) with ⟨hends', _⟩
  exact ⟨hopen, hends.mpr (.inr ⟨_, rfl⟩), fun h => absurd (hends'.mp h) (by decide),
    htoken _ hcomment⟩

end Session
end RazorTokens
