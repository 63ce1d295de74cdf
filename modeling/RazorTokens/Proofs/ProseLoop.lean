import RazorTokens.Proofs.Locality.Text

/-!
This module contains the rule for plain text as a loop that takes one character after the other. At
the start of a line the loop takes the characters of an identifier in order to see whether they are a
keyword, but never more than seven of them, and what it has taken in vain is text. It records the end
of the token before each such attempt and behind everything else that it takes. The loop decides
exactly as the rule does.
-/

namespace RazorTokens

namespace Place

def next (p : Place) : Place :=
  { p with cursor := p.cursor.next }

def mark (p : Place) : Place :=
  { p with cursor := p.cursor.mark }

@[simp]
theorem ahead_mark (p : Place) : p.mark.ahead = p.ahead := rfl

theorem next_eq {p : Place} {c : Char} {s : List Char} (h : p.ahead = c :: s)
    : p.next = p.moveTo s := by
  have htail : p.next = p.moveTo p.ahead.tail := rfl
  rw [htail, h, List.tail_cons]

theorem ahead_next {p : Place} {c : Char} {s : List Char} (h : p.ahead = c :: s)
    : p.next.ahead = s := by
  rw [next_eq h]
  rfl

theorem peek?_next {p : Place} {c : Char} {s : List Char} (h : p.ahead = c :: s)
    : p.next.cursor.peek? = s.head? := by
  rw [next_eq h]
  rfl

theorem length_next_lt {p : Place} {c : Char} {s : List Char} (h : p.ahead = c :: s)
    : p.next.ahead.length < p.ahead.length := by
  rw [ahead_next h, h]
  simp

end Place

namespace Rule

def emitIf (b : Bool) (kind : Kind) (p : Place) : Verdict :=
  if b then .emit kind p else .pass p

namespace Prose

def probe : Nat → Place → List Char × Place
  | 0, p => ([], p)
  | n + 1, p =>
    match p.cursor.peek? with
    | none => ([], p)
    | some c =>
      if Alphabet.isIdent c then
        let (word, q) := probe n p.next
        (c :: word, q)
      else
        ([], p)

def probeKeyword (p : Place) : Bool × Place :=
  let (word, q) := probe 7 p
  if Alphabet.isNext Alphabet.isIdent q.cursor.peek? then
    (false, q)
  else
    (keywords.contains word, q)

theorem exists_of_probe (n : Nat) (p : Place)
    : ∃ word rest, p.ahead = word ++ rest
        ∧ probe n p = (word, p.moveTo rest)
        ∧ (∀ c ∈ word, Alphabet.isIdent c)
        ∧ (Alphabet.isNext Alphabet.isIdent rest.head? → word.length = n) := by
  induction n generalizing p with
  | zero => exact ⟨[], p.ahead, rfl, rfl, by simp, fun _ => rfl⟩
  | succ n ih =>
    cases hahead : p.ahead with
    | nil =>
      have hpeek : p.cursor.peek? = none := by
        rw [Cursor.peek?, List.head?_eq_none_iff]
        exact hahead
      refine ⟨[], [], rfl, ?_, by simp, by simp [Alphabet.isNext]⟩
      rw [probe, hpeek, ← hahead]
      rfl
    | cons c s =>
      have hpeek : p.cursor.peek? = some c := by
        rw [Cursor.peek?, List.head?_eq_some_iff]
        exact ⟨s, hahead⟩
      rw [probe, hpeek]
      dsimp only
      cases hc : Alphabet.isIdent c with
      | false =>
        refine ⟨[], c :: s, rfl, ?_, by simp, by simp [Alphabet.isNext, hc]⟩
        rw [← hahead]
        rfl
      | true =>
        rcases ih p.next with ⟨word, rest, hs, hprobe, hword, hfull⟩
        rw [Place.ahead_next hahead] at hs
        refine ⟨c :: word, rest, by rw [hs, List.cons_append], ?_, ?_, ?_⟩
        · rw [hprobe]
          rfl
        · rw [List.forall_mem_cons]
          exact ⟨hc, hword⟩
        · intro hident
          rw [List.length_cons, hfull hident]

theorem length_le_of_mem_keywords {word : List Char} (h : word ∈ keywords) : word.length ≤ 7 := by
  simp only [keywords, List.mem_cons, List.not_mem_nil, or_false] at h
  rcases h with rfl | rfl | rfl <;> decide

/--
The attempt finds a keyword exactly if the whole identifier is one. An identifier that goes on behind
the seventh character is longer than any keyword.
-/
theorem exists_of_probeKeyword (p : Place)
    : ∃ word rest, p.ahead = word ++ rest
        ∧ probeKeyword p = (startsKeyword p.ahead, p.moveTo rest)
        ∧ (∀ c ∈ word, Alphabet.isIdent c)
        ∧ (startsKeyword p.ahead → rest = p.ahead.dropWhile Alphabet.isIdent)
        ∧ (Alphabet.isNext Alphabet.isIdent p.ahead.head? → word ≠ []) := by
  rcases exists_of_probe 7 p with ⟨word, rest, hahead, hprobe, hword, hfull⟩
  have hpeek : (p.moveTo rest).cursor.peek? = rest.head? := rfl
  refine ⟨word, rest, hahead, ?_⟩
  unfold probeKeyword startsKeyword
  rw [hprobe]
  dsimp only
  rw [hpeek]
  cases hnext : Alphabet.isNext Alphabet.isIdent rest.head? with
  | true =>
    have hlong : ¬ keywords.contains (p.ahead.takeWhile Alphabet.isIdent) := by
      rw [List.contains_iff_mem]
      intro hmem
      have hle := length_le_of_mem_keywords hmem
      cases rest with
      | nil => contradiction
      | cons c rest =>
        have hc : Alphabet.isIdent c := hnext
        rw [hahead, List.takeWhile_append_of_pos hword, List.takeWhile_cons_of_pos hc] at hle
        rw [List.length_append, List.length_cons, hfull hnext] at hle
        omega
    rw [Bool.not_eq_true] at hlong
    rw [if_pos rfl, hlong]
    refine ⟨rfl, hword, by simp, ?_⟩
    rintro _ rfl
    exact absurd (hfull hnext) (by decide)
  | false =>
    have hstop : ∀ c after, rest = c :: after → Alphabet.isIdent c = false := by
      rintro c after rfl
      exact hnext
    have htake : p.ahead.takeWhile Alphabet.isIdent = word := by
      rw [hahead, takeWhile_append_of_stop hword hstop]
    have hdrop : p.ahead.dropWhile Alphabet.isIdent = rest := by
      rw [hahead, dropWhile_append_of_stop hword hstop]
    rw [htake]
    refine ⟨rfl, hword, fun _ => hdrop.symm, ?_⟩
    rintro hident rfl
    rw [hahead, List.nil_append, hnext] at hident
    contradiction

theorem isIdent_of_first {c : Char} (h : c = 'e' ∨ c = 'c' ∨ c = 'f') : Alphabet.isIdent c := by
  rcases h with rfl | rfl | rfl <;> decide

theorem eq_of_probeKeyword_eq_true {p q : Place} (h : probeKeyword p.mark = (true, q))
    : startsKeyword p.ahead
        ∧ q = (p.moveTo (p.ahead.dropWhile Alphabet.isIdent)).markAt p.ahead := by
  rcases exists_of_probeKeyword p.mark with ⟨word, rest, _, hprobe, _, hrest, _⟩
  rw [Place.ahead_mark] at hprobe hrest
  rw [h] at hprobe
  injection hprobe with hkeyword hq
  refine ⟨hkeyword.symm, ?_⟩
  rw [hq, hrest hkeyword.symm]
  rfl

theorem exists_of_probeKeyword_eq_false {p q : Place} (h : probeKeyword p.mark = (false, q))
    : ¬ startsKeyword p.ahead
        ∧ ∃ word rest, p.ahead = word ++ rest
            ∧ q = p.mark.moveTo rest
            ∧ (∀ c ∈ word, Alphabet.isIdent c)
            ∧ (Alphabet.isNext Alphabet.isIdent p.ahead.head? → word ≠ []) := by
  rcases exists_of_probeKeyword p.mark with ⟨word, rest, hahead, hprobe, hword, _, hne⟩
  rw [Place.ahead_mark] at hahead hprobe hne
  rw [h] at hprobe
  injection hprobe with hkeyword hq
  exact ⟨by simp [← hkeyword], word, rest, hahead, hq, hword, hne⟩

theorem length_lt_of_probeKeyword {p q : Place} {c : Char} {s : List Char}
    (hahead : p.ahead = c :: s) (hfirst : c = 'e' ∨ c = 'c' ∨ c = 'f')
    (h : probeKeyword p.mark = (false, q))
    : q.mark.ahead.length < p.ahead.length := by
  rcases exists_of_probeKeyword_eq_false h with ⟨_, word, rest, hword, rfl, _, hne⟩
  have hident : Alphabet.isNext Alphabet.isIdent p.ahead.head? := by
    rw [hahead]
    exact isIdent_of_first hfirst
  have hlength := List.length_pos_iff.mpr (hne hident)
  have hrest : (p.mark.moveTo rest).mark.ahead = rest := rfl
  rw [hrest, hword, List.length_append]
  omega

/--
The loop. One flag says whether something was taken already, and the other one whether only spaces
and tabs were taken since the last newline.
-/
def walk (hasContent lineStart : Bool) (p : Place) : Verdict :=
  match hahead : p.ahead with
  | [] => emitIf hasContent .markupText p
  | c :: _ =>
    if c ∈ ['<', '@', '.', '[', '(', '\x22', '\x27'] then
      emitIf hasContent .markupText p
    else if c = '\n' ∨ c = '\r' then
      have := Place.length_next_lt hahead
      walk true true p.next.mark
    else if (c = ' ' ∨ c = '\t') ∧ lineStart then
      have := Place.length_next_lt hahead
      walk true lineStart p.next.mark
    else if hfirst : (c = 'e' ∨ c = 'c' ∨ c = 'f') ∧ lineStart then
      match hprobe : probeKeyword p.mark with
      | (true, q) => if hasContent then .emit .markupText q else .refuse .keyword q
      | (false, q) =>
        have := length_lt_of_probeKeyword hahead hfirst.1 hprobe
        walk true false q.mark
    else
      have := Place.length_next_lt hahead
      walk true false p.next.mark
termination_by p.ahead.length

theorem isStop_iff {c : Char} : isStop c ↔ c ∈ ['<', '@', '.', '[', '(', '\x22', '\x27'] := by
  simp [isStop, Alphabet.isQuote, or_assoc]

theorem isNewline_iff {c : Char} : Alphabet.isNewline c ↔ c = '\n' ∨ c = '\r' := by
  simp [Alphabet.isNewline]

theorem isIndent_iff {c : Char} : isIndent c ↔ c = ' ' ∨ c = '\t' := by
  simp [isIndent]

theorem afterText_of_stop {c : Char} (h : isStop c) (lineStart : Bool) (s : List Char)
    : afterText lineStart (c :: s) = c :: s := by
  rw [afterText, h, Bool.true_or, if_pos rfl]

theorem afterText_of_keyword {s : List Char} (h : startsKeyword s) : afterText true s = s := by
  cases s with
  | nil => rfl
  | cons c s => rw [afterText, h, Bool.true_and, Bool.or_true, if_pos rfl]

theorem afterText_cons {c : Char} {lineStart : Bool} {s : List Char} (hstop : ¬ isStop c)
    (hkeyword : lineStart → ¬ startsKeyword (c :: s))
    : afterText lineStart (c :: s)
        =
      afterText (Alphabet.isNewline c || (lineStart && isIndent c)) s := by
  rw [afterText, if_neg]
  rw [Bool.or_eq_true, Bool.and_eq_true]
  rintro (h | ⟨hline, h⟩)
  · exact hstop h
  · exact hkeyword hline h

theorem not_isStop_of_isIdent {c : Char} (h : Alphabet.isIdent c) : ¬ isStop c := by
  intro hstop
  rw [isIdent_eq_false_of_isStop hstop] at h
  contradiction

theorem afterText_false_append {word : List Char} (h : ∀ c ∈ word, Alphabet.isIdent c)
    (s : List Char)
    : afterText false (word ++ s) = afterText false s := by
  induction word with
  | nil => rfl
  | cons c word ih =>
    rw [List.forall_mem_cons] at h
    rw [List.cons_append, afterText_cons (not_isStop_of_isIdent h.1) (by simp)]
    rw [lineStart_eq_false_of_isIdent h.1]
    exact ih h.2

theorem afterText_of_probe {lineStart : Bool} {word rest : List Char} (hne : word ≠ [])
    (hword : ∀ c ∈ word, Alphabet.isIdent c) (hkeyword : ¬ startsKeyword (word ++ rest))
    : afterText lineStart (word ++ rest) = afterText false rest
        ∧ afterText false rest ≠ word ++ rest := by
  rcases List.exists_cons_of_ne_nil hne with ⟨c, word, rfl⟩
  rw [List.forall_mem_cons] at hword
  rw [List.cons_append] at hkeyword ⊢
  constructor
  · rw [afterText_cons (not_isStop_of_isIdent hword.1) fun _ => hkeyword]
    rw [lineStart_eq_false_of_isIdent hword.1, afterText_false_append hword.2]
  · apply ne_cons_of_suffix
    apply (afterText_suffix _ _).trans
    apply List.suffix_append

theorem first_of_startsKeyword {c : Char} {s : List Char} (h : startsKeyword (c :: s))
    : c = 'e' ∨ c = 'c' ∨ c = 'f' := by
  cases hc : Alphabet.isIdent c with
  | false =>
    rw [startsKeyword_of_isIdent_eq_false hc] at h
    contradiction
  | true =>
    unfold startsKeyword at h
    rw [List.contains_iff_mem, List.takeWhile_cons_of_pos hc] at h
    simp only [keywords, List.mem_cons, List.cons.injEq, List.not_mem_nil, or_false] at h
    exact h.imp And.left (.imp And.left And.left)

/--
What the rule decides if the text ends where `rest` lies ahead. The flag says whether something was
taken before the place already.
-/
def verdictFrom (hasContent : Bool) (rest : List Char) (p : Place) : Verdict :=
  if startsKeyword rest then
    let q := (p.moveTo (rest.dropWhile Alphabet.isIdent)).markAt rest
    if hasContent ∨ rest ≠ p.ahead then .emit .markupText q else .refuse .keyword q
  else if hasContent ∨ rest ≠ p.ahead then
    .emit .markupText ((p.moveTo rest).markAt rest)
  else
    .pass p

theorem prose_eq_verdictFrom (p : Place)
    : prose p = verdictFrom false (afterText true p.ahead) p := by
  unfold prose verdictFrom
  by_cases hstay : afterText true p.ahead = p.ahead
  · simp [hstay]
  · simp [hstay]

theorem verdictFrom_of_stay {hasContent : Bool} {p : Place} (hkeyword : ¬ startsKeyword p.ahead)
    (hmarked : hasContent → p.cursor.marked = some p.ahead)
    : verdictFrom hasContent p.ahead p = emitIf hasContent .markupText p := by
  unfold verdictFrom emitIf
  rw [if_neg hkeyword]
  cases hasContent with
  | false => simp
  | true =>
    -- The end of the token is recorded where the loop has come to.
    have hstay : (p.moveTo p.ahead).markAt p.ahead = p := by
      unfold Place.markAt Cursor.markAt
      rw [← hmarked rfl]
      rfl
    rw [hstay]
    simp

theorem verdictFrom_of_moved {hasContent : Bool} {p : Place} {rest : List Char}
    (h : rest ≠ p.ahead) (ahead : List Char)
    : verdictFrom true rest (p.moveTo ahead).mark = verdictFrom hasContent rest p := by
  unfold verdictFrom
  simp only [h, ne_eq, not_false_eq_true, or_true, true_or, if_true]
  rfl

theorem verdictFrom_next {hasContent lineStart lineStart' : Bool} {p : Place} {c : Char}
    {s : List Char} (hahead : p.ahead = c :: s)
    (hafter : afterText lineStart (c :: s) = afterText lineStart' s)
    : verdictFrom true (afterText lineStart' p.next.mark.ahead) p.next.mark
        =
      verdictFrom hasContent (afterText lineStart p.ahead) p := by
  have hnext : p.next.mark.ahead = s := Place.ahead_next hahead
  rw [hnext, hahead, hafter]
  apply verdictFrom_of_moved
  rw [hahead]
  apply ne_cons_of_suffix
  apply afterText_suffix

theorem walk_eq_verdictFrom (hasContent lineStart : Bool) (p : Place)
    (hmarked : hasContent → p.cursor.marked = some p.ahead)
    : walk hasContent lineStart p = verdictFrom hasContent (afterText lineStart p.ahead) p := by
  fun_induction walk hasContent lineStart p with
  | case1 hasContent lineStart p hahead =>
    have hafter : afterText lineStart p.ahead = p.ahead := by
      rw [hahead]
      rfl
    have hkeyword : ¬ startsKeyword p.ahead := by
      rw [hahead]
      decide
    rw [hafter, verdictFrom_of_stay hkeyword hmarked]
  | case2 hasContent lineStart p c s hahead hstop =>
    rw [← isStop_iff] at hstop
    have hafter : afterText lineStart p.ahead = p.ahead := by
      rw [hahead, afterText_of_stop hstop]
    have hkeyword : ¬ startsKeyword p.ahead := by
      rw [hahead, startsKeyword_of_isIdent_eq_false (isIdent_eq_false_of_isStop hstop)]
      decide
    rw [hafter, verdictFrom_of_stay hkeyword hmarked]
  | case3 hasContent lineStart p c s hahead hstop hnewline _ ih =>
    rw [← isStop_iff] at hstop
    rw [← isNewline_iff] at hnewline
    rw [ih fun _ => rfl]
    apply verdictFrom_next hahead
    rw [afterText_cons hstop, hnewline, Bool.true_or]
    intro _
    rw [startsKeyword_of_isIdent_eq_false (isIdent_eq_false_of_isNewline hnewline)]
    decide
  | case4 hasContent lineStart p c s hahead hstop hnewline hindent _ ih =>
    rcases hindent with ⟨hindent, rfl⟩
    rw [← isStop_iff] at hstop
    rw [← isIndent_iff] at hindent
    rw [ih fun _ => rfl]
    apply verdictFrom_next hahead
    rw [afterText_cons hstop, hindent, Bool.true_and, Bool.or_true]
    intro _
    rw [startsKeyword_of_isIdent_eq_false (isIdent_eq_false_of_isIndent hindent)]
    decide
  | case5 lineStart p c s hahead hstop hnewline hindent hfirst q hprobe =>
    rcases eq_of_probeKeyword_eq_true hprobe with ⟨hkeyword, rfl⟩
    rw [hfirst.2, afterText_of_keyword hkeyword]
    unfold verdictFrom
    rw [if_pos hkeyword, if_pos (.inl rfl)]
  | case6 hasContent lineStart p c s hahead hstop hnewline hindent hfirst q hprobe hempty =>
    rcases eq_of_probeKeyword_eq_true hprobe with ⟨hkeyword, rfl⟩
    rw [hfirst.2, afterText_of_keyword hkeyword]
    unfold verdictFrom
    rw [if_pos hkeyword, if_neg (by simpa using hempty)]
  | case7 hasContent lineStart p c s hahead hstop hnewline hindent hfirst q hprobe _ ih =>
    rcases exists_of_probeKeyword_eq_false hprobe
      with ⟨hkeyword, word, rest, hword, rfl, hident, htook⟩
    have hne : word ≠ [] := by
      apply htook
      rw [hahead]
      exact isIdent_of_first hfirst.1
    rw [hword] at hkeyword
    rcases afterText_of_probe hne hident hkeyword with ⟨hafter, hmoved⟩
    rw [← hword] at hafter hmoved
    rw [ih fun _ => rfl, hafter]
    exact verdictFrom_of_moved hmoved rest
  | case8 hasContent lineStart p c s hahead hstop hnewline hindent hfirst _ ih =>
    rw [← isStop_iff] at hstop
    rw [← isNewline_iff, Bool.not_eq_true] at hnewline
    rw [← isIndent_iff] at hindent
    rw [ih fun _ => rfl]
    apply verdictFrom_next hahead
    rw [afterText_cons hstop]
    · cases lineStart <;> simp_all
    · intro hline hkeyword
      exact hfirst ⟨first_of_startsKeyword hkeyword, hline⟩

theorem walk_eq_prose (p : Place) : walk false true p = prose p := by
  rw [prose_eq_verdictFrom]
  apply walk_eq_verdictFrom
  simp

end Prose
end Rule
end RazorTokens
