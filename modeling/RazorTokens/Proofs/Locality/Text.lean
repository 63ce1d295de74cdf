import RazorTokens.Proofs.Motion

/-!
This module shows that the functions on texts that the rules are made of read no more than they pass
over and one character of lookahead. Two texts are compared that differ only in how they end, and a
function that stops before the different ends stops at the same place in both.
-/

namespace RazorTokens

def Alike (u v s t : List Char) : Prop :=
  ∃ front, s = front ++ u ∧ t = front ++ v

namespace Alike

variable {u v s t : List Char}

theorem append (front : List Char) : Alike u v (front ++ u) (front ++ v) :=
  ⟨front, rfl, rfl⟩

theorem ends : Alike u v u v :=
  append []

theorem symm (h : Alike u v s t) : Alike v u t s := by
  rcases h with ⟨front, rfl, rfl⟩
  apply append

theorem cons (c : Char) (h : Alike u v s t) : Alike u v (c :: s) (c :: t) := by
  rcases h with ⟨front, rfl, rfl⟩
  exact append (c :: front)

theorem eq_iff {s' t' : List Char} (h : Alike u v s t) (h' : Alike u v s' t')
    : s = s' ↔ t = t' := by
  rcases h with ⟨front, rfl, rfl⟩
  rcases h' with ⟨front', rfl, rfl⟩
  rw [List.append_cancel_right_eq, List.append_cancel_right_eq]

theorem eq_of_nil (h : Alike [] [] s t) : s = t := by
  rcases h with ⟨front, rfl, rfl⟩
  rfl

theorem uncons {c : Char} (h : Alike u v (c :: s) t) (hu : u <:+ s)
    : ∃ t', t = c :: t' ∧ Alike u v s t' := by
  rcases h with ⟨front, hs, rfl⟩
  cases front with
  | nil =>
    have := hu.length_le
    rw [List.nil_append] at hs
    rw [← hs, List.length_cons] at this
    omega
  | cons d front =>
    injection hs with hc hs
    subst hc hs
    exact ⟨front ++ v, rfl, append front⟩

theorem unappend {x : List Char} (h : Alike u v (x ++ s) t) (hu : u <:+ s)
    : ∃ t', t = x ++ t' ∧ Alike u v s t' := by
  induction x generalizing t with
  | nil => exact ⟨t, rfl, h⟩
  | cons c x ih =>
    rcases h.uncons (hu.trans (List.suffix_append x s)) with ⟨t, rfl, htail⟩
    rcases ih htail with ⟨t', rfl, hrest⟩
    exact ⟨t', rfl, hrest⟩

theorem head?_eq (hhead : u.head? = v.head?) (h : Alike u v s t) : s.head? = t.head? := by
  rcases h with ⟨front, rfl, rfl⟩
  cases front with
  | nil => exact hhead
  | cons c front => rfl

theorem exists_cons {c : Char} (hhead : u.head? = v.head?) (h : Alike u v (c :: s) t)
    : ∃ t', t = c :: t' := by
  have hc := h.head?_eq hhead
  rw [List.head?_cons, eq_comm, List.head?_eq_some_iff] at hc
  exact hc

theorem eq_nil (hhead : u.head? = v.head?) (h : Alike u v [] t) : t = [] := by
  have hc := h.head?_eq hhead
  rw [List.head?_nil, eq_comm, List.head?_eq_none_iff] at hc
  exact hc

theorem tail {c : Char} (h : Alike u v s t) (hc : s.head? = some c) (hu : u <:+ s.tail)
    : Alike u v s.tail t.tail := by
  rw [List.head?_eq_some_iff] at hc
  rcases hc with ⟨s, rfl⟩
  rcases h.uncons hu with ⟨t, rfl, htail⟩
  exact htail

theorem takeWhile_eq_and_dropWhile {p : Char → Bool} (hhead : u.head? = v.head?)
    (h : Alike u v s t) (hu : u <:+ s.dropWhile p)
    : s.takeWhile p = t.takeWhile p ∧ Alike u v (s.dropWhile p) (t.dropWhile p) := by
  induction s generalizing t with
  | nil =>
    have ht := h.eq_nil hhead
    subst ht
    exact ⟨rfl, h⟩
  | cons c s ih =>
    cases hc : p c with
    | true =>
      rw [List.dropWhile_cons_of_pos hc] at hu
      rcases h.uncons (hu.trans (List.dropWhile_suffix p)) with ⟨t, rfl, htail⟩
      rw [List.dropWhile_cons_of_pos hc, List.dropWhile_cons_of_pos hc]
      rw [List.takeWhile_cons_of_pos hc, List.takeWhile_cons_of_pos hc]
      have ⟨htake, hdrop⟩ := ih htail hu
      exact ⟨by rw [htake], hdrop⟩
    | false =>
      rcases h.exists_cons hhead with ⟨t, rfl⟩
      rw [List.dropWhile_cons_of_neg (by simp [hc]), List.dropWhile_cons_of_neg (by simp [hc])]
      rw [List.takeWhile_cons_of_neg (by simp [hc]), List.takeWhile_cons_of_neg (by simp [hc])]
      exact ⟨rfl, h⟩

theorem takeWhile_eq {p : Char → Bool} (hhead : u.head? = v.head?) (h : Alike u v s t)
    (hu : u <:+ s.dropWhile p)
    : s.takeWhile p = t.takeWhile p :=
  (h.takeWhile_eq_and_dropWhile hhead hu).1

theorem dropWhile {p : Char → Bool} (hhead : u.head? = v.head?) (h : Alike u v s t)
    (hu : u <:+ s.dropWhile p)
    : Alike u v (s.dropWhile p) (t.dropWhile p) :=
  (h.takeWhile_eq_and_dropWhile hhead hu).2

end Alike

namespace Rule

variable {u v s t : List Char}

namespace Address

theorem endsInWord_eq_of_alike (hhead : u.head? = v.head?) (h : Alike u v s t)
    (hu : u <:+ s.dropWhile isPlain)
    : endsInWord s = endsInWord t := by
  unfold endsInWord
  rw [h.takeWhile_eq hhead hu]

theorem giveUp_of_alike (hhead : u.head? = v.head?) (h : Alike u v s t) (hu : u <:+ giveUp s)
    : Alike u v (giveUp s) (giveUp t) := by
  have hplain := hu.trans (giveUp_suffix_dropWhile s)
  have hdrop := h.dropWhile hhead hplain
  rw [giveUp_eq_ite] at hu ⊢
  rw [giveUp_eq_ite t, ← hdrop.head?_eq hhead, ← endsInWord_eq_of_alike hhead h hplain]
  split
  · next hat =>
    rw [if_pos hat] at hu
    exact hdrop.tail hat.1 hu
  · exact hdrop

theorem afterSegment?_of_alike_of_some {rest : List Char} (hhead : u.head? = v.head?)
    (h : Alike u v s t) (hrest : afterSegment? s = some rest) (hu : u <:+ rest)
    : ∃ rest', afterSegment? t = some rest' ∧ Alike u v rest rest' := by
  have htail := hu.trans (suffix_of_afterSegment? hrest)
  have hplain := htail.trans (List.tail_suffix _)
  have hdrop := h.dropWhile hhead hplain
  rw [afterSegment?_eq_ite] at hrest
  split at hrest
  · next hat =>
    cases hrest
    have hbehind := hdrop.tail hat.1 htail
    refine ⟨(t.dropWhile isPlain).tail.dropWhile isDomain, ?_, ?_⟩
    · rw [afterSegment?_eq_ite, if_pos]
      rw [← hdrop.head?_eq hhead, ← endsInWord_eq_of_alike hhead h hplain]
      rw [← hbehind.head?_eq hhead]
      exact hat
    · exact hbehind.dropWhile hhead hu
  · contradiction

theorem afterSegment?_of_alike_of_none (hhead : u.head? = v.head?) (h : Alike u v s t)
    (hnone : afterSegment? s = none) (hu : u <:+ giveUp s)
    : afterSegment? t = none := by
  -- Without a segment the search gives up behind an `@` only if a word stands before that `@`. So
  -- the character that decides against the segment is the lookahead at the place where the search
  -- gives up.
  have hplain := hu.trans (giveUp_suffix_dropWhile s)
  have hdrop := h.dropWhile hhead hplain
  rw [afterSegment?_eq_ite] at hnone ⊢
  rw [← hdrop.head?_eq hhead, ← endsInWord_eq_of_alike hhead h hplain]
  rw [if_neg]
  rintro ⟨hat, hword, hnext⟩
  rw [giveUp_eq_ite, if_pos ⟨hat, hword⟩] at hu
  rw [← (hdrop.tail hat hu).head?_eq hhead] at hnext
  rw [if_pos ⟨hat, hword, hnext⟩] at hnone
  contradiction

theorem afterSegments_of_alike (hhead : u.head? = v.head?) (h : Alike u v s t)
    (hu : u <:+ giveUp (afterSegments s))
    : Alike u v (afterSegments s) (afterSegments t)
        ∧ (afterSegment? s).isSome = (afterSegment? t).isSome := by
  induction s using afterSegments.induct generalizing t with
  | case1 s rest hrest _ ih =>
    rw [afterSegments_of_some hrest] at hu ⊢
    have hsuffix := hu.trans ((giveUp_suffix _).trans (afterSegments_suffix rest))
    rcases afterSegment?_of_alike_of_some hhead h hrest hsuffix with ⟨rest', ht, halike⟩
    rw [afterSegments_of_some ht, hrest, ht]
    exact ⟨(ih halike hu).1, rfl⟩
  | case2 s hnone =>
    rw [afterSegments_of_none hnone] at hu ⊢
    have ht := afterSegment?_of_alike_of_none hhead h hnone hu
    rw [afterSegments_of_none ht, hnone, ht]
    exact ⟨h, rfl⟩

end Address

namespace Prose

theorem isIdent_eq_false_of_isStop {c : Char} (h : isStop c) : Alphabet.isIdent c = false := by
  simp only [isStop, Alphabet.isQuote, Bool.or_eq_true, beq_iff_eq] at h
  rcases h with (((((rfl | rfl) | rfl) | rfl) | rfl) | rfl | rfl) <;> decide

theorem isIdent_eq_false_of_isNewline {c : Char} (h : Alphabet.isNewline c)
    : Alphabet.isIdent c = false := by
  simp only [Alphabet.isNewline, Bool.or_eq_true, beq_iff_eq] at h
  rcases h with rfl | rfl <;> decide

theorem isIdent_eq_false_of_isIndent {c : Char} (h : isIndent c) : Alphabet.isIdent c = false := by
  simp only [isIndent, Bool.or_eq_true, beq_iff_eq] at h
  rcases h with rfl | rfl <;> decide

theorem startsKeyword_of_isIdent_eq_false {c : Char} (h : Alphabet.isIdent c = false)
    (s : List Char)
    : startsKeyword (c :: s) = false := by
  unfold startsKeyword
  rw [List.takeWhile_cons_of_neg (by simp [h])]
  rfl

theorem startsKeyword_eq_of_alike (hhead : u.head? = v.head?) (h : Alike u v s t)
    (hu : u <:+ s.dropWhile Alphabet.isIdent)
    : startsKeyword s = startsKeyword t := by
  unfold startsKeyword
  rw [h.takeWhile_eq hhead hu]

theorem lineStart_eq_false_of_isIdent {c : Char} (h : Alphabet.isIdent c) (lineStart : Bool)
    : (Alphabet.isNewline c || (lineStart && isIndent c)) = false := by
  rw [Bool.or_eq_false_iff, Bool.and_eq_false_iff]
  constructor
  · cases hnewline : Alphabet.isNewline c with
    | false => rfl
    | true =>
      rw [isIdent_eq_false_of_isNewline hnewline] at h
      contradiction
  · right
    cases hindent : isIndent c with
    | false => rfl
    | true =>
      rw [isIdent_eq_false_of_isIndent hindent] at h
      contradiction

theorem afterText_false_suffix_dropWhile (s : List Char)
    : afterText false s <:+ s.dropWhile Alphabet.isIdent := by
  induction s with
  | nil => apply List.suffix_refl
  | cons c s ih =>
    cases hc : Alphabet.isIdent c with
    | true =>
      rw [List.dropWhile_cons_of_pos hc]
      rw [afterText]
      split
      · next hstop =>
        rw [Bool.false_and, Bool.or_false] at hstop
        rw [isIdent_eq_false_of_isStop hstop] at hc
        contradiction
      · rw [lineStart_eq_false_of_isIdent hc]
        exact ih
    | false =>
      rw [List.dropWhile_cons_of_neg (by simp [hc])]
      apply afterText_suffix

theorem startsKeyword_eq_of_alike_of_afterText {c : Char} {lineStart : Bool}
    (hhead : u.head? = v.head?) (h : Alike u v s t)
    (hu : u <:+ afterText (Alphabet.isNewline c || (lineStart && isIndent c)) s)
    : startsKeyword (c :: s) = startsKeyword (c :: t) := by
  -- The text goes on behind an identifier that is no keyword, and it goes on at least to the end of
  -- that identifier. So the decision that it is no keyword was made on characters that the text
  -- covers.
  cases hc : Alphabet.isIdent c with
  | true =>
    rw [lineStart_eq_false_of_isIdent hc] at hu
    apply startsKeyword_eq_of_alike hhead (h.cons c)
    rw [List.dropWhile_cons_of_pos hc]
    exact hu.trans (afterText_false_suffix_dropWhile s)
  | false =>
    rw [startsKeyword_of_isIdent_eq_false hc, startsKeyword_of_isIdent_eq_false hc]

theorem afterText_of_alike {lineStart : Bool} (hhead : u.head? = v.head?) (h : Alike u v s t)
    (hu : u <:+ reach (afterText lineStart s))
    : Alike u v (afterText lineStart s) (afterText lineStart t)
        ∧ startsKeyword (afterText lineStart s) = startsKeyword (afterText lineStart t) := by
  induction s generalizing lineStart t with
  | nil =>
    have ht := h.eq_nil hhead
    subst ht
    exact ⟨h, rfl⟩
  | cons c s ih =>
    rcases h.exists_cons hhead with ⟨t, rfl⟩
    rw [afterText] at hu ⊢
    rw [afterText]
    cases hstop : isStop c with
    | true =>
      rw [Bool.true_or, Bool.true_or, if_pos rfl, if_pos rfl]
      have hident := isIdent_eq_false_of_isStop hstop
      rw [startsKeyword_of_isIdent_eq_false hident, startsKeyword_of_isIdent_eq_false hident]
      exact ⟨h, rfl⟩
    | false =>
      rw [hstop] at hu
      rw [Bool.false_or] at hu ⊢
      rw [Bool.false_or]
      split at hu
      · next hkeyword =>
        rw [if_pos hkeyword]
        have hstarts : startsKeyword (c :: s) := (Bool.and_eq_true_iff.mp hkeyword).2
        unfold reach at hu
        rw [if_pos hstarts] at hu
        rw [← startsKeyword_eq_of_alike hhead h hu, if_pos hkeyword]
        exact ⟨h, startsKeyword_eq_of_alike hhead h hu⟩
      · next hkeyword =>
        rw [if_neg hkeyword]
        have hafter := hu.trans (reach_suffix _)
        rcases h.uncons (hafter.trans (afterText_suffix _ s)) with ⟨t', heq, htail⟩
        injection heq with _ heq
        subst heq
        rw [← startsKeyword_eq_of_alike_of_afterText hhead htail hafter, if_neg hkeyword]
        exact ih htail hu

end Prose

namespace Trivia

theorem past_of_alike {c : Char} (hhead : u.head? = v.head?) (h : Alike u v s t)
    (hu : u <:+ past c s)
    : Alike u v (past c s) (past c t) := by
  unfold past at hu ⊢
  rw [← h.head?_eq hhead]
  split
  · next hc =>
    rw [if_pos hc] at hu
    exact h.tail hc hu
  · exact h

theorem afterNewline_of_alike (hhead : u.head? = v.head?) (h : Alike u v s t)
    (hu : u <:+ afterNewline s)
    : Alike u v (afterNewline s) (afterNewline t) := by
  rw [afterNewline_eq_past] at hu ⊢
  rw [afterNewline_eq_past]
  apply past_of_alike hhead _ hu
  apply past_of_alike hhead h
  exact hu.trans (past_suffix _ _)

theorem afterBlock_of_alike (hhead : u.head? = v.head?) (h : Alike u v s t)
    (hu : u <:+ afterBlock s)
    : Alike u v (afterBlock s) (afterBlock t) := by
  induction s generalizing t with
  | nil =>
    have ht := h.eq_nil hhead
    subst ht
    exact h
  | cons c s ih =>
    rw [afterBlock_cons] at hu ⊢
    split at hu
    · next hend =>
      rcases h.uncons (hu.trans (List.tail_suffix s)) with ⟨t, rfl, htail⟩
      rw [afterBlock_cons, ← htail.head?_eq hhead, if_pos hend, if_pos hend]
      exact htail.tail hend.2 hu
    · next hend =>
      rcases h.uncons (hu.trans (afterBlock_suffix s)) with ⟨t, rfl, htail⟩
      rw [afterBlock_cons, ← htail.head?_eq hhead, if_neg hend, if_neg hend]
      exact ih htail hu

end Trivia

namespace Verbatim

variable {letters : List Char}

theorem afterClosing?_of_alike {behind : List Char}
    (hletters : ∀ letter ∈ letters, isEitherCase letter '<' = false)
    (h : Alike u v s t) (hclosing : afterClosing? letters s = some behind) (hu : u <:+ behind)
    : ∃ behind', afterClosing? letters t = some behind' ∧ Alike u v behind behind' := by
  rcases exists_tag_of_afterClosing? hletters hclosing with ⟨tag, rfl, _, hmatch⟩
  rcases h.unappend hu with ⟨behind', rfl, hbehind⟩
  exact ⟨behind', hmatch behind', hbehind⟩

theorem afterClosing?_eq_none_of_alike {c : Char} {closing behind : List Char}
    (hletters : ∀ letter ∈ letters, isEitherCase letter '<' = false)
    (h : Alike u v s t) (hnone : afterClosing? letters (c :: s) = none)
    (hfind : findClosing? letters s = some (closing, behind)) (hu : u <:+ behind)
    : afterClosing? letters (c :: t) = none := by
  -- A closing tag that one text has and the other has not would have to reach beyond the common
  -- front. But a later closing tag begins inside that front, and no closing tag has a `<` behind
  -- its first one.
  cases hclosing : afterClosing? letters (c :: t) with
  | none => rfl
  | some other =>
    exfalso
    rcases exists_tag_of_afterClosing? hletters hclosing with ⟨tag, ht, htag, _⟩
    rw [List.cons_append] at ht
    injection ht with _ ht
    have hv : v <:+ other := by
      rcases h with ⟨front, hs, hfront⟩
      rw [hfront, List.append_eq_append_iff] at ht
      rcases ht with ⟨excess, htag', _⟩ | ⟨excess, _, hother⟩
      · exfalso
        apply htag
        rw [htag']
        apply List.mem_append_left
        rcases exists_tag_of_findClosing? hletters hfind with ⟨before, tag', hbefore, rfl⟩
        rcases hu with ⟨gap, rfl⟩
        have hfront' : front = before ++ ('<' :: tag' ++ gap) := by
          apply List.append_cancel_right
          rw [← hs, hbefore]
          simp
        rw [hfront']
        simp
      · rw [hother]
        apply List.suffix_append
    rcases afterClosing?_of_alike hletters (h.cons c).symm hclosing hv with ⟨_, hsome, _⟩
    rw [hnone] at hsome
    contradiction

theorem findClosing?_of_alike {closing behind : List Char}
    (hletters : ∀ letter ∈ letters, isEitherCase letter '<' = false)
    (h : Alike u v s t) (hfind : findClosing? letters s = some (closing, behind))
    (hu : u <:+ behind)
    : ∃ closing' behind', findClosing? letters t = some (closing', behind')
        ∧ Alike u v closing closing' ∧ Alike u v behind behind' := by
  induction s generalizing t with
  | nil => contradiction
  | cons c s ih =>
    rw [findClosing?] at hfind
    split at hfind
    · next hclosing =>
      cases hfind
      rcases afterClosing?_of_alike hletters h hclosing hu with ⟨behind', hclosing', hbehind⟩
      cases t with
      | nil => contradiction
      | cons d t =>
        refine ⟨d :: t, behind', ?_, h, hbehind⟩
        rw [findClosing?, hclosing']
    · next hnone =>
      rcases exists_tag_of_findClosing? hletters hfind with ⟨before, tag, hs, hclosing⟩
      have hsuffix : u <:+ s := by
        rw [hs, hclosing]
        apply hu.trans
        rw [← List.append_assoc]
        apply List.suffix_append
      rcases h.uncons hsuffix with ⟨t, rfl, htail⟩
      rw [findClosing?, afterClosing?_eq_none_of_alike hletters htail hnone hfind hu]
      exact ih htail hfind

end Verbatim
end Rule
end RazorTokens
