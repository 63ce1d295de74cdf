import RazorTokens.Proofs.LiteralAt

/-!
This module contains the rule for text with a literal `@` as a loop that takes one character after
the other. The loop takes an `@` before it knows whether the `@` is literal, and it records the end of
the token behind each domain and, once there was a literal `@`, behind each plain character. The loop
decides exactly as the rule does.
-/

namespace RazorTokens

namespace Place

def markIf (b : Bool) (p : Place) : Place :=
  if b then p.mark else p

@[simp]
theorem ahead_markIf (b : Bool) (p : Place) : (p.markIf b).ahead = p.ahead := by
  cases b <;> rfl

end Place

namespace Rule
namespace Address

/--
The loop. One flag says whether there was a literal `@` already, and the other one whether the last
character was a word character outside of a domain.
-/
def walk (found lastWord : Bool) (p : Place) : Verdict :=
  match hahead : p.ahead with
  | [] => emitIf found .textWithAt p
  | c :: _ =>
    have := Place.length_next_lt hahead
    if c = '<' ∨ c = '\x22' ∨ c = '\x27' then
      emitIf found .textWithAt p
    else if c = '@' then
      if !lastWord then
        emitIf found .textWithAt p
      else if !Alphabet.isNext Alphabet.isWord p.next.cursor.peek? then
        emitIf found .textWithAt p.next
      else
        walk true false (p.next.moveTo (p.next.ahead.dropWhile isDomain)).mark
    else
      walk found (Alphabet.isWord c) (p.next.markIf found)
termination_by p.ahead.length
decreasing_by
  · exact Nat.lt_of_le_of_lt (List.dropWhile_suffix isDomain).length_le this
  · rw [Place.ahead_markIf]
    exact this

/--
What the rule decides where `s` lies behind the last domain or the start of the token. The flag says
whether there was a literal `@` before that.
-/
def verdictFrom (found : Bool) (s : List Char) (p : Place) : Verdict :=
  if found ∨ (afterSegment? s).isSome then
    let rest := afterSegments s
    .emit .textWithAt ((p.moveTo (giveUp rest)).markAt (rest.dropWhile isPlain))
  else
    .pass (p.moveTo (giveUp s))

variable {found : Bool} {s : List Char} {p : Place}

theorem address_eq_verdictFrom (p : Place) : address p = verdictFrom false p.ahead p := by
  unfold address verdictFrom
  simp

theorem verdictFrom_of_none (hnone : afterSegment? s = none)
    (hmarked : found → p.cursor.marked = some (s.dropWhile isPlain))
    : verdictFrom found s p = emitIf found .textWithAt (p.moveTo (giveUp s)) := by
  unfold verdictFrom emitIf
  rw [hnone, afterSegments_of_none hnone]
  cases found with
  | false => rfl
  | true =>
    have hmark : (p.moveTo (giveUp s)).markAt (s.dropWhile isPlain) = p.moveTo (giveUp s) := by
      unfold Place.markAt Cursor.markAt
      rw [← hmarked rfl]
      rfl
    rw [if_pos (.inl rfl), if_pos rfl]
    exact congrArg (Verdict.emit _) hmark

theorem verdictFrom_of_some {rest : List Char} (h : afterSegment? s = some rest)
    (ahead : List Char)
    : verdictFrom true rest (p.moveTo ahead).mark = verdictFrom found s p := by
  unfold verdictFrom
  rw [h, afterSegments_of_some h, if_pos (.inl rfl), if_pos (.inr rfl)]
  rfl

theorem verdictFrom_next (found : Bool) (s : List Char) (p : Place)
    : verdictFrom found s (p.next.markIf found) = verdictFrom found s p := by
  unfold verdictFrom
  cases found with
  | false => rfl
  | true => rfl

theorem verdictFrom_of_stop {plain : List Char} (hplain : ∀ c ∈ plain, isPlain c)
    (hstop : ∀ c after, p.ahead = c :: after → isPlain c = false) (hat : p.ahead.head? ≠ some '@')
    (hmarked : found → p.cursor.marked = some p.ahead)
    : verdictFrom found (plain ++ p.ahead) p = emitIf found .textWithAt p := by
  have hdrop : (plain ++ p.ahead).dropWhile isPlain = p.ahead :=
    dropWhile_append_of_stop hplain hstop
  have hnone : afterSegment? (plain ++ p.ahead) = none := by
    rw [afterSegment?_eq_ite, hdrop, if_neg fun h => hat h.1]
  have hgiveUp : giveUp (plain ++ p.ahead) = p.ahead := by
    rw [giveUp_eq_ite, hdrop, if_neg fun h => hat h.1]
  rw [verdictFrom_of_none hnone, hgiveUp]
  · rfl
  · rw [hdrop]
    exact hmarked

theorem verdictFrom_of_at {plain rest : List Char} (hplain : ∀ c ∈ plain, isPlain c)
    (hflanked : ¬ Flanked plain rest)
    (hmarked : found → p.cursor.marked = some ('@' :: rest))
    : verdictFrom found (plain ++ '@' :: rest) p
        =
      emitIf found .textWithAt (p.moveTo
        (if Alphabet.isNext Alphabet.isWord plain.getLast? then rest else '@' :: rest)) := by
  have hnone : afterSegment? (plain ++ '@' :: rest) = none := by
    rw [afterSegment?_append hplain, if_neg hflanked]
  rw [verdictFrom_of_none hnone, giveUp_append hplain]
  rw [dropWhile_isPlain_append hplain]
  exact hmarked

/--
The loop has taken the characters of `plain` since the last domain or the start of the token.
-/
theorem walk_eq_verdictFrom (found lastWord : Bool) (p : Place) {plain : List Char}
    (hplain : ∀ c ∈ plain, isPlain c)
    (hlast : lastWord = Alphabet.isNext Alphabet.isWord plain.getLast?)
    (hmarked : found → p.cursor.marked = some p.ahead)
    : walk found lastWord p = verdictFrom found (plain ++ p.ahead) p := by
  fun_induction walk found lastWord p generalizing plain with
  | case1 found lastWord p hahead =>
    rw [verdictFrom_of_stop hplain _ _ hmarked]
    · simp [hahead]
    · simp [hahead]
  | case2 found lastWord p c s hahead _ hstop =>
    rw [verdictFrom_of_stop hplain _ _ hmarked]
    · intro d after hd
      rw [hahead] at hd
      cases hd
      rcases hstop with rfl | rfl | rfl <;> decide
    · rw [hahead]
      rcases hstop with rfl | rfl | rfl <;> simp
  | case3 found lastWord p s hword hahead _ hstop =>
    rw [Bool.not_eq_true', hlast] at hword
    rw [hahead] at hmarked ⊢
    rw [verdictFrom_of_at hplain _ hmarked, if_neg (by simp [hword]), ← hahead]
    · rfl
    · intro hflanked
      rw [hflanked.1] at hword
      contradiction
  | case4 found lastWord p s hword hnext hahead _ hstop =>
    rw [Bool.not_eq_true', Bool.not_eq_false, hlast] at hword
    rw [Bool.not_eq_true', Place.peek?_next hahead] at hnext
    rw [hahead] at hmarked ⊢
    rw [verdictFrom_of_at hplain _ hmarked, if_pos hword, Place.next_eq hahead]
    intro hflanked
    rw [hflanked.2] at hnext
    contradiction
  | case5 found lastWord p s hword hnext hahead _ hstop ih =>
    rw [Bool.not_eq_true', Bool.not_eq_false, hlast] at hword
    rw [Bool.not_eq_true', Bool.not_eq_false, Place.peek?_next hahead] at hnext
    have hsegment : afterSegment? (plain ++ p.ahead) = some (s.dropWhile isDomain) := by
      rw [hahead]
      exact afterSegment?_of_flanked hplain ⟨hword, hnext⟩
    rw [ih (List.forall_mem_nil _) rfl fun _ => rfl]
    rw [Place.ahead_next hahead, Place.next_eq hahead]
    exact verdictFrom_of_some hsegment _
  | case6 found lastWord p c s hahead _ hstop hat ih =>
    have hc : isPlain c := by
      rw [isPlain_iff]
      simp [hat, hstop]
    have hsplit : plain ++ p.ahead = plain ++ [c] ++ (p.next.markIf found).ahead := by
      rw [Place.ahead_markIf, Place.ahead_next hahead, hahead]
      simp
    rw [hsplit, ← verdictFrom_next found _ p]
    apply ih
    · rw [List.forall_mem_append, List.forall_mem_singleton]
      exact ⟨hplain, hc⟩
    · simp [Alphabet.isNext]
    · rintro rfl
      rfl

theorem walk_eq_address (p : Place) : walk false false p = address p := by
  rw [address_eq_verdictFrom]
  exact walk_eq_verdictFrom false false p (List.forall_mem_nil _) rfl (by simp)

end Address
end Rule
end RazorTokens
