import RazorTokens.Scanner

/-!
This module restates the rules that decide by single characters: each of them looks at the character
under the cursor, and at the one behind it where two characters belong together.
-/

namespace RazorTokens

theorem head?_ne_some_of_ne_cons {c : Char} {s : List Char} (h : ∀ rest, s = c :: rest → False)
    : s.head? ≠ some c := by
  intro hc
  rw [List.head?_eq_some_iff] at hc
  rcases hc with ⟨rest, hrest⟩
  exact h rest hrest

theorem ne_cons_of_head?_ne_some {c : Char} {s rest : List Char} (h : s.head? ≠ some c)
    : s ≠ c :: rest := by
  intro heq
  apply h
  rw [heq]
  rfl

theorem ne_cons_of_suffix {s t : List Char} (c : Char) (h : s <:+ t) : s ≠ c :: t := by
  intro heq
  have := h.length_le
  simp only [heq, List.length_cons] at this
  omega

theorem takeWhile_append_of_stop {p : Char → Bool} {run rest : List Char} (hrun : ∀ c ∈ run, p c)
    (hstop : ∀ c after, rest = c :: after → p c = false)
    : (run ++ rest).takeWhile p = run := by
  rw [List.takeWhile_append_of_pos hrun]
  cases rest with
  | nil => simp
  | cons c after => rw [List.takeWhile_cons_of_neg (by simp [hstop c after rfl]), List.append_nil]

theorem dropWhile_append_of_stop {p : Char → Bool} {run rest : List Char} (hrun : ∀ c ∈ run, p c)
    (hstop : ∀ c after, rest = c :: after → p c = false)
    : (run ++ rest).dropWhile p = rest := by
  rw [List.dropWhile_append_of_pos hrun]
  cases rest with
  | nil => rfl
  | cons c after => rw [List.dropWhile_cons_of_neg (by simp [hstop c after rfl])]

theorem eq_false_of_dropWhile_eq_cons {p : Char → Bool} {c : Char} {s after : List Char}
    (h : s.dropWhile p = c :: after)
    : p c = false := by
  have hhead := List.head?_dropWhile_not p s
  rw [h] at hhead
  simpa using hhead

namespace Rule

variable {p : Place} {rest : List Char}

def openedBy? (adm : Admissible) (c : Char) : Option (Kind × Region) :=
  if c = '{' ∧ adm.allows .codeBlockStart then some (.codeBlockStart, .brace)
  else if c = '(' ∧ adm.allows .expressionStart then some (.expressionStart, .paren)
  else none

theorem openedBy?_eq_some {adm : Admissible} {c : Char} {kind : Kind} {region : Region}
    (h : openedBy? adm c = some (kind, region))
    : (c = '{' ∧ adm.allows .codeBlockStart ∧ kind = .codeBlockStart ∧ region = .brace)
        ∨ (c = '(' ∧ adm.allows .expressionStart ∧ kind = .expressionStart ∧ region = .paren) := by
  unfold openedBy? at h
  split at h
  · next hbrace =>
    cases h
    exact .inl ⟨hbrace.1, hbrace.2, rfl, rfl⟩
  · split at h
    · next hparen =>
      cases h
      exact .inr ⟨hparen.1, hparen.2, rfl, rfl⟩
    · contradiction

theorem opening?_cons (adm : Admissible) (c : Char) (rest : List Char)
    : opening? adm (c :: rest)
        =
      (openedBy? adm c).map fun (kind, region) => (kind, region, rest) := by
  unfold opening? openedBy?
  split
  · next heq =>
    cases heq
    split
    · next hallowed => simp [hallowed]
    · next hallowed => simp [hallowed]
  · next heq =>
    cases heq
    split
    · next hallowed => simp [hallowed]
    · next hallowed => simp [hallowed]
  · next hbrace hparen =>
    rw [if_neg, if_neg]
    · rfl
    · rintro ⟨rfl, _⟩
      exact hparen rest rfl
    · rintro ⟨rfl, _⟩
      exact hbrace rest rfl

theorem regionStart_of_at (adm : Admissible) (h : p.ahead = '@' :: rest)
    : regionStart adm p
        =
      if adm.allows .codeBlockStart || adm.allows .expressionStart then
        match opening? adm rest with
        | some (kind, region, rest) => .emit kind ((p.moveTo rest).enter region)
        | none => .refuse .strayAt (p.moveTo rest)
      else
        .pass p := by
  unfold regionStart
  rw [h]
  rfl

theorem regionStart_of_not_at (adm : Admissible) (h : p.ahead.head? ≠ some '@')
    : regionStart adm p = .pass p := by
  unfold regionStart
  split
  · next heq => exact absurd heq (ne_cons_of_head?_ne_some h)
  · rfl

theorem blockOpen_of_brace (h : p.skipBlanks.ahead = '{' :: rest)
    : blockOpen p = .emit .blockOpen ((p.skipBlanks.moveTo rest).enter .brace) := by
  unfold blockOpen
  dsimp only
  rw [h]
  rfl

theorem blockOpen_of_not_brace (h : p.skipBlanks.ahead.head? ≠ some '{')
    : blockOpen p = .pass p.skipBlanks := by
  unfold blockOpen
  dsimp only
  split
  · next heq => exact absurd heq (ne_cons_of_head?_ne_some h)
  · rfl

theorem regionClose_of_cons {c : Char} (h : p.skipBlanks.ahead = c :: rest)
    : regionClose p
        =
      match p.nesting.close? c with
      | some (_, outer) => .emit .regionClose { p.skipBlanks.moveTo rest with nesting := outer }
      | none => .pass p.skipBlanks := by
  unfold regionClose
  dsimp only
  rw [h]
  rfl

theorem regionClose_of_nil (h : p.skipBlanks.ahead = []) : regionClose p = .pass p.skipBlanks := by
  unfold regionClose
  dsimp only
  rw [h]

theorem comment_of_slash (h : p.ahead = '/' :: rest)
    : comment p
        =
      if rest.head? = some '/' then
        .emit .comment (p.moveTo (Trivia.afterLine rest.tail))
      else if rest.head? = some '*' then
        .emit .comment (p.moveTo (Trivia.afterBlock rest.tail))
      else
        .refuse .straySlash (p.moveTo rest) := by
  unfold comment
  rw [h]
  split
  · next heq =>
    cases heq
    rfl
  · next heq =>
    cases heq
    rfl
  · next hline hblock heq =>
    cases heq
    rw [if_neg, if_neg]
    · exact head?_ne_some_of_ne_cons fun rest' heq => hblock rest' (by rw [heq])
    · exact head?_ne_some_of_ne_cons fun rest' heq => hline rest' (by rw [heq])
  · next hslash => exact absurd rfl (hslash rest)

theorem comment_of_not_slash (h : p.ahead.head? ≠ some '/') : comment p = .pass p := by
  unfold comment
  split
  · next heq => exact absurd heq (ne_cons_of_head?_ne_some h)
  · next heq => exact absurd heq (ne_cons_of_head?_ne_some h)
  · next heq => exact absurd heq (ne_cons_of_head?_ne_some h)
  · rfl

theorem directive_of_hash (h : p.ahead = '#' :: rest)
    : directive p
        =
      .emit .directive (p.moveTo (Trivia.afterNewline (Trivia.afterLine rest))) := by
  unfold directive
  rw [h]
  rfl

theorem directive_of_not_hash (h : p.ahead.head? ≠ some '#') : directive p = .pass p := by
  unfold directive
  split
  · next heq => exact absurd heq (ne_cons_of_head?_ne_some h)
  · rfl

theorem verbatim_of_nil (e : RawElement) (h : p.ahead = [])
    : verbatim e p = .refuse (.emptyBody e) p := by
  unfold verbatim
  rw [h]

theorem verbatim_of_angle (e : RawElement) (h : p.ahead = '<' :: rest)
    : verbatim e p = .refuse (.markupBody e) p := by
  unfold verbatim
  rw [h]
  rfl

theorem verbatim_of_ne_angle (e : RawElement) {c : Char} (h : p.ahead = c :: rest) (hc : c ≠ '<')
    : verbatim e p
        =
      match Verbatim.findClosing? e.letters (c :: rest) with
      | some (closing, behind) => .emit (.rawText e) ((p.moveTo behind).markAt closing)
      | none => .emit (.rawText e) ((p.moveTo []).markAt []) := by
  unfold verbatim
  rw [h]
  split
  · next heq => contradiction
  · next heq =>
    cases heq
    contradiction
  · rfl

end Rule
end RazorTokens
