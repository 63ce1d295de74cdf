import RazorTokens.Cursor

/-!
This module relates byte offsets to places in a text. A place is given by what lies before it and
what lies ahead of it, and the offset of the place is the size of what lies before.
-/

namespace RazorTokens

theorem byteSize_pos {s : List Char} (h : s ≠ []) : 0 < byteSize s := by
  cases s with
  | nil => contradiction
  | cons c s =>
    have := c.utf8Size_pos
    simp only [byteSize_cons]
    omega

theorem byteSize_le_of_suffix {s t : List Char} (h : s <:+ t) : byteSize s ≤ byteSize t := by
  rcases h with ⟨front, rfl⟩
  simp

theorem exists_append_of_byteSize_le {s t s' t' : List Char} (h : s ++ t = s' ++ t')
    (hle : byteSize s ≤ byteSize s')
    : ∃ between, s' = s ++ between ∧ t = between ++ t' := by
  rcases List.append_eq_append_iff.mp h with hlonger | ⟨between, rfl, rfl⟩
  · exact hlonger
  · -- What is left of the longer text takes no bytes.
    cases between with
    | nil => exact ⟨[], by simp, rfl⟩
    | cons c between =>
      have := c.utf8Size_pos
      simp only [byteSize_append, byteSize_cons] at hle
      omega

theorem eq_and_eq_of_byteSize_eq {s t s' t' : List Char} (h : s ++ t = s' ++ t')
    (heq : byteSize s = byteSize s')
    : s = s' ∧ t = t' := by
  rcases exists_append_of_byteSize_le h (by omega) with ⟨between, rfl, rfl⟩
  cases between with
  | nil => simp
  | cons c between =>
    have := c.utf8Size_pos
    simp only [byteSize_append, byteSize_cons] at heq
    omega

theorem exists_split_of_byteSize {before text rest front back : List Char} {c : Char}
    (h : before ++ (text ++ rest) = front ++ c :: back) (hle : byteSize before ≤ byteSize front)
    (hlt : byteSize front < byteSize before + byteSize text)
    : ∃ u v, front = before ++ u ∧ text = u ++ c :: v ∧ back = v ++ rest := by
  rcases exists_append_of_byteSize_le h hle with ⟨u, rfl, hrest⟩
  simp only [byteSize_append] at hlt
  rcases exists_append_of_byteSize_le hrest.symm (by omega) with ⟨tail, rfl, htail⟩
  cases tail with
  | nil =>
    simp only [List.append_nil] at hlt
    omega
  | cons d v =>
    injection htail with hc hback
    subst hc
    exact ⟨u, v, rfl, rfl, hback⟩

theorem dropBytes?_utf8Size_add (c : Char) (n : Nat) (s : List Char)
    : dropBytes? (c.utf8Size + n) (c :: s) = dropBytes? n s := by
  have hpos := c.utf8Size_pos
  cases hsize : c.utf8Size + n with
  | zero => omega
  | succ m =>
    have hrest : m + 1 - c.utf8Size = n := by omega
    rw [dropBytes?, if_pos (by omega), hrest]

theorem takeBytes?_utf8Size_add (c : Char) (n : Nat) (s : List Char)
    : takeBytes? (c.utf8Size + n) (c :: s) = (takeBytes? n s).map (c :: ·) := by
  have hpos := c.utf8Size_pos
  cases hsize : c.utf8Size + n with
  | zero => omega
  | succ m =>
    have hrest : m + 1 - c.utf8Size = n := by omega
    rw [takeBytes?, if_pos (by omega), hrest]

theorem dropBytes?_append (s t : List Char) : dropBytes? (byteSize s) (s ++ t) = some t := by
  induction s with
  | nil => simp [dropBytes?]
  | cons c s ih =>
    rw [byteSize_cons, List.cons_append]
    rw [dropBytes?_utf8Size_add]
    exact ih

theorem takeBytes?_append (s t : List Char) : takeBytes? (byteSize s) (s ++ t) = some s := by
  induction s with
  | nil => simp [takeBytes?]
  | cons c s ih =>
    rw [byteSize_cons, List.cons_append]
    rw [takeBytes?_utf8Size_add]
    rw [ih]
    rfl

theorem eq_append_of_takeBytes? {n : Nat} {s t : List Char} (h : takeBytes? n s = some t)
    : ∃ rest, s = t ++ rest ∧ byteSize t = n := by
  fun_induction takeBytes? n s generalizing t with
  | case1 s =>
    cases h
    exact ⟨s, rfl, rfl⟩
  | case2 => contradiction
  | case3 n c s hle ih =>
    rw [Option.map_eq_some_iff] at h
    rcases h with ⟨t, ht, rfl⟩
    rcases ih ht with ⟨rest, rfl, hsize⟩
    refine ⟨rest, rfl, ?_⟩
    rw [byteSize_cons, hsize]
    omega
  | case4 => contradiction

namespace Span

theorem textIn?_append (before text rest : List Char)
    : textIn? ⟨byteSize before, byteSize before + byteSize text⟩ (before ++ (text ++ rest))
        =
      some text := by
  unfold textIn? length?
  dsimp only
  rw [if_pos (by omega), Nat.add_sub_cancel_left]
  simp only [Option.bind_eq_bind, Option.bind_some]
  rw [dropBytes?_append, Option.bind_some, takeBytes?_append]

theorem eq_append_of_textIn?_append {before ahead text : List Char} {size : Nat}
    (h : textIn? ⟨byteSize before, byteSize before + size⟩ (before ++ ahead) = some text)
    : ∃ rest, ahead = text ++ rest ∧ byteSize text = size := by
  unfold textIn? length? at h
  dsimp only at h
  rw [if_pos (by omega), Nat.add_sub_cancel_left] at h
  simp only [Option.bind_eq_bind, Option.bind_some] at h
  rw [dropBytes?_append, Option.bind_some] at h
  exact eq_append_of_takeBytes? h

end Span

def charAt? (source : List Char) (n : Nat) : Option Char :=
  (dropBytes? n source).bind List.head?

theorem charAt?_append (before ahead : List Char)
    : charAt? (before ++ ahead) (byteSize before) = ahead.head? := by
  unfold charAt?
  rw [dropBytes?_append]
  rfl

def IsBoundary (source : List Char) (n : Nat) : Prop :=
  ∃ before ahead, source = before ++ ahead ∧ byteSize before = n

namespace Cursor

def InText (cur : Cursor) : Prop :=
  cur.ahead <:+ cur.source

theorem offset_of_append {cur : Cursor} {before rest : List Char}
    (h : before ++ rest = cur.source)
    : cur.offset rest = byteSize before := by
  unfold offset
  rw [← h, byteSize_append]
  omega

theorem textOf?_of_append {cur : Cursor} {before text rest : List Char}
    (h : before ++ (text ++ rest) = cur.source)
    : cur.textOf? ⟨cur.offset (text ++ rest), cur.offset rest⟩ = some text := by
  rw [offset_of_append h]
  rw [← List.append_assoc] at h
  rw [offset_of_append h]
  unfold textOf?
  rw [← h, byteSize_append, List.append_assoc]
  apply Span.textIn?_append

variable {cur : Cursor} {s t : List Char}

theorem isBoundary_offset (h : s <:+ cur.source) : IsBoundary cur.source (cur.offset s) := by
  rcases h with ⟨before, hsource⟩
  exact ⟨before, s, hsource.symm, (offset_of_append hsource).symm⟩

theorem offset_le (cur : Cursor) (s : List Char) : cur.offset s ≤ byteSize cur.source := by
  unfold offset
  omega

theorem offset_le_offset (h : s <:+ t) : cur.offset t ≤ cur.offset s := by
  have := byteSize_le_of_suffix h
  unfold offset
  omega

theorem offset_lt_offset_append (hs : s ≠ []) (h : s ++ t <:+ cur.source)
    : cur.offset (s ++ t) < cur.offset t := by
  have hpos := byteSize_pos hs
  have hle := byteSize_le_of_suffix h
  simp only [byteSize_append] at hle
  unfold offset
  simp only [byteSize_append]
  omega

theorem tokenSpan_markAt {text rest : List Char} (ahead : List Char) (hcur : cur.InText)
    (h : cur.ahead = text ++ rest)
    : ((cur.restart.moveTo ahead).markAt rest).tokenSpan
        =
      ⟨cur.pos, cur.pos + byteSize text⟩ := by
  rcases hcur with ⟨before, hsource⟩
  have hpos : cur.pos = byteSize before := offset_of_append hsource
  have hstop : cur.offset rest = byteSize before + byteSize text := by
    rw [← byteSize_append]
    apply offset_of_append
    rw [List.append_assoc, ← h]
    exact hsource
  have hspan : ((cur.restart.moveTo ahead).markAt rest).tokenSpan
      = ⟨min cur.pos (cur.offset rest), cur.offset rest⟩ := rfl
  rw [hspan, hstop, hpos, Nat.min_eq_left (by omega)]

theorem tokenSpan_of_skipped {skipped token rest : List Char} (hcur : cur.InText)
    (h : cur.ahead = skipped ++ (token ++ rest))
    : tokenSpan { cur.restart with ahead := rest, start := token ++ rest }
        =
      ⟨cur.pos + byteSize skipped, cur.pos + byteSize skipped + byteSize token⟩ := by
  rcases hcur with ⟨before, hsource⟩
  have hpos : cur.pos = byteSize before := offset_of_append hsource
  have hstart : cur.offset (token ++ rest) = byteSize before + byteSize skipped := by
    rw [← byteSize_append]
    apply offset_of_append
    rw [List.append_assoc, ← h]
    exact hsource
  have hstop : cur.offset rest = byteSize before + byteSize skipped + byteSize token := by
    rw [← byteSize_append, ← byteSize_append]
    apply offset_of_append
    rw [List.append_assoc, List.append_assoc, ← h]
    exact hsource
  have hspan : tokenSpan { cur.restart with ahead := rest, start := token ++ rest }
      = ⟨min (cur.offset (token ++ rest)) (cur.offset rest), cur.offset rest⟩ := rfl
  rw [hspan, hstart, hstop, hpos, Nat.min_eq_left (by omega)]

end Cursor
end RazorTokens
