import RazorTokens.Proofs.Normalisation

/-!
This module is about snapshots that were cut short. A scanner that loads one has no region open, and
its embedded scanner gets what is left of the blob. The scanner of the code language then has those
records that were not cut.
-/

namespace RazorTokens

namespace Blob

theorem split_of_size?_none {bytes : Bytes} (h : size? bytes = none)
    : split bytes = (bytes, []) := by
  unfold split
  rw [h]
  simp

theorem split_of_length_le {bytes : Bytes} {size : Nat} (h : size? bytes = some size)
    (hle : bytes.length ≤ size)
    : split bytes = (bytes, []) := by
  unfold split
  rw [h, List.splitAt_eq, Option.getD_some]
  rw [List.take_of_length_le hle, List.drop_of_length_le hle]

theorem split_take {blob : Bytes} (h : size? blob = some blob.length) (rest : Bytes) (k : Nat)
    : split ((blob ++ rest).take k) = (blob.take k, rest.take (k - blob.length)) := by
  rw [List.take_append]
  by_cases hk : k ≤ blob.length
  · have hrest : k - blob.length = 0 := by omega
    rw [hrest, List.take_zero, List.append_nil]
    -- A cut header announces nothing, and a whole one announces more than is left.
    by_cases htwo : 2 ≤ k
    · apply split_of_length_le
      · rw [size?_take htwo]
        exact h
      · rw [List.length_take]
        omega
    · apply split_of_size?_none
      unfold size?
      rw [List.getElem?_take_eq_none (by omega)]
      rfl
  · rw [List.take_of_length_le (by omega), split_append h]

end Blob

theorem Snapshot.nestingOf_take {n : Nesting} (hdepth : n.depth ≤ 255) {k : Nat}
    (hk : k < 1 + n.depth)
    : (nestingOf ((nestingBytes n).take k)).toOption.getD ∅ = ∅ := by
  cases k with
  | zero => rfl
  | succ k =>
    have hbyte : (UInt8.ofNat n.depth).toNat = n.depth :=
      UInt8.toNat_ofNat_of_lt' (Nat.lt_succ_of_le hdepth)
    unfold nestingBytes
    rw [List.take_succ_cons]
    unfold nestingOf
    dsimp only
    rw [hbyte, if_pos]
    · rfl
    · simp
      omega

namespace Interpolation

theorem listOfBytes_take (is : List Interpolation) (k : Nat)
    : listOfBytes ((listToBytes is).take k) = is.take (k / Blob.recordSize) := by
  unfold Blob.recordSize
  induction is generalizing k with
  | nil => simp [listToBytes, listOfBytes]
  | cons i is ih =>
    have hcons : listToBytes (i :: is)
        = i.openBraces :: i.quotes :: i.dollars :: i.form :: listToBytes is := rfl
    rw [hcons]
    rcases k with _ | _ | _ | _ | k
    · rfl
    · rfl
    · rfl
    · rfl
    · have hdiv : (k + 4) / 4 = k / 4 + 1 := by omega
      rw [hdiv]
      simp only [List.take_succ_cons, listOfBytes]
      rw [ih]

end Interpolation

namespace CodeState

/--
The records that lie completely in the first `k` bytes of the blob. There are two bytes before the
first record, and each record has four.
-/
def recordsWithin (s : CodeState) (k : Nat) : List Interpolation :=
  (s.interpolations.zipIdx.filter fun record => 2 + 4 * record.2 + 4 ≤ k).map Prod.fst

theorem map_filter_zipIdx {α : Type} (as : List α) (first count : Nat)
    : ((as.zipIdx first).filter (·.2 < count)).map Prod.fst = as.take (count - first) := by
  induction as generalizing first with
  | nil => simp
  | cons a as ih =>
    rw [List.zipIdx_cons, List.filter_cons]
    split
    · next hlt =>
      have hcount : count - first = count - (first + 1) + 1 := by
        simp at hlt
        omega
      rw [hcount, List.map_cons, ih, List.take_succ_cons]
    · next hge =>
      have hcount : count - first = 0 := by
        simp at hge
        omega
      have hnext : count - (first + 1) = 0 := by omega
      rw [ih, hcount, hnext, List.take_zero, List.take_zero]

theorem recordsWithin_eq_take (s : CodeState) (k : Nat)
    : s.recordsWithin k = s.interpolations.take ((k - 2) / 4) := by
  have hwithin : (fun record : Interpolation × Nat => decide (2 + 4 * record.2 + 4 ≤ k))
      = fun record => decide (record.2 < (k - 2) / 4) := by
    funext record
    rw [decide_eq_decide]
    omega
  unfold recordsWithin
  rw [hwithin, map_filter_zipIdx, Nat.sub_zero]

theorem ofBytes_take {s : CodeState} (hcount : s.interpolations.length ≤ 255) (k : Nat)
    : ofBytes (s.toBytes.take k) = ⟨if k = 0 then 0 else s.quotes, s.recordsWithin k⟩ := by
  rw [recordsWithin_eq_take]
  match k with
  | 0 => rfl
  | 1 => rfl
  | k + 2 =>
    have hsize := size?_toBytes_append s hcount []
    rw [List.append_nil, ← Blob.size?_take (n := k + 2) (by omega)] at hsize
    have hwhole : (s.toBytes.take (k + 2)).take s.size = s.toBytes.take (k + 2) := by
      apply List.take_of_length_le
      rw [List.length_take, length_toBytes]
      omega
    have hblob : s.toBytes.take (k + 2)
        = s.quotes :: UInt8.ofNat s.interpolations.length
            :: (Interpolation.listToBytes s.interpolations).take k := rfl
    unfold ofBytes
    rw [hsize]
    dsimp only
    rw [hwhole, hblob]
    have hrecords := Interpolation.listOfBytes_take s.interpolations k
    exact congrArg (CodeState.mk s.quotes) hrecords

end CodeState

namespace Scanner

theorem Saves.fits_length {sc : Scanner CodeState} {buffer : Bytes} (h : sc.Saves buffer)
    : sc.Fits buffer.length := by
  -- A state that does not fit reports no bytes at all, and no header announces that.
  have hfits : sc.embedded.fits buffer.length := by
    apply Decidable.byContradiction
    intro hnot
    have hsave : Embedded.save sc.embedded buffer = ⟨0, buffer⟩ := if_neg hnot
    have htwo := Blob.two_le_of_size? h.framed
    rw [hsave] at htwo
    contradiction
  have hsave : Embedded.save sc.embedded buffer = _ := CodeState.save_of_fits hfits
  have hroom := h.fits
  rw [hsave] at hroom
  unfold CodeState.fits at hfits
  rw [Bool.and_eq_true, decide_eq_true_iff] at hfits
  exact ⟨hfits.1, h.depth_le, hroom⟩

namespace Saves

variable {σ τ : Type} [Embedded σ] [Embedded τ] {sc : Scanner σ} {buffer : Bytes}
variable (h : sc.Saves buffer)
include h

theorem take_min_bytes_save (k : Nat)
    : (sc.save buffer).1.bytes.take (min k (Embedded.save sc.embedded buffer).size)
        =
      (Embedded.save sc.embedded buffer).bytes.take k := by
  rw [h.bytes_save, ← h.length_blob]
  rw [List.take_append_of_le_length (Nat.min_le_right ..), ← List.take_eq_take_min]

theorem load_take (other : Scanner τ) {k : Nat} (hk : k < (sc.save buffer).1.bytes.length)
    : (other.load ((sc.save buffer).1.bytes.take k)).1
        =
      ⟨Embedded.load other.embedded ((Embedded.save sc.embedded buffer).bytes.take k), ∅⟩ := by
  rw [h.bytes_save, List.length_append, Snapshot.length_nestingBytes] at hk
  rw [h.bytes_save, fst_load, Blob.split_take h.size?_blob]
  rw [Snapshot.nestingOf_take h.depth_le (by omega)]

end Saves

/--
A snapshot that was cut short never brings back a part of the nesting: no region is open, whatever
was open before. The embedded scanner gets the first bytes of the blob, as far as they are left. For
the scanner of the code language these are the number of quotation marks and all records that were
not cut.
-/
theorem load_of_truncated (sc : Scanner CodeState) (buffer : Bytes) {k : Nat}
    (hsaved : (sc.save buffer).1.size ≠ 0) (hk : k < (sc.save buffer).1.bytes.length)
    : let bytes := (sc.save buffer).1.bytes
      let blobSize := (Embedded.save sc.embedded buffer).size
      (∀ (τ : Type) [Embedded τ] (other : Scanner τ),
          (other.load (bytes.take k)).1
            = ⟨Embedded.load other.embedded (bytes.take (min k blobSize)), ∅⟩)
        ∧ ∀ other : Scanner CodeState,
            let state := (other.load (bytes.take k)).1.embedded
            (k = 0 → state.quotes = 0)
              ∧ (0 < k → bytes[0]? = some state.quotes)
              ∧ state.interpolations = sc.embedded.recordsWithin k := by
  intro bytes blobSize
  have hsaves := saves_of_size_save_ne_zero hsaved
  have hfits := hsaves.fits_length
  constructor
  · intro τ _ other
    rw [hsaves.take_min_bytes_save]
    exact hsaves.load_take other hk
  · intro other state
    have hblob : (Embedded.save sc.embedded buffer).bytes = sc.embedded.toBytes :=
      CodeState.bytes_save hfits.embedded_fits
    have hstate : state
        = ⟨if k = 0 then 0 else sc.embedded.quotes, sc.embedded.recordsWithin k⟩ := by
      rw [← CodeState.ofBytes_take hfits.records, ← hblob]
      exact congrArg Scanner.embedded (hsaves.load_take other hk)
    rw [hstate]
    refine ⟨?_, ?_, rfl⟩
    · intro hzero
      exact if_pos hzero
    · intro hpos
      dsimp only [bytes]
      rw [if_neg (by omega), hfits.bytes_save]
      rfl

theorem load_of_truncated_inside_record
    : let sc : Scanner CodeState := ⟨⟨3, [⟨1, 2, 3, 4⟩, ⟨5, 6, 7, 8⟩]⟩, ⟨[.paren, .brace]⟩⟩
      let bytes := (sc.save (List.replicate 20 255)).1.bytes
      bytes = [3, 2, 1, 2, 3, 4, 5, 6, 7, 8, 2, 1, 2]
        ∧ ∀ other : Scanner CodeState,
            (other.load (bytes.take 12)).1 = ⟨sc.embedded, ∅⟩
              ∧ (other.load (bytes.take 9)).1.nesting = ∅
              ∧ (other.load (bytes.take 9)).1.embedded.interpolations = [⟨1, 2, 3, 4⟩] := by
  intro sc bytes
  have htag := load_of_truncated sc (List.replicate 20 255) (k := 12) (by decide) (by decide)
  have hrecord := load_of_truncated sc (List.replicate 20 255) (k := 9) (by decide) (by decide)
  refine ⟨by decide, ?_⟩
  intro other
  refine ⟨?_, ?_, ?_⟩
  · rw [htag.1]
    rfl
  · rw [hrecord.1]
  · rw [(hrecord.2 other).2.2]
    rfl

end Scanner
end RazorTokens
