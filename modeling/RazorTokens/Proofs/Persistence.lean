import RazorTokens.Embedded.CodeState
import RazorTokens.Scanner

/-!
This module contains the theory of saved scanners. Whatever the embedded scanner writes and reports,
a snapshot that comes about is read back exactly: the embedded scanner gets its own blob, and the
nesting is the saved one. For the scanner of the code language the blob gives back the whole state.
-/

namespace RazorTokens

namespace Blob

theorem size?_eq_some_iff {bytes : Bytes} {size : Nat}
    : size? bytes = some size ↔ ∃ count, bytes[1]? = some count ∧ size = 2 + 4 * count.toNat := by
  unfold size? headerSize recordSize
  rw [Option.map_eq_some_iff]
  constructor
  · rintro ⟨count, hcount, hsize⟩
    exact ⟨count, hcount, hsize.symm⟩
  · rintro ⟨count, hcount, hsize⟩
    exact ⟨count, hcount, hsize.symm⟩

theorem two_le_of_size? {bytes : Bytes} {size : Nat} (h : size? bytes = some size) : 2 ≤ size := by
  rw [size?_eq_some_iff] at h
  rcases h with ⟨count, _, hsize⟩
  omega

theorem size?_take {bytes : Bytes} {n : Nat} (h : 2 ≤ n) : size? (bytes.take n) = size? bytes := by
  unfold size?
  rw [List.getElem?_take_of_lt]
  omega

theorem size?_take_getD_eq_iff {bytes : Bytes} {n : Nat} (hn : n ≠ 0)
    : (size? (bytes.take n)).getD 0 = n ↔ size? bytes = some n := by
  -- The header is read from the reported bytes only. A report of one byte cuts it, but no header
  -- frames a single byte either, so that reading it from the whole buffer makes no difference.
  constructor
  · intro h
    cases hs : size? (bytes.take n) with
    | none =>
      rw [hs] at h
      dsimp at h
      omega
    | some size =>
      rw [hs] at h
      dsimp at h
      have := two_le_of_size? hs
      rw [size?_take (by omega)] at hs
      rw [hs, h]
  · intro h
    have := two_le_of_size? h
    rw [size?_take this, h]
    rfl

theorem split_append {blob : Bytes} (h : size? blob = some blob.length) (rest : Bytes)
    : split (blob ++ rest) = (blob, rest) := by
  have hlen := two_le_of_size? h
  have hsize : size? (blob ++ rest) = some blob.length := by
    unfold size? at h ⊢
    rw [List.getElem?_append_left (by omega)]
    exact h
  unfold split
  rw [hsize]
  simp

end Blob

namespace Snapshot

theorem length_nestingBytes (n : Nesting) : (nestingBytes n).length = 1 + n.depth := by
  unfold nestingBytes
  simp
  omega

/--
From `start` on there is a byte for each open region, the outermost first: 1 for a brace and 2 for a
parenthesis.
-/
def TagsAt (n : Nesting) (bytes : Bytes) (start : Nat) : Prop :=
  ∀ i r, n.regions.reverse[i]? = some r → bytes[start + i]? = some (if r = .brace then 1 else 2)

theorem tagsAt_of_nestingBytes {n : Nesting} {bytes : Bytes} {start : Nat}
    (h : ∀ i < 1 + n.depth, bytes[start + i]? = (nestingBytes n)[i]?)
    : TagsAt n bytes (start + 1) := by
  intro i r hr
  have hi : i < n.depth := by
    have hlength := (List.getElem?_eq_some_iff.mp hr).1
    rw [List.length_reverse] at hlength
    exact hlength
  have hbyte := h (1 + i) (by omega)
  rw [← Nat.add_assoc, Nat.add_comm 1 i] at hbyte
  unfold nestingBytes Nesting.toOutermost at hbyte
  rw [List.getElem?_cons_succ, List.getElem?_map, hr] at hbyte
  rw [hbyte]
  cases r <;> rfl

theorem regionsOf_map_toByte (rs : List Region)
    : regionsOf (rs.map Region.toByte) = .ok rs := by
  induction rs with
  | nil => rfl
  | cons r rs ih =>
    rw [List.map_cons]
    unfold regionsOf
    rw [Region.ofByte?_toByte, ih]
    rfl

theorem nestingOf_nestingBytes_append (n : Nesting) (hdepth : n.depth ≤ 255) (junk : Bytes)
    : nestingOf (nestingBytes n ++ junk) = .ok n := by
  have hbyte : (UInt8.ofNat n.depth).toNat = n.depth := by
    rw [UInt8.toNat_ofNat']
    omega
  unfold nestingBytes
  rw [List.cons_append]
  unfold nestingOf
  dsimp only
  rw [hbyte]
  split
  · next hlt =>
    rw [List.length_append, List.length_map, Nesting.length_toOutermost] at hlt
    omega
  · have htake : ((n.toOutermost.map Region.toByte) ++ junk).take n.depth
        = n.toOutermost.map Region.toByte := by
      apply List.take_left'
      simp
    rw [htake, regionsOf_map_toByte]
    simp [Except.map]

theorem size_eq_ok_iff {buffer : Bytes} {blobSize needed : Nat} {n : Nesting}
    : size buffer blobSize n = .ok needed
        ↔
      n.depth ≤ 255 ∧ Blob.size? buffer = some blobSize ∧ needed = blobSize + 1 + n.depth
        ∧ needed ≤ buffer.length := by
  unfold size
  dsimp
  constructor
  · intro h
    split at h
    · contradiction
    · split at h
      · contradiction
      · next hzero =>
        split at h
        · contradiction
        · next hframed =>
          split at h
          · contradiction
          · rw [Decidable.not_not, Blob.size?_take_getD_eq_iff hzero] at hframed
            injection h with h
            refine ⟨?_, hframed, ?_, ?_⟩ <;> omega
  · rintro ⟨hdepth, hframed, hneeded, hroom⟩
    have htwo := Blob.two_le_of_size? hframed
    rw [if_neg (by omega), if_neg (by omega)]
    rw [if_neg]
    · rw [if_neg (by omega), hneeded]
    · rw [Decidable.not_not, Blob.size?_take_getD_eq_iff (by omega)]
      exact hframed

end Snapshot

namespace CodeState

theorem size?_toBytes_append (s : CodeState) (hcount : s.interpolations.length ≤ 255) (rest : Bytes)
    : Blob.size? (s.toBytes ++ rest) = some s.size := by
  rw [Blob.size?_eq_some_iff]
  refine ⟨UInt8.ofNat s.interpolations.length, rfl, ?_⟩
  rw [UInt8.toNat_ofNat']
  unfold size Blob.headerSize Blob.recordSize
  omega

theorem ofBytes_toBytes (s : CodeState) (hcount : s.interpolations.length ≤ 255)
    : ofBytes s.toBytes = s := by
  have hsize := size?_toBytes_append s hcount []
  rw [List.append_nil] at hsize
  have htake : s.toBytes.take s.size = s.toBytes := by
    apply List.take_of_length_le
    exact Nat.le_of_eq (length_toBytes s)
  unfold ofBytes
  rw [hsize]
  dsimp only
  rw [htake]
  unfold toBytes
  simp [Blob.headerSize]

theorem save_of_fits {s : CodeState} {buffer : Bytes} (h : s.fits buffer.length)
    : s.save buffer = ⟨s.size, s.toBytes ++ buffer.drop s.size⟩ := by
  unfold save
  rw [if_pos h]

theorem bytes_save {s : CodeState} {buffer : Bytes} (h : s.fits buffer.length)
    : (s.save buffer).bytes = s.toBytes := by
  rw [save_of_fits h]
  apply List.take_left'
  exact length_toBytes s

end CodeState

namespace Scanner

variable {σ : Type} [Embedded σ]

theorem fst_load (sc : Scanner σ) (bytes : Bytes)
    : (sc.load bytes).1
        =
      ⟨Embedded.load sc.embedded (Blob.split bytes).1,
        (Snapshot.nestingOf (Blob.split bytes).2).toOption.getD ∅⟩ := by
  unfold load
  dsimp only
  cases Snapshot.nestingOf (Blob.split bytes).2 with
  | ok nesting => rfl
  | error fault => rfl

theorem load_append (sc : Scanner σ) {blob : Bytes} (hblob : Blob.size? blob = some blob.length)
    (n : Nesting) (hdepth : n.depth ≤ 255)
    : sc.load (blob ++ Snapshot.nestingBytes n) = (⟨Embedded.load sc.embedded blob, n⟩, []) := by
  have hnesting := Snapshot.nestingOf_nestingBytes_append n hdepth []
  rw [List.append_nil] at hnesting
  unfold load
  rw [Blob.split_append hblob]
  dsimp
  rw [hnesting]

structure Saves (sc : Scanner σ) (buffer : Bytes) : Prop where
  depth_le : sc.nesting.depth ≤ 255
  framed : Blob.size? (Embedded.save sc.embedded buffer).buffer
    = some (Embedded.save sc.embedded buffer).size
  fits : (Embedded.save sc.embedded buffer).size + 1 + sc.nesting.depth ≤ buffer.length

theorem size_eq_ok_iff_saves {sc : Scanner σ} {buffer : Bytes} {needed : Nat}
    : Snapshot.size (Embedded.save sc.embedded buffer).buffer
        (Embedded.save sc.embedded buffer).size sc.nesting = .ok needed
        ↔
      sc.Saves buffer
        ∧ needed = (Embedded.save sc.embedded buffer).size + 1 + sc.nesting.depth := by
  rw [Snapshot.size_eq_ok_iff, Embedded.length_save]
  constructor
  · rintro ⟨hdepth, hframed, hneeded, hroom⟩
    exact ⟨⟨hdepth, hframed, by omega⟩, hneeded⟩
  · rintro ⟨⟨hdepth, hframed, hroom⟩, hneeded⟩
    exact ⟨hdepth, hframed, hneeded, by omega⟩

theorem save_of_saves {sc : Scanner σ} {buffer : Bytes} (h : sc.Saves buffer)
    : sc.save buffer
        =
      (⟨(Embedded.save sc.embedded buffer).size + 1 + sc.nesting.depth,
        (Embedded.save sc.embedded buffer).bytes ++ Snapshot.nestingBytes sc.nesting
          ++ (Embedded.save sc.embedded buffer).buffer.drop
              ((Embedded.save sc.embedded buffer).size + 1 + sc.nesting.depth)⟩, []) := by
  have hsize := size_eq_ok_iff_saves.mpr ⟨h, rfl⟩
  unfold save Snapshot.write
  dsimp only
  rw [hsize]
  rfl

theorem saves_of_size_save_ne_zero {sc : Scanner σ} {buffer : Bytes}
    (h : (sc.save buffer).1.size ≠ 0)
    : sc.Saves buffer := by
  cases hsize : Snapshot.size (Embedded.save sc.embedded buffer).buffer
      (Embedded.save sc.embedded buffer).size sc.nesting with
  | ok needed => exact (size_eq_ok_iff_saves.mp hsize).1
  | error fault =>
    unfold save Snapshot.write at h
    dsimp only at h
    rw [hsize] at h
    contradiction

namespace Saves

variable {sc : Scanner σ} {buffer : Bytes} (h : sc.Saves buffer)
include h

theorem length_blob
    : (Embedded.save sc.embedded buffer).bytes.length = (Embedded.save sc.embedded buffer).size := by
  have hfits := h.fits
  unfold Saved.bytes
  rw [List.length_take, Embedded.length_save]
  omega

theorem size?_blob
    : Blob.size? (Embedded.save sc.embedded buffer).bytes
        =
      some (Embedded.save sc.embedded buffer).bytes.length := by
  rw [h.length_blob]
  unfold Saved.bytes
  rw [Blob.size?_take (Blob.two_le_of_size? h.framed)]
  exact h.framed

theorem bytes_save
    : (sc.save buffer).1.bytes
        =
      (Embedded.save sc.embedded buffer).bytes ++ Snapshot.nestingBytes sc.nesting := by
  rw [save_of_saves h]
  apply List.take_left'
  rw [List.length_append, h.length_blob, Snapshot.length_nestingBytes]
  dsimp only
  omega

theorem load_save (other : Scanner σ)
    : other.load (sc.save buffer).1.bytes
        =
      (⟨Embedded.load other.embedded (Embedded.save sc.embedded buffer).bytes, sc.nesting⟩, []) := by
  rw [h.bytes_save]
  rw [load_append]
  · exact h.size?_blob
  · exact h.depth_le

end Saves

/--
Saving is safe whatever bytes the embedded scanner writes and whatever size it reports. A scanner
that was saved is loaded with exactly the reported bytes as its blob and with its own nesting, and a
report that contradicts the header of the blob saves nothing.
-/
theorem load_save_of_any_embedded (sc : Scanner σ) (buffer : Bytes)
    : let blob := Embedded.save sc.embedded buffer
      let saved := (sc.save buffer).1
      (saved.size ≠ 0 →
        (∃ count, blob.buffer[1]? = some count ∧ blob.size = 2 + 4 * count.toNat)
          ∧ saved.size = blob.size + 1 + sc.nesting.depth
          ∧ saved.size ≤ buffer.length
          ∧ saved.buffer.take blob.size = blob.bytes
          ∧ blob.bytes.length = blob.size
          ∧ ∀ other : Scanner σ,
              (other.load saved.bytes).1 = ⟨Embedded.load other.embedded blob.bytes, sc.nesting⟩)
        ∧
      (blob.size = 0 ∨ Blob.size? blob.buffer ≠ some blob.size → saved.size = 0) := by
  intro blob saved
  constructor
  · intro hsize
    have h := saves_of_size_save_ne_zero hsize
    have hsaved := save_of_saves h
    refine ⟨Blob.size?_eq_some_iff.mp h.framed, ?_, ?_, ?_, h.length_blob, ?_⟩
    · dsimp only [saved]
      rw [hsaved]
    · dsimp only [saved]
      rw [hsaved]
      exact h.fits
    · dsimp only [saved]
      rw [hsaved]
      dsimp only
      rw [List.append_assoc]
      apply List.take_left'
      exact h.length_blob
    · intro other
      dsimp only [saved]
      rw [h.load_save]
  · intro hbad
    apply Decidable.byContradiction
    intro hsize
    have h := saves_of_size_save_ne_zero hsize
    have htwo := Blob.two_le_of_size? h.framed
    cases hbad with
    | inl hzero =>
      dsimp only [blob] at hzero
      omega
    | inr hframe => exact hframe h.framed

theorem load_save_of_paren_in_brace
    : let sc : Scanner CodeState := ⟨⟨3, [⟨1, 2, 3, 4⟩]⟩, ⟨[.paren, .brace]⟩⟩
      (sc.save (List.replicate 12 255)).1.size = 9
        ∧ (∀ other : Scanner CodeState,
            (other.load (sc.save (List.replicate 12 255)).1.bytes).1 = sc)
        ∧ (sc.save (List.replicate 5 255)).1.size = 0 := by
  intro sc
  have hroom := (load_save_of_any_embedded sc (List.replicate 12 255)).1 (by decide)
  refine ⟨hroom.2.1, ?_, ?_⟩
  · intro other
    rw [hroom.2.2.2.2.2 other]
    rfl
  · apply (load_save_of_any_embedded sc (List.replicate 5 255)).2
    left
    rfl

/--
The scanners that a buffer of the given capacity can hold: the records and the regions can be counted
in one byte each, and everything together is not too long.
-/
structure Fits (sc : Scanner CodeState) (capacity : Nat) : Prop where
  records : sc.embedded.interpolations.length ≤ 255
  depth : sc.nesting.depth ≤ 255
  room : 2 + 4 * sc.embedded.interpolations.length + 1 + sc.nesting.depth ≤ capacity

namespace Fits

variable {sc : Scanner CodeState} {buffer : Bytes} (h : sc.Fits buffer.length)
include h

theorem embedded_fits : sc.embedded.fits buffer.length := by
  have hrecords := h.records
  have hroom := h.room
  unfold CodeState.fits CodeState.size Blob.headerSize Blob.recordSize
  rw [Bool.and_eq_true, decide_eq_true_iff, decide_eq_true_iff]
  omega

theorem saves : sc.Saves buffer := by
  have hsave : Embedded.save sc.embedded buffer = _ := CodeState.save_of_fits h.embedded_fits
  have hroom := h.room
  constructor
  · exact h.depth
  · rw [hsave]
    exact CodeState.size?_toBytes_append sc.embedded h.records _
  · rw [hsave]
    exact hroom

theorem load_save_eq (other : Scanner CodeState)
    : other.load (sc.save buffer).1.bytes = (sc, []) := by
  rw [h.saves.load_save]
  have hblob : (Embedded.save sc.embedded buffer).bytes = sc.embedded.toBytes :=
    CodeState.bytes_save h.embedded_fits
  rw [hblob]
  have hload : Embedded.load other.embedded sc.embedded.toBytes = sc.embedded :=
    CodeState.ofBytes_toBytes sc.embedded h.records
  rw [hload]

end Fits

end Scanner
end RazorTokens
