import RazorTokens.Proofs.Ending
import RazorTokens.Proofs.Normalisation

/-!
This module says exactly when a scanner of the code language can be saved, and what becomes of each
byte of the buffer. The embedded scanner and the nesting are written one after the other, so a blob
that was written stays in the buffer if there is a fault about the nesting.
-/

namespace RazorTokens

theorem Interpolation.take_drop_listToBytes {is : List Interpolation} {i : Nat}
    {record : Interpolation} (h : is[i]? = some record) (rest : Bytes)
    : ((listToBytes is ++ rest).drop (4 * i)).take 4 = record.toBytes := by
  rcases List.getElem?_eq_some_iff.mp h with ⟨hi, rfl⟩
  have hsplit : listToBytes is
      = listToBytes (is.take i) ++ (is[i].toBytes ++ listToBytes (is.drop (i + 1))) := by
    unfold listToBytes
    rw [← List.flatMap_cons, ← List.drop_eq_getElem_cons hi, ← List.flatMap_append]
    rw [List.take_append_drop]
  have hfront : (listToBytes (is.take i)).length = 4 * i := by
    rw [length_listToBytes, List.length_take]
    unfold Blob.recordSize
    omega
  rw [hsplit, List.append_assoc, List.drop_left' hfront, List.append_assoc]
  exact List.take_left' (length_toBytes _)

theorem Snapshot.size_eq_overflow {buffer : Bytes} {blobSize : Nat} {n : Nesting}
    (hdepth : n.depth ≤ 255) (hframed : Blob.size? buffer = some blobSize)
    (hroom : buffer.length < blobSize + 1 + n.depth)
    : size buffer blobSize n = .error (.overflow (blobSize + 1 + n.depth) buffer.length) := by
  have htwo := Blob.two_le_of_size? hframed
  unfold size
  dsimp only
  rw [if_neg (by omega), if_neg (by omega), if_neg, if_pos hroom]
  rw [Decidable.not_not, Blob.size?_take_getD_eq_iff (by omega)]
  exact hframed

namespace CodeState

/--
The bytes begin with the blob of the state: the number of quotation marks, the number of records, and
then each record in four bytes.
-/
structure InFront (s : CodeState) (bytes : Bytes) : Prop where
  quotes : bytes[0]? = some s.quotes
  count : ∃ b, bytes[1]? = some b ∧ b.toNat = s.interpolations.length
  record : ∀ i record, s.interpolations[i]? = some record →
    (bytes.drop (2 + 4 * i)).take 4
      = [record.openBraces, record.quotes, record.dollars, record.form]

theorem inFront_append {s : CodeState} (hcount : s.interpolations.length ≤ 255) (rest : Bytes)
    : s.InFront (s.toBytes ++ rest) where
  quotes := rfl
  count := ⟨_, rfl, UInt8.toNat_ofNat_of_lt' (Nat.lt_succ_of_le hcount)⟩
  record := by
    intro i record hrecord
    rw [← List.drop_drop]
    exact Interpolation.take_drop_listToBytes hrecord rest

theorem fits_iff {s : CodeState} {capacity : Nat}
    : s.fits capacity
        ↔
      s.interpolations.length ≤ 255 ∧ 2 + 4 * s.interpolations.length ≤ capacity := by
  unfold fits
  rw [Bool.and_eq_true, decide_eq_true_iff, decide_eq_true_iff]
  rfl

end CodeState

namespace Scanner

/--
The bytes begin with the snapshot of the scanner: the blob of the embedded scanner, the depth, and
then a byte for each region, the outermost first.
-/
structure InFront (sc : Scanner CodeState) (bytes : Bytes) : Prop where
  blob : sc.embedded.InFront bytes
  depth : ∃ b, bytes[2 + 4 * sc.embedded.interpolations.length]? = some b
    ∧ b.toNat = sc.nesting.depth
  regions : Snapshot.TagsAt sc.nesting bytes (2 + 4 * sc.embedded.interpolations.length + 1)

def obstacle (sc : Scanner CodeState) (capacity : Nat) : Fault :=
  if 255 < sc.nesting.depth then
    .tooDeep sc.nesting.depth
  else if sc.embedded.fits capacity then
    .overflow (3 + 4 * sc.embedded.interpolations.length + sc.nesting.depth) capacity
  else
    .noBlob

variable {sc : Scanner CodeState} {buffer : Bytes}

theorem inFront_append (hrecords : sc.embedded.interpolations.length ≤ 255)
    (hdepth : sc.nesting.depth ≤ 255) (rest : Bytes)
    : sc.InFront (sc.toBytes ++ rest) := by
  have hnesting (i : Nat)
      : (sc.toBytes ++ rest)[2 + 4 * sc.embedded.interpolations.length + i]?
          = (Snapshot.nestingBytes sc.nesting ++ rest)[i]? := by
    have hsize := CodeState.length_toBytes sc.embedded
    unfold CodeState.size Blob.headerSize Blob.recordSize at hsize
    unfold toBytes
    rw [List.append_assoc, List.getElem?_append_right (by omega), hsize, Nat.add_sub_cancel_left]
  constructor
  · unfold toBytes
    rw [List.append_assoc]
    exact CodeState.inFront_append hrecords _
  · exact ⟨_, hnesting 0, UInt8.toNat_ofNat_of_lt' (Nat.lt_succ_of_le hdepth)⟩
  · apply Snapshot.tagsAt_of_nestingBytes
    intro i hi
    rw [← Snapshot.length_nestingBytes] at hi
    rw [hnesting, List.getElem?_append_left hi]

theorem Fits.save_eq (h : sc.Fits buffer.length)
    : sc.save buffer
        =
      (⟨sc.toBytes.length, sc.toBytes ++ buffer.drop sc.toBytes.length⟩, []) := by
  have hblob : Embedded.save sc.embedded buffer = _ := CodeState.save_of_fits h.embedded_fits
  have hbytes : (Embedded.save sc.embedded buffer).bytes = sc.embedded.toBytes :=
    CodeState.bytes_save h.embedded_fits
  have hsize : sc.toBytes.length = sc.embedded.size + 1 + sc.nesting.depth := length_toBytes sc
  have hdrop : (sc.embedded.toBytes ++ buffer.drop sc.embedded.size).drop sc.toBytes.length
      = buffer.drop sc.toBytes.length := by
    have hlength := CodeState.length_toBytes sc.embedded
    rw [hsize, Nat.add_assoc, ← hlength, List.drop_length_add_append, List.drop_drop]
  rw [save_of_saves h.saves, hbytes, hblob]
  dsimp only
  rw [← hsize, hdrop]
  rfl

theorem size_eq_error_obstacle (h : ¬ sc.Fits buffer.length)
    : Snapshot.size (sc.embedded.save buffer).buffer (sc.embedded.save buffer).size sc.nesting
        =
      .error (sc.obstacle buffer.length) := by
  unfold obstacle
  split
  · next hdepth =>
    unfold Snapshot.size
    exact if_pos hdepth
  · next hdepth =>
    split
    · next hfits =>
      rcases CodeState.fits_iff.mp hfits with ⟨hrecords, hroom⟩
      have hsize : sc.embedded.size = 2 + 4 * sc.embedded.interpolations.length := rfl
      have hlength := CodeState.length_save sc.embedded buffer
      rw [CodeState.save_of_fits hfits] at hlength ⊢
      dsimp only at hlength ⊢
      rw [Snapshot.size_eq_overflow]
      · rw [hlength, hsize]
        congr 2
        omega
      · omega
      · exact CodeState.size?_toBytes_append sc.embedded hrecords _
      · -- The records and the depth are few enough, so only the room can be missing.
        rw [hlength]
        apply Decidable.byContradiction
        intro henough
        apply h
        constructor
        · exact hrecords
        · omega
        · omega
    · next hfits =>
      have hsave : sc.embedded.save buffer = ⟨0, buffer⟩ := if_neg hfits
      unfold Snapshot.size
      rw [hsave, if_neg hdepth, if_pos rfl]

theorem save_of_not_fits (h : ¬ sc.Fits buffer.length)
    : sc.save buffer
        =
      (⟨0, (sc.embedded.save buffer).buffer⟩, [.notSaved (sc.obstacle buffer.length)]) := by
  have hblob : Embedded.save sc.embedded buffer = sc.embedded.save buffer := rfl
  unfold save Snapshot.write
  rw [hblob]
  dsimp only
  rw [size_eq_error_obstacle h]

/--
A scanner of the code language is saved exactly if it fits into the buffer. Then the snapshot stands
at the front of the buffer, and the reported size is where the bytes begin that are the same as
before. Otherwise the size is zero and one event tells what is in the way. The blob has been written
even then if there was room for it alone, and nothing else of the buffer ever changes.
-/
theorem save_exactly_if_fits (sc : Scanner CodeState) (buffer : Bytes)
    : let count := sc.embedded.interpolations.length
      let saved := (sc.save buffer).1
      let log := (sc.save buffer).2
      (sc.Fits buffer.length →
        saved.size = 3 + 4 * count + sc.nesting.depth
          ∧ sc.InFront saved.buffer
          ∧ saved.buffer.length = buffer.length
          ∧ saved.buffer.drop saved.size = buffer.drop saved.size
          ∧ log = [])
        ∧
      (¬ sc.Fits buffer.length →
        saved.size = 0
          ∧ log.map Event.report = [(.debug, "scanner state not persisted",
              [("err", (sc.obstacle buffer.length).message)])]
          ∧ (count ≤ 255 ∧ 2 + 4 * count ≤ buffer.length →
              sc.embedded.InFront saved.buffer
                ∧ saved.buffer.length = buffer.length
                ∧ saved.buffer.drop (2 + 4 * count) = buffer.drop (2 + 4 * count))
          ∧ (¬ (count ≤ 255 ∧ 2 + 4 * count ≤ buffer.length) → saved.buffer = buffer)) := by
  intro count saved log
  constructor
  · intro hfits
    have hsave := hfits.save_eq
    have hroom := hfits.room
    have hlength := length_toBytes sc
    dsimp only [saved, log]
    rw [hsave]
    dsimp only
    refine ⟨?_, inFront_append hfits.records hfits.depth _, ?_, ?_, rfl⟩
    · omega
    · rw [List.length_append, List.length_drop]
      omega
    · rw [List.drop_left' rfl]
  · intro hnot
    dsimp only [saved, log]
    rw [save_of_not_fits hnot]
    dsimp only
    rw [← CodeState.fits_iff]
    refine ⟨rfl, rfl, ?_, ?_⟩
    · intro hblob
      have hlength := CodeState.length_save sc.embedded buffer
      rw [CodeState.save_of_fits hblob] at hlength ⊢
      refine ⟨?_, hlength, ?_⟩
      · exact CodeState.inFront_append (CodeState.fits_iff.mp hblob).1 _
      · exact List.drop_left' (CodeState.length_toBytes _)
    · intro hblob
      unfold CodeState.save
      rw [if_neg hblob]

theorem save_exactly_if_fits_at_capacity
    : let sc : Scanner CodeState := ⟨⟨3, [⟨1, 2, 3, 4⟩]⟩, ⟨[.paren, .brace]⟩⟩
      sc.Fits 9
        ∧ (sc.save (List.replicate 9 255)).1 = ⟨9, [3, 1, 1, 2, 3, 4, 2, 1, 2]⟩
        ∧ sc.InFront [3, 1, 1, 2, 3, 4, 2, 1, 2]
        ∧ ¬ sc.Fits 8
        ∧ (sc.save (List.replicate 8 255)).1 = ⟨0, [3, 1, 1, 2, 3, 4, 255, 255]⟩
        ∧ sc.embedded.InFront [3, 1, 1, 2, 3, 4, 255, 255]
        ∧ ¬ sc.Fits 5
        ∧ (sc.save (List.replicate 5 255)).1.buffer = List.replicate 5 255 := by
  intro sc
  have hfit : sc.Fits 9 := ⟨by decide, by decide, by decide⟩
  have hshort : ¬ sc.Fits 8 := fun h => absurd h.room (by decide)
  have hnone : ¬ sc.Fits 5 := fun h => absurd h.room (by decide)
  have hsaved : (sc.save (List.replicate 9 255)).1 = ⟨9, [3, 1, 1, 2, 3, 4, 2, 1, 2]⟩ := by decide
  have hcut : (sc.save (List.replicate 8 255)).1 = ⟨0, [3, 1, 1, 2, 3, 4, 255, 255]⟩ := by decide
  rcases (save_exactly_if_fits sc (List.replicate 9 255)).1 hfit with ⟨_, hfront, _⟩
  rcases (save_exactly_if_fits sc (List.replicate 8 255)).2 hshort with ⟨_, _, hblob, _⟩
  rcases (save_exactly_if_fits sc (List.replicate 5 255)).2 hnone with ⟨_, _, _, hsame⟩
  have hblobFront := (hblob (by decide)).1
  rw [hsaved] at hfront
  rw [hcut] at hblobFront
  exact ⟨hfit, hsaved, hfront, hshort, hcut, hblobFront, hnone, hsame (by decide)⟩

end Scanner
end RazorTokens
