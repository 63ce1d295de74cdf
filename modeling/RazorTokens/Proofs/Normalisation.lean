import RazorTokens.Proofs.Persistence

/-!
This module shows that loading brings any bytes into a normal form. Bytes that are not a snapshot
still lead to a scanner that can be saved again, and saving what was loaded reproduces exactly the
well-formed snapshots.
-/

namespace RazorTokens

namespace Blob

theorem append_of_split {bytes blob rest : Bytes} (h : split bytes = (blob, rest))
    : blob ++ rest = bytes := by
  unfold split at h
  rw [List.splitAt_eq, Prod.mk.injEq] at h
  rw [← h.1, ← h.2]
  apply List.take_append_drop

theorem two_le_length_of_split {bytes blob rest : Bytes} {b : UInt8}
    (h : split bytes = (blob, b :: rest))
    : 2 ≤ blob.length := by
  -- Without a header the blob takes all bytes, so here there is one.
  have hlength := congrArg List.length (append_of_split h)
  unfold split at h
  rw [List.splitAt_eq, Prod.mk.injEq] at h
  cases hsize : size? bytes with
  | none => simp [hsize] at h
  | some size =>
    have := two_le_of_size? hsize
    rw [hsize, Option.getD_some] at h
    simp only [← h.1, List.length_append, List.length_take, List.length_cons] at hlength ⊢
    omega

end Blob

namespace Interpolation

theorem length_lt_of_ne_cons {bytes : Bytes}
    (h : ∀ a b c d rest, bytes = a :: b :: c :: d :: rest → False)
    : bytes.length < Blob.recordSize := by
  unfold Blob.recordSize
  rcases bytes with _ | ⟨a, _ | ⟨b, _ | ⟨c, _ | ⟨d, rest⟩⟩⟩⟩
  · simp
  · simp
  · simp
  · simp
  · exact absurd rfl (h a b c d rest)

theorem length_listOfBytes (bytes : Bytes)
    : (listOfBytes bytes).length = bytes.length / Blob.recordSize := by
  fun_induction listOfBytes bytes with
  | case1 a b c d bytes ih =>
    simp only [List.length_cons, ih, Blob.recordSize]
    omega
  | case2 bytes hshort =>
    have := length_lt_of_ne_cons hshort
    rw [List.length_nil, Nat.div_eq_of_lt this]

theorem listToBytes_listOfBytes {bytes : Bytes} {count : Nat}
    (h : bytes.length = Blob.recordSize * count)
    : listToBytes (listOfBytes bytes) = bytes := by
  unfold Blob.recordSize at h
  fun_induction listOfBytes bytes generalizing count with
  | case1 a b c d bytes ih =>
    simp only [List.length_cons] at h
    have hrest : bytes.length = 4 * (count - 1) := by omega
    have := ih hrest
    simpa [listToBytes, toBytes] using this
  | case2 bytes hshort =>
    have hlength := length_lt_of_ne_cons hshort
    unfold Blob.recordSize at hlength
    have hnil : bytes = [] := by
      rw [← List.length_eq_zero_iff]
      omega
    rw [hnil]
    rfl

end Interpolation

namespace CodeState

theorem length_interpolations_ofBytes_le (bytes : Bytes)
    : (ofBytes bytes).interpolations.length ≤ 255 := by
  unfold ofBytes
  cases hsize : Blob.size? bytes with
  | none => simp
  | some size =>
    simp only [Blob.size?_eq_some_iff] at hsize
    rcases hsize with ⟨count, _, hsize⟩
    have hcount := count.toNat_lt
    simp only [Interpolation.length_listOfBytes, List.length_drop, List.length_take, Blob.headerSize,
      Blob.recordSize]
    omega

theorem size_ofBytes_le {bytes : Bytes} (h : 2 ≤ bytes.length)
    : (ofBytes bytes).size ≤ bytes.length := by
  unfold ofBytes size
  cases hsize : Blob.size? bytes with
  | none =>
    simp [Blob.headerSize]
    omega
  | some size =>
    simp only [Interpolation.length_listOfBytes, List.length_drop, List.length_take, Blob.headerSize,
      Blob.recordSize]
    omega

end CodeState

namespace Snapshot

theorem map_toByte_of_regionsOf {bytes : Bytes} {rs : List Region} (h : regionsOf bytes = .ok rs)
    : rs.map Region.toByte = bytes := by
  induction bytes generalizing rs with
  | nil =>
    cases h
    rfl
  | cons b bytes ih =>
    unfold regionsOf at h
    cases hb : Region.ofByte? b with
    | none => simp [hb] at h
    | some r =>
      cases hrest : regionsOf bytes with
      | error fault => simp [hb, hrest, Except.map] at h
      | ok rest =>
        simp only [hb, hrest, Except.map, Except.ok.injEq] at h
        rw [← h]
        simp [Region.toByte_of_ofByte? hb, ih hrest]

theorem exists_regions_of_forall {bytes : Bytes} (h : ∀ b ∈ bytes, b = 1 ∨ b = 2)
    : ∃ rs : List Region, rs.map Region.toByte = bytes := by
  induction bytes with
  | nil => exact ⟨[], rfl⟩
  | cons b bytes ih =>
    simp only [List.forall_mem_cons] at h
    rcases ih h.2 with ⟨rs, hrs⟩
    cases h.1 with
    | inl hb => exact ⟨.brace :: rs, by simp [Region.toByte, hrs, hb]⟩
    | inr hb => exact ⟨.paren :: rs, by simp [Region.toByte, hrs, hb]⟩

theorem eq_append_of_nestingOf_cons {d : UInt8} {bytes : Bytes} {n : Nesting}
    (h : nestingOf (d :: bytes) = .ok n)
    : n.depth ≤ 255 ∧ ∃ junk, d :: bytes = nestingBytes n ++ junk := by
  unfold nestingOf at h
  dsimp only at h
  split at h
  · contradiction
  · next hlength =>
    cases hregions : regionsOf (bytes.take d.toNat) with
    | error fault => simp [hregions, Except.map] at h
    | ok rs =>
      simp only [hregions, Except.map, Except.ok.injEq] at h
      have hmap := map_toByte_of_regionsOf hregions
      have hdepth : n.depth = d.toNat := by
        rw [← h, ← Nesting.length_toOutermost, Nesting.toOutermost_ofOutermost]
        rw [← List.length_map (f := Region.toByte), hmap, List.length_take]
        omega
      have := d.toNat_lt
      refine ⟨by omega, bytes.drop d.toNat, ?_⟩
      unfold nestingBytes
      rw [hdepth, UInt8.ofNat_toNat, ← h, Nesting.toOutermost_ofOutermost, hmap]
      simp

/--
The bytes are a snapshot of some scanner of the code language: a blob whose header announces its
records, the depth, and as many regions as that, with nothing behind them.
-/
def WellFormed (bytes : Bytes) : Prop :=
  ∃ (quotes count : UInt8) (records : Bytes) (depth : UInt8) (regions : Bytes),
    bytes = quotes :: count :: (records ++ depth :: regions)
      ∧ records.length = 4 * count.toNat
      ∧ regions.length = depth.toNat
      ∧ ∀ b ∈ regions, b = 1 ∨ b = 2

end Snapshot

namespace Scanner

def ofBytes (bytes : Bytes) : Scanner CodeState where
  embedded := .ofBytes (Blob.split bytes).1
  nesting := (Snapshot.nestingOf (Blob.split bytes).2).toOption.getD ∅

def toBytes (sc : Scanner CodeState) : Bytes :=
  sc.embedded.toBytes ++ Snapshot.nestingBytes sc.nesting

theorem load_eq_ofBytes (sc : Scanner CodeState) (bytes : Bytes)
    : (sc.load bytes).1 = ofBytes bytes :=
  fst_load sc bytes

theorem ofBytes_toBytes {sc : Scanner CodeState}
    (hrecords : sc.embedded.interpolations.length ≤ 255) (hdepth : sc.nesting.depth ≤ 255)
    : ofBytes sc.toBytes = sc := by
  have hblob := CodeState.size?_toBytes_append sc.embedded hrecords []
  rw [List.append_nil, ← CodeState.length_toBytes] at hblob
  rw [← load_eq_ofBytes sc]
  unfold toBytes
  rw [load_append sc hblob sc.nesting hdepth]
  have hload : Embedded.load sc.embedded sc.embedded.toBytes = sc.embedded :=
    CodeState.ofBytes_toBytes sc.embedded hrecords
  simp [hload]

theorem length_toBytes (sc : Scanner CodeState)
    : sc.toBytes.length = 2 + 4 * sc.embedded.interpolations.length + 1 + sc.nesting.depth := by
  unfold toBytes
  rw [List.length_append, CodeState.length_toBytes, Snapshot.length_nestingBytes]
  unfold CodeState.size Blob.headerSize Blob.recordSize
  omega

namespace Fits

variable {sc : Scanner CodeState} {buffer : Bytes} (h : sc.Fits buffer.length)
include h

theorem bytes_save : (sc.save buffer).1.bytes = sc.toBytes := by
  have hblob : (Embedded.save sc.embedded buffer).bytes = sc.embedded.toBytes :=
    CodeState.bytes_save h.embedded_fits
  rw [h.saves.bytes_save, hblob]
  rfl

theorem size_save : (sc.save buffer).1.size = sc.toBytes.length := by
  have hblob : Embedded.save sc.embedded buffer = _ := CodeState.save_of_fits h.embedded_fits
  rw [save_of_saves h.saves, hblob, length_toBytes]
  rfl

end Fits

theorem fits_of_depth_eq_zero {sc : Scanner CodeState}
    (hrecords : sc.embedded.interpolations.length ≤ 255) (hdepth : sc.nesting.depth = 0)
    : sc.Fits Snapshot.capacity := by
  -- This is the tightest case: 255 records leave just one byte more than the depth takes.
  constructor
  · exact hrecords
  · omega
  · unfold Snapshot.capacity
    omega

theorem fits_ofBytes {bytes : Bytes} (h : bytes.length ≤ Snapshot.capacity)
    : (ofBytes bytes).Fits Snapshot.capacity := by
  have hrecords := CodeState.length_interpolations_ofBytes_le (Blob.split bytes).1
  cases hsplit : Blob.split bytes with
  | mk blob rest =>
    cases rest with
    | nil =>
      apply fits_of_depth_eq_zero
      · exact hrecords
      · simp [ofBytes, hsplit, Snapshot.nestingOf, Except.toOption]
        rfl
    | cons d rest =>
      cases hnesting : Snapshot.nestingOf (d :: rest) with
      | error fault =>
        apply fits_of_depth_eq_zero
        · exact hrecords
        · simp [ofBytes, hsplit, hnesting, Except.toOption]
          rfl
      | ok n =>
        rcases Snapshot.eq_append_of_nestingOf_cons hnesting with ⟨hdepth, junk, hrest⟩
        have hblob := CodeState.size_ofBytes_le (Blob.two_le_length_of_split hsplit)
        have hbytes := congrArg List.length (Blob.append_of_split hsplit)
        rw [hrest] at hbytes
        simp only [List.length_append, Snapshot.length_nestingBytes] at hbytes
        unfold CodeState.size Blob.headerSize Blob.recordSize at hblob
        constructor
        · exact hrecords
        · simpa [ofBytes, hsplit, hnesting, Except.toOption] using hdepth
        · simp [ofBytes, hsplit, hnesting, Except.toOption]
          omega

theorem wellFormed_toBytes {sc : Scanner CodeState}
    (hrecords : sc.embedded.interpolations.length ≤ 255) (hdepth : sc.nesting.depth ≤ 255)
    : Snapshot.WellFormed sc.toBytes := by
  refine ⟨sc.embedded.quotes, .ofNat sc.embedded.interpolations.length,
    Interpolation.listToBytes sc.embedded.interpolations, .ofNat sc.nesting.depth,
    sc.nesting.toOutermost.map Region.toByte, ?_, ?_, ?_, ?_⟩
  · simp [toBytes, CodeState.toBytes, Snapshot.nestingBytes]
  · simp [Blob.recordSize]
    omega
  · simp
    omega
  · intro b hb
    rw [List.mem_map] at hb
    rcases hb with ⟨r, _, rfl⟩
    cases r <;> simp [Region.toByte]

theorem exists_toBytes_of_wellFormed {bytes : Bytes} (h : Snapshot.WellFormed bytes)
    : ∃ sc : Scanner CodeState, sc.embedded.interpolations.length ≤ 255 ∧ sc.nesting.depth ≤ 255
        ∧ sc.toBytes = bytes := by
  rcases h with ⟨quotes, count, records, depth, regions, rfl, hrecords, hregions, hall⟩
  rcases Snapshot.exists_regions_of_forall hall with ⟨rs, rfl⟩
  have := count.toNat_lt
  have := depth.toNat_lt
  have hcount : (Interpolation.listOfBytes records).length = count.toNat := by
    rw [Interpolation.length_listOfBytes, hrecords]
    unfold Blob.recordSize
    omega
  rw [List.length_map] at hregions
  refine ⟨⟨⟨quotes, Interpolation.listOfBytes records⟩, .ofOutermost rs⟩, ?_, ?_, ?_⟩
  · simp only [hcount]
    omega
  · rw [← Nesting.length_toOutermost]
    simp [hregions]
    omega
  · unfold toBytes CodeState.toBytes Snapshot.nestingBytes
    rw [← Nesting.length_toOutermost]
    simp [hcount, hregions, Interpolation.listToBytes_listOfBytes hrecords]

theorem toBytes_ofBytes_eq_self_iff (bytes : Bytes) (h : (ofBytes bytes).Fits Snapshot.capacity)
    : (ofBytes bytes).toBytes = bytes ↔ Snapshot.WellFormed bytes := by
  constructor
  · intro heq
    rw [← heq]
    exact wellFormed_toBytes h.records h.depth
  · intro hwell
    rcases exists_toBytes_of_wellFormed hwell with ⟨sc, hrecords, hdepth, rfl⟩
    rw [ofBytes_toBytes hrecords hdepth]

/--
Loading normalises: whatever the bytes are, the scanner that they lead to does not depend on what was
there before, it can be saved, and loading what was saved leads to the same scanner. The saved bytes
are the original ones exactly if these were well-formed.
-/
theorem save_load_normalises (sc : Scanner CodeState) (bytes buffer : Bytes)
    (hbytes : bytes.length ≤ Snapshot.capacity) (hbuffer : buffer.length = Snapshot.capacity)
    : let state := (sc.load bytes).1
      let saved := (state.save buffer).1
      (∀ other : Scanner CodeState, (other.load bytes).1 = state)
        ∧ 3 ≤ saved.size
        ∧ saved.bytes.length = saved.size
        ∧ (∀ other : Scanner CodeState, (other.load saved.bytes).1 = state)
        ∧ (saved.bytes = bytes ↔ Snapshot.WellFormed bytes) := by
  intro state saved
  have hstate : state = ofBytes bytes := load_eq_ofBytes sc bytes
  have hfits := fits_ofBytes hbytes
  have hroom := hfits
  rw [← hbuffer] at hroom
  have hsize : saved.size = (ofBytes bytes).toBytes.length := by
    dsimp only [saved]
    rw [hstate, hroom.size_save]
  have hsaved : saved.bytes = (ofBytes bytes).toBytes := by
    dsimp only [saved]
    rw [hstate, hroom.bytes_save]
  refine ⟨?_, ?_, ?_, ?_, ?_⟩
  · intro other
    rw [load_eq_ofBytes, hstate]
  · rw [hsize, length_toBytes]
    omega
  · rw [hsaved, hsize]
  · intro other
    rw [load_eq_ofBytes, hsaved, hstate]
    exact ofBytes_toBytes hfits.records hfits.depth
  · rw [hsaved]
    exact toBytes_ofBytes_eq_self_iff bytes hfits

theorem save_load_normalises_trailing_byte
    : let bytes : Bytes := [3, 1, 1, 2, 3, 4, 2, 1, 2, 9]
      let state : Scanner CodeState := ⟨⟨3, [⟨1, 2, 3, 4⟩]⟩, ⟨[.paren, .brace]⟩⟩
      (Scanner.initial.load bytes).1 = state
        ∧ (∀ other : Scanner CodeState, (other.load bytes).1 = state)
        ∧ (state.save Snapshot.blank).1.bytes ≠ bytes
        ∧ ¬ Snapshot.WellFormed bytes := by
  intro bytes state
  have hbytes : bytes.length ≤ Snapshot.capacity := by decide
  have hblank : Snapshot.blank.length = Snapshot.capacity := List.length_replicate
  have hload : (Scanner.initial.load bytes).1 = state := rfl
  have hnormal := save_load_normalises Scanner.initial bytes Snapshot.blank hbytes hblank
  rw [hload] at hnormal
  have hsaved : (state.save Snapshot.blank).1.bytes ≠ bytes := by
    decide +kernel
  refine ⟨hload, hnormal.1, hsaved, ?_⟩
  rw [← hnormal.2.2.2.2]
  exact hsaved

end Scanner
end RazorTokens
