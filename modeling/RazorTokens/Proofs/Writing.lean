import RazorTokens.Proofs.Persistence

/-!
This module says exactly what becomes of a buffer when a nesting is written behind a blob: under
which conditions it is written, which bytes change then, and which fault is reported otherwise. It
also writes the nesting with machine words and with checked indices, and shows that no check ever
fails.
-/

namespace RazorTokens

def word? (width n : Nat) : Option Nat :=
  if (BitVec.ofNat width n).toNat = n then some n else none

theorem word?_of_lt {width n : Nat} (hwidth : 16 ≤ width) (h : n < 65536)
    : word? width n = some n := by
  have hpow := Nat.pow_le_pow_right Nat.two_pos hwidth
  unfold word?
  rw [if_pos]
  rw [BitVec.toNat_ofNat]
  apply Nat.mod_eq_of_lt
  omega

namespace Bytes

def slice? (bytes : Bytes) (start stop : Nat) : Option Bytes :=
  if start ≤ stop ∧ stop ≤ bytes.length then some ((bytes.take stop).drop start) else none

def set? (bytes : Bytes) (i : Nat) (b : UInt8) : Option Bytes :=
  if i < bytes.length then some (bytes.set i b) else none

def fill : Bytes → Bytes → Bytes
  | _ :: slots, b :: bytes => b :: fill slots bytes
  | slots, _ => slots

def overwrite? (bytes : Bytes) (start stop : Nat) (new : Bytes) : Option Bytes := do
  let slots ← bytes.slice? start stop
  return bytes.take start ++ slots.fill new ++ bytes.drop stop

theorem fill_of_length_eq {slots bytes : Bytes} (h : slots.length = bytes.length)
    : slots.fill bytes = bytes := by
  fun_induction fill slots bytes with
  | case1 slot slots b bytes ih =>
    rw [ih]
    simpa using h
  | case2 slots bytes hne =>
    cases bytes with
    | nil => simpa using h
    | cons b bytes =>
      rcases List.exists_cons_of_length_eq_add_one h with ⟨slot, slots', rfl⟩
      exact absurd rfl (hne slot slots' b bytes rfl)

theorem overwrite?_set {bytes : Bytes} (new : Bytes) {i : Nat} (b : UInt8)
    (h : i + 1 + new.length ≤ bytes.length)
    : overwrite? (bytes.set i b) (i + 1) (i + 1 + new.length) new
        =
      some (bytes.take i ++ b :: new ++ bytes.drop (i + 1 + new.length)) := by
  have hset : bytes.set i b = bytes.take i ++ b :: bytes.drop (i + 1) := by
    rw [List.set_eq_take_append_cons_drop, if_pos (by omega)]
  have htake : (bytes.set i b).take (i + 1) = bytes.take i ++ [b] := by
    have hlength : (bytes.take i).length = i := by
      rw [List.length_take]
      omega
    have hone : i + 1 - (bytes.take i).length = 1 := by omega
    rw [hset, List.take_append, List.take_of_length_le (by omega), hone]
    rfl
  have hdrop (k : Nat) : (bytes.set i b).drop (i + 1 + k) = bytes.drop (i + 1 + k) := by
    rw [List.drop_set_of_lt (by omega)]
  unfold overwrite? slice?
  rw [if_pos (by rw [List.length_set]; omega)]
  simp only [Option.bind_eq_bind, Option.bind_some]
  rw [fill_of_length_eq, htake, hdrop]
  · simp
  · simp
    omega

end Bytes

namespace Snapshot

def announced : Bytes → Nat
  | _ :: count :: _ => 2 + 4 * count.toNat
  | _ => 0

/--
What has to hold for a nesting to be written, and the fault that is reported if it does not. The
first condition that fails counts.
-/
def checks (buffer : Bytes) (blobSize : Nat) (n : Nesting) : List (Bool × Fault) :=
  let framed := announced (buffer.take (min blobSize buffer.length))
  let needed := blobSize + 1 + n.depth
  [(n.depth ≤ 255, .tooDeep n.depth),
   (blobSize ≠ 0, .noBlob),
   (framed = blobSize, .misframed blobSize framed),
   (needed ≤ buffer.length, .overflow needed buffer.length)]

def firstFault? (buffer : Bytes) (blobSize : Nat) (n : Nesting) : Option Fault :=
  ((checks buffer blobSize n).find? (!·.1)).map Prod.snd

structure Writable (buffer : Bytes) (blobSize : Nat) (n : Nesting) : Prop where
  depth_le : n.depth ≤ 255
  two_le_blobSize : 2 ≤ blobSize
  two_le_length : 2 ≤ buffer.length
  framed : ∃ count, buffer[1]? = some count ∧ 2 + 4 * count.toNat = blobSize
  fits : blobSize + 1 + n.depth ≤ buffer.length

/--
The nesting stands behind the blob: its depth, and then its regions from the outermost on. All other
bytes of the buffer are the same as before.
-/
structure Completed (buffer : Bytes) (blobSize : Nat) (n : Nesting) (after : Bytes) : Prop where
  length_eq : after.length = buffer.length
  depth : ∃ b, after[blobSize]? = some b ∧ b.toNat = n.depth
  regions : TagsAt n after (blobSize + 1)
  others : ∀ i, i < blobSize ∨ blobSize + 1 + n.depth ≤ i → after[i]? = buffer[i]?

variable {buffer : Bytes} {blobSize : Nat} {n : Nesting}

theorem size?_getD_eq_announced (bytes : Bytes) : (Blob.size? bytes).getD 0 = announced bytes := by
  unfold announced
  split
  · rfl
  · next hshort =>
    rcases bytes with _ | ⟨first, _ | ⟨count, bytes⟩⟩
    · rfl
    · rfl
    · exact absurd rfl (hshort first count bytes)

theorem announced_le (bytes : Bytes) : announced bytes ≤ 1022 := by
  unfold announced
  split
  · next count _ =>
    have := count.toNat_lt
    omega
  · omega

theorem size_eq_of_firstFault? (buffer : Bytes) (blobSize : Nat) (n : Nesting)
    : size buffer blobSize n
        =
      match firstFault? buffer blobSize n with
      | some fault => .error fault
      | none => .ok (blobSize + 1 + n.depth) := by
  unfold size firstFault? checks
  dsimp only
  rw [size?_getD_eq_announced, ← List.take_eq_take_min]
  split
  · next hdepth => simp [Nat.not_le.mpr hdepth]
  · next hdepth =>
    split
    · next hzero => simp [hdepth, hzero]
    · next hzero =>
      split
      · next hframed => simp [hdepth, hzero, hframed]
      · next hframed =>
        split
        · next hroom => simp [hdepth, hzero, hframed, hroom]
        · next hroom => simp [hdepth, hzero, hframed, hroom]

theorem writable_iff_size_eq_ok
    : Writable buffer blobSize n ↔ size buffer blobSize n = .ok (blobSize + 1 + n.depth) := by
  rw [size_eq_ok_iff, Blob.size?_eq_some_iff]
  constructor
  · intro h
    rcases h.framed with ⟨count, hcount, hsize⟩
    exact ⟨h.depth_le, ⟨count, hcount, hsize.symm⟩, rfl, h.fits⟩
  · rintro ⟨hdepth, ⟨count, hcount, hsize⟩, _, hfits⟩
    have hlength : 1 < buffer.length := (List.getElem?_eq_some_iff.mp hcount).1
    exact ⟨hdepth, by omega, hlength, ⟨count, hcount, hsize.symm⟩, hfits⟩

theorem fst_write (buffer : Bytes) (blobSize : Nat) (n : Nesting)
    : (write buffer blobSize n).1 = size buffer blobSize n := by
  unfold write
  cases size buffer blobSize n with
  | ok needed => rfl
  | error fault => rfl

theorem write_of_writable (h : Writable buffer blobSize n)
    : write buffer blobSize n
        =
      (.ok (blobSize + 1 + n.depth),
        buffer.take blobSize ++ nestingBytes n ++ buffer.drop (blobSize + 1 + n.depth)) := by
  unfold write
  rw [writable_iff_size_eq_ok.mp h]

theorem exists_firstFault?_of_not_writable (h : ¬ Writable buffer blobSize n)
    : ∃ fault, firstFault? buffer blobSize n = some fault
        ∧ write buffer blobSize n = (.error fault, buffer) := by
  rw [writable_iff_size_eq_ok, size_eq_of_firstFault?] at h
  unfold write
  rw [size_eq_of_firstFault?]
  cases hfault : firstFault? buffer blobSize n with
  | none =>
    rw [hfault] at h
    contradiction
  | some fault => exact ⟨fault, rfl, rfl⟩

namespace Writable

variable (h : Writable buffer blobSize n)
include h

theorem completed
    : Completed buffer blobSize n
        (buffer.take blobSize ++ nestingBytes n ++ buffer.drop (blobSize + 1 + n.depth)) := by
  have hfits := h.fits
  have hdepth := h.depth_le
  have hblob : (buffer.take blobSize).length = blobSize := by
    simp
    omega
  have hbytes := length_nestingBytes n
  have hnesting (i : Nat) (hi : i < 1 + n.depth)
      : (buffer.take blobSize ++ nestingBytes n
          ++ buffer.drop (blobSize + 1 + n.depth))[blobSize + i]? = (nestingBytes n)[i]? := by
    rw [List.getElem?_append_left (by simp only [List.length_append, hblob, hbytes]; omega)]
    rw [List.getElem?_append_right (by omega), hblob, Nat.add_sub_cancel_left]
  constructor
  · simp only [List.length_append, hblob, hbytes, List.length_drop]
    omega
  · refine ⟨UInt8.ofNat n.depth, ?_, ?_⟩
    · exact hnesting 0 (by omega)
    · exact UInt8.toNat_ofNat_of_lt' (Nat.lt_succ_of_le hdepth)
  · exact tagsAt_of_nestingBytes hnesting
  · rintro i (hi | hi)
    · rw [List.append_assoc, List.getElem?_append_left (by omega), List.getElem?_take_of_lt hi]
    · have hlength : (buffer.take blobSize ++ nestingBytes n).length = blobSize + 1 + n.depth := by
        simp only [List.length_append, hblob, hbytes]
        omega
      rw [List.getElem?_append_right (by omega), hlength, List.getElem?_drop]
      congr 1
      omega

end Writable

def framed? (width : Nat) (front : Bytes) : Option Nat :=
  match front[1]? with
  | none => some 0
  | some count => do
    let records ← word? width (Blob.recordSize * count.toNat)
    word? width (Blob.headerSize + records)

/--
Writes the nesting with machine words of the given width. The result is `none` if a number does not
fit into a word or an index lies outside of the buffer.
-/
def write? (width : Nat) (buffer : Bytes) (blobSize : Nat) (n : Nesting)
    : Option (Except Fault Nat × Bytes) :=
  if 255 < n.depth then
    some (.error (.tooDeep n.depth), buffer)
  else if blobSize = 0 then
    some (.error .noBlob, buffer)
  else do
    let front ← buffer.slice? 0 (min blobSize buffer.length)
    let framed ← framed? width front
    if framed ≠ blobSize then
      return (.error (.misframed blobSize framed), buffer)
    else
      let start ← word? width (blobSize + 1)
      let needed ← word? width (start + n.depth)
      if buffer.length < needed then
        return (.error (.overflow needed buffer.length), buffer)
      else
        let marked ← buffer.set? blobSize (UInt8.ofNat n.depth)
        let after ← marked.overwrite? start needed (n.toOutermost.map Region.toByte)
        return (.ok needed, after)

theorem framed?_eq {width : Nat} (hwidth : 16 ≤ width) (front : Bytes)
    : framed? width front = some ((Blob.size? front).getD 0) := by
  unfold framed? Blob.size?
  cases front[1]? with
  | none => rfl
  | some count =>
    have hcount := count.toNat_lt
    unfold Blob.recordSize Blob.headerSize
    dsimp only
    rw [word?_of_lt hwidth (by omega), Option.bind_eq_bind, Option.bind_some]
    rw [word?_of_lt hwidth (by omega)]
    rfl

theorem write?_eq_some {width : Nat} (hwidth : 16 ≤ width) (buffer : Bytes) (blobSize : Nat)
    (n : Nesting)
    : write? width buffer blobSize n = some (write buffer blobSize n) := by
  have hslice : buffer.slice? 0 (min blobSize buffer.length) = some (buffer.take blobSize) := by
    unfold Bytes.slice?
    rw [if_pos (by omega), ← List.take_eq_take_min]
    rfl
  unfold write? write size
  dsimp only
  split
  · rfl
  · next hdepth =>
    split
    · rfl
    · next hzero =>
      simp only [hslice, framed?_eq hwidth, Option.bind_eq_bind, Option.bind_some]
      split
      · rfl
      · next hframed =>
        rw [Decidable.not_not] at hframed
        have hblob := announced_le (buffer.take blobSize)
        rw [← size?_getD_eq_announced, hframed] at hblob
        rw [word?_of_lt hwidth (by omega), Option.bind_some]
        rw [word?_of_lt hwidth (by omega), Option.bind_some]
        split
        · rfl
        · next hroom =>
          have hset : buffer.set? blobSize (UInt8.ofNat n.depth)
              = some (buffer.set blobSize (UInt8.ofNat n.depth)) := by
            unfold Bytes.set?
            rw [if_pos (by omega)]
          have hregions : (n.toOutermost.map Region.toByte).length = n.depth := by
            simp
          have hfits : blobSize + 1 + (n.toOutermost.map Region.toByte).length ≤ buffer.length := by
            omega
          have hover := Bytes.overwrite?_set _ (UInt8.ofNat n.depth) hfits
          rw [hregions] at hover
          rw [hset, Option.bind_some, hover]
          rfl

/--
Writing a nesting behind a blob is exact and all or nothing. It succeeds exactly if the depth fits
into a byte, the blob is as long as its header announces, and there is room for the nesting. Then
only the bytes of the nesting change. Otherwise the first condition that fails tells the fault, and
the buffer stays as it is. Whatever the blob size is said to be, on a machine with words of at least
16 bits no sum overflows and no index lies outside of the buffer.
-/
theorem write_all_or_nothing {width : Nat} (hwidth : 16 ≤ width) (buffer : Bytes) (blobSize : Nat)
    (n : Nesting)
    : let needed := blobSize + 1 + n.depth
      ((write buffer blobSize n).1 = .ok needed ↔ Writable buffer blobSize n)
        ∧ (Writable buffer blobSize n →
            ∃ after, write buffer blobSize n = (.ok needed, after)
              ∧ Completed buffer blobSize n after)
        ∧ (¬ Writable buffer blobSize n →
            ∃ fault, firstFault? buffer blobSize n = some fault
              ∧ write buffer blobSize n = (.error fault, buffer))
        ∧ write? width buffer blobSize n = some (write buffer blobSize n) := by
  intro needed
  refine ⟨?_, ?_, exists_firstFault?_of_not_writable, write?_eq_some hwidth ..⟩
  · rw [fst_write]
    exact writable_iff_size_eq_ok.symm
  · intro h
    exact ⟨_, write_of_writable h, h.completed⟩

theorem write_all_or_nothing_exact_fit
    : let buffer : Bytes := [9, 1, 1, 2, 3, 4, 7, 7, 7]
      let n : Nesting := ⟨[.paren, .brace]⟩
      Writable buffer 6 n
        ∧ write buffer 6 n = (.ok 9, [9, 1, 1, 2, 3, 4, 2, 1, 2])
        ∧ Completed buffer 6 n [9, 1, 1, 2, 3, 4, 2, 1, 2]
        ∧ ¬ Writable buffer 6 (n.push .brace)
        ∧ write buffer 6 (n.push .brace) = (.error (.overflow 10 9), buffer)
        ∧ write? 64 buffer (UInt64.size - 1) n = some (write buffer (UInt64.size - 1) n) := by
  intro buffer n
  have hwidth : 16 ≤ 64 := by decide
  have hfit : Writable buffer 6 n := ⟨by decide, by decide, by decide, ⟨1, rfl, rfl⟩, by decide⟩
  have hlong : ¬ Writable buffer 6 (n.push .brace) := fun h => absurd h.fits (by decide)
  have hfirst : firstFault? buffer 6 (n.push .brace) = some (.overflow 10 9) := by decide
  have hbytes : write buffer 6 n = (.ok 9, [9, 1, 1, 2, 3, 4, 2, 1, 2]) := rfl
  rcases write_all_or_nothing hwidth buffer 6 n with ⟨_, hcompleted, _, _⟩
  rcases write_all_or_nothing hwidth buffer 6 (n.push .brace) with ⟨_, _, hfault, _⟩
  rcases write_all_or_nothing hwidth buffer (UInt64.size - 1) n with ⟨_, _, _, hbounds⟩
  rcases hcompleted hfit with ⟨after, hafter, hcompleted⟩
  rw [hbytes] at hafter
  cases hafter
  rcases hfault hlong with ⟨fault, hfault, hwrite⟩
  rw [hfirst] at hfault
  cases hfault
  exact ⟨hfit, hbytes, hcompleted, hlong, hwrite, hbounds⟩

end Snapshot
end RazorTokens
