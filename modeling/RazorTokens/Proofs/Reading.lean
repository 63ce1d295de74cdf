import RazorTokens.Proofs.Normalisation

/-!
This module says exactly what is read from the part of a snapshot behind the blob: which bytes stand
for a nesting, and which fault is reported about all others. Missing regions are a fault before bad
ones, and of several bad ones the first counts.
-/

namespace RazorTokens

theorem Region.ofByte?_eq_none {b : UInt8} (hbrace : b ≠ 1) (hparen : b ≠ 2)
    : ofByte? b = none := by
  unfold ofByte?
  rw [if_neg hbrace, if_neg hparen]

namespace Snapshot

inductive Reads : Bytes → Except Fault Nesting → Prop where
  | nothing : Reads [] (.ok ∅)
  /-- All announced regions are there, the outermost first. What follows them does not matter. -/
  | regions {d : UInt8} {tags junk : Bytes} {n : Nesting}
    : tags.length = d.toNat → tags = n.toOutermost.map Region.toByte →
      Reads (d :: (tags ++ junk)) (.ok n)
  /-- Some announced regions are missing, whatever the others are. -/
  | truncated {d : UInt8} {tags : Bytes}
    : tags.length < d.toNat →
      Reads (d :: tags) (.error (.truncated (1 + d.toNat) (d :: tags).length))
  /-- None is missing, and this is the first one that is none. -/
  | badRegion {d b : UInt8} {good rest : Bytes}
    : good.length < d.toNat → d.toNat ≤ (good ++ b :: rest).length →
      (∀ tag ∈ good, tag = 1 ∨ tag = 2) → b ≠ 1 → b ≠ 2 →
      Reads (d :: (good ++ b :: rest)) (.error (.badRegion b))

theorem regionsOf_append_bad {good : Bytes} (hgood : ∀ tag ∈ good, tag = 1 ∨ tag = 2) {b : UInt8}
    (hbrace : b ≠ 1) (hparen : b ≠ 2) (rest : Bytes)
    : regionsOf (good ++ b :: rest) = .error (.badRegion b) := by
  rcases exists_regions_of_forall hgood with ⟨rs, rfl⟩
  clear hgood
  induction rs with
  | nil =>
    rw [List.map_nil, List.nil_append]
    unfold regionsOf
    rw [Region.ofByte?_eq_none hbrace hparen]
  | cons r rs ih =>
    rw [List.map_cons, List.cons_append]
    unfold regionsOf
    rw [Region.ofByte?_toByte, ih]
    rfl

theorem all_regions_or_first_bad (bytes : Bytes)
    : (∀ tag ∈ bytes, tag = 1 ∨ tag = 2)
        ∨ ∃ good b rest, bytes = good ++ b :: rest
            ∧ (∀ tag ∈ good, tag = 1 ∨ tag = 2) ∧ b ≠ 1 ∧ b ≠ 2 := by
  induction bytes with
  | nil =>
    left
    simp
  | cons b bytes ih =>
    by_cases hb : b = 1 ∨ b = 2
    · rcases ih with hall | ⟨good, bad, rest, rfl, hgood, hbad⟩
      · left
        rw [List.forall_mem_cons]
        exact ⟨hb, hall⟩
      · right
        refine ⟨b :: good, bad, rest, rfl, ?_, hbad⟩
        rw [List.forall_mem_cons]
        exact ⟨hb, hgood⟩
    · right
      rw [not_or] at hb
      exact ⟨[], b, bytes, rfl, by simp, hb⟩

theorem nestingOf_cons_append {d : UInt8} {tags junk : Bytes} (h : tags.length = d.toNat)
    : nestingOf (d :: (tags ++ junk)) = (regionsOf tags).map Nesting.ofOutermost := by
  unfold nestingOf
  dsimp only
  rw [if_neg]
  · rw [List.take_left' h]
  · rw [List.length_append]
    omega

namespace Reads

variable {bytes : Bytes} {result : Except Fault Nesting}

theorem nestingOf_eq (h : Reads bytes result) : nestingOf bytes = result := by
  cases h with
  | nothing => rfl
  | regions hlength htags =>
    rw [nestingOf_cons_append hlength, htags, regionsOf_map_toByte]
    simp [Except.map]
  | truncated hmissing =>
    unfold nestingOf
    dsimp only
    rw [if_pos hmissing, List.length_cons, Nat.add_comm 1 (List.length _)]
  | @badRegion d b good rest hless hle hgood hbrace hparen =>
    -- The bad byte is among the announced ones, so a part of what follows it may be as well.
    have hsplit : good ++ b :: rest
        = (good ++ b :: rest.take (d.toNat - good.length - 1))
          ++ rest.drop (d.toNat - good.length - 1) := by
      simp
    rw [List.length_append, List.length_cons] at hle
    rw [hsplit, nestingOf_cons_append, regionsOf_append_bad hgood hbrace hparen]
    · rfl
    · simp
      omega

end Reads

theorem exists_reads (bytes : Bytes) : ∃ result, Reads bytes result := by
  cases bytes with
  | nil => exact ⟨_, .nothing⟩
  | cons d tags =>
    by_cases hmissing : tags.length < d.toNat
    · exact ⟨_, .truncated hmissing⟩
    · have htake : (tags.take d.toNat).length = d.toNat := by
        rw [List.length_take]
        omega
      have htags := List.take_append_drop d.toNat tags
      rcases all_regions_or_first_bad (tags.take d.toNat)
        with hall | ⟨good, b, rest, heq, hgood, hbrace, hparen⟩
      · rcases exists_regions_of_forall hall with ⟨rs, hrs⟩
        refine ⟨.ok (.ofOutermost rs), ?_⟩
        rw [← htags]
        apply Reads.regions htake
        rw [Nesting.toOutermost_ofOutermost, hrs]
      · refine ⟨.error (.badRegion b), ?_⟩
        rw [heq, List.length_append, List.length_cons] at htake
        rw [← htags, heq, List.append_assoc, List.cons_append]
        apply Reads.badRegion _ _ hgood hbrace hparen
        · omega
        · simp only [List.length_append, List.length_cons]
          omega

/--
Reading a nesting is exact. The result is a nesting only if no bytes are there at all, or if all the
announced regions are there and each byte stands for one, and otherwise the fault tells what is
missing or which byte is the first bad one. What was written is read back, whatever follows it.
-/
theorem nestingOf_eq_iff_reads
    : (∀ (bytes : Bytes) (result : Except Fault Nesting),
        nestingOf bytes = result ↔ Reads bytes result)
        ∧ ∀ (n : Nesting) (junk : Bytes), n.depth ≤ 255 →
            nestingOf (nestingBytes n ++ junk) = .ok n := by
  constructor
  · intro bytes result
    constructor
    · rintro rfl
      rcases exists_reads bytes with ⟨result, hresult⟩
      rw [hresult.nestingOf_eq]
      exact hresult
    · exact Reads.nestingOf_eq
  · intro n junk hdepth
    exact nestingOf_nestingBytes_append n hdepth junk

theorem nestingOf_eq_iff_reads_truncated_before_bad
    : let n : Nesting := ⟨List.replicate 254 .brace ++ [.paren]⟩
      n.depth ≤ 255
        ∧ nestingOf (nestingBytes n ++ [7]) = .ok n
        ∧ Reads [2, 1, 2, 9] (.ok ⟨[.paren, .brace]⟩)
        ∧ Reads [3, 9, 1] (.error (.truncated 4 3))
        ∧ Reads [3, 1, 9, 8, 2] (.error (.badRegion 9))
        ∧ ¬ Reads [3, 1, 9, 8, 2] (.error (.badRegion 8)) := by
  intro n
  have hdepth : n.depth ≤ 255 := by
    simp only [n, Nesting.depth, List.length_append, List.length_replicate, List.length_singleton]
    omega
  rcases nestingOf_eq_iff_reads with ⟨hreads, hwritten⟩
  refine ⟨hdepth, hwritten n [7] hdepth, ?_, ?_, ?_, ?_⟩
  · rw [← hreads]
    rfl
  · rw [← hreads]
    rfl
  · rw [← hreads]
    rfl
  · rw [← hreads]
    intro heq
    cases heq

end Snapshot
end RazorTokens
