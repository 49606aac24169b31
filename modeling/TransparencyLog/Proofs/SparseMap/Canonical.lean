import Mathlib.Data.List.GetD
import TransparencyLog.Proofs.SparseMap.Compressed

/-!
# Which compressed proofs expand

A compressed proof comes from anywhere, so its depth, bitmap and list may not fit together. It expands
exactly if the list has one sibling for each mark, and then those stand at the marked positions and
default hashes at all others. Compressing this again gives the same proof exactly if nothing was listed
that goes without saying.

* `CompressedProof.marked`: the positions that a bitmap marks;
* `CompressedProof.WellFormed`, `CompressedProof.StandsFor`, `CompressedProof.Canonical`: proofs that fit
  together, the siblings of one, and proofs that list no default hash;
* **`CompressedProof.expand_eq_ok_iff`**, `CompressedProof.ofSiblings_eq_iff`: the two ways;
* **`CompressedProof.expand_exact`**: both of them, for all proofs.
-/

namespace TransparencyLog.CompressedProof

/-- The bit of a bitmap for a position, from the lowest bit of the first byte on. -/
def isMarked (bitmap : Bytes) (i : Nat) : Bool := (bitmap.getD (i / 8) 0).toNat.testBit (i % 8)

/-- The positions that a bitmap marks, in order. -/
def marked (bitmap : Bytes) : List Nat :=
  (List.range (8 * bitmap.length)).filter (isMarked bitmap)

/-- Depth, bitmap and list fit together: as many siblings are listed as positions are marked. -/
structure WellFormed (proof : CompressedProof) : Prop where
  depth_eq : proof.depth = 256
  length_bitmap : proof.bitmap.length = 32
  length_marked : (marked proof.bitmap).length = proof.siblings.length

/-- The listed siblings stand in order at the marked positions, and default hashes at the others. -/
structure StandsFor (proof : CompressedProof) (siblings : List Digest) : Prop where
  length_eq : siblings.length = 256
  listed : (marked proof.bitmap).map (fun i => siblings[i]?) = proof.siblings.map some
  others : ∀ i < 256, i ∉ marked proof.bitmap → siblings[i]? = some (SparseMap.defaultHash i)

/-- No listed sibling is the default hash of its position. -/
def Canonical (proof : CompressedProof) : Prop :=
  ∀ entry ∈ (marked proof.bitmap).zip proof.siblings, entry.2 ≠ SparseMap.defaultHash entry.1

variable {siblings : List Digest} {bitmap : Bytes} {proof : CompressedProof}

/-! ## Bitmaps -/

theorem unpackBits_eq (bitmap : Bytes) :
    unpackBits bitmap = (List.range (8 * bitmap.length)).map (isMarked bitmap) := by
  induction bitmap with
  | nil => rfl
  | cons b rest ih =>
    have hlow : (List.range 8).map b.toNat.testBit = (List.range 8).map (isMarked (b :: rest)) :=
      rfl
    have hhigh : (List.range (8 * rest.length)).map (isMarked rest) =
        (List.range (8 * rest.length)).map (isMarked (b :: rest) ∘ fun i => 8 + i) := by
      refine List.map_congr_left fun i _ => ?_
      have hdiv : (8 + i) / 8 = i / 8 + 1 := by omega
      have hmod : (8 + i) % 8 = i % 8 := by omega
      rw [Function.comp_apply, isMarked, isMarked, hdiv, hmod, List.getD_cons_succ]
    rw [unpackBits, List.flatMap_cons, ← unpackBits, ih, hlow, hhigh, List.length_cons, Nat.mul_add,
      Nat.mul_one, Nat.add_comm (8 * rest.length), List.range_add, List.map_append, List.map_map]

theorem length_unpackBits (bitmap : Bytes) : (unpackBits bitmap).length = 8 * bitmap.length := by
  rw [unpackBits_eq, List.length_map, List.length_range]

theorem getElem?_unpackBits {i : Nat} (hi : i < 8 * bitmap.length) :
    (unpackBits bitmap)[i]? = some (isMarked bitmap i) := by
  rw [unpackBits_eq, List.getElem?_map, List.getElem?_range hi, Option.map_some]

theorem mem_marked {i : Nat} : i ∈ marked bitmap ↔ i < 8 * bitmap.length ∧ isMarked bitmap i = true := by
  rw [marked, List.mem_filter, List.mem_range]

theorem count_unpackBits (bitmap : Bytes) :
    (unpackBits bitmap).count true = (marked bitmap).length := by
  rw [unpackBits_eq, List.count, List.countP_map, List.countP_eq_length_filter, marked]
  congr 2
  funext i
  simp

/-- A byte is made of its bits. -/
theorem ofNat_bits (b : UInt8) : UInt8.ofNat (bitsNumber ((List.range 8).map b.toNat.testBit)) = b :=
  byte_eq_of_testBit fun i hi =>
    List.map_inj_left.mp (bits_ofNat (by simp)) i (List.mem_range.mpr hi)

/-- **A bitmap is made of its bits.** -/
theorem packBits_unpackBits (bitmap : Bytes) :
    packBits bitmap.length (unpackBits bitmap) = bitmap := by
  induction bitmap with
  | nil => rfl
  | cons b rest ih =>
    have hlength : ((List.range 8).map b.toNat.testBit).length = 8 := by simp
    rw [unpackBits, List.flatMap_cons, ← unpackBits, List.length_cons, packBits,
      List.take_left' hlength, List.drop_left' hlength, ofNat_bits, ih]

/-! ## Positions -/

theorem kept_map (positions : List Nat) (flag : Nat → Bool) (sibling : Nat → Digest) :
    kept (positions.map flag) (positions.map sibling) = (positions.filter flag).map sibling := by
  induction positions with
  | nil => rfl
  | cons i positions ih =>
    rw [List.map_cons, List.map_cons, kept_cons, ih, List.filter_cons]
    split <;> rfl

/-- What the flags of a bitmap keep is what stands at the positions that it marks. -/
theorem kept_unpackBits (length_eq : siblings.length = 8 * bitmap.length) :
    kept (unpackBits bitmap) siblings =
      (marked bitmap).map fun i => siblings.getD i Digest.zero := by
  have hsiblings : siblings =
      (List.range (8 * bitmap.length)).map fun i => siblings.getD i Digest.zero := by
    apply List.ext_getElem
    · rw [List.length_map, List.length_range, length_eq]
    · intro i hi _
      rw [List.getElem_map, List.getElem_range, List.getD_eq_getElem _ _ hi]
  rw [marked, ← kept_map, ← unpackBits_eq, ← hsiblings]

/-- A marked position is one of the siblings. -/
theorem getElem?_of_mem_marked (length_eq : siblings.length = 8 * bitmap.length) {i : Nat}
    (hi : i ∈ marked bitmap) : siblings[i]? = some (siblings.getD i Digest.zero) := by
  have hlt : i < siblings.length := length_eq ▸ (mem_marked.mp hi).1
  rw [List.getD_eq_getElem _ _ hlt, List.getElem?_eq_getElem hlt]

theorem filledFrom_unpackBits :
    FilledFrom 0 (unpackBits bitmap) siblings ↔ ∀ i < 8 * bitmap.length, i ∉ marked bitmap →
      siblings[i]? = some (SparseMap.defaultHash i) := by
  refine forall_congr' fun i => ?_
  rw [Nat.zero_add]
  by_cases hi : i < 8 * bitmap.length
  · rw [getElem?_unpackBits hi, Option.some.injEq, mem_marked]
    simp [hi]
  · rw [List.getElem?_eq_none (by rw [length_unpackBits]; omega)]
    simp [hi]

/-- Siblings that are filled in have the flags of the bitmap again if no default hash is marked. -/
theorem presence_eq_iff (length_eq : siblings.length = 8 * bitmap.length)
    (filled : FilledFrom 0 (unpackBits bitmap) siblings) :
    presence 0 siblings = unpackBits bitmap ↔
      ∀ i ∈ marked bitmap, siblings.getD i Digest.zero ≠ SparseMap.defaultHash i := by
  rw [filledFrom_unpackBits] at filled
  constructor
  · intro h i hi hdefault
    have hflag := congrArg (fun flags : List Bool => flags[i]?) h
    simp only [getElem?_presence, getElem?_of_mem_marked length_eq hi, Option.map_some,
      getElem?_unpackBits (mem_marked.mp hi).1, (mem_marked.mp hi).2, hdefault] at hflag
    simp at hflag
  · intro h
    refine List.ext_getElem? fun i => ?_
    rw [getElem?_presence]
    by_cases hi : i < 8 * bitmap.length
    · rw [getElem?_unpackBits hi]
      by_cases hmarked : i ∈ marked bitmap
      · rw [getElem?_of_mem_marked length_eq hmarked, (mem_marked.mp hmarked).2]
        simpa using h i hmarked
      · have hflag : isMarked bitmap i = false := by
          rw [mem_marked] at hmarked
          simpa [hi] using hmarked
        rw [filled i hi hmarked, hflag]
        simp
    · rw [List.getElem?_eq_none (by omega), List.getElem?_eq_none (by rw [length_unpackBits]; omega)]
      rfl

/-! ## Expanding and compressing -/

theorem expand_eq_ok_iff_refill : proof.expand = .ok siblings ↔ proof.depth = 256 ∧
    proof.bitmap.length = 32 ∧ refill 0 (unpackBits proof.bitmap) proof.siblings = some siblings := by
  rw [expand, siblings?]
  by_cases hfits : proof.depth = 256 ∧ proof.bitmap.length = 32
  · rw [if_pos hfits]
    cases refill 0 (unpackBits proof.bitmap) proof.siblings <;> simp [hfits.1, hfits.2]
  · rw [if_neg hfits]
    constructor
    · rintro ⟨⟩
    · rintro ⟨hdepth, hbitmap, -⟩
      exact absurd ⟨hdepth, hbitmap⟩ hfits

/-- **A proof that fits together** expands to the siblings that it stands for. -/
theorem expand_eq_ok_iff : proof.expand = .ok siblings ↔ proof.WellFormed ∧ proof.StandsFor siblings := by
  rw [expand_eq_ok_iff_refill]
  constructor
  · rintro ⟨hdepth, hbitmap, hrefill⟩
    have hcount := isSome_refill.mp (Option.isSome_of_eq_some hrefill)
    rw [count_unpackBits] at hcount
    obtain ⟨hlength, hkept, hfilled⟩ := refill_eq_some_iff.mp hrefill
    rw [length_unpackBits] at hlength
    have hothers := filledFrom_unpackBits.mp hfilled
    refine ⟨⟨hdepth, hbitmap, hcount⟩, ⟨by rw [hlength, hbitmap], ?_, by rwa [hbitmap] at hothers⟩⟩
    rw [← hkept, kept_unpackBits hlength, List.map_map]
    exact List.map_congr_left fun i hi => getElem?_of_mem_marked hlength hi
  · rintro ⟨⟨hdepth, hbitmap, -⟩, ⟨hlength, hlisted, hothers⟩⟩
    have hlength' : siblings.length = 8 * proof.bitmap.length := by rw [hlength, hbitmap]
    refine ⟨hdepth, hbitmap, refill_eq_some_iff.mpr ⟨?_, ?_, ?_⟩⟩
    · rw [length_unpackBits, hlength']
    · refine (List.map_inj_right fun _ _ => Option.some.inj).mp ?_
      rw [← hlisted, kept_unpackBits hlength', List.map_map]
      exact List.map_congr_left fun i hi => (getElem?_of_mem_marked hlength' hi).symm
    · rw [filledFrom_unpackBits, hbitmap]
      exact hothers

theorem expand_of_wellFormed (h : proof.WellFormed) : ∃ siblings, proof.expand = .ok siblings := by
  have hcount := h.length_marked
  rw [← count_unpackBits] at hcount
  obtain ⟨siblings, hrefill⟩ := Option.isSome_iff_exists.mp (isSome_refill (h := 0).mpr hcount)
  exact ⟨siblings, expand_eq_ok_iff_refill.mpr ⟨h.depth_eq, h.length_bitmap, hrefill⟩⟩

theorem expand_of_not_wellFormed (h : ¬ proof.WellFormed) : proof.expand = .error .invalidProof := by
  rw [expand]
  cases hfound : proof.siblings? with
  | none => rfl
  | some siblings =>
    have hexpand : proof.expand = .ok siblings := by rw [expand, hfound]
    exact absurd (expand_eq_ok_iff.mp hexpand).1 h

/-- What is listed is what stands at the marked positions, so no default hash is among the one exactly
if none is among the other. -/
theorem canonical_iff (hkept : proof.siblings = (marked proof.bitmap).map fun i =>
    siblings.getD i Digest.zero) : proof.Canonical ↔ ∀ i ∈ marked proof.bitmap,
      siblings.getD i Digest.zero ≠ SparseMap.defaultHash i := by
  have hzip : (marked proof.bitmap).zip proof.siblings =
      (marked proof.bitmap).map fun i => (i, siblings.getD i Digest.zero) := by
    have hsame := @List.zip_map' _ _ _ id (fun i => siblings.getD i Digest.zero)
      (marked proof.bitmap)
    rwa [List.map_id, ← hkept] at hsame
  rw [Canonical, hzip, List.forall_mem_map]

/-- **Compressing what was expanded** gives the same proof if that listed no default hash. -/
theorem ofSiblings_eq_iff (h : proof.expand = .ok siblings) :
    ofSiblings siblings = proof ↔ proof.Canonical := by
  obtain ⟨hdepth, hbitmap, hrefill⟩ := expand_eq_ok_iff_refill.mp h
  obtain ⟨hlength, hkept, hfilled⟩ := refill_eq_some_iff.mp hrefill
  rw [length_unpackBits] at hlength
  have hheight : siblings.length = 8 * 32 := by rw [hlength, hbitmap]
  rw [kept_unpackBits hlength] at hkept
  have hcompressed : ofSiblings siblings = proof ↔
      presence 0 siblings = unpackBits proof.bitmap := by
    rw [ofSiblings_eq hheight]
    constructor
    · intro heq
      rw [← heq]
      refine (unpackBits_packBits ?_).symm
      rw [length_presence, hheight]
    · intro heq
      rw [heq, kept_unpackBits hlength, hkept, ← hbitmap, packBits_unpackBits, ← hdepth]
  rw [hcompressed, presence_eq_iff hlength hfilled, canonical_iff hkept.symm]

/-- **Compressed proofs**, wherever they come from. One expands exactly if its depth is 256, its bitmap
has 32 bytes and it lists one sibling for each mark; every other one is an invalid proof. It expands to
256 siblings, the listed ones at the marks and default hashes elsewhere, and these compress to the same
proof exactly if it lists no default hash. What was compressed from 256 siblings expands to them. -/
theorem expand_exact (proof : CompressedProof) :
    ((∃ siblings, proof.expand = .ok siblings) ↔ proof.WellFormed) ∧
      (¬ proof.WellFormed → proof.expand = .error .invalidProof) ∧
      (∀ siblings, proof.expand = .ok siblings →
        proof.StandsFor siblings ∧ (ofSiblings siblings = proof ↔ proof.Canonical)) ∧
      ∀ siblings : List Digest, siblings.length = 256 →
        (ofSiblings siblings).expand = .ok siblings := by
  refine ⟨⟨?_, expand_of_wellFormed⟩, expand_of_not_wellFormed, fun siblings h => ?_,
    fun _ h => expand_ofSiblings h⟩
  · rintro ⟨siblings, h⟩
    exact (expand_eq_ok_iff.mp h).1
  · exact ⟨(expand_eq_ok_iff.mp h).2, ofSiblings_eq_iff h⟩

end TransparencyLog.CompressedProof
