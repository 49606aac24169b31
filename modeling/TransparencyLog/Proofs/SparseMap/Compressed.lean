import Mathlib.Algebra.Group.Nat.Defs
import TransparencyLog.Proofs.SparseMap.Tree
import TransparencyLog.SparseMap.Compressed

/-!
# Compressed proofs read back

The bitmap of a compressed proof tells which siblings are listed, and the others are default hashes. So
a proof that was compressed expands to the one it was.

* `CompressedProof.testBit_bitsNumber`, `CompressedProof.bits_ofNat`: a byte and its bits;
* `CompressedProof.unpackBits_packBits`: a bitmap and its flags;
* **`CompressedProof.refill_eq_some_iff`**: what is put where;
* `CompressedProof.refill_presence`: putting the listed siblings back;
* **`CompressedProof.expand_ofSiblings`**: expanding what was compressed.
-/

namespace TransparencyLog.CompressedProof

variable {h : Nat} {flags : List Bool} {listed siblings : List Digest}

/-! ## Bitmaps -/

theorem testBit_bitsNumber (bits : List Bool) (i : Nat) :
    (bitsNumber bits).testBit i = bits.getD i false := by
  induction bits generalizing i with
  | nil => simp [bitsNumber]
  | cons bit rest ih =>
    have hbit := bit.toNat_lt
    cases i with
    | zero =>
      have hmod : (bit.toNat + 2 * bitsNumber rest) % 2 = bit.toNat := by omega
      rw [bitsNumber, Nat.testBit_zero, hmod]
      cases bit <;> rfl
    | succ i =>
      have hdiv : (bit.toNat + 2 * bitsNumber rest) / 2 = bitsNumber rest := by omega
      rw [bitsNumber, Nat.testBit_succ, hdiv, ih, List.getD_cons_succ]

theorem bitsNumber_lt (bits : List Bool) : bitsNumber bits < 2 ^ bits.length := by
  induction bits with
  | nil => exact Nat.one_pos
  | cons bit rest ih =>
    have hbit := bit.toNat_lt
    rw [bitsNumber, List.length_cons, Nat.pow_succ]
    omega

/-- A byte has the bits that it is made of. -/
theorem bits_ofNat {bits : List Bool} (h : bits.length = 8) :
    (List.range 8).map (UInt8.ofNat (bitsNumber bits)).toNat.testBit = bits := by
  have hlt := bitsNumber_lt bits
  rw [h] at hlt
  apply List.ext_getElem
  · rw [List.length_map, List.length_range, h]
  · intro i hi hi'
    rw [List.getElem_map, List.getElem_range, UInt8.toNat_ofNat_of_lt' hlt, testBit_bitsNumber,
      List.getD_eq_getElem?_getD, List.getElem?_eq_getElem hi', Option.getD_some]

theorem length_packBits (count : Nat) (flags : List Bool) : (packBits count flags).length = count := by
  induction count generalizing flags with
  | zero => rfl
  | succ count ih => rw [packBits, List.length_cons, ih]

/-- **A bitmap** has the flags that it is made of. -/
theorem unpackBits_packBits {count : Nat} {flags : List Bool} (h : flags.length = 8 * count) :
    unpackBits (packBits count flags) = flags := by
  induction count generalizing flags with
  | zero => exact (List.length_eq_zero_iff.mp h).symm
  | succ count ih =>
    have htake : (flags.take 8).length = 8 := by
      rw [List.length_take]
      omega
    have hdrop : (flags.drop 8).length = 8 * count := by
      rw [List.length_drop]
      omega
    have hrest := ih hdrop
    rw [unpackBits] at hrest ⊢
    rw [packBits, List.flatMap_cons, bits_ofNat htake, hrest, List.take_append_drop]

/-! ## Filling in -/

/-- The siblings that flags keep. -/
def kept (flags : List Bool) (siblings : List Digest) : List Digest :=
  (siblings.zip flags).filterMap fun (sibling, present) => if present then some sibling else none

theorem kept_cons (present : Bool) (flags : List Bool) (sibling : Digest) (siblings : List Digest) :
    kept (present :: flags) (sibling :: siblings) =
      if present then sibling :: kept flags siblings else kept flags siblings := by
  cases present <;> rfl

/-- The list is used up exactly if it has one sibling for each flag that is set. -/
theorem isSome_refill : (refill h flags listed).isSome = true ↔ flags.count true = listed.length := by
  induction flags generalizing h listed with
  | nil => cases listed <;> simp [refill]
  | cons present flags ih =>
    cases present with
    | false => simp [refill, ih]
    | true => cases listed <;> simp [refill, ih]

/-- Where no flag is set, default hashes stand, from height `h` on. -/
def FilledFrom (h : Nat) (flags : List Bool) (siblings : List Digest) : Prop :=
  ∀ i, flags[i]? = some false → siblings[i]? = some (SparseMap.defaultHash (h + i))

theorem filledFrom_cons {present : Bool} {sibling : Digest} :
    FilledFrom h (present :: flags) (sibling :: siblings) ↔
      (present = false → sibling = SparseMap.defaultHash h) ∧ FilledFrom (h + 1) flags siblings := by
  rw [FilledFrom, ← Nat.and_forall_add_one]
  simp only [List.getElem?_cons_zero, List.getElem?_cons_succ, Option.some.injEq, Nat.add_zero,
    FilledFrom, Nat.add_right_comm h 1, Nat.add_assoc h _ 1]

/-- **What is put where**: the listed siblings at the flags, default hashes elsewhere. -/
theorem refill_eq_some_iff : refill h flags listed = some siblings ↔
    siblings.length = flags.length ∧ kept flags siblings = listed ∧ FilledFrom h flags siblings := by
  induction flags generalizing h listed siblings with
  | nil =>
    cases listed <;> cases siblings <;> simp [refill, kept, FilledFrom]
  | cons present flags ih =>
    cases siblings with
    | nil => cases present <;> cases listed <;> simp [refill]
    | cons sibling siblings =>
      rw [filledFrom_cons, kept_cons, List.length_cons, List.length_cons, Nat.add_right_cancel_iff]
      cases present with
      | false =>
        rw [refill, Option.map_eq_some_iff]
        constructor
        · rintro ⟨rest, hrest, heq⟩
          obtain ⟨hdefault, rfl⟩ := List.cons.inj heq
          obtain ⟨hlength, hkept, hfilled⟩ := ih.mp hrest
          exact ⟨hlength, hkept, fun _ => hdefault.symm, hfilled⟩
        · rintro ⟨hlength, hkept, hdefault, hfilled⟩
          exact ⟨siblings, ih.mpr ⟨hlength, hkept, hfilled⟩, by rw [hdefault rfl]⟩
      | true =>
        rw [if_pos rfl]
        cases listed with
        | nil => simp [refill]
        | cons first listed =>
          rw [refill, Option.map_eq_some_iff, List.cons.injEq]
          constructor
          · rintro ⟨rest, hrest, heq⟩
            obtain ⟨hfirst, rfl⟩ := List.cons.inj heq
            obtain ⟨hlength, hkept, hfilled⟩ := ih.mp hrest
            exact ⟨hlength, ⟨hfirst.symm, hkept⟩, nofun, hfilled⟩
          · rintro ⟨hlength, ⟨hfirst, hkept⟩, -, hfilled⟩
            exact ⟨siblings, ih.mpr ⟨hlength, hkept, hfilled⟩, by rw [hfirst]⟩

/-! ## Siblings -/

theorem length_presence (h : Nat) (siblings : List Digest) :
    (presence h siblings).length = siblings.length := by
  induction siblings generalizing h with
  | nil => rfl
  | cons sibling rest ih => rw [presence, List.length_cons, ih, List.length_cons]

theorem getElem?_presence (h : Nat) (siblings : List Digest) (i : Nat) :
    (presence h siblings)[i]? =
      siblings[i]?.map fun sibling => sibling != SparseMap.defaultHash (h + i) := by
  induction siblings generalizing h i with
  | nil => rfl
  | cons sibling rest ih =>
    cases i with
    | zero => rfl
    | succ i =>
      rw [presence, List.getElem?_cons_succ, ih, List.getElem?_cons_succ, Nat.add_right_comm,
        Nat.add_assoc]

/-- The siblings that are listed, put back where they are flagged. -/
theorem refill_presence (h : Nat) (siblings : List Digest) :
    refill h (presence h siblings) (kept (presence h siblings) siblings) = some siblings := by
  refine refill_eq_some_iff.mpr ⟨(length_presence h siblings).symm, rfl, fun i hflag => ?_⟩
  rw [getElem?_presence, Option.map_eq_some_iff] at hflag
  obtain ⟨sibling, hsibling, hsame⟩ := hflag
  rw [hsibling, bne_eq_false_iff_eq.mp hsame]

/-- A full list of siblings is compressed as its flags keep it. -/
theorem ofSiblings_eq (length_eq : siblings.length = SparseMap.height) : ofSiblings siblings =
    ⟨256, packBits 32 (presence 0 siblings), kept (presence 0 siblings) siblings⟩ := by
  rw [ofSiblings, List.take_of_length_le length_eq.le, kept]

/-- **Expanding what was compressed.** -/
theorem expand_ofSiblings (length_eq : siblings.length = SparseMap.height) :
    (ofSiblings siblings).expand = .ok siblings := by
  have hflags : (presence 0 siblings).length = 8 * 32 := by
    rw [length_presence, length_eq]
    rfl
  rw [ofSiblings_eq length_eq, expand, siblings?, if_pos ⟨rfl, length_packBits _ _⟩,
    unpackBits_packBits hflags, refill_presence]

end TransparencyLog.CompressedProof
