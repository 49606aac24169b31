import TransparencyLog.Proofs.Tree.Words

/-!
# Positions in words

The positions of the tree as they are computed with machine words: nodes and sizes have 64 bits, levels
have 32. A sum that does not fit, a difference below zero and a shift by too many places stop the
computation. On the tree's own positions nothing is stopped, and the words are the numbers.

* `Word.sub`, `Word.shiftLeft`, `Word.shiftRight`, `Level.next`, `Level.sub`: operations that may be
  stopped, each with what keeps it going; `Word.exists_pred`, `Word.toNat_half_lt`: the steps of a loop;
* `Word.leadingZeros`, **`Word.leadingZeros_spec`**: the length of a word;
* `isRightWord`, `siblingWord`, `splitPointWord`, `levelSizeWord`, `levelCountWord`: positions;
* **`exists_splitPointWord`**, **`exists_levelCountWord`**: where a tree divides, and how high it is.
-/

namespace TransparencyLog.Tree

/-! ## Words -/

/-- The difference of two words, unless it is below zero. -/
def Word.sub (a b : UInt64) : Except Trap UInt64 :=
  if b ≤ a then .ok (a - b) else .error .wrapped

/-- A word moved up by fewer places than it has. -/
def Word.shiftLeft (a : UInt64) (places : UInt32) : Except Trap UInt64 :=
  if places < 64 then .ok (a <<< places.toUInt64) else .error .wrapped

/-- A word moved down by fewer places than it has. -/
def Word.shiftRight (a : UInt64) (places : UInt32) : Except Trap UInt64 :=
  if places < 64 then .ok (a >>> places.toUInt64) else .error .wrapped

/-- The number of zero bits in front of a word's first one. -/
def Word.leadingZeros (a : UInt64) : UInt32 := .ofNat a.toBitVec.clz.toNat

/-- The level above. -/
def Level.next (level : UInt32) : Except Trap UInt32 :=
  if level.toNat + 1 < UInt32.size then .ok (level + 1) else .error .wrapped

/-- The difference of two levels, unless it is below zero. -/
def Level.sub (a b : UInt32) : Except Trap UInt32 :=
  if b ≤ a then .ok (a - b) else .error .wrapped

section Operations

variable {a b : UInt64} {places level level' : UInt32}

theorem Word.exists_sub (h : b.toNat ≤ a.toNat) :
    ∃ c, Word.sub a b = .ok c ∧ c.toNat = a.toNat - b.toNat := by
  have hle : b ≤ a := UInt64.le_iff_toNat_le.mpr h
  exact ⟨a - b, if_pos hle, UInt64.toNat_sub_of_le a b hle⟩

/-- The word before one that is not zero. -/
theorem Word.exists_pred (h : 0 < a.toNat) :
    ∃ before, Word.sub a 1 = .ok before ∧ before.toNat = a.toNat - 1 := exists_sub h

/-- A word of one more bit has a half of one bit less. -/
theorem Word.toNat_half_lt {bits : Nat} (h : a.toNat < 2 ^ (bits + 1)) : (a / 2).toNat < 2 ^ bits := by
  change a.toNat / 2 < _
  rw [Nat.pow_succ] at h
  omega

theorem Word.exists_shiftRight (h : places.toNat < 64) :
    ∃ c, Word.shiftRight a places = .ok c ∧ c.toNat = a.toNat >>> places.toNat := by
  have hlt : places < 64 := UInt32.lt_iff_toNat_lt.mpr h
  refine ⟨_, if_pos hlt, ?_⟩
  rw [UInt64.toNat_shiftRight, UInt32.toNat_toUInt64, Nat.mod_eq_of_lt h]

/-- A one moved up is a power of two. -/
theorem Word.exists_shiftLeft_one (h : places.toNat < 64) :
    ∃ c, Word.shiftLeft 1 places = .ok c ∧ c.toNat = 2 ^ places.toNat := by
  have hlt : places < 64 := UInt32.lt_iff_toNat_lt.mpr h
  refine ⟨_, if_pos hlt, ?_⟩
  rw [UInt64.toNat_shiftLeft, UInt32.toNat_toUInt64, Nat.mod_eq_of_lt h, UInt64.toNat_one,
    Nat.one_shiftLeft]
  exact Nat.mod_eq_of_lt (Nat.pow_lt_pow_right (by decide) h)

theorem Level.exists_next (level : UInt32) (h : level.toNat + 1 < UInt32.size) :
    ∃ above, Level.next level = .ok above ∧ above.toNat = level.toNat + 1 := by
  refine ⟨level + 1, if_pos h, ?_⟩
  rw [UInt32.toNat_add]
  exact Nat.mod_eq_of_lt h

theorem Level.exists_sub (h : level'.toNat ≤ level.toNat) :
    ∃ c, Level.sub level level' = .ok c ∧ c.toNat = level.toNat - level'.toNat := by
  have hle : level' ≤ level := UInt32.le_iff_toNat_le.mpr h
  exact ⟨level - level', if_pos hle, UInt32.toNat_sub_of_le level level' hle⟩

/-- **The length of a word.** Without its leading zeros a word has just the bits it needs. -/
theorem Word.leadingZeros_spec (h : a ≠ 0) : (leadingZeros a).toNat < 64 ∧
    2 ^ (63 - (leadingZeros a).toNat) ≤ a.toNat ∧ a.toNat < 2 ^ (64 - (leadingZeros a).toNat) := by
  have hne : a.toBitVec ≠ 0#64 := fun hzero => h (UInt64.toBitVec_inj.mp hzero)
  have hlt : a.toBitVec.clz.toNat < 64 := BitVec.lt_def.mp (BitVec.clz_lt_iff_ne_zero.mpr hne)
  have hzeros : (leadingZeros a).toNat = a.toBitVec.clz.toNat := by
    rw [leadingZeros, UInt32.toNat_ofNat']
    exact Nat.mod_eq_of_lt (Nat.lt_trans hlt (by decide))
  rw [hzeros]
  exact ⟨hlt, BitVec.two_pow_sub_clz_le_toNat_of_ne_zero (by decide) hne,
    BitVec.toNat_lt_two_pow_sub_clz⟩

end Operations

/-! ## Positions -/

/-- Whether a node is the right child of its parent. -/
def isRightWord (node : UInt64) : Bool := node % 2 == 1

/-- The other child of a node's parent. -/
def siblingWord (node : UInt64) : Except Trap UInt64 :=
  if isRightWord node then Word.sub node 1 else Word.add node 1

/-- The largest power of two below a size; zero when there is none. -/
def splitPointWord (size : UInt64) : Except Trap UInt64 :=
  if size ≤ 1 then .ok 0
  else do
    let last ← Word.sub size 1
    let log ← Level.sub 63 (Word.leadingZeros last)
    Word.shiftLeft 1 log

/-- The number of complete subtrees on a level. -/
def levelSizeWord (size : UInt64) (level : UInt32) : Except Trap UInt64 :=
  if 64 ≤ level then .ok 0 else Word.shiftRight size level

/-- The number of levels that have a complete subtree. -/
def levelCountWord (size : UInt64) : Except Trap UInt32 :=
  if size = 0 then .ok 1 else Level.sub 64 (Word.leadingZeros size)

section Positions

variable {node size : UInt64} {level : UInt32}

theorem isRightWord_eq : isRightWord node = isRight node.toNat := by
  have hparity : node % 2 = 1 ↔ node.toNat % 2 = 1 := UInt64.toNat_inj.symm
  rw [isRightWord, isRight, beq_eq_decide, beq_eq_decide]
  exact decide_eq_decide.mpr hparity

theorem isRight_iff {node : Nat} : isRight node = true ↔ node % 2 = 1 := beq_iff_eq

theorem isRightWord_iff : isRightWord node = true ↔ node.toNat % 2 = 1 := by
  rw [isRightWord_eq, isRight_iff]

/-- A right child has a node before it, and a left child is not the largest word. -/
theorem exists_siblingWord (node : UInt64) :
    ∃ other, siblingWord node = .ok other ∧ other.toNat = sibling node.toNat := by
  have hlt := node.toNat_lt
  rw [siblingWord, sibling, isRightWord_eq]
  by_cases hright : isRight node.toNat = true
  · have hodd := isRight_iff.mp hright
    rw [if_pos hright, if_pos hright]
    exact Word.exists_pred (by omega)
  · have heven := mt isRight_iff.mpr hright
    have hfits : node.toNat + (1 : UInt64).toNat < UInt64.size := by
      change node.toNat + 1 < 2 ^ 64
      omega
    rw [if_neg hright, if_neg hright]
    exact ⟨_, Word.add_eq hfits, Word.toNat_add hfits⟩

/-- **Where a tree divides.** -/
theorem exists_splitPointWord (size : UInt64) :
    ∃ k, splitPointWord size = .ok k ∧ k.toNat = splitPoint size.toNat := by
  have hsize : size ≤ 1 ↔ size.toNat ≤ 1 := UInt64.le_iff_toNat_le
  rw [splitPointWord, splitPoint]
  by_cases hone : size.toNat ≤ 1
  · rw [if_pos (hsize.mpr hone), if_pos hone]
    exact ⟨0, rfl, rfl⟩
  · obtain ⟨last, hlast, hpred⟩ := Word.exists_pred (a := size) (by omega)
    have hzero : last ≠ 0 := fun h => by
      rw [h, UInt64.toNat_zero] at hpred
      omega
    obtain ⟨hzeros, hlow, hhigh⟩ := Word.leadingZeros_spec hzero
    obtain ⟨log, hlog, hlog'⟩ : ∃ log, Level.sub 63 (Word.leadingZeros last) = .ok log ∧
        log.toNat = 63 - (Word.leadingZeros last).toNat :=
      Level.exists_sub (by change _ ≤ 63; omega)
    have hlt : log.toNat < 64 := by omega
    obtain ⟨k, hk, hpow⟩ := Word.exists_shiftLeft_one hlt
    have hlog2 : (size.toNat - 1).log2 = log.toNat := by
      rw [← hpred, Nat.log2_eq_iff (by omega), hlog']
      exact ⟨hlow, by rwa [show 63 - (Word.leadingZeros last).toNat + 1 =
        64 - (Word.leadingZeros last).toNat by omega]⟩
    rw [if_neg (mt hsize.mp hone), if_neg hone, hlast, ok_bind, hlog, ok_bind, hlog2, Nat.one_shiftLeft]
    exact ⟨k, hk, hpow⟩

theorem exists_levelSizeWord (size : UInt64) (level : UInt32) :
    ∃ count, levelSizeWord size level = .ok count ∧ count.toNat = levelSize size.toNat level.toNat := by
  have hlevel : 64 ≤ level ↔ 64 ≤ level.toNat := UInt32.le_iff_toNat_le
  rw [levelSizeWord]
  by_cases htop : 64 ≤ level.toNat
  · have hlt : size.toNat < 2 ^ level.toNat :=
      Nat.lt_of_lt_of_le size.toNat_lt (Nat.pow_le_pow_right (by decide) htop)
    rw [if_pos (hlevel.mpr htop), levelSize, Nat.shiftRight_eq_div_pow, Nat.div_eq_of_lt hlt]
    exact ⟨0, rfl, rfl⟩
  · rw [if_neg (mt hlevel.mp htop)]
    exact Word.exists_shiftRight (by omega)

/-- **How high a tree is**: it has complete subtrees on the levels below the count, and on no others. -/
theorem exists_levelCountWord (h : size ≠ 0) : ∃ levels, levelCountWord size = .ok levels ∧
    levels.toNat ≤ 64 ∧ ∀ level, level < levels.toNat ↔ levelSize size.toNat level ≠ 0 := by
  obtain ⟨hzeros, hlow, hhigh⟩ := Word.leadingZeros_spec h
  obtain ⟨levels, hlevels, hcount⟩ : ∃ levels, Level.sub 64 (Word.leadingZeros size) = .ok levels ∧
      levels.toNat = 64 - (Word.leadingZeros size).toNat :=
    Level.exists_sub (by change _ ≤ 64; omega)
  rw [levelCountWord, if_neg h]
  refine ⟨levels, hlevels, by omega, fun level => ?_⟩
  rw [levelSize, Nat.shiftRight_eq_div_pow, ne_eq, Nat.div_eq_zero_iff_lt (Nat.two_pow_pos level),
    Nat.not_lt]
  constructor
  · intro hlt
    exact Nat.le_trans (Nat.pow_le_pow_right (by decide) (by omega)) hlow
  · intro hle
    have := (Nat.pow_lt_pow_iff_right (by decide : 1 < 2)).mp (Nat.lt_of_le_of_lt hle hhigh)
    omega

end Positions

end TransparencyLog.Tree
