import TransparencyLog.Proofs.Tree.Checked
import TransparencyLog.Proofs.Tree.Paths

/-!
# Loops with counted turns

Roots and proofs are put together from a store level by level, in loops whose ends depend on numbers that
nothing checks. Here the loops are written with words and with a bound on their turns. There are turns
enough if a loop has one for every bit of the number it halves, or for every level it passes; then each of
them ends as the computation with numbers does.

* `raiseLastWords`, `raiseWords`, `siblingsWords`, **`pathWords_eq`**: paths to the root;
* `boundaryWords`, `exists_boundaryWords`: the highest subtree that ends with a node;
* `lowestWords`, `exists_lowestWords`, `rootUpWords`, **`rootUpWords_eq`**: roots.
-/

namespace TransparencyLog.Tree

/-! ## Paths -/

/-- The digest over the last node of the next level, from the one over the last node of a level. -/
def raiseLastWords (view : Snapshot) (level : UInt32) (last : UInt64) (hash : Digest) :
    Checked Digest :=
  if isRightWord last then do
    let left ← digestWords view level (← Word.sub last 1)
    return branchHash left hash
  else return hash

/-- Raises the last node of a level and the digest over it to the level `top`. -/
def raiseWords (view : Snapshot) (top : UInt32) (turns : Nat) (level : UInt32) (last : UInt64)
    (hash : Digest) : Checked (UInt64 × Digest) :=
  if top ≤ level then return (last, hash)
  else match turns with
    | 0 => stopped .endless
    | turns + 1 => do
      let hash ← raiseLastWords view level last hash
      let above ← Level.next level
      raiseWords view top turns above (last / 2) hash

/-- What is looked up as the sibling of a node. -/
def lookupWords (view : Snapshot) (level : UInt32) (last other : UInt64) (hash : Digest) :
    Checked (Option Digest) :=
  if other < last then do
    let found ← digestWords view level other
    return some found
  else return if other = last then some hash else none

/-- The siblings from the node `index` of a level up to the root. -/
def siblingsWords (view : Snapshot) (turns : Nat) (index : UInt64) (level : UInt32) (last : UInt64)
    (hash : Digest) : Checked (List Digest) :=
  if last = 0 then return []
  else match turns with
    | 0 => stopped .endless
    | turns + 1 => do
      let other ← siblingWord index
      let found ← lookupWords view level last other hash
      let hash ← raiseLastWords view level last hash
      let above ← Level.next level
      let rest ← siblingsWords view turns (index / 2) above (last / 2) hash
      return found.toList ++ rest

/-- The path from the node `index` of a level to the root of the first `size` leaves. -/
def pathWords (view : Snapshot) (index : UInt64) (level : UInt32) (size : UInt64) :
    Checked (List Digest) :=
  if size = 0 then return []
  else do
    let last ← Word.sub size 1
    let hash ← digestWords view 0 last
    let (last, hash) ← raiseWords view level 64 0 last hash
    siblingsWords view 64 index level last hash

/-- The highest complete subtree that ends with the node `index` of a level. -/
def boundaryWords (turns : Nat) (index : UInt64) (level : UInt32) : Except Trap (UInt64 × UInt32) :=
  if isRightWord index then
    match turns with
    | 0 => .error .endless
    | turns + 1 => do boundaryWords turns (index / 2) (← Level.next level)
  else .ok (index, level)

section Paths

variable {view : Snapshot} {turns : Nat} {index last size : UInt64} {level top : UInt32} {hash : Digest}

theorem raiseLastWords_eq :
    raiseLastWords view level last hash = ended (raiseLast view level.toNat last.toNat hash) := by
  rw [raiseLastWords, raiseLast, isRightWord_eq]
  by_cases hright : isRight last.toNat = true
  · have hodd := isRight_iff.mp hright
    obtain ⟨before, hbefore, hpred⟩ := Word.exists_pred (a := last) (by omega)
    rw [if_pos hright, if_pos hright, Checked.word_bind hbefore, ← hpred]
    exact Checked.bind_eq digestWords_eq fun _ _ => rfl
  · rw [if_neg hright, if_neg hright]
    rfl

theorem raiseWords_of_le (h : top.toNat ≤ level.toNat) :
    raiseWords view top turns level last hash =
      ended ((raiseLastBy view (top.toNat - level.toNat) level.toNat last.toNat hash).map
        (UInt64.ofNat (last.toNat >>> (top.toNat - level.toNat)), ·)) := by
  rw [raiseWords.eq_def, if_pos (UInt32.le_iff_toNat_le.mpr h), Nat.sub_eq_zero_of_le h, raiseLastBy,
    Nat.shiftRight_zero, UInt64.ofNat_toNat]
  rfl

theorem raiseWords_succ (h : level.toNat < top.toNat) :
    raiseWords view top (turns + 1) level last hash = (do
      let hash ← raiseLastWords view level last hash
      let above ← Level.next level
      raiseWords view top turns above (last / 2) hash) := by
  rw [raiseWords.eq_def, if_neg (mt UInt32.le_iff_toNat_le.mp (Nat.not_le.mpr h))]

/-- Raising by levels takes as many turns as there are levels. -/
theorem raiseWords_eq (hturns : top.toNat ≤ level.toNat + turns) :
    raiseWords view top turns level last hash =
      ended ((raiseLastBy view (top.toNat - level.toNat) level.toNat last.toNat hash).map
        (UInt64.ofNat (last.toNat >>> (top.toNat - level.toNat)), ·)) := by
  induction turns generalizing level last hash with
  | zero => exact raiseWords_of_le hturns
  | succ turns ih =>
    rcases Nat.lt_or_ge level.toNat top.toNat with hmore | hle
    · have hlt := top.toNat_lt
      obtain ⟨above, habove, hsucc⟩ := Level.exists_next level (by change _ < 2 ^ 32; omega)
      have hsteps : top.toNat - level.toNat = top.toNat - above.toNat + 1 := by omega
      rw [raiseWords_succ hmore, hsteps, raiseLastBy, Nat.shiftRight_succ_inside, ← hsucc]
      refine (Checked.bind_eq raiseLastWords_eq fun hash _ => ?_).trans
        (congrArg ended (map_bind _ _ _).symm)
      rw [Checked.word_bind habove]
      exact ih (by omega)
    · exact raiseWords_of_le hle

theorem lookupWords_eq {other : UInt64} : lookupWords view level last other hash =
    ended (lookup view level.toNat last.toNat other.toNat hash) := by
  have hlt : other < last ↔ other.toNat < last.toNat := UInt64.lt_iff_toNat_lt
  have heq : other = last ↔ other.toNat = last.toNat := UInt64.toNat_inj.symm
  rw [lookupWords, lookup]
  by_cases hbefore : other.toNat < last.toNat
  · rw [if_pos (hlt.mpr hbefore), if_pos hbefore, map_eq_pure_bind]
    exact Checked.bind_eq digestWords_eq fun _ _ => rfl
  · rw [if_neg (mt hlt.mp hbefore), if_neg hbefore]
    simp only [heq]
    rfl

theorem siblingsWords_of_root (h : last.toNat = 0) :
    siblingsWords view turns index level last hash =
      ended (siblings view index.toNat level.toNat last.toNat hash) := by
  rw [siblingsWords.eq_def, if_pos (UInt64.toNat_inj.mp h), siblings, if_pos h]
  rfl

theorem siblingsWords_succ (h : last.toNat ≠ 0) :
    siblingsWords view (turns + 1) index level last hash = (do
      let other ← siblingWord index
      let found ← lookupWords view level last other hash
      let hash ← raiseLastWords view level last hash
      let above ← Level.next level
      let rest ← siblingsWords view turns (index / 2) above (last / 2) hash
      return found.toList ++ rest) := by
  rw [siblingsWords.eq_def, if_neg (mt UInt64.toNat_inj.mpr h)]

/-- There are as many turns as levels up to the root. -/
theorem siblingsWords_eq (hturns : last.toNat < 2 ^ turns) (hlevel : level.toNat + turns < UInt32.size) :
    siblingsWords view turns index level last hash =
      ended (siblings view index.toNat level.toNat last.toNat hash) := by
  induction turns generalizing index level last hash with
  | zero => exact siblingsWords_of_root (by rw [Nat.pow_zero] at hturns; omega)
  | succ turns ih =>
    by_cases hroot : last.toNat = 0
    · exact siblingsWords_of_root hroot
    · obtain ⟨other, hother, hsibling⟩ := exists_siblingWord index
      obtain ⟨above, habove, hsucc⟩ := Level.exists_next level (by omega)
      rw [siblingsWords_succ hroot, siblings_step hroot, Checked.word_bind hother, ← hsibling]
      refine Checked.bind_eq lookupWords_eq fun found _ => ?_
      refine Checked.bind_eq raiseLastWords_eq fun hash _ => ?_
      rw [Checked.word_bind habove, ← hsucc]
      exact Checked.bind_eq (ih (Word.toNat_half_lt hturns) (by omega)) fun _ _ => rfl

theorem pathWords_eq (hlevel : level.toNat ≤ 64) : pathWords view index level size =
    ended (pathToRoot view index.toNat level.toNat size.toNat) := by
  have hzero : size = 0 ↔ size.toNat = 0 := UInt64.toNat_inj.symm
  rw [pathWords, pathToRoot]
  by_cases hempty : size.toNat = 0
  · rw [if_pos (hzero.mpr hempty), if_pos hempty]
    rfl
  · obtain ⟨last, hlast, hpred⟩ := Word.exists_pred (a := size) (by omega)
    have hlt : last.toNat >>> level.toNat < 2 ^ 64 :=
      Nat.lt_of_le_of_lt (Nat.shiftRight_le _ _) last.toNat_lt
    have hraised : (UInt64.ofNat (last.toNat >>> level.toNat)).toNat = last.toNat >>> level.toNat :=
      UInt64.toNat_ofNat_of_lt' hlt
    rw [if_neg (mt hzero.mp hempty), if_neg hempty, Checked.word_bind hlast, ← hpred]
    refine Checked.bind_eq digestWords_eq fun hash _ => ?_
    have hraise := @raiseWords_eq view 64 last 0 level hash (by change _ ≤ 0 + 64; omega)
    refine (Checked.bind_eq hraise fun raised _ =>
      siblingsWords_eq raised.1.toNat_lt (by change _ < 2 ^ 32; omega)).trans (congrArg ended ?_)
    change ((raiseLastBy view level.toNat 0 last.toNat hash).map _ >>= _) = _
    cases raiseLastBy view level.toNat 0 last.toNat hash with
    | error e => rfl
    | ok hash => exact congrArg (siblings view index.toNat level.toNat · hash) hraised

theorem boundaryWords_of_even (turns : Nat) (level : UInt32) (h : index.toNat % 2 = 0) :
    boundaryWords turns index level = .ok (index, level) ∧
      boundary index.toNat level.toNat = (index.toNat, level.toNat) := by
  have hleft : ¬isRightWord index = true := by rw [isRightWord_iff]; omega
  rw [boundaryWords.eq_def, if_neg hleft, boundary, if_neg (by omega)]
  exact ⟨rfl, rfl⟩

/-- A node has no more right children above it than its number has bits. -/
theorem exists_boundaryWords (hturns : index.toNat < 2 ^ turns)
    (hlevel : level.toNat + turns < UInt32.size) : ∃ node top,
      boundaryWords turns index level = .ok (node, top) ∧
      boundary index.toNat level.toNat = (node.toNat, top.toNat) ∧ top.toNat ≤ level.toNat + turns := by
  induction turns generalizing index level with
  | zero =>
    obtain ⟨hwords, hnode⟩ := boundaryWords_of_even 0 level
      (show index.toNat % 2 = 0 by rw [Nat.pow_zero] at hturns; omega)
    exact ⟨index, level, hwords, hnode, Nat.le_refl _⟩
  | succ turns ih =>
    rcases Nat.mod_two_eq_zero_or_one index.toNat with heven | hodd
    · obtain ⟨hwords, hnode⟩ := boundaryWords_of_even (turns + 1) level heven
      exact ⟨index, level, hwords, hnode, Nat.le_add_right _ _⟩
    · obtain ⟨above, habove, hsucc⟩ := Level.exists_next level (by omega)
      obtain ⟨node, top, hwords, hnode, htop⟩ := @ih _ above (Word.toNat_half_lt hturns) (by omega)
      refine ⟨node, top, ?_, ?_, by omega⟩
      · rw [boundaryWords.eq_def, if_pos (isRightWord_iff.mpr hodd)]
        change (Level.next level >>= _) = _
        rw [habove, ok_bind, hwords]
      · rw [boundary, if_pos hodd, ← hnode, hsucc]
        rfl

end Paths

/-! ## Roots -/

/-- The lowest level, from a given one on, that has an odd number of complete subtrees. -/
def lowestWords (size : UInt64) (turns : Nat) (level : UInt32) : Except Trap UInt32 := do
  let count ← levelSizeWord size level
  if count % 2 = 0 then
    match turns with
    | 0 => .error .endless
    | turns + 1 => do lowestWords size turns (← Level.next level)
  else return level

/-- Covers a digest with the last complete subtrees of the levels from a given one up to `top`. -/
def rootUpWords (view : Snapshot) (size : UInt64) (top : UInt32) (turns : Nat) (level : UInt32)
    (hash : Digest) : Checked Digest :=
  if top ≤ level then return hash
  else match turns with
    | 0 => stopped .endless
    | turns + 1 => do
      let count ← levelSizeWord size level
      let hash ← raiseLastWords view level count hash
      let above ← Level.next level
      rootUpWords view size top turns above hash

section Roots

variable {view : Snapshot} {turns : Nat} {size : UInt64} {level top : UInt32} {hash : Digest}

theorem levelSize_succ (size level : Nat) : levelSize size (level + 1) = levelSize size level / 2 :=
  Nat.shiftRight_succ size level

/-- On the way up from a digest, the last subtree of a level is joined with it if it is a left child. -/
theorem rootFrom_some {level count : Nat} (h : count ≠ 0) (hash : Digest) :
    rootFrom view level count (some hash) =
      (raiseLast view level count hash >>= fun hash =>
        rootFrom view (level + 1) (count / 2) (some hash)) := by
  rw [rootFrom, if_neg h, raiseLast]
  by_cases hodd : count % 2 = 1
  · rw [if_pos hodd, if_pos (isRight_iff.mpr hodd)]
    cases digest view level (count - 1) <;> rfl
  · rw [if_neg hodd, if_neg (mt isRight_iff.mp hodd)]
    rfl

/-- There are as many turns as the number of subtrees has bits, and it is not zero. -/
theorem exists_lowestWords (hcount : levelSize size.toNat level.toNat ≠ 0)
    (hturns : levelSize size.toNat level.toNat < 2 ^ turns) (hlevel : level.toNat + turns < UInt32.size) :
    ∃ low, lowestWords size turns level = .ok low ∧ levelSize size.toNat low.toNat % 2 = 1 ∧
      low.toNat ≤ level.toNat + turns ∧
      rootFrom view level.toNat (levelSize size.toNat level.toNat) none =
        rootFrom view low.toNat (levelSize size.toNat low.toNat) none := by
  induction turns generalizing level with
  | zero =>
    rw [Nat.pow_zero] at hturns
    omega
  | succ turns ih =>
    obtain ⟨count, hwords, hsize⟩ := exists_levelSizeWord size level
    have hparity : count % 2 = 0 ↔ count.toNat % 2 = 0 := UInt64.toNat_inj.symm
    rw [lowestWords.eq_def, hwords, ok_bind]
    rcases Nat.mod_two_eq_zero_or_one (levelSize size.toNat level.toNat) with heven | hodd
    · obtain ⟨above, habove, hsucc⟩ := Level.exists_next level (by omega)
      have hhalf : levelSize size.toNat above.toNat = levelSize size.toNat level.toNat / 2 := by
        rw [hsucc, levelSize_succ]
      obtain ⟨low, hlow, hodd, htop, hroot⟩ := @ih above (by omega)
        (by rw [Nat.pow_succ] at hturns; omega) (by omega)
      refine ⟨low, ?_, hodd, by omega, ?_⟩
      · rw [if_pos (hparity.mpr (by rw [hsize, heven]))]
        change (Level.next level >>= _) = _
        rw [habove, ok_bind, hlow]
      · rw [← hroot, hhalf, hsucc, rootFrom, if_neg hcount, if_neg (by omega)]
    · refine ⟨level, ?_, hodd, Nat.le_add_right _ _, rfl⟩
      rw [if_neg (mt hparity.mp (by rw [hsize, hodd]; decide))]
      rfl

theorem rootUpWords_of_le (htop : ∀ level, level < top.toNat ↔ levelSize size.toNat level ≠ 0)
    (h : top.toNat ≤ level.toNat) : rootUpWords view size top turns level hash =
      ended (rootFrom view level.toNat (levelSize size.toNat level.toNat) (some hash)) := by
  have hnone : levelSize size.toNat level.toNat = 0 :=
    of_not_not (mt (htop level.toNat).mpr (Nat.not_lt.mpr h))
  rw [rootUpWords.eq_def, if_pos (UInt32.le_iff_toNat_le.mpr h), hnone, rootFrom, if_pos rfl]
  rfl

theorem rootUpWords_succ (h : level.toNat < top.toNat) :
    rootUpWords view size top (turns + 1) level hash = (do
      let count ← levelSizeWord size level
      let hash ← raiseLastWords view level count hash
      let above ← Level.next level
      rootUpWords view size top turns above hash) := by
  rw [rootUpWords.eq_def, if_neg (mt UInt32.le_iff_toNat_le.mp (Nat.not_le.mpr h))]

/-- The levels up to the top take one turn each. -/
theorem rootUpWords_eq (htop : ∀ level, level < top.toNat ↔ levelSize size.toNat level ≠ 0)
    (hturns : top.toNat ≤ level.toNat + turns) :
    rootUpWords view size top turns level hash =
      ended (rootFrom view level.toNat (levelSize size.toNat level.toNat) (some hash)) := by
  induction turns generalizing level hash with
  | zero => exact rootUpWords_of_le htop hturns
  | succ turns ih =>
    rcases Nat.lt_or_ge level.toNat top.toNat with hmore | hle
    · have hlt := top.toNat_lt
      obtain ⟨count, hwords, hsize⟩ := exists_levelSizeWord size level
      obtain ⟨above, habove, hsucc⟩ := Level.exists_next level (by change _ < 2 ^ 32; omega)
      rw [rootUpWords_succ hmore, Checked.word_bind hwords, rootFrom_some ((htop _).mp hmore), ← hsize]
      refine Checked.bind_eq raiseLastWords_eq fun hash _ => ?_
      rw [Checked.word_bind habove, ih (by omega), hsucc, levelSize_succ, hsize]
    · exact rootUpWords_of_le htop hle

end Roots

end TransparencyLog.Tree
