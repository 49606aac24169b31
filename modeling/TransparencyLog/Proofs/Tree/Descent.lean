import TransparencyLog.Proofs.Tree.Root
import TransparencyLog.Tree.Proof

/-!
# Checking a path from the root

The check of an audit path climbs from the leaf and knows no tree, only how many nodes a level has. The
path can as well be read from the root downwards: its last element is the sibling of that half of the
tree which has the leaf, and the others lead on within this half. Both ways give the same root for every
path, index and size.

* `rootAlong?`: the root that a path leads to, read from the top;
* `turn?`, `climb?_of_lt`: one turn of the climb;
* `climb?_left_half`, `climb?_right_half`: a climb is one within a half of the tree and one turn more;
* `exists_used`, `bind_joinWith_concat`: a climb does not look at what it leaves over;
* **`climb?_eq_some_iff`**, **`verifyAudit_eq_true_iff`**: both ways are the same.
-/

namespace TransparencyLog.Tree

/-- The root to which a path leads that is given from the top, outermost sibling first. The sibling
stands on the right of the left half, and on the left of the right half. The path must end at the leaf. -/
def rootAlong? (hash : Digest) (index size : Nat) (path : List Digest) : Option Digest :=
  if size ≤ 1 then if path.isEmpty then some hash else none
  else match path with
    | [] => none
    | other :: rest =>
      let k := splitPoint size
      if index < k then (rootAlong? hash index k rest).map fun half => branchHash half other
      else (rootAlong? hash (index - k) (size - k) rest).map fun half => branchHash other half
termination_by size
decreasing_by
  · exact splitPoint_lt (by omega)
  · have := splitPoint_pos (n := size) (by omega)
    omega

/-! ## One turn -/

section Turn

variable {hash root : Digest} {index size : Nat} {path : List Digest}

/-- One turn of the climb: the last node of a level moves up unchanged if it has no sibling, and any other
one is joined with the next element of the path. -/
def turn? (hash : Digest) (index size : Nat) (path : List Digest) : Option (Digest × List Digest) :=
  if index % 2 = 0 ∧ index + 1 = size then some (hash, path)
  else match path with
    | [] => none
    | other :: rest =>
      some (if index % 2 = 1 then branchHash other hash else branchHash hash other, rest)

theorem climb?_of_le (h : size ≤ 1) : climb? hash index size path = some (hash, path) := by
  rw [climb?.eq_def, if_pos h]

theorem climb?_of_lt (h : 1 < size) : climb? hash index size path =
    (turn? hash index size path).bind fun up => climb? up.1 (index / 2) (size / 2 + size % 2) up.2 := by
  rw [climb?.eq_def, if_neg (Nat.not_le.mpr h), turn?.eq_def]
  split
  · rfl
  · cases path <;> rfl

/-- A turn depends on whether the node is a right one and whether it is the last one. -/
theorem turn?_congr {index' size' : Nat} (hparity : index % 2 = index' % 2)
    (hlast : index % 2 = 0 → (index + 1 = size ↔ index' + 1 = size')) :
    turn? hash index size path = turn? hash index' size' path := by
  have hpromoted : (index % 2 = 0 ∧ index + 1 = size) ↔ (index' % 2 = 0 ∧ index' + 1 = size') := by
    rw [← hparity]
    exact and_congr_right hlast
  simp only [turn?, hpromoted]
  rw [hparity]

end Turn

/-! ## Halves -/

section Halves

variable {hash root : Digest} {index size level : Nat} {path : List Digest}

/-- The last turn of a climb, which joins what was found in one half with the other half. -/
def joinWith (join : Digest → Digest → Digest) : Digest × List Digest → Option (Digest × List Digest)
  | (_, []) => none
  | (half, other :: rest) => some (join half other, rest)

theorem climb?_left_half (hlow : 2 ^ level < size) (hhigh : size ≤ 2 ^ (level + 1))
    (hindex : index < 2 ^ level) : climb? hash index size path =
      (climb? hash index (2 ^ level) path).bind (joinWith fun half other => branchHash half other) := by
  induction level generalizing hash index size path with
  | zero =>
    obtain rfl : size = 2 := by rw [Nat.pow_zero] at hlow; omega
    obtain rfl : index = 0 := by rw [Nat.pow_zero] at hindex; omega
    rw [climb?_of_lt Nat.one_lt_two, climb?_of_le (show 2 ^ 0 ≤ 1 from Nat.le_refl 1)]
    cases path with
    | nil => rfl
    | cons other rest => exact climb?_of_le (Nat.le_refl 1)
  | succ level ih =>
    have hpow : 2 ^ (level + 1) = 2 * 2 ^ level := by rw [Nat.pow_succ, Nat.mul_comm]
    have hpow' : 2 ^ (level + 1 + 1) = 2 * 2 ^ (level + 1) := by rw [Nat.pow_succ, Nat.mul_comm]
    have hpos := Nat.two_pow_pos level
    have hturn : turn? hash index size path = turn? hash index (2 ^ (level + 1)) path :=
      turn?_congr rfl fun heven => by omega
    have hsize : 2 ^ (level + 1) / 2 + 2 ^ (level + 1) % 2 = 2 ^ level := by omega
    rw [climb?_of_lt (by omega), climb?_of_lt (by omega), hturn, Option.bind_assoc, hsize]
    refine Option.bind_congr fun up _ => ?_
    exact ih (by omega) (by omega) (by omega)

theorem climb?_right_half (hlow : 2 ^ level < size) (hhigh : size ≤ 2 ^ (level + 1))
    (hindex : 2 ^ level ≤ index) (hlt : index < size) : climb? hash index size path =
      (climb? hash (index - 2 ^ level) (size - 2 ^ level) path).bind
        (joinWith fun half other => branchHash other half) := by
  induction level generalizing hash index size path with
  | zero =>
    obtain rfl : size = 2 := by rw [Nat.pow_zero] at hlow; omega
    obtain rfl : index = 1 := by rw [Nat.pow_zero] at hindex; omega
    rw [climb?_of_lt Nat.one_lt_two, climb?_of_le (show 2 - 2 ^ 0 ≤ 1 from Nat.le_refl 1)]
    cases path with
    | nil => rfl
    | cons other rest => exact climb?_of_le (Nat.le_refl 1)
  | succ level ih =>
    have hpow : 2 ^ (level + 1) = 2 * 2 ^ level := by rw [Nat.pow_succ, Nat.mul_comm]
    have hpow' : 2 ^ (level + 1 + 1) = 2 * 2 ^ (level + 1) := by rw [Nat.pow_succ, Nat.mul_comm]
    have hup {hash : Digest} {path : List Digest} :=
      @ih hash (index / 2) (size / 2 + size % 2) path (by omega) (by omega) (by omega) (by omega)
    have hindex' : (index - 2 ^ (level + 1)) / 2 = index / 2 - 2 ^ level := by omega
    rcases Nat.lt_or_ge 1 (size - 2 ^ (level + 1)) with hmore | hone
    · have hturn : turn? hash index size path =
          turn? hash (index - 2 ^ (level + 1)) (size - 2 ^ (level + 1)) path :=
        turn?_congr (by omega) fun heven => by omega
      have hsize : (size - 2 ^ (level + 1)) / 2 + (size - 2 ^ (level + 1)) % 2 =
          size / 2 + size % 2 - 2 ^ level := by omega
      rw [climb?_of_lt (by omega), climb?_of_lt hmore, hturn, Option.bind_assoc, hsize, hindex']
      exact Option.bind_congr fun up _ => hup
    · -- The right half is a single leaf, which moves up unchanged.
      have hpromoted : turn? hash index size path = some (hash, path) := by
        rw [turn?.eq_def, if_pos (by omega)]
      have hsingle : size / 2 + size % 2 - 2 ^ level ≤ 1 := by omega
      rw [climb?_of_lt (by omega), hpromoted, Option.bind_some, hup, climb?_of_le hone,
        climb?_of_le hsingle]

end Halves

/-! ## What is used of a path -/

section Used

variable {hash root : Digest} {index size : Nat} {path left : List Digest}

/-- A climb uses the beginning of its path, whatever comes after it. -/
theorem exists_used (h : climb? hash index size path = some (root, left)) :
    ∃ used, path = used ++ left ∧ ∀ other, climb? hash index size (used ++ other) = some (root, other) := by
  fun_induction climb? hash index size path with
  | case1 hash index size path hsize =>
    cases h
    exact ⟨[], rfl, fun other => climb?_of_le hsize⟩
  | case2 hash index size path hsize hpromoted ih =>
    obtain ⟨used, hpath, hall⟩ := ih h
    refine ⟨used, hpath, fun other => ?_⟩
    rw [climb?.eq_def, if_neg hsize, if_pos hpromoted]
    exact hall other
  | case3 => cases h
  | case4 hash index size hsize hpromoted next rest joined ih =>
    obtain ⟨used, rfl, hall⟩ := ih h
    refine ⟨next :: used, rfl, fun other => ?_⟩
    rw [List.cons_append, climb?, if_neg hsize, if_neg hpromoted]
    exact hall other

theorem bind_joinWith_nil {join : Digest → Digest → Digest} :
    (climb? hash index size []).bind (joinWith join) = none := by
  cases hclimb : climb? hash index size [] with
  | none => rfl
  | some found =>
    obtain ⟨half, left⟩ := found
    obtain ⟨used, hpath, -⟩ := exists_used hclimb
    obtain rfl := (List.append_eq_nil_iff.mp hpath.symm).2
    rfl

/-- A climb that is joined with the other half uses all of its path if the last element is that half, and
all others are used within the half. -/
theorem bind_joinWith_concat {join : Digest → Digest → Digest} {init : List Digest} {other : Digest} :
    (climb? hash index size (init ++ [other])).bind (joinWith join) = some (root, []) ↔
      ∃ half, climb? hash index size init = some (half, []) ∧ join half other = root := by
  rw [Option.bind_eq_some_iff]
  constructor
  · rintro ⟨⟨half, left⟩, hclimb, hjoin⟩
    match left, hjoin with
    | last :: rest, hjoin =>
      obtain ⟨rfl, rfl⟩ := Prod.mk.inj (Option.some.inj hjoin)
      obtain ⟨used, hpath, hall⟩ := exists_used hclimb
      obtain ⟨rfl, hlast⟩ := List.append_inj' hpath rfl
      obtain rfl := List.head_eq_of_cons_eq hlast
      have hinit := hall []
      rw [List.append_nil] at hinit
      exact ⟨half, hinit, rfl⟩
  · rintro ⟨half, hclimb, rfl⟩
    obtain ⟨used, hinit, hall⟩ := exists_used hclimb
    rw [List.append_nil] at hinit
    subst hinit
    exact ⟨(half, [other]), hall [other], rfl⟩

end Used

/-! ## Both ways -/

section Both

variable {hash root : Digest} {index size : Nat} {path : List Digest}

theorem rootAlong?_of_le (h : size ≤ 1) :
    rootAlong? hash index size path = if path.isEmpty then some hash else none := by
  rw [rootAlong?.eq_def, if_pos h]

theorem rootAlong?_nil (h : 1 < size) : rootAlong? hash index size [] = none := by
  rw [rootAlong?.eq_def, if_neg (Nat.not_le.mpr h)]

theorem rootAlong?_cons (h : 1 < size) (other : Digest) (rest : List Digest) :
    rootAlong? hash index size (other :: rest) =
      if index < splitPoint size then
        (rootAlong? hash index (splitPoint size) rest).map fun half => branchHash half other
      else (rootAlong? hash (index - splitPoint size) (size - splitPoint size) rest).map
        fun half => branchHash other half := by
  rw [rootAlong?.eq_def, if_neg (Nat.not_le.mpr h)]

/-- **A climb that uses all of its path ends at the root to which the path leads from the top.** -/
theorem climb?_eq_some_iff (h : index < size) : climb? hash index size path = some (root, []) ↔
    rootAlong? hash index size path.reverse = some root := by
  induction size using Nat.strongRecOn generalizing index path root with
  | ind size ih =>
    rcases Nat.lt_or_ge 1 size with hmore | hone
    · obtain ⟨level, hk, hlow, hhigh⟩ := exists_splitPoint_eq hmore
      have hlt := splitPoint_lt hmore
      have hpos := splitPoint_pos hmore
      rw [← hk] at hlow
      rcases Nat.lt_or_ge index (splitPoint size) with hleft | hright
      · rw [climb?_left_half (hk ▸ hlow) hhigh (hk ▸ hleft), ← hk]
        rcases List.eq_nil_or_concat path with rfl | ⟨init, other, rfl⟩
        · simp [bind_joinWith_nil, rootAlong?_nil hmore]
        · rw [List.concat_eq_append, bind_joinWith_concat, List.reverse_concat, rootAlong?_cons hmore, if_pos hleft,
            Option.map_eq_some_iff]
          simp only [ih _ hlt hleft]
      · rw [climb?_right_half (hk ▸ hlow) hhigh (hk ▸ hright) h, ← hk]
        rcases List.eq_nil_or_concat path with rfl | ⟨init, other, rfl⟩
        · simp [bind_joinWith_nil, rootAlong?_nil hmore]
        · have hhalf {half : Digest} :
              climb? hash (index - splitPoint size) (size - splitPoint size) init = some (half, []) ↔
                rootAlong? hash (index - splitPoint size) (size - splitPoint size) init.reverse =
                  some half := ih _ (by omega) (by omega)
          rw [List.concat_eq_append, bind_joinWith_concat, List.reverse_concat, rootAlong?_cons hmore,
            if_neg (Nat.not_lt.mpr hright), Option.map_eq_some_iff]
          simp only [hhalf]
    · rw [climb?_of_le hone, rootAlong?_of_le hone]
      cases path <;> simp

/-- **The check of an audit path accepts exactly the paths that lead from the root to a leaf of the tree.** -/
theorem verifyAudit_eq_true_iff {data : Bytes} : verifyAudit root size index path data = true ↔
    index < size ∧ rootAlong? (leafHash data) index size path.reverse = some root := by
  rw [verifyAudit, Bool.and_eq_true, decide_eq_true_eq, beq_iff_eq]
  exact and_congr_right climb?_eq_some_iff

end Both

end TransparencyLog.Tree
