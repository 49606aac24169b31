/-!
# Positions in the tree

Nodes are numbered from the left on every level; level `k` holds the subtrees of `2 ^ k` leaves.

* `Tree.isRight`, `Tree.parent`, `Tree.sibling`;
* `Tree.splitPoint`: where a tree divides into its two halves;
* `Tree.levelSize`: how many complete subtrees a level holds;
* **`Tree.splitPoint_lt`**, **`Tree.le_two_mul_splitPoint`**: the split is the largest power of two
  below the size.
-/

namespace TransparencyLog.Tree

/-- Whether a node is the right child of its parent. -/
def isRight (node : Nat) : Bool := node % 2 == 1

/-- The node above, one level up. -/
def parent (node : Nat) : Nat := node / 2

/-- The other child of a node's parent. -/
def sibling (node : Nat) : Nat := if isRight node then node - 1 else node + 1

/-- The largest power of two below `n`; zero when there is none. -/
def splitPoint (n : Nat) : Nat := if n ≤ 1 then 0 else 1 <<< (n - 1).log2

/-- The number of complete subtrees of `2 ^ level` leaves in a tree of `size` leaves. -/
def levelSize (size level : Nat) : Nat := size >>> level

theorem splitPoint_pos {n : Nat} (h : 1 < n) : 0 < splitPoint n := by
  simp only [splitPoint, Nat.not_le.2 h, if_false, Nat.one_shiftLeft]
  exact Nat.two_pow_pos _

theorem splitPoint_lt {n : Nat} (h : 1 < n) : splitPoint n < n := by
  have : 2 ^ (n - 1).log2 ≤ n - 1 := Nat.log2_self_le (by omega)
  simp only [splitPoint, Nat.not_le.2 h, if_false, Nat.one_shiftLeft]
  omega

theorem le_two_mul_splitPoint {n : Nat} (h : 1 < n) : n ≤ 2 * splitPoint n := by
  have : n - 1 < 2 ^ ((n - 1).log2 + 1) := Nat.lt_log2_self
  rw [Nat.pow_succ] at this
  simp only [splitPoint, Nat.not_le.2 h, if_false, Nat.one_shiftLeft]
  omega

end TransparencyLog.Tree
