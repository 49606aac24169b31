import Mathlib.Algebra.Group.Nat.Defs
import TransparencyLog.Digest
import TransparencyLog.Tree.Index

/-!
# The tree over a list of leaves

The tree of RFC 6962 divides at the largest power of two below the number of leaves. Everything
that the stored nodes, the proofs and the checks compute is compared with the definitions here,
which know only the list.

* `rootOf`: the root of the tree over a list of leaves; `rootOf_split`;
* `subproof`, `prefixProof`: the consistency proof between a beginning of the list and the list;
* `splitPoint_eq_two_pow`, `splitPoint_eq_of_lt`: where a tree divides;
* **`rootOf_take_split`**: a beginning that reaches past the division divides at the same place.
-/

namespace TransparencyLog.Tree

/-! ## Where a tree divides -/

theorem splitPoint_eq_two_pow {n level : Nat} (h : 2 ^ level < n) (h' : n ≤ 2 ^ (level + 1)) :
    splitPoint n = 2 ^ level := by
  have hlog : (n - 1).log2 = level :=
    (Nat.log2_eq_iff (by have := Nat.two_pow_pos level; omega)).mpr (by omega)
  have hn : ¬ n ≤ 1 := by have := Nat.two_pow_pos level; omega
  rw [splitPoint, if_neg hn, hlog, Nat.one_shiftLeft]

theorem exists_splitPoint_eq {n : Nat} (h : 1 < n) :
    ∃ level, splitPoint n = 2 ^ level ∧ 2 ^ level < n ∧ n ≤ 2 ^ (level + 1) := by
  have hk : splitPoint n = 2 ^ (n - 1).log2 := by
    rw [splitPoint, if_neg (by omega), Nat.one_shiftLeft]
  have hlt := splitPoint_lt h
  have hle := le_two_mul_splitPoint h
  exact ⟨(n - 1).log2, hk, by omega, by rw [Nat.pow_succ]; omega⟩

/-- Sizes between the division of a tree and its end divide at the same place. -/
theorem splitPoint_eq_of_lt {m n : Nat} (h : splitPoint n < m) (hmn : m ≤ n) (hn : 1 < n) :
    splitPoint m = splitPoint n := by
  obtain ⟨level, hk, _, hle⟩ := exists_splitPoint_eq hn
  rw [hk] at h ⊢
  exact splitPoint_eq_two_pow h (by omega)

/-! ## Roots -/

/-- The root of the tree over a list of leaves. -/
def rootOf (leaves : List Bytes) : Digest :=
  match leaves with
  | [] => emptyRoot
  | [data] => leafHash data
  | first :: second :: rest =>
    let leaves := first :: second :: rest
    let k := splitPoint leaves.length
    branchHash (rootOf (leaves.take k)) (rootOf (leaves.drop k))
termination_by leaves.length
decreasing_by
  · have := splitPoint_lt (n := (first :: second :: rest).length) (by simp)
    rw [List.length_take]; omega
  · have := splitPoint_pos (n := (first :: second :: rest).length) (by simp)
    rw [List.length_drop]; simp only [List.length_cons] at *; omega

@[simp] theorem rootOf_nil : rootOf [] = emptyRoot := by rw [rootOf]

@[simp] theorem rootOf_singleton (data : Bytes) : rootOf [data] = leafHash data := by rw [rootOf]

theorem rootOf_split {leaves : List Bytes} (h : 1 < leaves.length) :
    rootOf leaves = branchHash (rootOf (leaves.take (splitPoint leaves.length)))
      (rootOf (leaves.drop (splitPoint leaves.length))) := by
  match leaves, h with
  | first :: second :: rest, _ => rw [rootOf]

/-- **A beginning that reaches past the division shares the left half of the whole tree.** -/
theorem rootOf_take_split {leaves : List Bytes} {m : Nat} (h : splitPoint leaves.length < m)
    (hm : m ≤ leaves.length) (hn : 1 < leaves.length) :
    rootOf (leaves.take m) = branchHash (rootOf (leaves.take (splitPoint leaves.length)))
      (rootOf ((leaves.drop (splitPoint leaves.length)).take (m - splitPoint leaves.length))) := by
  have hpos := splitPoint_pos hn
  have hlen : (leaves.take m).length = m := by rw [List.length_take]; omega
  rw [rootOf_split (by omega), hlen, splitPoint_eq_of_lt h hm hn, List.take_take,
    Nat.min_eq_left (Nat.le_of_lt h), List.drop_take]

/-! ## Consistency proofs -/

/-- The proof that the first `m` leaves begin the list, from the bottom up. `whole` says that these
leaves are the whole old tree, so that its root is known and left out. -/
def subproof (m : Nat) (leaves : List Bytes) (whole : Bool) : List Digest :=
  let k := splitPoint leaves.length
  if leaves.length ≤ m then
    if whole then [] else [rootOf leaves]
  else if m ≤ k then subproof m (leaves.take k) whole ++ [rootOf (leaves.drop k)]
  else subproof (m - k) (leaves.drop k) false ++ [rootOf (leaves.take k)]
termination_by leaves.length
decreasing_by
  · rcases Nat.lt_or_ge 1 leaves.length with h | h
    · have := splitPoint_lt h; rw [List.length_take]; omega
    · have : splitPoint leaves.length = 0 := by rw [splitPoint, if_pos h]
      rw [List.length_take]; omega
  · rcases Nat.lt_or_ge 1 leaves.length with h | h
    · have := splitPoint_pos h; rw [List.length_drop]; omega
    · have : splitPoint leaves.length = 0 := by rw [splitPoint, if_pos h]
      omega

/-- The consistency proof between the first `m` leaves and the whole list. -/
def prefixProof (m : Nat) (leaves : List Bytes) : List Digest :=
  if m = 0 ∨ m = leaves.length then [] else subproof m leaves true

theorem subproof_of_le {m : Nat} {leaves : List Bytes} (h : leaves.length ≤ m) (whole : Bool) :
    subproof m leaves whole = if whole then [] else [rootOf leaves] := by
  rw [subproof]; exact if_pos h

theorem subproof_left {m : Nat} {leaves : List Bytes} (h : m < leaves.length)
    (hm : m ≤ splitPoint leaves.length) (whole : Bool) :
    subproof m leaves whole = subproof m (leaves.take (splitPoint leaves.length)) whole ++
      [rootOf (leaves.drop (splitPoint leaves.length))] := by
  rw [subproof]; exact (if_neg (by omega)).trans (if_pos hm)

theorem subproof_right {m : Nat} {leaves : List Bytes} (h : m < leaves.length)
    (hm : splitPoint leaves.length < m) (whole : Bool) :
    subproof m leaves whole = subproof (m - splitPoint leaves.length)
      (leaves.drop (splitPoint leaves.length)) false ++
      [rootOf (leaves.take (splitPoint leaves.length))] := by
  rw [subproof]; exact (if_neg (by omega)).trans (if_neg (by omega))

theorem prefixProof_of_lt {m : Nat} {leaves : List Bytes} (hm : 0 < m) (h : m < leaves.length) :
    prefixProof m leaves = subproof m leaves true := by
  rw [prefixProof, if_neg (by omega)]

end TransparencyLog.Tree
