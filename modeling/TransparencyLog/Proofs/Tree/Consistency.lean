import Mathlib.Data.Set.Insert
import TransparencyLog.Proofs.Collision
import TransparencyLog.Proofs.Tree.Root
import TransparencyLog.Tree.Proof

/-!
# What a consistency proof shows

The check of a consistency proof recomputes an old and a new root from the outermost division
inwards. An accepted proof that ends in the root of a list is the list's own proof, and the old
root is that of a beginning of the list, unless a branch of the list's tree and a branch that the
check put together collide.

* `branchInputs`: the branches of a list's tree; `recomputedInputs`, `consistencyInputs`: the
  branches that the check puts together;
* `subproofRoots?_subproof`: the list's own proof is accepted;
* **`subproofRoots?_sound`**: whatever is accepted is the list's own proof;
* **`verifyConsistency_sound`**: soundness, with every tampered proof refused.
-/

namespace TransparencyLog.Tree

/-! ## The branches of a tree -/

/-- What is hashed for the branches of the tree over a list. -/
def branchInputs (leaves : List Bytes) : Set Bytes :=
  if leaves.length ≤ 1 then ∅
  else
    let k := splitPoint leaves.length
    insert (branchInput (rootOf (leaves.take k)) (rootOf (leaves.drop k)))
      (branchInputs (leaves.take k) ∪ branchInputs (leaves.drop k))
termination_by leaves.length
decreasing_by
  · have := splitPoint_lt (n := leaves.length) (by omega)
    rw [List.length_take]; omega
  · have := splitPoint_pos (n := leaves.length) (by omega)
    rw [List.length_drop]; omega

theorem branchInputs_split {leaves : List Bytes} (h : 1 < leaves.length) :
    branchInputs leaves = insert (branchInput (rootOf (leaves.take (splitPoint leaves.length)))
      (rootOf (leaves.drop (splitPoint leaves.length))))
      (branchInputs (leaves.take (splitPoint leaves.length)) ∪
        branchInputs (leaves.drop (splitPoint leaves.length))) := by
  rw [branchInputs, if_neg (by omega)]

theorem branchInputs_take_subset {leaves : List Bytes} (h : 1 < leaves.length) :
    branchInputs (leaves.take (splitPoint leaves.length)) ⊆ branchInputs leaves := by
  rw [branchInputs_split h]
  exact fun s hs => Set.mem_insert_of_mem _ (Or.inl hs)

theorem branchInputs_drop_subset {leaves : List Bytes} (h : 1 < leaves.length) :
    branchInputs (leaves.drop (splitPoint leaves.length)) ⊆ branchInputs leaves := by
  rw [branchInputs_split h]
  exact fun s hs => Set.mem_insert_of_mem _ (Or.inr hs)

theorem root_mem_branchInputs {leaves : List Bytes} (h : 1 < leaves.length) :
    branchInput (rootOf (leaves.take (splitPoint leaves.length)))
      (rootOf (leaves.drop (splitPoint leaves.length))) ∈ branchInputs leaves := by
  rw [branchInputs_split h]
  exact Set.mem_insert _ _

/-! ## The branches of the check -/

/-- What is hashed while the roots are recomputed. Nothing is hashed when the proof is too short. -/
def recomputedInputs (old : Digest) (whole : Bool) (m n : Nat) (proof : List Digest) : Set Bytes :=
  if m = n ∨ n ≤ 1 then ∅
  else match proof with
    | [] => ∅
    | next :: rest =>
      let k := splitPoint n
      if m ≤ k then
        match subproofRoots? old whole m k rest with
        | none => ∅
        | some (_, w, _) => insert (branchInput w next) (recomputedInputs old whole m k rest)
      else
        match subproofRoots? old false (m - k) (n - k) rest with
        | none => ∅
        | some (o, w, _) => {branchInput next o, branchInput next w} ∪
            recomputedInputs old false (m - k) (n - k) rest
termination_by n
decreasing_by
  · exact splitPoint_lt (by omega)
  · have := splitPoint_pos (n := n) (by omega)
    omega

/-- What is hashed while a consistency proof is checked. -/
def consistencyInputs (old : Digest) (m n : Nat) (proof : List Digest) : Set Bytes :=
  recomputedInputs old true m n proof.reverse

section Equations

variable (old : Digest) (whole : Bool) {m n : Nat}

theorem subproofRoots?_self (n : Nat) (proof : List Digest) :
    subproofRoots? old whole n n proof =
      if whole then some (old, old, proof)
      else match proof with
        | [] => none
        | next :: rest => some (next, next, rest) := by
  unfold subproofRoots?; exact if_pos rfl

theorem subproofRoots?_nil (hm : 0 < m) (hmn : m < n) : subproofRoots? old whole m n [] = none := by
  rw [subproofRoots?, if_neg (by omega), if_neg (by omega)]

theorem subproofRoots?_left (hm : 0 < m) (hmn : m < n) (hk : m ≤ splitPoint n) (next : Digest)
    (rest : List Digest) :
    subproofRoots? old whole m n (next :: rest) =
      (subproofRoots? old whole m (splitPoint n) rest).map
        fun (o, w, rest) => (o, branchHash w next, rest) := by
  rw [subproofRoots?, if_neg (by omega), if_neg (by omega)]; exact if_pos hk

theorem subproofRoots?_right (hmn : m < n) (hk : splitPoint n < m) (next : Digest)
    (rest : List Digest) :
    subproofRoots? old whole m n (next :: rest) =
      (subproofRoots? old false (m - splitPoint n) (n - splitPoint n) rest).map
        fun (o, w, rest) => (branchHash next o, branchHash next w, rest) := by
  rw [subproofRoots?, if_neg (by omega), if_neg (by omega)]; exact if_neg (by omega)

theorem recomputedInputs_left (hm : 0 < m) (hmn : m < n) (hk : m ≤ splitPoint n) (next : Digest)
    {o w : Digest} {rest left : List Digest}
    (h : subproofRoots? old whole m (splitPoint n) rest = some (o, w, left)) :
    recomputedInputs old whole m n (next :: rest) =
      insert (branchInput w next) (recomputedInputs old whole m (splitPoint n) rest) := by
  rw [recomputedInputs, if_neg (by omega)]
  simp only [if_pos hk, h]

theorem recomputedInputs_right (hmn : m < n) (hk : splitPoint n < m) (next : Digest) {o w : Digest}
    {rest left : List Digest}
    (h : subproofRoots? old false (m - splitPoint n) (n - splitPoint n) rest = some (o, w, left)) :
    recomputedInputs old whole m n (next :: rest) =
      {branchInput next o, branchInput next w} ∪
        recomputedInputs old false (m - splitPoint n) (n - splitPoint n) rest := by
  rw [recomputedInputs, if_neg (by omega)]
  simp only [if_neg (Nat.not_le.mpr hk), h]

end Equations

/-! ## The list's own proof is accepted -/

theorem subproofRoots?_subproof (old : Digest) (m : Nat) (leaves : List Bytes) (whole : Bool)
    (hm : 0 < m) (hle : m ≤ leaves.length) (hold : whole → old = rootOf (leaves.take m))
    (rest : List Digest) :
    subproofRoots? old whole m leaves.length ((subproof m leaves whole).reverse ++ rest) =
      some (rootOf (leaves.take m), rootOf leaves, rest) := by
  fun_induction subproof m leaves whole generalizing rest with
  | case1 m leaves hlen =>
    obtain rfl : m = leaves.length := by omega
    rw [List.take_length] at hold ⊢
    rw [subproofRoots?_self, if_pos rfl, hold rfl]
    rfl
  | case2 m leaves whole hlen hw =>
    obtain rfl : m = leaves.length := by omega
    rw [subproofRoots?_self, if_neg hw, List.take_length]
    rfl
  | case3 m leaves whole k hlen hk ih =>
    have hkl : k < leaves.length := splitPoint_lt (by omega)
    have hlen' : (leaves.take k).length = k := by rw [List.length_take]; omega
    have htake : (leaves.take k).take m = leaves.take m := by
      rw [List.take_take, Nat.min_eq_left hk]
    rw [hlen', htake] at ih
    rw [List.reverse_concat, List.cons_append, subproofRoots?_left old whole hm (by omega) hk,
      ih hm hk hold, rootOf_split (by omega : 1 < leaves.length)]
    rfl
  | case4 m leaves whole k hlen hk ih =>
    have hkl : k < m := by omega
    rw [List.length_drop] at ih
    rw [List.reverse_concat, List.cons_append, subproofRoots?_right old whole (by omega) hkl,
      ih (by omega) (by omega) (by simp), rootOf_split (by omega : 1 < leaves.length),
      rootOf_take_split hkl hle (by omega)]
    rfl

/-! ## Whatever is accepted is the list's own proof -/

/-- **Soundness of the recomputation.** When the new root comes out as that of the list, the old
root is that of a beginning of the list and the proof is the list's own. -/
theorem subproofRoots?_sound {old : Digest} (m : Nat) (leaves : List Bytes) (whole : Bool)
    (hm : 0 < m) (hle : m ≤ leaves.length) {proof rest : List Digest} {o : Digest}
    (h : subproofRoots? old whole m leaves.length proof = some (o, rootOf leaves, rest)) :
    (o = rootOf (leaves.take m) ∧ proof = (subproof m leaves whole).reverse ++ rest) ∨
    CollisionBetween (branchInputs leaves) (recomputedInputs old whole m leaves.length proof) := by
  fun_induction subproof m leaves whole generalizing proof o with
  | case1 m leaves hlen =>
    obtain rfl : m = leaves.length := by omega
    rw [subproofRoots?_self, if_pos rfl] at h
    obtain ⟨rfl, hw, rfl⟩ : old = o ∧ old = rootOf leaves ∧ proof = rest := by simpa using h
    rw [List.take_length]
    exact Or.inl ⟨hw, rfl⟩
  | case2 m leaves whole hlen hw =>
    obtain rfl : m = leaves.length := by omega
    rw [subproofRoots?_self, if_neg hw] at h
    rw [List.take_length]
    cases proof with
    | nil => simp at h
    | cons next tail =>
      obtain ⟨rfl, hw, rfl⟩ : next = o ∧ next = rootOf leaves ∧ tail = rest := by simpa using h
      exact Or.inl ⟨hw, by rw [hw]; rfl⟩
  | case3 m leaves whole k hlen hk ih =>
    have hkl : k < leaves.length := splitPoint_lt (by omega)
    have hlen' : (leaves.take k).length = k := by rw [List.length_take]; omega
    have htake : (leaves.take k).take m = leaves.take m := by
      rw [List.take_take, Nat.min_eq_left hk]
    rw [hlen', htake] at ih
    cases proof with
    | nil => rw [subproofRoots?_nil old whole hm (by omega)] at h; simp at h
    | cons next tail =>
      rw [subproofRoots?_left old whole hm (by omega) hk] at h
      obtain ⟨⟨o', w, left⟩, hsub, heq⟩ := Option.map_eq_some_iff.mp h
      obtain ⟨rfl, hw, rfl⟩ : o' = o ∧ branchHash w next = rootOf leaves ∧ left = rest := by
        simpa using heq
      have hin := recomputedInputs_left old whole hm (by omega) hk next hsub
      rw [rootOf_split (by omega : 1 < leaves.length)] at hw
      rcases branchHash_cases hw.symm with ⟨rfl, rfl⟩ | hcol
      · rcases ih hm hk hsub with ⟨ho, hp⟩ | hcol
        · exact Or.inl ⟨ho, by rw [hp, List.reverse_concat]; rfl⟩
        · refine Or.inr (hcol.mono (branchInputs_take_subset (by omega)) ?_)
          rw [hin]
          exact Set.subset_insert _ _
      · refine Or.inr ⟨_, root_mem_branchInputs (by omega), _, ?_, hcol⟩
        rw [hin]
        exact Set.mem_insert _ _
  | case4 m leaves whole k hlen hk ih =>
    have hkl : k < m := by omega
    rw [List.length_drop] at ih
    cases proof with
    | nil => rw [subproofRoots?_nil old whole hm (by omega)] at h; simp at h
    | cons next tail =>
      rw [subproofRoots?_right old whole (by omega) hkl] at h
      obtain ⟨⟨o', w, left⟩, hsub, heq⟩ := Option.map_eq_some_iff.mp h
      obtain ⟨rfl, hw, rfl⟩ : branchHash next o' = o ∧ branchHash next w = rootOf leaves ∧
        left = rest := by simpa using heq
      have hin := recomputedInputs_right old whole (by omega) hkl next hsub
      rw [rootOf_split (by omega : 1 < leaves.length)] at hw
      rcases branchHash_cases hw.symm with ⟨rfl, rfl⟩ | hcol
      · rcases ih (by omega) (by omega) hsub with ⟨ho, hp⟩ | hcol
        · refine Or.inl ⟨?_, by rw [hp, List.reverse_concat]; rfl⟩
          rw [ho, rootOf_take_split hkl hle (by omega)]
        · refine Or.inr (hcol.mono (branchInputs_drop_subset (by omega)) ?_)
          rw [hin]
          exact Set.subset_union_right
      · refine Or.inr ⟨_, root_mem_branchInputs (by omega), _, ?_, hcol⟩
        rw [hin]
        exact Or.inl (Or.inr rfl)

/-- The branches of a beginning's tree are branches of the whole tree or are put together while the
proof is checked. -/
theorem branchInputs_take_subset_recomputed {old : Digest} (m : Nat) (leaves : List Bytes)
    (whole : Bool) (hm : 0 < m) (hle : m ≤ leaves.length)
    (hold : whole → old = rootOf (leaves.take m)) (rest : List Digest) :
    branchInputs (leaves.take m) ⊆ branchInputs leaves ∪
      recomputedInputs old whole m leaves.length ((subproof m leaves whole).reverse ++ rest) := by
  fun_induction subproof m leaves whole generalizing rest with
  | case1 m leaves hlen =>
    rw [List.take_of_length_le hlen]
    exact Set.subset_union_left
  | case2 m leaves whole hlen hw =>
    rw [List.take_of_length_le hlen]
    exact Set.subset_union_left
  | case3 m leaves whole k hlen hk ih =>
    have hkl : k < leaves.length := splitPoint_lt (by omega)
    have hlen' : (leaves.take k).length = k := by rw [List.length_take]; omega
    have htake : (leaves.take k).take m = leaves.take m := by
      rw [List.take_take, Nat.min_eq_left hk]
    have hsub := subproofRoots?_subproof _ m (leaves.take k) whole hm (by omega)
      (by rwa [htake]) rest
    rw [hlen', htake] at ih hsub
    rw [List.reverse_concat, List.cons_append,
      recomputedInputs_left old whole hm (by omega) hk _ hsub]
    intro s hs
    rcases ih hm hk hold rest hs with hs | hs
    · exact Or.inl (branchInputs_take_subset (by omega) hs)
    · exact Or.inr (Set.mem_insert_of_mem _ hs)
  | case4 m leaves whole k hlen hk ih =>
    have hkl : k < m := by omega
    have hpos : 0 < k := splitPoint_pos (by omega)
    have hsub := subproofRoots?_subproof old (m - k) (leaves.drop k) false (by omega)
      (by rw [List.length_drop]; omega) (by simp) rest
    have htake : 1 < (leaves.take m).length := by rw [List.length_take]; omega
    have hsplit : splitPoint (leaves.take m).length = k := by
      rw [List.length_take, Nat.min_eq_left hle]
      exact splitPoint_eq_of_lt hkl hle (by omega)
    rw [List.length_drop] at ih hsub
    rw [List.reverse_concat, List.cons_append,
      recomputedInputs_right old whole (by omega) hkl _ hsub,
      branchInputs_split htake, hsplit,
      List.take_take, Nat.min_eq_left (Nat.le_of_lt hkl), List.drop_take]
    intro s hs
    rcases hs with rfl | hs | hs
    · exact Or.inr (Or.inl (Or.inl rfl))
    · exact Or.inl (branchInputs_take_subset (by omega) hs)
    · rcases ih (by omega) (by omega) (by simp) rest hs with hs | hs
      · exact Or.inl (branchInputs_drop_subset (by omega) hs)
      · exact Or.inr (Or.inr hs)

/-! ## Soundness of the check -/

/-- Another list in place of an honest proof: one element changed, dropped or added. -/
inductive Tampered (honest : List Digest) : List Digest → Prop
  | changed (i : Nat) (d : Digest) (h : i < honest.length) (hd : d ≠ honest[i]) :
    Tampered honest (honest.set i d)
  | dropped (i : Nat) (h : i < honest.length) : Tampered honest (honest.eraseIdx i)
  | added (i : Nat) (d : Digest) (h : i ≤ honest.length) : Tampered honest (honest.insertIdx i d)

theorem Tampered.ne {honest proof : List Digest} (h : Tampered honest proof) : proof ≠ honest := by
  cases h with
  | changed i d hi hd =>
    intro heq
    have hget := congrArg (fun list => list[i]?) heq
    rw [List.getElem?_set_self hi, List.getElem?_eq_getElem hi] at hget
    exact hd (Option.some.inj hget)
  | dropped i hi =>
    intro heq
    have hlen := congrArg List.length heq
    rw [List.length_eraseIdx_of_lt hi] at hlen
    omega
  | added i d hi =>
    intro heq
    have hlen := congrArg List.length heq
    rw [List.length_insertIdx_of_le_length hi] at hlen
    omega

theorem verifyConsistency_of_lt {old new : Digest} {m n : Nat} (hm : 0 < m) (hmn : m < n)
    (proof : List Digest) : verifyConsistency old new m n proof = true ↔
      subproofRoots? old true m n proof.reverse = some (old, new, []) := by
  rw [verifyConsistency, if_neg (by omega), if_neg (by omega), if_neg (by omega), beq_iff_eq]

theorem verifyConsistency_self {old new : Digest} {m : Nat} (hm : 0 < m) (proof : List Digest) :
    verifyConsistency old new m m proof = true ↔ old = new := by
  rw [verifyConsistency, if_neg (by omega), if_neg (by omega), if_pos rfl, beq_iff_eq]

theorem verifyConsistency_prefixProof {leaves : List Bytes} {m : Nat} (hle : m ≤ leaves.length) :
    verifyConsistency (rootOf (leaves.take m)) (rootOf leaves) m leaves.length
      (prefixProof m leaves) = true := by
  rcases Nat.eq_zero_or_pos m with rfl | hm
  · rw [verifyConsistency, if_pos rfl]
  rcases Nat.eq_or_lt_of_le hle with rfl | hlt
  · rw [verifyConsistency_self hm, List.take_length]
  · have hsub := subproofRoots?_subproof _ m leaves true hm hle (fun _ => rfl) []
    rw [List.append_nil] at hsub
    rw [verifyConsistency_of_lt hm hlt, prefixProof_of_lt hm hlt, hsub]

/-- What an accepted proof shows: the old root belongs to a beginning of the list, the proof is the
list's own, and the beginning's branches are among those of the list and of the check. -/
theorem verifyConsistency_cases {leaves : List Bytes} {m : Nat} (hm : 0 < m)
    (hlt : m < leaves.length) {old : Digest} {proof : List Digest}
    (h : verifyConsistency old (rootOf leaves) m leaves.length proof = true) :
    (old = rootOf (leaves.take m) ∧ proof = prefixProof m leaves ∧
      branchInputs (leaves.take m) ⊆
        branchInputs leaves ∪ consistencyInputs old m leaves.length proof) ∨
    CollisionBetween (branchInputs leaves) (consistencyInputs old m leaves.length proof) := by
  rw [verifyConsistency_of_lt hm hlt] at h
  refine (subproofRoots?_sound m leaves true hm hlt.le h).imp_left fun ⟨hold, hproof⟩ => ?_
  rw [List.append_nil] at hproof
  have hsubset := branchInputs_take_subset_recomputed m leaves true hm hlt.le (fun _ => hold) []
  rw [List.append_nil, ← hproof] at hsubset
  exact ⟨hold, by rw [prefixProof_of_lt hm hlt, List.reverse_inj.mp hproof], hsubset⟩

/-- **Soundness of consistency proofs.** An accepted proof that ends in the root of a list shows
that the old root is that of its first `m` leaves, and is the list's own proof; and a tampered proof
is refused. The only way out is a branch of the list's tree that collides with one put together
during the check. -/
theorem verifyConsistency_sound (leaves : List Bytes) {m : Nat} (hm : 0 < m)
    (hle : m ≤ leaves.length) (old : Digest) (proof : List Digest) :
    ((verifyConsistency old (rootOf leaves) m leaves.length proof = true →
        old = rootOf (leaves.take m) ∧ (m < leaves.length → proof = prefixProof m leaves)) ∧
      (m < leaves.length → Tampered (prefixProof m leaves) proof →
        verifyConsistency old (rootOf leaves) m leaves.length proof = false)) ∨
    CollisionBetween (branchInputs leaves) (consistencyInputs old m leaves.length proof) := by
  by_cases haccept : verifyConsistency old (rootOf leaves) m leaves.length proof = true
  · rcases Nat.eq_or_lt_of_le hle with rfl | hlt
    · rw [verifyConsistency_self hm] at haccept
      refine Or.inl ⟨fun _ => ⟨by rw [List.take_length, haccept], fun h => ?_⟩, fun h => ?_⟩
      · exact absurd h (lt_irrefl _)
      · exact absurd h (lt_irrefl _)
    · refine (verifyConsistency_cases hm hlt haccept).imp_left fun ⟨hold, hproof, _⟩ => ?_
      exact ⟨fun _ => ⟨hold, fun _ => hproof⟩, fun _ htampered => absurd hproof htampered.ne⟩
  · exact Or.inl ⟨fun h => absurd h haccept, fun _ _ => Bool.eq_false_iff.mpr haccept⟩

/-- Dropping the only element of the proof from two to three leaves gets it refused. -/
theorem verifyConsistency_sound_two_of_three :
    0 < 2 ∧ 2 ≤ [[1], [2], [3]].length ∧
      (verifyConsistency (rootOf [[1], [2]]) (rootOf [[1], [2], [3]]) 2 3 [] = false ∨
        CollisionBetween (branchInputs [[1], [2], [3]])
          (consistencyInputs (rootOf [[1], [2]]) 2 3 [])) := by
  refine ⟨by decide, by decide, ?_⟩
  have hproof : prefixProof 2 [[1], [2], [3]] = [rootOf [[3]]] := by
    rw [prefixProof_of_lt (by decide) (by decide), subproof_left (by decide) (by decide),
      subproof_of_le (by decide)]
    rfl
  have htampered : Tampered (prefixProof 2 [[1], [2], [3]]) [] := by
    rw [hproof]
    exact Tampered.dropped 0 (by decide)
  exact (verifyConsistency_sound [[1], [2], [3]] (by decide) (by decide) (rootOf [[1], [2]]) []).imp_left
    fun h => h.2 (by decide) htampered

end TransparencyLog.Tree
