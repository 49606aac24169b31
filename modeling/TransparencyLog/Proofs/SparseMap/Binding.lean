import TransparencyLog.Proofs.SparseMap.Tree

/-!
# One answer per key

Two proofs may be made up of any siblings. If they lead from their leaves along the path of one key to
one root, they meet at every level on the way down from it, as long as the branches hashed do not
collide. So they have the same siblings and the same leaf, and a leaf tells whether there is a value,
and which. Only a value that hashes to the 32 zero bytes of an absent one could be taken for it.

* `SparseMap.climbInputs`, `SparseMap.answerInputs`, `SparseMap.verifyInputs`: what is hashed to check
  a proof;
* `SparseMap.HashesToZero`: an answer that cannot be told from an absent one;
* **`SparseMap.climb_cases`**: two ways up to one root;
* `SparseMap.leafOf_cases`: two answers with one leaf;
* **`SparseMap.verify_cases`**: two proofs that are accepted under one root;
* **`SparseMap.verify_binds_answer`**: a root has one answer per key, and one proof of it;
* `SparseMap.verifyInputs_siblingsOf_subset`: what is hashed to check the proof of a tree.
-/

namespace TransparencyLog.SparseMap

/-! ## What is hashed -/

/-- What is hashed on the way up. -/
def climbInputs (key : Digest) : Nat → Digest → List Digest → Set Bytes
  | _, _, [] => ∅
  | h, hash, sibling :: rest =>
    insert (branchInput (ordered key h hash sibling).1 (ordered key h hash sibling).2)
      (climbInputs key (h + 1)
        (branchHash (ordered key h hash sibling).1 (ordered key h hash sibling).2) rest)

/-- What is hashed for the leaf of an answer. -/
def answerInputs : Option Bytes → Set Bytes
  | some value => {leafInput (sha256 value).bytes, value}
  | none => {leafInput Digest.zero.bytes}

/-- What is hashed to check a proof: the key, the leaf of the answer, and the branches above it. -/
def verifyInputs (siblings : List Digest) (key : Bytes) (answer : Option Bytes) : Set Bytes :=
  insert key (answerInputs answer ∪ climbInputs (sha256 key) 0 (leafOf answer) siblings)

/-- The answer is a value with the hash that stands for an absent one. -/
def HashesToZero (answer : Option Bytes) : Prop :=
  ∃ value, answer = some value ∧ sha256 value = Digest.zero

theorem answerInputs_subset (siblings : List Digest) (key : Bytes) (answer : Option Bytes) :
    answerInputs answer ⊆ verifyInputs siblings key answer :=
  Set.subset_union_left.trans (Set.subset_insert _ _)

theorem climbInputs_subset (siblings : List Digest) (key : Bytes) (answer : Option Bytes) :
    climbInputs (sha256 key) 0 (leafOf answer) siblings ⊆ verifyInputs siblings key answer :=
  Set.subset_union_right.trans (Set.subset_insert _ _)

/-! ## The way up -/

theorem ordered_inj {key : Digest} {h : Nat} {hash hash' sibling sibling' : Digest}
    (hleft : (ordered key h hash sibling).1 = (ordered key h hash' sibling').1)
    (hright : (ordered key h hash sibling).2 = (ordered key h hash' sibling').2) :
    hash = hash' ∧ sibling = sibling' := by
  unfold ordered at hleft hright
  by_cases hbit : key.bit h = true
  · rw [if_pos hbit, if_pos hbit] at hleft hright
    exact ⟨hright, hleft⟩
  · rw [if_neg hbit, if_neg hbit] at hleft hright
    exact ⟨hleft, hright⟩

/-- **Two ways up to one root** are the same, or two of the branches on them collide. -/
theorem climb_cases {key : Digest} {h : Nat} {hash hash' : Digest} {siblings siblings' : List Digest}
    (hlen : siblings.length = siblings'.length)
    (heq : climb key h hash siblings = climb key h hash' siblings') :
    (hash = hash' ∧ siblings = siblings') ∨
      CollisionBetween (climbInputs key h hash siblings) (climbInputs key h hash' siblings') := by
  induction siblings generalizing h hash hash' siblings' with
  | nil =>
    obtain rfl := List.length_eq_zero_iff.mp hlen.symm
    exact Or.inl ⟨heq, rfl⟩
  | cons sibling rest ih =>
    obtain ⟨sibling', rest', rfl⟩ := List.exists_cons_of_length_eq_add_one hlen.symm
    rw [climb_cons, climb_cons] at heq
    -- The rest of the way is the same, so the branches below it have one hash.
    rcases ih (Nat.succ.inj hlen) heq with ⟨hparent, rfl⟩ | hcol
    · rcases branchHash_cases hparent with ⟨hleft, hright⟩ | hcol
      · obtain ⟨rfl, rfl⟩ := ordered_inj hleft hright
        exact Or.inl ⟨rfl, rfl⟩
      · exact Or.inr ⟨_, Set.mem_insert _ _, _, Set.mem_insert _ _, hcol⟩
    · exact Or.inr (hcol.mono (Set.subset_insert _ _) (Set.subset_insert _ _))

theorem climbInputs_concat (key : Digest) (h : Nat) (hash : Digest) (siblings : List Digest)
    (top : Digest) : climbInputs key h hash (siblings ++ [top]) =
      climbInputs key h hash siblings ∪
        climbInputs key (h + siblings.length) (climb key h hash siblings) [top] := by
  induction siblings generalizing h hash with
  | nil => exact (Set.empty_union _).symm
  | cons sibling siblings ih =>
    rw [List.cons_append, climbInputs, climbInputs, ih, climb_cons, List.length_cons,
      Set.insert_union, Nat.add_assoc, Nat.add_comm 1]

/-- What is hashed on the way up from a leaf of a tree is hashed for the tree. -/
theorem climbInputs_siblingsOf_subset (key : Digest) (h : Nat) (values : List Bool → Option Bytes) :
    climbInputs key 0 (leafOf (values (key.path h))) (siblingsOf key h values) ⊆
      treeInputs h values := by
  induction h generalizing values with
  | zero => exact Set.empty_subset _
  | succ h ih =>
    have hleaf : values (key.path (h + 1)) = half values (key.bit h) (key.path h) := rfl
    rw [hleaf, siblingsOf, climbInputs_concat, climb_siblingsOf, length_siblingsOf, Nat.zero_add]
    refine Set.union_subset ((ih _).trans (treeInputs_half_subset h values _)) ?_
    rw [climbInputs, ordered_halves, climbInputs, insert_empty_eq]
    exact Set.singleton_subset_iff.mpr (branchInput_mem_treeInputs h values)

/-! ## Leaves -/

/-- What is hashed for the leaf at the end of a path is hashed for the tree. -/
theorem answerInputs_path_subset (key : Digest) (h : Nat) (values : List Bool → Option Bytes) :
    answerInputs (values (key.path h)) ⊆ treeInputs h values := by
  induction h generalizing values with
  | zero =>
    rw [treeInputs, Digest.path]
    cases values [] <;> exact Set.Subset.refl _
  | succ h ih => exact (ih _).trans (treeInputs_half_subset h values (key.bit h))

/-- **A leaf has one answer**, unless what is hashed for it collides or a value stands for none. -/
theorem leafOf_cases {answer answer' : Option Bytes} (heq : leafOf answer = leafOf answer') :
    answer = answer' ∨ CollisionBetween (answerInputs answer) (answerInputs answer') ∨
      (HashesToZero answer ∧ answer' = none) ∨ (answer = none ∧ HashesToZero answer') := by
  cases answer with
  | none =>
    cases answer' with
    | none => exact Or.inl rfl
    | some value' =>
      rcases sha256_cases heq with hsame | hcol
      · have hzero := Digest.ext (leafInput_injective hsame)
        exact Or.inr (Or.inr (Or.inr ⟨rfl, value', rfl, hzero.symm⟩))
      · exact Or.inr (Or.inl ⟨_, rfl, _, Or.inl rfl, hcol⟩)
  | some value =>
    cases answer' with
    | none =>
      rcases sha256_cases heq with hsame | hcol
      · have hzero := Digest.ext (leafInput_injective hsame)
        exact Or.inr (Or.inr (Or.inl ⟨⟨value, rfl, hzero⟩, rfl⟩))
      · exact Or.inr (Or.inl ⟨_, Or.inl rfl, _, rfl, hcol⟩)
    | some value' =>
      rcases sha256_cases heq with hsame | hcol
      · rcases sha256_cases (Digest.ext (leafInput_injective hsame)) with rfl | hcol
        · exact Or.inl rfl
        · exact Or.inr (Or.inl ⟨_, Or.inr rfl, _, Or.inr rfl, hcol⟩)
      · exact Or.inr (Or.inl ⟨_, Or.inl rfl, _, Or.inl rfl, hcol⟩)

/-! ## Proofs -/

theorem verify_eq_true_iff {siblings : List Digest} {root : Digest} {key : Bytes}
    {answer : Option Bytes} : verify siblings root key answer = true ↔
      siblings.length = height ∧ climb (sha256 key) 0 (leafOf answer) siblings = root := by
  rw [verify, Bool.and_eq_true, beq_iff_eq, beq_iff_eq]

section Verify

variable {root : Digest} {key : Bytes} {siblings siblings' : List Digest}
  {answer answer' : Option Bytes}

/-- **Two proofs that are accepted under one root** show the same answer with the same siblings, or
what is hashed to check them collides, or one shows no value and the other one that stands for none. -/
theorem verify_cases (h : verify siblings root key answer = true)
    (h' : verify siblings' root key answer' = true) :
    (answer = answer' ∧ siblings = siblings') ∨
      CollisionBetween (verifyInputs siblings key answer) (verifyInputs siblings' key answer') ∨
      (HashesToZero answer ∧ answer' = none) ∨ (answer = none ∧ HashesToZero answer') := by
  obtain ⟨hlen, hroot⟩ := verify_eq_true_iff.mp h
  obtain ⟨hlen', hroot'⟩ := verify_eq_true_iff.mp h'
  rcases climb_cases (hlen.trans hlen'.symm) (hroot.trans hroot'.symm) with ⟨hleaf, rfl⟩ | hcol
  · rcases leafOf_cases hleaf with rfl | hcol | hzero
    · exact Or.inl ⟨rfl, rfl⟩
    · exact Or.inr (Or.inl (hcol.mono (answerInputs_subset _ _ _) (answerInputs_subset _ _ _)))
    · exact Or.inr (Or.inr hzero)
  · exact Or.inr (Or.inl (hcol.mono (climbInputs_subset _ _ _) (climbInputs_subset _ _ _)))

/-- **A root has one answer per key**, present or absent, and one proof of it: 256 siblings. The only
ways out are two different strings with one hash, one hashed to check each of the proofs, and an answer
that hashes to 32 zero bytes. -/
theorem verify_binds_answer (h : verify siblings root key answer = true)
    (h' : verify siblings' root key answer' = true) :
    (answer = answer' ∧ siblings = siblings' ∧ siblings.length = 256) ∨
      CollisionBetween (verifyInputs siblings key answer) (verifyInputs siblings' key answer') ∨
      HashesToZero answer ∨ HashesToZero answer' := by
  rcases verify_cases h h' with ⟨hanswer, hsiblings⟩ | hcol | ⟨hzero, -⟩ | ⟨-, hzero⟩
  · exact Or.inl ⟨hanswer, hsiblings, (verify_eq_true_iff.mp h).1⟩
  · exact Or.inr (Or.inl hcol)
  · exact Or.inr (Or.inr (Or.inl hzero))
  · exact Or.inr (Or.inr (Or.inr hzero))

/-- The map that has one key shows its value. -/
theorem verify_binds_answer_one_key : ∃ (siblings : List Digest) (root : Digest),
    verify siblings root [1] (some [2]) = true ∧
      (siblings.length = 256 ∨
        CollisionBetween (verifyInputs siblings [1] (some [2]))
          (verifyInputs siblings [1] (some [2])) ∨
        HashesToZero (some [2]) ∨ HashesToZero (some [2])) := by
  let values := assigned [([1], [2])]
  have hvalue : values ((sha256 [1]).path height) = some [2] := by
    simp [values, assigned]
  have haccept : verify (siblingsOf (sha256 [1]) height values) (treeRoot height values) [1]
      (some [2]) = true := by
    rw [verify_eq_true_iff, ← hvalue]
    exact ⟨length_siblingsOf _ _ _, climb_siblingsOf _ _ _⟩
  exact ⟨_, _, haccept, (verify_binds_answer haccept haccept).imp_left fun h => h.2.2⟩

end Verify

/-- What is hashed to check the proof of a tree is the key and what is hashed for the tree. -/
theorem verifyInputs_siblingsOf_subset (key : Bytes) (values : List Bool → Option Bytes) :
    verifyInputs (siblingsOf (sha256 key) height values) key (values ((sha256 key).path height)) ⊆
      insert key (treeInputs height values) := by
  refine Set.insert_subset_insert (Set.union_subset ?_ ?_)
  · exact answerInputs_path_subset _ _ _
  · exact climbInputs_siblingsOf_subset _ _ _

end TransparencyLog.SparseMap
