import TransparencyLog.Proofs.Tree.Audit

/-!
# What an audit path shows

Whoever presents a path chooses the data, the index and the path. The check climbs from the data's
hash to a root; when that is the root of a list, then the data is the leaf with this index and the
path is the leaf's own, unless a string hashed for the list's tree and one hashed by the check
collide.

* `leafInputs`: the leaves of a list's tree; `climbInputs`, `auditInputs`: what the check hashes;
* `branchInputs_below_subset`: the branches below a node are branches of the tree;
* **`climb?_sound`**: a climb that ends at the root started at the node and used its siblings;
* **`verifyAudit_sound`**: soundness.
-/

namespace TransparencyLog.Tree

/-! ## What is hashed -/

/-- What is hashed for the leaves of a list. -/
def leafInputs (leaves : List Bytes) : Set Bytes := {s | ∃ data ∈ leaves, s = leafInput data}

/-- What is hashed for the branches put together on the way up. -/
def climbInputs (hash : Digest) (index size : Nat) (path : List Digest) : Set Bytes :=
  if size ≤ 1 then ∅
  else if index % 2 = 0 ∧ index + 1 = size then
    climbInputs hash (index / 2) (size / 2 + size % 2) path
  else match path with
    | [] => ∅
    | other :: rest =>
      if index % 2 = 1 then
        insert (branchInput other hash)
          (climbInputs (branchHash other hash) (index / 2) (size / 2 + size % 2) rest)
      else
        insert (branchInput hash other)
          (climbInputs (branchHash hash other) (index / 2) (size / 2 + size % 2) rest)
termination_by size
decreasing_by all_goals omega

/-- What is hashed while an audit path is checked. -/
def auditInputs (data : Bytes) (index size : Nat) (path : List Digest) : Set Bytes :=
  insert (leafInput data) (climbInputs (leafHash data) index size path)

section Climb

variable {index last : Nat}

theorem climbInputs_promoted (hash : Digest) (hpos : 0 < last) (heven : last % 2 = 0)
    (path : List Digest) :
    climbInputs hash last (last + 1) path = climbInputs hash (last / 2) (last / 2 + 1) path := by
  rw [climbInputs.eq_def, if_neg (by omega), if_pos ⟨heven, rfl⟩, half_size]

theorem climbInputs_right (hash : Digest) (hpos : 0 < last) (hodd : index % 2 = 1) (other : Digest)
    (rest : List Digest) : climbInputs hash index (last + 1) (other :: rest) =
      insert (branchInput other hash)
        (climbInputs (branchHash other hash) (index / 2) (last / 2 + 1) rest) := by
  rw [climbInputs, if_neg (by omega), if_neg (by omega)]
  simp only [if_pos hodd, half_size]

theorem climbInputs_left (hash : Digest) (heven : index % 2 = 0) (hlt : index < last)
    (other : Digest) (rest : List Digest) : climbInputs hash index (last + 1) (other :: rest) =
      insert (branchInput hash other)
        (climbInputs (branchHash hash other) (index / 2) (last / 2 + 1) rest) := by
  rw [climbInputs, if_neg (by omega), if_neg (by omega)]
  simp only [if_neg (show ¬ index % 2 = 1 by omega), half_size]

end Climb

/-! ## The branches below a node -/

section Branches

variable {leaves : List Bytes} {level index last : Nat}

theorem branchInputs_nil : branchInputs [] = ∅ := by
  rw [branchInputs]
  exact if_pos (Nat.zero_le 1)

theorem branchInputs_below_parent (leaves : List Bytes) (level index : Nat) :
    branchInputs (below leaves level index) ⊆ branchInputs (below leaves (level + 1) (index / 2)) := by
  by_cases hsplit : (2 * (index / 2) + 1) * 2 ^ level < leaves.length
  · -- The parent divides into two children, of which the node is one.
    have hlen := one_lt_length_below hsplit
    rcases Nat.mod_two_eq_zero_or_one index with heven | hodd
    · have htake := branchInputs_take_subset hlen
      have hhalf : 2 * (index / 2) = index := by omega
      rwa [splitPoint_below hsplit, take_below, hhalf] at htake
    · have hdrop := branchInputs_drop_subset hlen
      have hhalf : 2 * (index / 2) + 1 = index := by omega
      rwa [splitPoint_below hsplit, drop_below, hhalf] at hdrop
  · -- Only a left child has leaves, which are those of the parent.
    rw [below_succ (by omega)]
    rcases Nat.mod_two_eq_zero_or_one index with heven | hodd
    · have hhalf : 2 * (index / 2) = index := by omega
      rw [hhalf]
    · have hhalf : 2 * (index / 2) + 1 = index := by omega
      have hnone : below leaves level index = [] := by
        rw [below, ← hhalf, List.drop_eq_nil_of_le (by omega), List.take_nil]
      rw [hnone, branchInputs_nil]
      exact Set.empty_subset _

theorem branchInputs_below_subset (leaves : List Bytes) (level index : Nat) :
    branchInputs (below leaves level index) ⊆ branchInputs leaves := by
  -- Induct on how far the level is from one that is above the root and the node.
  have htop : leaves.length ≤ 2 ^ (level + (leaves.length + index)) :=
    Nat.lt_two_pow_self.le.trans (Nat.pow_le_pow_right (by decide) (by omega))
  have hroot : index < 2 ^ (leaves.length + index) :=
    Nat.lt_two_pow_self.trans_le (Nat.pow_le_pow_right (by decide) (by omega))
  generalize leaves.length + index = steps at htop hroot
  induction steps generalizing level index with
  | zero =>
    obtain rfl : index = 0 := by rw [Nat.pow_zero] at hroot; omega
    rw [Nat.add_zero] at htop
    rw [below_top htop]
  | succ steps ih =>
    refine (branchInputs_below_parent leaves level index).trans (ih (level + 1) (index / 2) ?_ ?_)
    · rwa [Nat.add_assoc, Nat.add_comm 1]
    · rw [Nat.pow_succ] at hroot
      omega

/-- A node with two children is one of the tree's branches. -/
theorem mem_branchInputs (h : (2 * index + 1) * 2 ^ level < leaves.length) :
    branchInput (nodeOf leaves level (2 * index)) (nodeOf leaves level (2 * index + 1)) ∈
      branchInputs leaves := by
  have hroot := root_mem_branchInputs (one_lt_length_below h)
  rw [splitPoint_below h, take_below, drop_below] at hroot
  exact branchInputs_below_subset leaves (level + 1) index hroot

theorem mem_branchInputs_left (hlast : IsLast leaves level last) (hlt : index < last)
    (heven : index % 2 = 0) :
    branchInput (nodeOf leaves level index) (nodeOf leaves level (index + 1)) ∈
      branchInputs leaves := by
  have hindex : 2 * (index / 2) = index := by omega
  have hupper : (2 * (index / 2) + 1) * 2 ^ level < leaves.length := by
    rw [hindex]
    exact (hlast.le_iff _).mp hlt
  have hmem := mem_branchInputs hupper
  rwa [hindex] at hmem

theorem mem_branchInputs_right (hlast : IsLast leaves level last) (hle : index ≤ last)
    (hodd : index % 2 = 1) :
    branchInput (nodeOf leaves level (index - 1)) (nodeOf leaves level index) ∈
      branchInputs leaves := by
  have hindex : 2 * (index / 2) + 1 = index := by omega
  have hlower : 2 * (index / 2) = index - 1 := by omega
  have hupper : (2 * (index / 2) + 1) * 2 ^ level < leaves.length := by
    rw [hindex]
    exact (hlast.le_iff _).mp hle
  have hmem := mem_branchInputs hupper
  rwa [hindex, hlower] at hmem

/-! ## Soundness -/

/-- A branch put together with the hash of a known one has its children, or they collide. -/
theorem branchHash_mem_cases {known hashed : Set Bytes} {a b c d : Digest}
    (hmem : branchInput c d ∈ known) (h : branchHash a b = branchHash c d) :
    (a = c ∧ b = d) ∨ CollisionBetween known (insert (branchInput a b) hashed) := by
  rcases branchHash_cases h.symm with ⟨rfl, rfl⟩ | hcol
  · exact Or.inl ⟨rfl, rfl⟩
  · exact Or.inr ⟨_, hmem, _, Set.mem_insert _ _, hcol⟩

/-- **A climb that ends at the root** started at the node and used its siblings, unless a branch of
the tree collides with one put together on the way. -/
theorem climb?_sound (hlast : IsLast leaves level last) (hle : index ≤ last) {steps : Nat}
    (hsteps : last < 2 ^ steps) {hash : Digest} {path : List Digest}
    (h : climb? hash index (last + 1) path = some (rootOf leaves, [])) :
    (hash = nodeOf leaves level index ∧ path = pathUp leaves level index steps) ∨
      CollisionBetween (branchInputs leaves) (climbInputs hash index (last + 1) path) := by
  induction steps generalizing level last index hash path with
  | zero =>
    obtain rfl : last = 0 := by rw [Nat.pow_zero] at hsteps; omega
    obtain rfl : index = 0 := by omega
    rw [climb?_of_le (Nat.le_refl 1)] at h
    obtain ⟨hroot, hpath⟩ := Prod.mk.inj (Option.some.inj h)
    exact Or.inl ⟨by rw [hroot, nodeOf_root hlast], hpath⟩
  | succ steps ih =>
    have hparent : last / 2 < 2 ^ steps := by rw [Nat.pow_succ] at hsteps; omega
    have hhalf : index / 2 ≤ last / 2 := Nat.div_le_div_right hle
    rcases Nat.eq_zero_or_pos last with rfl | hpos
    · obtain rfl : index = 0 := by omega
      rw [climb?_of_le (Nat.le_refl 1)] at h
      obtain ⟨hroot, hpath⟩ := Prod.mk.inj (Option.some.inj h)
      exact Or.inl ⟨by rw [hroot, nodeOf_root hlast], by rw [hpath, pathUp_root hlast]⟩
    by_cases hpromoted : index % 2 = 0 ∧ index = last
    · obtain ⟨heven, rfl⟩ := hpromoted
      obtain ⟨hnone, hsame⟩ := node_promoted hlast heven
      rw [climb?_promoted _ hpos heven] at h
      rw [climbInputs_promoted _ hpos heven, pathUp, hnone, List.nil_append, ← hsame]
      exact ih hlast.parent hhalf hparent h
    cases path with
    | nil =>
      rw [climb?_nil _ hpos hpromoted] at h
      cases h
    | cons other rest =>
      rcases Nat.mod_two_eq_zero_or_one index with heven | hodd
      · have hlt : index < last := Nat.lt_of_le_of_ne hle fun heq => hpromoted ⟨heven, heq⟩
        obtain ⟨hsome, hjoined⟩ := node_left hlast hlt heven
        rw [climb?_left _ heven hlt] at h
        rw [climbInputs_left _ heven hlt, pathUp, hsome, List.singleton_append]
        rcases ih hlast.parent hhalf hparent h with ⟨hhash, hrest⟩ | hcol
        · rw [hjoined] at hhash
          refine (branchHash_mem_cases (mem_branchInputs_left hlast hlt heven) hhash).imp_left ?_
          rintro ⟨hnode, hother⟩
          exact ⟨hnode, by rw [hother, hrest]⟩
        · exact Or.inr (hcol.mono Set.Subset.rfl (Set.subset_insert _ _))
      · obtain ⟨hsome, hjoined⟩ := node_right hlast hle hodd
        rw [climb?_right _ hpos hodd] at h
        rw [climbInputs_right _ hpos hodd, pathUp, hsome, List.singleton_append]
        rcases ih hlast.parent hhalf hparent h with ⟨hhash, hrest⟩ | hcol
        · rw [hjoined] at hhash
          refine (branchHash_mem_cases (mem_branchInputs_right hlast hle hodd) hhash).imp_left ?_
          rintro ⟨hother, hnode⟩
          exact ⟨hnode, by rw [hother, hrest]⟩
        · exact Or.inr (hcol.mono Set.Subset.rfl (Set.subset_insert _ _))

end Branches

/-- **Soundness of audit paths.** An accepted path shows that the index is one of the list, that the
data is the leaf with this index and that the path is the leaf's own. The only way out is a leaf or
branch of the list's tree that collides with a string hashed during the check. -/
theorem verifyAudit_sound (leaves : List Bytes) (index : Nat) (path : List Digest) (data : Bytes)
    (h : verifyAudit (rootOf leaves) leaves.length index path data = true) :
    index < leaves.length ∧
      ((leaves[index]? = some data ∧ path = auditPath index leaves) ∨
        CollisionBetween (leafInputs leaves ∪ branchInputs leaves)
          (auditInputs data index leaves.length path)) := by
  rw [verifyAudit, Bool.and_eq_true, decide_eq_true_iff, beq_iff_eq] at h
  obtain ⟨hindex, hclimb⟩ := h
  refine ⟨hindex, ?_⟩
  have hlength : leaves.length - 1 + 1 = leaves.length := by omega
  have htop : leaves.length ≤ 2 ^ leaves.length := Nat.lt_two_pow_self.le
  have hsound := climb?_sound (isLast_zero (by omega)) (show index ≤ leaves.length - 1 by omega)
    (show leaves.length - 1 < 2 ^ leaves.length by omega) (by rwa [hlength])
  rw [← auditPath_eq_pathUp hindex htop, nodeOf_zero hindex, hlength] at hsound
  rw [List.getElem?_eq_getElem hindex]
  rcases hsound with ⟨hhash, hpath⟩ | hcol
  · have hleaf : leafInput leaves[index] ∈ leafInputs leaves := ⟨_, List.getElem_mem hindex, rfl⟩
    rcases sha256_cases hhash.symm with heq | hcol
    · exact Or.inl ⟨congrArg some (leafInput_injective heq), hpath⟩
    · exact Or.inr ⟨_, Or.inl hleaf, _, Set.mem_insert _ _, hcol⟩
  · exact Or.inr (hcol.mono Set.subset_union_right (Set.subset_insert _ _))

/-- The path of the last leaf of three, which has no sibling on the lowest level. -/
theorem verifyAudit_sound_last_of_three :
    verifyAudit (rootOf [[1], [2], [3]]) [[1], [2], [3]].length 2 [rootOf [[1], [2]]] [3] = true ∧
      2 < [[1], [2], [3]].length ∧
      ((([[1], [2], [3]] : List Bytes)[2]? = some [3] ∧
          [rootOf [[1], [2]]] = auditPath 2 [[1], [2], [3]]) ∨
        CollisionBetween (leafInputs [[1], [2], [3]] ∪ branchInputs [[1], [2], [3]])
          (auditInputs [3] 2 [[1], [2], [3]].length [rootOf [[1], [2]]])) := by
  have hpath : auditPath 2 [[1], [2], [3]] = [rootOf [[1], [2]]] := by
    rw [auditPath_right (by decide) (by decide), auditPath_of_le (by decide)]
    rfl
  have haccept := verifyAudit_auditPath (show ([[1], [2], [3]] : List Bytes)[2]? = some [3] from rfl)
  rw [hpath] at haccept
  exact ⟨haccept, verifyAudit_sound [[1], [2], [3]] 2 [rootOf [[1], [2]]] [3] haccept⟩

end TransparencyLog.Tree
