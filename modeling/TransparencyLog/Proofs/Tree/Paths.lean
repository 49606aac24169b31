import TransparencyLog.Proofs.Tree.Consistency
import TransparencyLog.Proofs.Tree.Nodes

/-!
# Proofs put together from the stored nodes

A proof is collected from the bottom up: at every level the sibling of the current node, if it has
leaves, while the digest over the last and possibly incomplete node of the level is carried along.
Level by level this is the list's own proof, which is described from the top down.

* `siblingAt`, `pathUp`: the siblings from a node upwards; `pathUp_succ`: one more level on top;
* `pathToRoot_eq`: what is collected from a store that holds the list;
* `boundary_spec`: the highest complete subtree at the end of a beginning;
* **`subproof_eq_pathUp`**: the two descriptions agree;
* **`consistencyProof_correct`**: consistency proofs are the list's own and are accepted, and every
  request outside the log is refused.
-/

namespace TransparencyLog.Tree

/-! ## Siblings -/

/-- The sibling of a node, if it has leaves. -/
def siblingAt (leaves : List Bytes) (level index : Nat) : List Digest :=
  if sibling index * 2 ^ level < leaves.length then [nodeOf leaves level (sibling index)] else []

/-- The siblings on the way up from a node. -/
def pathUp (leaves : List Bytes) (level index : Nat) : Nat → List Digest
  | 0 => []
  | steps + 1 => siblingAt leaves level index ++ pathUp leaves (level + 1) (index / 2) steps

theorem pathUp_succ (leaves : List Bytes) (level index steps : Nat) :
    pathUp leaves level index (steps + 1) = pathUp leaves level index steps ++
      siblingAt leaves (level + steps) (index / 2 ^ steps) := by
  induction steps generalizing level index with
  | zero => rw [pathUp, pathUp, pathUp, Nat.pow_zero, Nat.div_one, Nat.add_zero, List.append_nil]; rfl
  | succ steps ih =>
    have hdiv : index / 2 / 2 ^ steps = index / 2 ^ (steps + 1) := by
      rw [Nat.div_div_eq_div_mul, Nat.pow_succ']
    rw [pathUp, ih, hdiv, ← List.append_assoc, ← pathUp, Nat.add_assoc, Nat.add_comm 1]

theorem sibling_of_even {index : Nat} (h : index % 2 = 0) : sibling index = index + 1 := by
  have hright : isRight index = false := by simp [isRight, h]
  rw [sibling, hright]
  rfl

theorem sibling_of_odd {index : Nat} (h : index % 2 = 1) : sibling index = index - 1 := by
  have hright : isRight index = true := by simp [isRight, h]
  rw [sibling, hright]
  rfl

/-! ## The last node of a level -/

/-- The node is the last of its level that has leaves. -/
def IsLast (leaves : List Bytes) (level last : Nat) : Prop :=
  last * 2 ^ level < leaves.length ∧ leaves.length ≤ (last + 1) * 2 ^ level

section Last

variable {view : Snapshot} {leaves : List Bytes} {level last : Nat}

theorem isLast_zero (h : 0 < leaves.length) : IsLast leaves 0 (leaves.length - 1) := by
  rw [IsLast, Nat.pow_zero]
  omega

theorem IsLast.parent (h : IsLast leaves level last) : IsLast leaves (level + 1) (last / 2) := by
  have hlow : last / 2 * 2 ^ (level + 1) ≤ last * 2 ^ level := by
    rw [left_start]
    exact Nat.mul_le_mul_right _ (by omega)
  have hhigh : (last + 1) * 2 ^ level ≤ (last / 2 + 1) * 2 ^ (level + 1) := by
    rw [left_start]
    exact Nat.mul_le_mul_right _ (by omega)
  exact ⟨by have := h.1; omega, by have := h.2; omega⟩

/-- A node is in front of the last one, or it is the last one, or it has no leaves. -/
theorem IsLast.le_iff (h : IsLast leaves level last) (index : Nat) :
    index ≤ last ↔ index * 2 ^ level < leaves.length := by
  constructor
  · intro hle
    exact Nat.lt_of_le_of_lt (Nat.mul_le_mul_right _ hle) h.1
  · intro hlt
    have := Nat.lt_of_mul_lt_mul_right (Nat.lt_of_lt_of_le hlt h.2)
    omega

theorem raiseLast_eq (h : Holds view leaves) (hlast : IsLast leaves level last) :
    raiseLast view level last (nodeOf leaves level last) =
      .ok (nodeOf leaves (level + 1) (last / 2)) := by
  rw [raiseLast]
  rcases Nat.mod_two_eq_zero_or_one last with heven | hodd
  · have hindex : 2 * (last / 2) = last := by omega
    have hbelow : nodeOf leaves (level + 1) (last / 2) = nodeOf leaves level last := by
      rw [nodeOf, below_succ (by rw [hindex]; exact hlast.2), hindex, nodeOf]
    rw [hbelow]
    simp [isRight, heven]
  · have hindex : 2 * (last / 2) = last - 1 := by omega
    have hpred : last - 1 + 1 = last := by omega
    have hleft := h.digest_eq level (last - 1) (by rw [hpred]; exact hlast.1.le)
    rw [nodeOf_succ (by rw [hindex, hpred]; exact hlast.1), hindex, hpred, hleft]
    simp [isRight, hodd, bind, Except.bind, pure, Except.pure]

theorem raiseLastBy_eq (h : Holds view leaves) (hlast : IsLast leaves level last) (steps : Nat) :
    raiseLastBy view steps level last (nodeOf leaves level last) =
      .ok (nodeOf leaves (level + steps) (last / 2 ^ steps)) ∧
    IsLast leaves (level + steps) (last / 2 ^ steps) := by
  induction steps generalizing level last with
  | zero => rw [raiseLastBy, Nat.pow_zero, Nat.div_one]; exact ⟨rfl, hlast⟩
  | succ steps ih =>
    have hdiv : last / 2 / 2 ^ steps = last / 2 ^ (steps + 1) := by
      rw [Nat.div_div_eq_div_mul, Nat.pow_succ']
    have hup := ih hlast.parent
    rw [hdiv, Nat.add_assoc, Nat.add_comm 1] at hup
    rw [raiseLastBy, raiseLast_eq h hlast]
    exact hup

/-- What is looked up as the sibling of a node: a stored digest, the one over the last node, or
nothing. -/
def lookup (view : Snapshot) (level last other : Nat) (hash : Digest) :
    Except LogError (Option Digest) :=
  if other < last then some <$> digest view level other
  else .ok (if other = last then some hash else none)

theorem siblings_step (hzero : last ≠ 0) (index : Nat) (hash : Digest) :
    siblings view index level last hash = (do
      let found ← lookup view level last (sibling index) hash
      let hash ← raiseLast view level last hash
      let rest ← siblings view (parent index) (level + 1) (parent last) hash
      return found.toList ++ rest) := by
  rw [siblings, if_neg hzero, lookup]
  by_cases hlt : sibling index < last
  · simp only [if_pos hlt]
  · simp only [if_neg hlt]
    rfl

theorem lookup_eq (h : Holds view leaves) (hlast : IsLast leaves level last) (other : Nat) :
    lookup view level last other (nodeOf leaves level last) =
      .ok (if other * 2 ^ level < leaves.length then some (nodeOf leaves level other) else none) := by
  rw [lookup]
  rcases Nat.lt_trichotomy other last with hlt | rfl | hgt
  · have hend : (other + 1) * 2 ^ level ≤ leaves.length := ((hlast.le_iff (other + 1)).mp hlt).le
    rw [if_pos hlt, if_pos ((hlast.le_iff other).mp hlt.le), h.digest_eq level other hend]
    rfl
  · rw [if_neg (Nat.lt_irrefl _), if_pos rfl, if_pos hlast.1]
  · rw [if_neg (by omega), if_neg (by omega), if_neg (mt (hlast.le_iff other).mpr (by omega))]

/-- The siblings on the way up from a node, as far as the last node is the only one. -/
theorem siblings_eq (h : Holds view leaves) (hlast : IsLast leaves level last) {index : Nat}
    (hindex : index ≤ last) (steps : Nat) (hsteps : last < 2 ^ steps) :
    siblings view index level last (nodeOf leaves level last) =
      .ok (pathUp leaves level index steps) := by
  induction steps generalizing level last index with
  | zero =>
    obtain rfl : last = 0 := by rw [Nat.pow_zero] at hsteps; omega
    rw [siblings, if_pos rfl, pathUp]
  | succ steps ih =>
    have hup := ih hlast.parent (Nat.div_le_div_right hindex) (by rw [Nat.pow_succ] at hsteps; omega)
    by_cases hzero : last = 0
    · -- The root is reached: no node above has a sibling.
      subst hzero
      obtain rfl : index = 0 := by omega
      have hnone : siblingAt leaves level 0 = [] :=
        if_neg (mt (hlast.le_iff (sibling 0)).mpr (by decide))
      rw [siblings, if_pos rfl] at hup ⊢
      rw [pathUp, hnone]
      exact hup
    · rw [siblings_step hzero, lookup_eq h hlast, raiseLast_eq h hlast, parent, parent, pathUp,
        siblingAt]
      simp only [bind, Except.bind, hup]
      by_cases hsome : sibling index * 2 ^ level < leaves.length
      · rw [if_pos hsome, if_pos hsome]
        rfl
      · rw [if_neg hsome, if_neg hsome]
        rfl

end Last

/-- **What is collected from a node of a held list** are its siblings up to any level above the
root. -/
theorem pathToRoot_eq {view : Snapshot} {leaves : List Bytes} (h : Holds view leaves)
    {level index steps : Nat} (hindex : index * 2 ^ level < leaves.length)
    (hsteps : leaves.length ≤ 2 ^ (level + steps)) :
    pathToRoot view index level leaves.length = .ok (pathUp leaves level index steps) := by
  have hpos : 0 < leaves.length := by omega
  have hzero := isLast_zero hpos
  have hdigest := h.digest_eq 0 (leaves.length - 1) (by rw [Nat.pow_zero]; omega)
  obtain ⟨hraise, hlast⟩ := raiseLastBy_eq h hzero level
  rw [Nat.zero_add] at hraise hlast
  have htop : (leaves.length - 1) / 2 ^ level < 2 ^ steps := by
    rw [Nat.div_lt_iff_lt_mul (Nat.two_pow_pos level), ← Nat.pow_add, Nat.add_comm steps]
    omega
  rw [pathToRoot, if_neg (by omega)]
  simp only [bind, Except.bind, hdigest, hraise, Nat.shiftRight_eq_div_pow]
  exact siblings_eq h hlast ((hlast.le_iff index).mpr hindex) steps htop

/-! ## The end of a beginning -/

/-- The highest complete subtree that ends where a node ends, which is a left child. -/
theorem boundary_spec (index level : Nat) :
    (boundary index level).1 % 2 = 0 ∧
      ((boundary index level).1 + 1) * 2 ^ (boundary index level).2 = (index + 1) * 2 ^ level := by
  fun_induction boundary index level with
  | case1 index level hodd ih =>
    refine ⟨ih.1, ?_⟩
    have hhalf : 2 * (index / 2 + 1) = index + 1 := by omega
    rw [ih.2, left_start, hhalf]
  | case2 index level heven => exact ⟨by show index % 2 = 0; omega, rfl⟩

/-! ## The proof between two sizes -/

section Ancestor

variable (level index steps : Nat)

theorem ancestor_start_le : index / 2 ^ steps * 2 ^ (level + steps) ≤ index * 2 ^ level := by
  have h := Nat.mul_le_mul_right (2 ^ level) (Nat.div_mul_le_self index (2 ^ steps))
  rwa [Nat.mul_assoc, ← Nat.pow_add, Nat.add_comm steps] at h

theorem le_ancestor_end : (index + 1) * 2 ^ level ≤ (index / 2 ^ steps + 1) * 2 ^ (level + steps) := by
  have hend : index + 1 ≤ (index / 2 ^ steps + 1) * 2 ^ steps := by
    have := Nat.lt_mul_div_succ index (Nat.two_pow_pos steps)
    rw [Nat.mul_comm]
    omega
  have h := Nat.mul_le_mul_right (2 ^ level) hend
  rwa [Nat.mul_assoc, ← Nat.pow_add, Nat.add_comm steps] at h

/-- A left child does not end where a node above it ends. -/
theorem lt_ancestor_end {index : Nat} (heven : index % 2 = 0) (hsteps : 0 < steps) :
    (index + 1) * 2 ^ level < (index / 2 ^ steps + 1) * 2 ^ (level + steps) := by
  refine Nat.lt_of_le_of_ne (le_ancestor_end level index steps) fun heq => ?_
  obtain ⟨steps, rfl⟩ : ∃ k, steps = k + 1 := ⟨steps - 1, by omega⟩
  rw [Nat.pow_add 2 level, Nat.mul_comm (2 ^ level), ← Nat.mul_assoc] at heq
  have hend := Nat.eq_of_mul_eq_mul_right (Nat.two_pow_pos level) heq
  rw [Nat.pow_succ 2 steps, ← Nat.mul_assoc] at hend
  omega

end Ancestor

/-- **The list's own proof from the bottom up**: the complete subtree at the end of the beginning,
unless it is the whole beginning, and the siblings from there upwards. -/
theorem subproof_eq_pathUp {leaves : List Bytes} {level index : Nat} (heven : index % 2 = 0)
    (hlt : (index + 1) * 2 ^ level < leaves.length) (steps : Nat) :
    subproof ((index + 1) * 2 ^ level - index / 2 ^ steps * 2 ^ (level + steps))
        (below leaves (level + steps) (index / 2 ^ steps)) (decide (index / 2 ^ steps = 0)) =
      (if 0 < index then [nodeOf leaves level index] else []) ++ pathUp leaves level index steps := by
  induction steps with
  | zero =>
    have hsize : (below leaves level index).length ≤ (index + 1) * 2 ^ level - index * 2 ^ level := by
      rw [length_below, Nat.succ_mul]
      omega
    rw [Nat.pow_zero, Nat.div_one, Nat.add_zero level, subproof_of_le hsize, pathUp, List.append_nil]
    by_cases hzero : index = 0
    · subst hzero
      rfl
    · rw [if_neg (by simpa using hzero), if_pos (Nat.pos_of_ne_zero hzero), nodeOf]
  | succ steps ih =>
    have hstart := ancestor_start_le level index steps
    have hend := le_ancestor_end level index steps
    have hpred : (index + 1) * 2 ^ level = index * 2 ^ level + 2 ^ level := Nat.succ_mul _ _
    have hpos := Nat.two_pow_pos level
    have hparent : index / 2 ^ (steps + 1) = index / 2 ^ steps / 2 := by
      rw [Nat.pow_succ, Nat.div_div_eq_div_mul]
    have hodd : index / 2 ^ steps % 2 = 1 → 0 < steps := by
      intro hodd
      refine Nat.pos_of_ne_zero fun hzero => ?_
      rw [hzero, Nat.pow_zero, Nat.div_one] at hodd
      omega
    have hstrict := fun h => lt_ancestor_end level steps heven (hodd h)
    rw [pathUp_succ, ← List.append_assoc, ← ih, hparent, ← Nat.add_assoc]
    generalize index / 2 ^ steps = node at *
    generalize level + steps = upper at *
    have hpow : 2 ^ (upper + 1) = 2 ^ upper + 2 ^ upper := by rw [Nat.pow_succ]; omega
    have hnode : (node + 1) * 2 ^ upper = node * 2 ^ upper + 2 ^ upper := Nat.succ_mul _ _
    rcases Nat.mod_two_eq_zero_or_one node with hleft | hright
    · -- The node is a left child, whose sibling may have no leaves.
      have hhalf : 2 * (node / 2) = node := by omega
      have hsame : node / 2 * 2 ^ (upper + 1) = node * 2 ^ upper := by
        rw [left_start, hhalf]
      have hzero : decide (node / 2 = 0) = decide (node = 0) := decide_eq_decide.mpr (by omega)
      rw [hsame, hzero, siblingAt, sibling_of_even hleft]
      by_cases hrest : (node + 1) * 2 ^ upper < leaves.length
      · have hsplit : splitPoint (below leaves (upper + 1) (node / 2)).length = 2 ^ upper :=
          splitPoint_below (by rwa [hhalf])
        have hsize := length_below leaves (upper + 1) (node / 2)
        rw [if_pos hrest, subproof_left (by omega) (by omega), hsplit, take_below, drop_below, hhalf]
        rfl
      · rw [if_neg hrest, below_succ (by rw [hhalf]; omega), hhalf, List.append_nil]
    · -- The node is a right child: everything on its left belongs to the beginning.
      have hhalf : 2 * (node / 2) + 1 = node := by omega
      have hsame : node / 2 * 2 ^ (upper + 1) + 2 ^ upper = node * 2 ^ upper := by
        rw [left_start, ← Nat.succ_mul, Nat.succ_eq_add_one, hhalf]
      have hsplit : splitPoint (below leaves (upper + 1) (node / 2)).length = 2 ^ upper :=
        splitPoint_below (by rw [hhalf]; omega)
      have hsize := length_below leaves (upper + 1) (node / 2)
      have hbelow := hstrict hright
      have hrest : (index + 1) * 2 ^ level - node / 2 * 2 ^ (upper + 1) - 2 ^ upper =
          (index + 1) * 2 ^ level - node * 2 ^ upper := by omega
      have hleft : 2 * (node / 2) = node - 1 := by omega
      have hsibling : (node - 1) * 2 ^ upper < leaves.length := by
        have := Nat.mul_le_mul_right (2 ^ upper) (Nat.sub_le node 1)
        omega
      rw [subproof_right (by omega) (by omega), hsplit, hrest, take_below, drop_below, hhalf, hleft,
        siblingAt, sibling_of_odd hright, if_pos hsibling,
        (decide_eq_false (by omega) : decide (node = 0) = false)]
      rfl

/-- The proof that is put together from a held list is the list's own. -/
theorem consistencyProof_eq {view : Snapshot} {leaves : List Bytes} (h : Holds view leaves)
    {log : LogView} {first second : Nat} (hfirst : first ≤ second) (hsecond : second ≤ log.size)
    (hlen : second ≤ leaves.length) :
    log.consistencyProof view first second = .ok (prefixProof first (leaves.take second)) := by
  have hcheck : log.checkSize second = .ok () := by
    rw [LogView.checkSize, if_neg (Nat.not_lt.mpr hsecond)]
  have hsize : (leaves.take second).length = second := by rw [List.length_take]; omega
  have hheld := h.take hlen
  generalize leaves.take second = whole at hsize hheld
  subst hsize
  rw [LogView.consistencyProof, hcheck]
  simp only [bind, Except.bind, if_neg (Nat.not_lt.mpr hfirst)]
  by_cases htrivial : first = 0 ∨ first = whole.length
  · rw [if_pos htrivial, prefixProof, if_pos htrivial]
    rfl
  rw [if_neg htrivial, prefixProof_of_lt (by omega) (by omega)]
  obtain ⟨heven, hend⟩ := boundary_spec (first - 1) 0
  generalize boundary (first - 1) 0 = edge at heven hend ⊢
  obtain ⟨index, level⟩ := edge
  have hfirst' : (index + 1) * 2 ^ level = first := by
    rw [hend, Nat.pow_zero]
    omega
  have hlt : (index + 1) * 2 ^ level < whole.length := by omega
  have hpred : (index + 1) * 2 ^ level = index * 2 ^ level + 2 ^ level := Nat.succ_mul _ _
  have hpos := Nat.two_pow_pos level
  -- Any level above the root will do; this one is above the node as well.
  have htop : whole.length ≤ 2 ^ (level + whole.length) :=
    Nat.lt_two_pow_self.le.trans (Nat.pow_le_pow_right (by decide) (Nat.le_add_left _ _))
  have hroot : index / 2 ^ whole.length = 0 := by
    refine Nat.div_eq_of_lt (Nat.lt_of_le_of_lt ?_ Nat.lt_two_pow_self)
    have := Nat.le_mul_of_pos_right index hpos
    omega
  have hpath := pathToRoot_eq hheld (show index * 2 ^ level < whole.length by omega) htop
  have hproof := subproof_eq_pathUp heven hlt whole.length
  rw [hroot, Nat.zero_mul, Nat.sub_zero, below_top htop, hfirst', decide_eq_true rfl] at hproof
  simp only [hpath, hproof]
  by_cases hzero : 0 < index
  · rw [if_pos hzero, if_pos hzero, hheld.digest_eq level index hlt.le]
    rfl
  · rw [if_neg hzero, if_neg hzero]
    rfl

/-- Every request that is not between two sizes of the log is refused. -/
theorem consistencyProof_refused (view : Snapshot) {log : LogView} {first second : Nat}
    (h : ¬(first ≤ second ∧ second ≤ log.size)) :
    ∃ range, log.consistencyProof view first second = .error (.outOfRange range) := by
  rw [LogView.consistencyProof, LogView.checkSize]
  by_cases hsecond : log.size < second
  · rw [if_pos hsecond]
    exact ⟨_, rfl⟩
  · rw [if_neg hsecond]
    simp only [bind, Except.bind, if_pos (show second < first by omega)]
    exact ⟨_, rfl⟩

/-- **Consistency proofs are the list's own and are accepted.** A list of leaves that fit can be
appended to any store; and whatever store the list was appended to, every request between two sizes
of a log on it gives the list's own proof, which the check accepts with the two roots, and every
other request is refused as out of range. -/
theorem consistencyProof_correct (leaves : List Bytes)
    (hleaves : ∀ data ∈ leaves, data.length ≤ Framing.maxField) :
    (∀ draft, ∃ draft', appendAll leaves draft = .ok (⟨leaves.length⟩, draft') ∧
      Appended draft'.get? leaves) ∧
    ∀ view, Appended view leaves → ∀ log : LogView, log.size ≤ leaves.length →
      ∀ first second,
        (first ≤ second ∧ second ≤ log.size → ∃ old new,
          log.consistencyProof view first second = .ok (prefixProof first (leaves.take second)) ∧
          log.rootAt view first = .ok old ∧ log.rootAt view second = .ok new ∧
          verifyConsistency old new first second (prefixProof first (leaves.take second)) = true) ∧
        (¬(first ≤ second ∧ second ≤ log.size) → ∃ range,
          log.consistencyProof view first second = .error (.outOfRange range)) := by
  refine ⟨appendAll_appended hleaves, ?_⟩
  intro view happended log hlog first second
  refine ⟨?_, consistencyProof_refused view⟩
  rintro ⟨hfirst, hsecond⟩
  have hheld := happended.holds
  have hlen : (leaves.take second).length = second := by rw [List.length_take]; omega
  have htake : (leaves.take second).take first = leaves.take first := by
    rw [List.take_take, Nat.min_eq_left hfirst]
  have haccept := verifyConsistency_prefixProof
    (show first ≤ (leaves.take second).length by rwa [hlen])
  rw [htake, hlen] at haccept
  exact ⟨_, _, consistencyProof_eq hheld hfirst hsecond (by omega),
    rootAt_eq hheld (by omega) (by omega), rootAt_eq hheld hsecond (by omega), haccept⟩

/-- From one leaf to three. -/
theorem consistencyProof_correct_one_of_three :
    (∀ data ∈ ([[1], [2], [3]] : List Bytes), data.length ≤ Framing.maxField) ∧
      ∃ view old new, Appended view [[1], [2], [3]] ∧
        (⟨3⟩ : LogView).consistencyProof view 1 3 = .ok (prefixProof 1 [[1], [2], [3]]) ∧
        verifyConsistency old new 1 3 (prefixProof 1 [[1], [2], [3]]) = true := by
  have hleaves : ∀ data ∈ ([[1], [2], [3]] : List Bytes), data.length ≤ Framing.maxField := by decide
  obtain ⟨hstore, hall⟩ := consistencyProof_correct [[1], [2], [3]] hleaves
  obtain ⟨draft, _, happended⟩ := hstore ⟨∅, ∅⟩
  obtain ⟨old, new, hproof, _, _, haccept⟩ :=
    (hall draft.get? happended ⟨3⟩ (by decide) 1 3).1 (by decide)
  exact ⟨hleaves, draft.get?, old, new, happended, hproof, haccept⟩

end TransparencyLog.Tree
