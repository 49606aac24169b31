import TransparencyLog.Proofs.Tree.Descent
import TransparencyLog.Proofs.Tree.Paths

/-!
# Audit paths

The path of a leaf has the sibling of every node between the leaf and the root. It is described
from the root downwards; a store collects it, and the check uses it up, from the leaf upwards. The
check has no store to tell it which siblings are missing at the right edge: it moves the last node
of a level up unchanged when its number is even.

* `auditPath`: the path of a leaf in the tree over a list; `auditPath_eq_pathUp`;
* `climb?_right`, `climb?_left`, `climb?_promoted`: one level of the check;
* `node_right`, `node_left`, `node_promoted`: one level of the tree;
* **`climb?_pathUp`**: the check leads from a node along its siblings to the root;
* **`auditProof_correct`**: audit proofs are the list's own and are accepted, and every request
  outside the log is refused.
-/

namespace TransparencyLog.Tree

/-! ## The path of a leaf -/

/-- The siblings on the way from a leaf up to the root of the tree over a list. -/
def auditPath (index : Nat) (leaves : List Bytes) : List Digest :=
  let k := splitPoint leaves.length
  if leaves.length ≤ 1 then []
  else if index < k then auditPath index (leaves.take k) ++ [rootOf (leaves.drop k)]
  else auditPath (index - k) (leaves.drop k) ++ [rootOf (leaves.take k)]
termination_by leaves.length
decreasing_by
  · have := splitPoint_lt (n := leaves.length) (by omega)
    rw [List.length_take]; omega
  · have := splitPoint_pos (n := leaves.length) (by omega)
    rw [List.length_drop]; omega

theorem auditPath_of_le {leaves : List Bytes} (h : leaves.length ≤ 1) (index : Nat) :
    auditPath index leaves = [] := by
  rw [auditPath]; exact if_pos h

theorem auditPath_left {leaves : List Bytes} {index : Nat} (hlen : 1 < leaves.length)
    (h : index < splitPoint leaves.length) :
    auditPath index leaves = auditPath index (leaves.take (splitPoint leaves.length)) ++
      [rootOf (leaves.drop (splitPoint leaves.length))] := by
  rw [auditPath]; exact (if_neg (by omega)).trans (if_pos h)

theorem auditPath_right {leaves : List Bytes} {index : Nat} (hlen : 1 < leaves.length)
    (h : splitPoint leaves.length ≤ index) :
    auditPath index leaves = auditPath (index - splitPoint leaves.length)
      (leaves.drop (splitPoint leaves.length)) ++
      [rootOf (leaves.take (splitPoint leaves.length))] := by
  rw [auditPath]; exact (if_neg (by omega)).trans (if_neg (by omega))

/-- The path inside the node over a leaf is made of the siblings below that node. -/
theorem auditPath_below {leaves : List Bytes} {index : Nat} (h : index < leaves.length)
    (steps : Nat) : auditPath (index % 2 ^ steps) (below leaves steps (index / 2 ^ steps)) =
      pathUp leaves 0 index steps := by
  induction steps with
  | zero =>
    have hone : [leaves[index]].length ≤ 1 := Nat.le_refl 1
    rw [Nat.pow_zero, Nat.div_one, below_zero h, pathUp, auditPath_of_le hone]
  | succ steps ih =>
    have hpos := Nat.two_pow_pos steps
    have hmod : index % 2 ^ steps < 2 ^ steps := Nat.mod_lt _ hpos
    have hsplit : index % 2 ^ (steps + 1) = index % 2 ^ steps + 2 ^ steps * (index / 2 ^ steps % 2) :=
      Nat.mod_pow_succ
    have hparent : index / 2 ^ (steps + 1) = index / 2 ^ steps / 2 := by
      rw [Nat.pow_succ, Nat.div_div_eq_div_mul]
    have hstart : index / 2 ^ steps * 2 ^ steps ≤ index := Nat.div_mul_le_self _ _
    rw [pathUp_succ, ← ih, hparent, hsplit, Nat.zero_add]
    generalize index / 2 ^ steps = node at *
    rcases Nat.mod_two_eq_zero_or_one node with hleft | hright
    · have hhalf : 2 * (node / 2) = node := by omega
      rw [hleft, Nat.mul_zero, Nat.add_zero, siblingAt, sibling_of_even hleft]
      by_cases hrest : (node + 1) * 2 ^ steps < leaves.length
      · have hk : splitPoint (below leaves (steps + 1) (node / 2)).length = 2 ^ steps :=
          splitPoint_below (by rwa [hhalf])
        have hlen : 1 < (below leaves (steps + 1) (node / 2)).length :=
          one_lt_length_below (by rwa [hhalf])
        rw [if_pos hrest, auditPath_left hlen (by rwa [hk]), hk, take_below, drop_below, hhalf]
        rfl
      · rw [if_neg hrest, below_succ (by rw [hhalf]; omega), hhalf, List.append_nil]
    · have hhalf : 2 * (node / 2) + 1 = node := by omega
      have hlower : 2 * (node / 2) = node - 1 := by omega
      have hk : splitPoint (below leaves (steps + 1) (node / 2)).length = 2 ^ steps :=
        splitPoint_below (by rw [hhalf]; omega)
      have hlen : 1 < (below leaves (steps + 1) (node / 2)).length :=
        one_lt_length_below (by rw [hhalf]; omega)
      have hsibling : (node - 1) * 2 ^ steps < leaves.length := by
        have := Nat.mul_le_mul_right (2 ^ steps) (Nat.sub_le node 1)
        omega
      rw [hright, Nat.mul_one, auditPath_right hlen (by omega), hk, Nat.add_sub_cancel, take_below,
        drop_below, hhalf, hlower, siblingAt, sibling_of_odd hright, if_pos hsibling]
      rfl

/-- **The path from the leaf upwards**, up to any level above the root. -/
theorem auditPath_eq_pathUp {leaves : List Bytes} {index steps : Nat} (h : index < leaves.length)
    (hsteps : leaves.length ≤ 2 ^ steps) : auditPath index leaves = pathUp leaves 0 index steps := by
  have hpath := auditPath_below h steps
  rwa [Nat.mod_eq_of_lt (by omega), Nat.div_eq_of_lt (by omega), below_top hsteps] at hpath

/-! ## One level of the check -/

section Check

variable {index last : Nat}

/-- The number of nodes on the next level. -/
theorem half_size (last : Nat) : (last + 1) / 2 + (last + 1) % 2 = last / 2 + 1 := by omega

theorem climb?_promoted (hash : Digest) (hpos : 0 < last) (heven : last % 2 = 0)
    (path : List Digest) :
    climb? hash last (last + 1) path = climb? hash (last / 2) (last / 2 + 1) path := by
  rw [climb?.eq_def, if_neg (by omega), if_pos ⟨heven, rfl⟩, half_size]

theorem climb?_nil (hash : Digest) (hpos : 0 < last) (h : ¬(index % 2 = 0 ∧ index = last)) :
    climb? hash index (last + 1) [] = none := by
  rw [climb?, if_neg (by omega), if_neg (by omega)]

theorem climb?_right (hash : Digest) (hpos : 0 < last) (hodd : index % 2 = 1) (other : Digest)
    (rest : List Digest) : climb? hash index (last + 1) (other :: rest) =
      climb? (branchHash other hash) (index / 2) (last / 2 + 1) rest := by
  rw [climb?, if_neg (by omega), if_neg (by omega)]
  simp only [if_pos hodd, half_size]

theorem climb?_left (hash : Digest) (heven : index % 2 = 0) (hlt : index < last) (other : Digest)
    (rest : List Digest) : climb? hash index (last + 1) (other :: rest) =
      climb? (branchHash hash other) (index / 2) (last / 2 + 1) rest := by
  rw [climb?, if_neg (by omega), if_neg (by omega)]
  simp only [if_neg (show ¬ index % 2 = 1 by omega), half_size]

end Check

/-! ## One level of the tree -/

section Level

variable {leaves : List Bytes} {level index last : Nat}

/-- A last node with an even number has no sibling, and its parent has no other leaves. -/
theorem node_promoted (hlast : IsLast leaves level last) (heven : last % 2 = 0) :
    siblingAt leaves level last = [] ∧
      nodeOf leaves (level + 1) (last / 2) = nodeOf leaves level last := by
  have hhalf : 2 * (last / 2) = last := by omega
  refine ⟨?_, ?_⟩
  · rw [siblingAt, sibling_of_even heven, if_neg (Nat.not_lt.mpr hlast.2)]
  · rw [nodeOf, below_succ (by rw [hhalf]; exact hlast.2), hhalf, nodeOf]

theorem node_right (hlast : IsLast leaves level last) (hle : index ≤ last) (hodd : index % 2 = 1) :
    siblingAt leaves level index = [nodeOf leaves level (index - 1)] ∧
      nodeOf leaves (level + 1) (index / 2) =
        branchHash (nodeOf leaves level (index - 1)) (nodeOf leaves level index) := by
  have hhalf : 2 * (index / 2) + 1 = index := by omega
  have hlower : 2 * (index / 2) = index - 1 := by omega
  refine ⟨?_, ?_⟩
  · rw [siblingAt, sibling_of_odd hodd, if_pos ((hlast.le_iff _).mp (by omega))]
  · rw [nodeOf_succ (by rw [hhalf]; exact (hlast.le_iff _).mp hle), hhalf, hlower]

theorem node_left (hlast : IsLast leaves level last) (hlt : index < last) (heven : index % 2 = 0) :
    siblingAt leaves level index = [nodeOf leaves level (index + 1)] ∧
      nodeOf leaves (level + 1) (index / 2) =
        branchHash (nodeOf leaves level index) (nodeOf leaves level (index + 1)) := by
  have hhalf : 2 * (index / 2) = index := by omega
  have hupper : (index + 1) * 2 ^ level < leaves.length := (hlast.le_iff _).mp hlt
  refine ⟨?_, ?_⟩
  · rw [siblingAt, sibling_of_even heven, if_pos hupper]
  · rw [nodeOf_succ (by rwa [hhalf]), hhalf]

/-- The root has no sibling. -/
theorem pathUp_root (hlast : IsLast leaves level 0) (steps : Nat) :
    pathUp leaves level 0 steps = [] := by
  induction steps generalizing level with
  | zero => rfl
  | succ steps ih => rw [pathUp, (node_promoted hlast rfl).1, List.nil_append, ih hlast.parent]

theorem nodeOf_root (hlast : IsLast leaves level 0) : nodeOf leaves level 0 = rootOf leaves := by
  have htop : leaves.length ≤ 2 ^ level := by simpa using hlast.2
  rw [nodeOf, below_top htop]

/-- **From a node along its siblings to the root.** -/
theorem climb?_pathUp (hlast : IsLast leaves level last) (hle : index ≤ last) {steps : Nat}
    (hsteps : last < 2 ^ steps) (rest : List Digest) :
    climb? (nodeOf leaves level index) index (last + 1) (pathUp leaves level index steps ++ rest) =
      some (rootOf leaves, rest) := by
  induction steps generalizing level last index with
  | zero =>
    obtain rfl : last = 0 := by rw [Nat.pow_zero] at hsteps; omega
    obtain rfl : index = 0 := by omega
    rw [climb?_of_le (Nat.le_refl 1), nodeOf_root hlast, pathUp, List.nil_append]
  | succ steps ih =>
    have hup := ih hlast.parent (Nat.div_le_div_right hle) (by rw [Nat.pow_succ] at hsteps; omega)
    rcases Nat.eq_zero_or_pos last with rfl | hpos
    · obtain rfl : index = 0 := by omega
      rw [climb?_of_le (Nat.le_refl 1), nodeOf_root hlast, pathUp_root hlast, List.nil_append]
    rw [pathUp, List.append_assoc]
    rcases Nat.mod_two_eq_zero_or_one index with heven | hodd
    · rcases Nat.eq_or_lt_of_le hle with rfl | hlt
      · obtain ⟨hnone, hsame⟩ := node_promoted hlast heven
        rw [hnone, List.nil_append, climb?_promoted _ hpos heven, ← hsame, hup]
      · obtain ⟨hsome, hjoined⟩ := node_left hlast hlt heven
        rw [hsome, List.singleton_append, climb?_left _ heven hlt, ← hjoined, hup]
    · obtain ⟨hsome, hjoined⟩ := node_right hlast hle hodd
      rw [hsome, List.singleton_append, climb?_right _ hpos hodd, ← hjoined, hup]

end Level

/-! ## The proof for a leaf -/

/-- The path of a leaf is accepted. -/
theorem verifyAudit_auditPath {leaves : List Bytes} {index : Nat} {data : Bytes}
    (hdata : leaves[index]? = some data) :
    verifyAudit (rootOf leaves) leaves.length index (auditPath index leaves) data = true := by
  obtain ⟨h, rfl⟩ := List.getElem?_eq_some_iff.mp hdata
  have hlength : leaves.length - 1 + 1 = leaves.length := by omega
  have htop : leaves.length ≤ 2 ^ leaves.length := Nat.lt_two_pow_self.le
  have hclimb := climb?_pathUp (isLast_zero (by omega)) (show index ≤ leaves.length - 1 by omega)
    (show leaves.length - 1 < 2 ^ leaves.length by omega) []
  rw [List.append_nil, ← auditPath_eq_pathUp h htop, nodeOf_zero h, hlength] at hclimb
  rw [verifyAudit, hclimb, decide_eq_true h]
  simp

/-- The path that is put together from a held list is the list's own. -/
theorem auditProof_eq {view : Snapshot} {leaves : List Bytes} (h : Holds view leaves)
    {log : LogView} {index size : Nat} (hindex : index < size) (hsize : size ≤ log.size)
    (hlen : size ≤ leaves.length) :
    log.auditProof view index size = .ok (auditPath index (leaves.take size)) := by
  have hcheck : log.checkSize size = .ok () := by
    rw [LogView.checkSize, if_neg (Nat.not_lt.mpr hsize)]
  have hlength : (leaves.take size).length = size := by rw [List.length_take]; omega
  have hheld := h.take hlen
  generalize leaves.take size = whole at hlength hheld
  subst hlength
  have htop : whole.length ≤ 2 ^ whole.length := Nat.lt_two_pow_self.le
  have hpath : pathToRoot view index 0 whole.length = .ok (pathUp whole 0 index whole.length) :=
    pathToRoot_eq hheld (by rwa [Nat.pow_zero, Nat.mul_one]) (by rwa [Nat.zero_add])
  rw [LogView.auditProof, hcheck, auditPath_eq_pathUp hindex htop]
  simp only [bind, Except.bind, if_neg (show ¬ whole.length = 0 by omega),
    if_neg (Nat.not_le.mpr hindex), hpath]

theorem auditProof_zero (view : Snapshot) (log : LogView) (index : Nat) :
    log.auditProof view index 0 = .ok [] := by
  rw [LogView.auditProof, LogView.checkSize, if_neg (Nat.not_lt_zero _)]
  rfl

/-- Every other request for a leaf that is not in the tree of its size, or for a size that the log
does not reach, is refused. -/
theorem auditProof_refused (view : Snapshot) {log : LogView} {index size : Nat} (hsize : size ≠ 0)
    (h : ¬(index < size ∧ size ≤ log.size)) :
    ∃ range, log.auditProof view index size = .error (.outOfRange range) := by
  rw [LogView.auditProof, LogView.checkSize]
  by_cases hlarge : log.size < size
  · rw [if_pos hlarge]
    exact ⟨_, rfl⟩
  · rw [if_neg hlarge]
    simp only [bind, Except.bind, if_neg hsize, if_pos (show size ≤ index by omega)]
    exact ⟨_, rfl⟩

/-- **Audit proofs are the list's own and are accepted.** A store that a list was appended to holds
it; and on a store that holds the list, every request for a leaf in the tree of some size that the
log reaches gives the leaf's path, which the check accepts with the root at that size and the leaf's
data. The proof for the tree without leaves is empty, and every other request is refused as out of
range. -/
theorem auditProof_correct (leaves : List Bytes) :
    (∀ view, Appended view leaves → Holds view leaves) ∧
    ∀ view, Holds view leaves → ∀ log : LogView, log.size ≤ leaves.length → ∀ index size,
      (index < size ∧ size ≤ log.size → ∃ root data, leaves[index]? = some data ∧
        log.auditProof view index size = .ok (auditPath index (leaves.take size)) ∧
        log.rootAt view size = .ok root ∧
        verifyAudit root size index (auditPath index (leaves.take size)) data = true) ∧
      log.auditProof view index 0 = .ok [] ∧
      (size ≠ 0 → ¬(index < size ∧ size ≤ log.size) → ∃ range,
        log.auditProof view index size = .error (.outOfRange range)) := by
  refine ⟨fun view => Appended.holds, ?_⟩
  intro view hheld log hlog index size
  refine ⟨?_, auditProof_zero view log index, auditProof_refused view⟩
  rintro ⟨hindex, hsize⟩
  have hlength : (leaves.take size).length = size := by rw [List.length_take]; omega
  have hdata : leaves[index]? = some leaves[index] := List.getElem?_eq_getElem (by omega)
  have haccept := verifyAudit_auditPath ((List.getElem?_take_of_lt hindex).trans hdata)
  rw [hlength] at haccept
  exact ⟨_, _, hdata, auditProof_eq hheld hindex hsize (by omega),
    rootAt_eq hheld hsize (by omega), haccept⟩

/-- The last leaf of three moves up past the lowest level. -/
theorem auditProof_correct_last_of_three :
    ∃ view root, Holds view [[1], [2], [3]] ∧
      (⟨3⟩ : LogView).auditProof view 2 3 = .ok (auditPath 2 [[1], [2], [3]]) ∧
      verifyAudit root 3 2 (auditPath 2 [[1], [2], [3]]) [3] = true := by
  have hfit : ∀ data ∈ ([[1], [2], [3]] : List Bytes), data.length ≤ Framing.maxField := by decide
  obtain ⟨draft, _, happended⟩ := appendAll_appended hfit ⟨∅, ∅⟩
  obtain ⟨hholds, hall⟩ := auditProof_correct [[1], [2], [3]]
  have hheld := hholds draft.get? happended
  obtain ⟨root, data, hdata, hproof, _, haccept⟩ := (hall _ hheld ⟨3⟩ (by decide) 2 3).1 (by decide)
  obtain rfl : data = [3] := Option.some.inj hdata.symm
  exact ⟨_, root, hheld, hproof, haccept⟩

end TransparencyLog.Tree
