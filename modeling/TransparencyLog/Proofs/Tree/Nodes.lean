import Mathlib.Algebra.Group.Nat.Defs
import Mathlib.Data.List.Induction
import Mathlib.Data.List.Nodup
import Mathlib.Data.List.Perm.Subperm
import TransparencyLog.Proofs.Framing
import TransparencyLog.Proofs.Store.Write
import TransparencyLog.Proofs.Text
import TransparencyLog.Proofs.Tree.Root
import TransparencyLog.Tree.Log

/-!
# The stored nodes of a list

A store holds a list of leaves when every node whose leaves all lie in the list has the root over
them as its digest, and every leaf's data stands beside its hash. Whatever else the store has,
appending a leaf keeps this true, and roots are put together from the stored digests.

* `below`, `nodeOf`: the leaves below a node, and the root over them;
* `nodeOf_succ`, `below_succ`: a node with two children, and one whose right child has no leaves;
* `Holds`: the store holds the list;
* **`append_holds`**: appending a leaf to the list appends it in the store;
* `append_ignores`: it does not depend on what stands elsewhere;
* `Appended`: the stores that a list was appended to;
* **`rootAt_eq`**: the root at a size is the root over that many leaves.
-/

namespace TransparencyLog.Tree

/-! ## The leaves below a node -/

/-- The leaves below a node, as far as the list goes. -/
def below (leaves : List Bytes) (level index : Nat) : List Bytes :=
  (leaves.drop (index * 2 ^ level)).take (2 ^ level)

/-- The root over the leaves below a node. -/
def nodeOf (leaves : List Bytes) (level index : Nat) : Digest := rootOf (below leaves level index)

section Below

variable {leaves : List Bytes} {level index : Nat}

/-- A node starts where its left child starts. -/
theorem left_start (level index : Nat) : index * 2 ^ (level + 1) = 2 * index * 2 ^ level := by
  rw [Nat.pow_succ', ← Nat.mul_assoc, Nat.mul_comm index 2]

theorem length_below (leaves : List Bytes) (level index : Nat) :
    (below leaves level index).length = min (2 ^ level) (leaves.length - index * 2 ^ level) := by
  rw [below, List.length_take, List.length_drop]

theorem below_zero (h : index < leaves.length) : below leaves 0 index = [leaves[index]] := by
  rw [below, Nat.pow_zero, Nat.mul_one, List.drop_eq_getElem_cons h]
  rfl

theorem nodeOf_zero (h : index < leaves.length) : nodeOf leaves 0 index = leafHash leaves[index] := by
  rw [nodeOf, below_zero h, rootOf_singleton]

theorem below_top (h : leaves.length ≤ 2 ^ level) : below leaves level 0 = leaves := by
  rw [below, Nat.zero_mul, List.drop_zero, List.take_of_length_le h]

/-- A node whose right child has no leaves has the leaves of its left child. -/
theorem below_succ (h : leaves.length ≤ (2 * index + 1) * 2 ^ level) :
    below leaves (level + 1) index = below leaves level (2 * index) := by
  have hlen : (leaves.drop (2 * index * 2 ^ level)).length ≤ 2 ^ level := by
    rw [List.length_drop]
    grind
  rw [below, below, left_start, List.take_of_length_le hlen, List.take_of_length_le]
  rw [Nat.pow_succ]
  omega

theorem splitPoint_below (h : (2 * index + 1) * 2 ^ level < leaves.length) :
    splitPoint (below leaves (level + 1) index).length = 2 ^ level := by
  have hpos := Nat.two_pow_pos level
  refine splitPoint_eq_two_pow ?_ ?_
  · rw [length_below, left_start, Nat.pow_succ]; grind
  · rw [length_below]; omega

theorem take_below : (below leaves (level + 1) index).take (2 ^ level) =
    below leaves level (2 * index) := by
  rw [below, below, left_start, List.take_take, Nat.pow_succ, Nat.min_eq_left (by omega)]

theorem drop_below : (below leaves (level + 1) index).drop (2 ^ level) =
    below leaves level (2 * index + 1) := by
  have hadd : 2 * index * 2 ^ level + 2 ^ level = (2 * index + 1) * 2 ^ level := by grind
  have hhalf : 2 ^ (level + 1) - 2 ^ level = 2 ^ level := by rw [Nat.pow_succ]; omega
  rw [below, below, left_start, List.drop_take, List.drop_drop, hadd, hhalf]

theorem one_lt_length_below (h : (2 * index + 1) * 2 ^ level < leaves.length) :
    1 < (below leaves (level + 1) index).length := by
  have hsplit := splitPoint_below h
  by_contra hc
  rw [splitPoint, if_pos (by omega)] at hsplit
  have := Nat.two_pow_pos level
  omega

/-- **A node with two children is the branch over them.** -/
theorem nodeOf_succ (h : (2 * index + 1) * 2 ^ level < leaves.length) :
    nodeOf leaves (level + 1) index =
      branchHash (nodeOf leaves level (2 * index)) (nodeOf leaves level (2 * index + 1)) := by
  rw [nodeOf, rootOf_split (one_lt_length_below h), splitPoint_below h, take_below, drop_below]
  rfl

theorem nodeOf_take {size : Nat} (h : (index + 1) * 2 ^ level ≤ size) :
    nodeOf (leaves.take size) level index = nodeOf leaves level index := by
  rw [nodeOf, nodeOf, below, below, List.drop_take, List.take_take, Nat.min_eq_left]
  grind

theorem nodeOf_append (h : (index + 1) * 2 ^ level ≤ leaves.length) (more : List Bytes) :
    nodeOf (leaves ++ more) level index = nodeOf leaves level index := by
  have htake : nodeOf ((leaves ++ more).take leaves.length) level index =
    nodeOf (leaves ++ more) level index := nodeOf_take h
  rw [List.take_left] at htake
  exact htake.symm

end Below

/-! ## Addresses -/

theorem bucket_injective : Function.Injective bucket := fun level level' h => by
  have htext : "log-" ++ toString level = "log-" ++ toString level' := h
  exact toString_injective ((String.append_right_inj _).mp htext)

theorem nodeKey_injective : Function.Injective nodeKey :=
  Bytes.ofText_injective.comp toString_injective

/-- Where a node is stored. -/
def address (level index : Nat) : Address := ⟨bucket level, nodeKey index⟩

theorem address_inj {level index level' index' : Nat} :
    address level index = address level' index' ↔ level = level' ∧ index = index' := by
  rw [address, address, Address.mk.injEq, bucket_injective.eq_iff, nodeKey_injective.eq_iff]

section Reading

variable {view view' : Snapshot} {level index : Nat}

theorem node_of_some {bytes : Bytes} (h : view (address level index) = some bytes) :
    node view level index = Node.decode bytes := by
  rw [node, Snapshot.fetch_eq_ok_iff.mpr h]
  rfl

theorem node_congr (h : view (address level index) = view' (address level index)) :
    node view level index = node view' level index := by
  rw [node, Snapshot.fetch_congr h, node]

theorem digest_congr (h : view (address level index) = view' (address level index)) :
    digest view level index = digest view' level index := by
  rw [digest, node_congr h, digest]

theorem digest_of_node {hash : Digest} {value : Bytes}
    (h : node view level index = .ok ⟨hash.bytes, value⟩) : digest view level index = .ok hash := by
  rw [digest, h]
  simp [bind, Except.bind, pure, Except.pure]

end Reading

theorem digest_fits (d : Digest) : d.bytes.length ≤ Framing.maxField := by
  rw [d.length_eq]
  decide

theorem putNode_apply {level index : Nat} {hash : Digest} {value : Bytes}
    (h : value.length ≤ Framing.maxField) (draft : Draft) :
    putNode level index hash value draft =
      .ok ((), draft.set (bucket level) (nodeKey index) (Framing.pair hash.bytes value)) := by
  rw [putNode, Write.bind_ok (Write.lift_ok (Node.encode_make (digest_fits hash) h)), Write.put_apply]

theorem node_set_self {level index : Nat} {hash : Digest} {value : Bytes}
    (h : value.length ≤ Framing.maxField) (draft : Draft) :
    node (draft.set (bucket level) (nodeKey index) (Framing.pair hash.bytes value)).get?
      level index = .ok ⟨hash.bytes, value⟩ := by
  have hget := draft.get?_set (bucket level) (nodeKey index) (Framing.pair hash.bytes value)
    (address level index)
  rw [if_pos (show address level index = ⟨bucket level, nodeKey index⟩ from rfl)] at hget
  rw [node_of_some hget, Node.decode_pair (digest_fits hash) h]

theorem get?_set_of_ne {level index : Nat} {bytes : Bytes} {draft : Draft} {a : Address}
    (h : a ≠ address level index) :
    (draft.set (bucket level) (nodeKey index) bytes).get? a = draft.get? a := by
  rw [Draft.get?_set]
  exact if_neg h

/-! ## Holding a list -/

/-- The store holds the list: complete nodes have the roots over their leaves, and every leaf's
data stands on the lowest level. -/
structure Holds (view : Snapshot) (leaves : List Bytes) : Prop where
  digest_eq : ∀ level index, (index + 1) * 2 ^ level ≤ leaves.length →
    digest view level index = .ok (nodeOf leaves level index)
  data_eq : ∀ (index : Nat) (h : index < leaves.length),
    (node view 0 index).map Node.value = .ok leaves[index]

theorem holds_nil (view : Snapshot) : Holds view [] where
  digest_eq level index h := by
    have := Nat.two_pow_pos level
    simp only [List.length_nil, Nat.le_zero, Nat.mul_eq_zero] at h
    omega
  data_eq index h := absurd h (Nat.not_lt_zero _)

theorem Holds.take {view : Snapshot} {leaves : List Bytes} (h : Holds view leaves) {size : Nat}
    (hsize : size ≤ leaves.length) : Holds view (leaves.take size) where
  digest_eq level index hindex := by
    rw [List.length_take, Nat.min_eq_left hsize] at hindex
    rw [nodeOf_take hindex]
    exact h.digest_eq level index (by omega)
  data_eq index hindex := by
    rw [List.length_take] at hindex
    rw [List.getElem_take]
    exact h.data_eq index (by omega)

theorem Holds.congr {view view' : Snapshot} {leaves : List Bytes} (h : Holds view leaves)
    (heq : ∀ level index, view' (address level index) = view (address level index)) :
    Holds view' leaves where
  digest_eq level index hindex := by
    rw [digest_congr (heq level index), h.digest_eq level index hindex]
  data_eq index hindex := by
    rw [node_congr (heq 0 index), h.data_eq index hindex]

/-- Every leaf has an entry of its own in the store. -/
theorem Holds.length_le_size {contents : Contents} {leaves : List Bytes}
    (h : Holds contents.snapshot leaves) : leaves.length ≤ contents.size := by
  have hnodup : ((List.range leaves.length).map (address 0)).Nodup :=
    List.Nodup.map (fun _ _ heq => (address_inj.mp heq).2) List.nodup_range
  have hsub : (List.range leaves.length).map (address 0) ⊆ contents.keys := by
    intro a ha
    obtain ⟨index, hindex, rfl⟩ := List.mem_map.mp ha
    rw [Std.ExtTreeMap.mem_keys, Std.ExtTreeMap.mem_iff_isSome_getElem?]
    have hdata := h.data_eq index (List.mem_range.mp hindex)
    cases hget : contents[address 0 index]? with
    | some bytes => rfl
    | none =>
      have hnone : contents.snapshot (address 0 index) = none := hget
      rw [node, Snapshot.fetch] at hdata
      rw [address] at hnone
      rw [hnone] at hdata
      cases hdata
  have hle := (hnodup.subperm hsub).length_le
  rwa [List.length_map, List.length_range, Std.ExtTreeMap.length_keys] at hle

theorem leaf_eq {view : Snapshot} {leaves : List Bytes} (h : Holds view leaves) {log : LogView}
    {index : Nat} (hsize : index < log.size) (hlen : index < leaves.length) :
    log.leaf view index = .ok leaves[index] := by
  rw [LogView.leaf, if_neg (by omega)]
  exact h.data_eq index hlen

theorem leaves_eq {view : Snapshot} {leaves : List Bytes} (h : Holds view leaves) {log : LogView}
    {index count : Nat} (hsize : index + count ≤ log.size) (hlen : index + count ≤ leaves.length) :
    log.leaves view index count = .ok ((leaves.drop index).take count) := by
  induction count generalizing index with
  | zero => rfl
  | succ count ih =>
    have hleaf : log.leaf view index = .ok leaves[index] := leaf_eq h (by omega) (by omega)
    rw [LogView.leaves, hleaf, List.drop_eq_getElem_cons (by omega), List.take_succ_cons]
    simp only [bind, Except.bind, ih (show index + 1 + count ≤ log.size by omega) (by omega)]
    rfl

/-! ## Appending -/

/-- Of the nodes that end with the list, those up to a level are there already. -/
def HoldsUpTo (view : Snapshot) (leaves : List Bytes) (top : Nat) : Prop :=
  ∀ level index, (index + 1) * 2 ^ level ≤ leaves.length →
    level ≤ top ∨ (index + 1) * 2 ^ level < leaves.length →
    digest view level index = .ok (nodeOf leaves level index)

/-- Storing the subtrees that a node at the end of the list completes. -/
theorem complete_spec {leaves : List Bytes} {hash : Digest} {level index : Nat} {draft : Draft}
    (h : HoldsUpTo draft.get? leaves level) (hend : (index + 1) * 2 ^ level = leaves.length)
    (hhash : hash = nodeOf leaves level index) :
    ∃ draft', complete hash level index draft = .ok ((), draft') ∧
      (∀ level index, (index + 1) * 2 ^ level ≤ leaves.length →
        digest draft'.get? level index = .ok (nodeOf leaves level index)) ∧
      ∀ a, (∀ l i, level < l → a ≠ address l i) → draft'.get? a = draft.get? a := by
  induction index using Nat.strongRecOn generalizing hash level draft with
  | ind index ih =>
  rw [complete]
  by_cases hodd : index % 2 = 1
  · -- The node is a right child: its parent ends with the list too.
    have hparent : (index / 2 + 1) * 2 ^ (level + 1) = leaves.length := by
      have hhalf : 2 * (index / 2 + 1) = index + 1 := by omega
      rw [← hend, left_start, hhalf]
    have hleft : digest draft.get? level (index - 1) = .ok (nodeOf leaves level (index - 1)) := by
      refine h level (index - 1) ?_ (Or.inl (Nat.le_refl _))
      rw [← hend]
      exact Nat.mul_le_mul_right _ (by omega)
    have hjoined : branchHash (nodeOf leaves level (index - 1)) hash =
        nodeOf leaves (level + 1) (index / 2) := by
      have hindex : 2 * (index / 2) + 1 = index := by omega
      have hpos := Nat.two_pow_pos level
      rw [nodeOf_succ (by rw [hindex, ← hend]; grind), hhash, hindex]
      congr 2
      omega
    rw [if_pos hodd, Write.bind_ok (Write.read_ok hleft), hjoined,
      Write.bind_ok (putNode_apply (Nat.zero_le _) draft)]
    have hup : HoldsUpTo (draft.set (bucket (level + 1)) (nodeKey (index / 2))
        (Framing.pair (nodeOf leaves (level + 1) (index / 2)).bytes [])).get? leaves (level + 1) := by
      intro l i hle hor
      by_cases haddress : l = level + 1 ∧ i = index / 2
      · obtain ⟨rfl, rfl⟩ := haddress
        exact digest_of_node (node_set_self (Nat.zero_le _) draft)
      · rw [digest_congr (get?_set_of_ne (mt address_inj.mp haddress))]
        refine h l i hle ?_
        by_contra hc
        have hl : l = level + 1 := by omega
        subst hl
        have hi : (i + 1) * 2 ^ (level + 1) = (index / 2 + 1) * 2 ^ (level + 1) := by omega
        have := Nat.eq_of_mul_eq_mul_right (Nat.two_pow_pos _) hi
        exact haddress ⟨rfl, by omega⟩
    obtain ⟨draft', hrun, hdigest, hframe⟩ := ih (index / 2) (by omega) hup hparent rfl
    refine ⟨draft', hrun, hdigest, fun a ha => ?_⟩
    rw [hframe a fun l i hl => ha l i (by omega)]
    exact get?_set_of_ne (ha (level + 1) (index / 2) (by omega))
  · -- The node is a left child: no node above it ends with the list.
    rw [if_neg hodd]
    refine ⟨draft, rfl, fun l i hle => h l i hle ?_, fun a _ => rfl⟩
    by_contra hc
    obtain ⟨steps, rfl⟩ : ∃ steps, l = level + (steps + 1) := ⟨l - level - 1, by omega⟩
    have heq : (i + 1) * 2 ^ (steps + 1) = index + 1 := by
      refine Nat.eq_of_mul_eq_mul_right (Nat.two_pow_pos level) ?_
      rw [hend, Nat.mul_assoc, ← Nat.pow_add, Nat.add_comm (steps + 1)]
      omega
    rw [Nat.pow_succ, ← Nat.mul_assoc] at heq
    omega

/-- **Appending a leaf.** It succeeds when the data fits, touches no address but those of nodes, and
leaves the store holding the longer list. -/
theorem append_holds {leaves : List Bytes} {draft : Draft} (h : Holds draft.get? leaves)
    {data : Bytes} (hdata : data.length ≤ Framing.maxField) :
    ∃ draft', LogView.append ⟨leaves.length⟩ data draft = .ok (⟨leaves.length + 1⟩, draft') ∧
      Holds draft'.get? (leaves ++ [data]) ∧
      ∀ a, (∀ l i, a ≠ address l i) → draft'.get? a = draft.get? a := by
  have hlen : (leaves ++ [data]).length = leaves.length + 1 := List.length_append
  have hlast : nodeOf (leaves ++ [data]) 0 leaves.length = leafHash data := by
    rw [nodeOf_zero (by omega), List.getElem_concat_length rfl]
  let stored := draft.set (bucket 0) (nodeKey leaves.length)
    (Framing.pair (leafHash data).bytes data)
  have hnode : node stored.get? 0 leaves.length = .ok ⟨(leafHash data).bytes, data⟩ :=
    node_set_self hdata draft
  have hother : ∀ l i, ¬(l = 0 ∧ i = leaves.length) →
      stored.get? (address l i) = draft.get? (address l i) := fun l i hne =>
    get?_set_of_ne (mt address_inj.mp hne)
  have hup : HoldsUpTo stored.get? (leaves ++ [data]) 0 := by
    intro l i hle hor
    by_cases hnew : l = 0 ∧ i = leaves.length
    · obtain ⟨rfl, rfl⟩ := hnew
      rw [hlast]
      exact digest_of_node hnode
    · have hold : (i + 1) * 2 ^ l ≤ leaves.length := by
        rcases hor with hl | hlt
        · obtain rfl : l = 0 := by omega
          rw [Nat.pow_zero] at hle ⊢
          omega
        · omega
      rw [digest_congr (hother l i hnew), nodeOf_append hold]
      exact h.digest_eq l i hold
  obtain ⟨draft', hrun, hdigest, hframe⟩ :=
    complete_spec hup (by rw [Nat.pow_zero, hlen]; omega) hlast.symm
  refine ⟨draft', ?_, ⟨hdigest, fun index hindex => ?_⟩, fun a ha => ?_⟩
  · rw [LogView.append, Write.bind_ok (putNode_apply hdata draft), Write.bind_ok hrun,
      Write.pure_apply]
  · have hzero : draft'.get? (address 0 index) = stored.get? (address 0 index) :=
      hframe _ fun l i hl heq => by have := (address_inj.mp heq).1; omega
    rw [node_congr hzero]
    by_cases hnew : index = leaves.length
    · subst hnew
      rw [hnode, List.getElem_concat_length rfl]
      rfl
    · rw [node_congr (hother 0 index (by omega)), List.getElem_append_left (by omega)]
      exact h.data_eq index (by omega)
  · rw [hframe a fun l i _ => ha l i]
    exact get?_set_of_ne (ha 0 leaves.length)

theorem putNode_error {value : Bytes} (h : Framing.maxField < value.length) (level index : Nat)
    (hash : Digest) (draft : Draft) :
    putNode level index hash value draft = .error (.recordTooLarge value.length) := by
  have hcheck : Framing.checkField value = .error (.recordTooLarge value.length) := by
    rw [Framing.checkField, if_pos h]
  have hmake : (Node.make hash.bytes value >>= Node.encode) =
      .error (.recordTooLarge value.length) := by
    rw [Node.make, Framing.checkField_eq (digest_fits _), hcheck]
    rfl
  rw [putNode, Write.bind_error (Write.lift_error hmake)]

/-- Data that does not fit is refused whatever the store holds. -/
theorem append_error {data : Bytes} (h : Framing.maxField < data.length) (log : LogView)
    (draft : Draft) : log.append data draft = .error (.recordTooLarge data.length) := by
  rw [LogView.append, Write.bind_error (putNode_error h _ _ _ _)]

theorem length_le_of_append {log log' : LogView} {data : Bytes} {draft draft' : Draft}
    (h : log.append data draft = .ok (log', draft')) : data.length ≤ Framing.maxField := by
  by_contra hlong
  rw [append_error (Nat.not_le.mp hlong)] at h
  cases h

section Keeping

variable {P : Snapshot → Prop} (keeps : ∀ (level index : Nat) (bytes : Bytes) (draft : Draft),
  P draft.get? → P (draft.set (bucket level) (nodeKey index) bytes).get?)

include keeps

theorem putNode_keeps (level index : Nat) (hash : Digest) (value : Bytes) :
    (putNode level index hash value).Keeps P :=
  (Write.keeps_lift _).bind fun bytes => Write.keeps_put (keeps level index bytes)

theorem complete_keeps (hash : Digest) (level index : Nat) : (complete hash level index).Keeps P := by
  induction index using Nat.strongRecOn generalizing hash level with
  | ind index ih =>
    rw [complete]
    by_cases hodd : index % 2 = 1
    · rw [if_pos hodd]
      refine (Write.keeps_read _).bind fun left => ?_
      exact (putNode_keeps keeps _ _ _ _).bind fun _ => ih (index / 2) (by omega) _ _
    · rw [if_neg hodd]
      exact Write.keeps_pure ()

/-- What every node written keeps, appending a leaf keeps. -/
theorem append_keeps (log : LogView) (data : Bytes) : (log.append data).Keeps P :=
  (putNode_keeps keeps _ _ _ _).bind fun _ =>
    (complete_keeps keeps _ _ _).bind fun _ => Write.keeps_pure _

end Keeping

section Ignoring

variable {outside : Address} (elsewhere : ∀ level index, outside ≠ address level index)

theorem putNode_ignores (level index : Nat) (hash : Digest) (value : Bytes) :
    (putNode level index hash value).Ignores outside :=
  (Write.ignores_lift _).bind fun bytes => Write.ignores_put _ _ bytes

include elsewhere

theorem complete_ignores (hash : Digest) (level index : Nat) :
    (complete hash level index).Ignores outside := by
  induction index using Nat.strongRecOn generalizing hash level with
  | ind index ih =>
    rw [complete]
    by_cases hodd : index % 2 = 1
    · rw [if_pos hodd]
      refine (Write.ignores_read fun view view' same => ?_).bind fun left => ?_
      · exact digest_congr (same _ (elsewhere level (index - 1)).symm)
      · exact (putNode_ignores _ _ _ _).bind fun _ => ih (index / 2) (by omega) _ _
    · rw [if_neg hodd]
      exact Write.ignores_pure ()

/-- Appending a leaf does not depend on what stands outside the log. -/
theorem append_ignores (log : LogView) (data : Bytes) : (log.append data).Ignores outside :=
  (putNode_ignores _ _ _ _).bind fun _ =>
    (complete_ignores elsewhere _ _ _).bind fun _ => Write.ignores_pure _

end Ignoring

/-- What a store can look like after the leaves were appended to it one after another, with any
writes elsewhere in between. -/
inductive Appended : Snapshot → List Bytes → Prop
  | nil (view : Snapshot) : Appended view []
  | snoc {draft draft' : Draft} {leaves : List Bytes} {data : Bytes} {log : LogView}
    (before : Appended draft.get? leaves)
    (run : LogView.append ⟨leaves.length⟩ data draft = .ok (log, draft')) :
    Appended draft'.get? (leaves ++ [data])
  | elsewhere {view view' : Snapshot} {leaves : List Bytes} (before : Appended view leaves)
    (same : ∀ level index, view' (address level index) = view (address level index)) :
    Appended view' leaves

theorem Appended.holds {view : Snapshot} {leaves : List Bytes} (h : Appended view leaves) :
    Holds view leaves := by
  induction h with
  | nil view => exact holds_nil view
  | snoc before run ih =>
    obtain ⟨draft', hrun, hheld, _⟩ := append_holds ih (length_le_of_append run)
    rw [run] at hrun
    obtain ⟨_, rfl⟩ := Prod.mk.inj (Except.ok.inj hrun)
    exact hheld
  | elsewhere before same ih => exact ih.congr same

/-- Appends leaves one after another to an empty log. -/
def appendAll (leaves : List Bytes) : Write LogView :=
  leaves.foldlM LogView.append ⟨0⟩

theorem appendAll_appended {leaves : List Bytes}
    (hleaves : ∀ data ∈ leaves, data.length ≤ Framing.maxField) (draft : Draft) :
    ∃ draft', appendAll leaves draft = .ok (⟨leaves.length⟩, draft') ∧
      Appended draft'.get? leaves := by
  induction leaves using List.reverseRecOn with
  | nil => exact ⟨draft, rfl, Appended.nil _⟩
  | append_singleton leaves data ih =>
    obtain ⟨between, hbetween, happended⟩ := ih fun d hd => hleaves d (List.mem_append_left _ hd)
    obtain ⟨draft', hrun, _⟩ := append_holds happended.holds
      (hleaves data (List.mem_append_right _ (List.mem_singleton_self _)))
    refine ⟨draft', ?_, happended.snoc hrun⟩
    rw [appendAll] at hbetween ⊢
    rw [List.foldlM_append, Write.bind_ok hbetween, List.foldlM_cons, Write.bind_ok hrun,
      List.length_append]
    rfl

/-! ## Roots -/

/-- The root over the leaves after the complete nodes of a level, if there are any. -/
def rootAfter (leaves : List Bytes) (start : Nat) : Option Digest :=
  if start < leaves.length then some (rootOf (leaves.drop start)) else none

/-- The last complete node of a level in front of what comes after it. -/
theorem rootOf_drop_node {leaves : List Bytes} {level index : Nat}
    (h : (index + 1) * 2 ^ level ≤ leaves.length)
    (h' : leaves.length < (index + 1) * 2 ^ level + 2 ^ level) :
    rootOf (leaves.drop (index * 2 ^ level)) =
      match rootAfter leaves ((index + 1) * 2 ^ level) with
      | none => nodeOf leaves level index
      | some right => branchHash (nodeOf leaves level index) right := by
  have hpos := Nat.two_pow_pos level
  have hstep : (index + 1) * 2 ^ level = index * 2 ^ level + 2 ^ level := Nat.succ_mul _ _
  rw [rootAfter]
  by_cases hrest : (index + 1) * 2 ^ level < leaves.length
  · have hsplit : splitPoint (leaves.drop (index * 2 ^ level)).length = 2 ^ level := by
      refine splitPoint_eq_two_pow ?_ ?_
      · rw [List.length_drop]; omega
      · rw [List.length_drop, Nat.pow_succ]; omega
    rw [if_pos hrest, rootOf_split (by rw [List.length_drop]; omega), hsplit, List.drop_drop,
      ← hstep]
    rfl
  · rw [if_neg hrest, nodeOf, below, List.take_of_length_le]
    rw [List.length_drop]
    omega

theorem rootFrom_eq {view : Snapshot} {leaves : List Bytes} (h : Holds view leaves)
    (level count : Nat) (hle : count * 2 ^ level ≤ leaves.length)
    (hlt : leaves.length < (count + 1) * 2 ^ level) :
    rootFrom view level count (rootAfter leaves (count * 2 ^ level)) = .ok (rootOf leaves) := by
  induction count using Nat.strongRecOn generalizing level with
  | ind count ih =>
  rw [rootFrom]
  by_cases hzero : count = 0
  · subst hzero
    rw [if_pos rfl, rootAfter, Nat.zero_mul]
    cases leaves <;> simp
  have hstep : (count + 1) * 2 ^ level = count * 2 ^ level + 2 ^ level := Nat.succ_mul _ _
  have hup := ih (count / 2) (by omega) (level + 1)
  rw [if_neg hzero]
  by_cases hodd : count % 2 = 1
  · -- The last node of the level is joined with what comes after it.
    have hhalf : count / 2 * 2 ^ (level + 1) = (count - 1) * 2 ^ level := by
      rw [left_start]
      congr 1
      omega
    have hpred : (count - 1 + 1) = count := by omega
    have hcount : count * 2 ^ level = (count - 1) * 2 ^ level + 2 ^ level := by
      rw [← Nat.succ_mul, Nat.succ_eq_add_one, hpred]
    have hnode := h.digest_eq level (count - 1) (by rw [hpred]; exact hle)
    have hpos := Nat.two_pow_pos level
    have hafter : rootAfter leaves (count / 2 * 2 ^ (level + 1)) =
        some (rootOf (leaves.drop ((count - 1) * 2 ^ level))) := by
      rw [rootAfter, hhalf, if_pos (by omega)]
    rw [hhalf, Nat.succ_mul, hhalf, Nat.pow_succ] at hup
    rw [← hhalf, hafter, rootOf_drop_node (by rw [hpred]; omega)
      (by rw [hpred]; omega), hpred] at hup
    rw [if_pos hodd, hnode]
    exact hup (by omega) (by omega)
  · have hhalf : count / 2 * 2 ^ (level + 1) = count * 2 ^ level := by
      rw [left_start]
      congr 1
      omega
    rw [if_neg hodd, ← hhalf]
    refine hup (by omega) ?_
    rw [Nat.succ_mul, hhalf, Nat.pow_succ]
    omega

/-- **The root at a size is the root over that many leaves.** -/
theorem rootAt_eq {view : Snapshot} {leaves : List Bytes} (h : Holds view leaves) {log : LogView}
    {size : Nat} (hsize : size ≤ log.size) (hlen : size ≤ leaves.length) :
    log.rootAt view size = .ok (rootOf (leaves.take size)) := by
  have hcheck : log.checkSize size = .ok () := by
    rw [LogView.checkSize, if_neg (Nat.not_lt.mpr hsize)]
  have hroot := rootFrom_eq (h.take hlen) 0 size
  rw [List.length_take, Nat.min_eq_left hlen, Nat.pow_zero, Nat.mul_one, Nat.mul_one] at hroot
  have hafter : rootAfter (leaves.take size) size = none := by
    rw [rootAfter, List.length_take, if_neg (by omega)]
  rw [hafter] at hroot
  rw [LogView.rootAt, hcheck]
  exact hroot (Nat.le_refl _) (Nat.lt_succ_self _)

end TransparencyLog.Tree
