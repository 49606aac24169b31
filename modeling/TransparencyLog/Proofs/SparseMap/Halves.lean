import TransparencyLog.Proofs.SparseMap.Versions
import TransparencyLog.Proofs.Store.Count

/-!
# The two halves of a map

The first bit of a key's hash tells the half of the map that the key belongs to. As long as a half has no
keys, every key of it can be looked up, is absent, and can be set, whatever collides elsewhere. Setting one
key leaves the other half as it was.

* `SparseMap.Vacant`: a half of the map has no keys;
* `SparseMap.Vacant.get_eq`, `SparseMap.Vacant.exists_update`: looking a key up there, and setting one;
* **`SparseMap.vacant_update`**: the other half, once a key has been set;
* **`SparseMap.update_adds`**: how many entries setting a key adds.
-/

namespace TransparencyLog.SparseMap

/-- The half of the map that a key belongs to. -/
def side (key : Bytes) : Bool := (sha256 key).bit 255

/-- The way down to any key of a half ends at an empty leaf. -/
def Vacant (view : Snapshot) (root : Digest) (half : Bool) : Prop :=
  ∀ key, side key = half → ∃ siblings,
    descend view (sha256 key) height root [] = .ok (defaultHash 0, siblings)

section Vacant

variable {view view' : Snapshot} {draft draft' : Draft} {root next : Digest} {half : Bool}
  {key value : Bytes}

theorem vacant_empty (view : Snapshot) (half : Bool) : Vacant view emptyRoot half :=
  fun key _ => ⟨_, descend_default view (sha256 key) height []⟩

theorem descend_congr (same : ∀ address : Address, address.bucket = nodeBucket →
    view' address = view address) (key : Digest) (h : Nat) (hash : Digest) (passed : List Digest) :
    descend view' key h hash passed = descend view key h hash passed := by
  induction h generalizing hash passed with
  | zero => rfl
  | succ h ih =>
    have hstored : storedChildren view' hash = storedChildren view hash := by
      rw [storedChildren, storedChildren, Snapshot.fetch_congr (same ⟨nodeBucket, hash.bytes⟩ rfl)]
    have hchildren : children view' h hash = children view h hash := by
      rw [children, children, hstored]
    rw [descend, descend, hchildren]
    simp only [ih]

/-- What happens outside the nodes does not fill a half. -/
theorem Vacant.congr (h : Vacant view root half) (same : ∀ address : Address,
    address.bucket = nodeBucket → view' address = view address) : Vacant view' root half := by
  intro key hkey
  rw [descend_congr same]
  exact h key hkey

theorem Vacant.get_eq (h : Vacant view root half) (hkey : side key = half) :
    get view root key = .ok none := by
  obtain ⟨siblings, hfound⟩ := h key hkey
  rw [get_of_descend hfound]
  exact if_pos rfl

theorem Vacant.exists_update (h : Vacant draft.get? root half) (hkey : side key = half)
    (value : Bytes) : ∃ next draft', update root key value draft = .ok (next, draft') := by
  obtain ⟨siblings, hfound⟩ := h key hkey
  exact exists_update_of_descend hfound value

/-! ## Setting a key in one half -/

/-- The way down from a branch that has been written goes on at one of its children. -/
theorem descend_branch {left right : Digest} {h : Nat}
    (stored : (Entry.node left right).Stored view)
    (hne : branchHash left right ≠ defaultHash (h + 1)) (key : Digest) (passed : List Digest) :
    descend view key (h + 1) (branchHash left right) passed =
      if key.bit h then descend view key h right (left :: passed)
      else descend view key h left (right :: passed) := by
  have hget : view.fetch nodeBucket (branchHash left right).bytes =
      .ok (left.bytes ++ right.bytes) := Snapshot.fetch_eq_ok_iff.mpr stored
  have hchildren : children view h (branchHash left right) = .ok (left, right) := by
    rw [children, if_neg hne, storedChildren, hget]
    simp only [bind, Except.bind, splitPair?_append]
    rfl
  rw [descend, hchildren]
  rfl

/-- **Setting one key** in the empty map leaves the other half without keys. -/
theorem vacant_update (hrun : update emptyRoot key value draft = .ok (next, draft')) :
    Vacant draft'.get? next (!side key) := by
  rw [update] at hrun
  obtain ⟨⟨leaf, siblings⟩, _, hdown, hrun₁⟩ := Write.exists_of_bind hrun
  obtain ⟨hfound, rfl⟩ := Write.of_read hdown
  obtain ⟨_, between, _, hrun₂⟩ := Write.exists_of_bind hrun₁
  obtain ⟨_, written, _, hrebuild⟩ := Write.exists_of_bind hrun₂
  have hsplit : (List.range height).map defaultHash =
      (List.range 255).map defaultHash ++ [defaultHash 255] := by
    rw [show height = 255 + 1 from rfl, List.range_succ, List.map_append]
    rfl
  rw [emptyRoot, descend_default, List.append_nil, hsplit] at hfound
  obtain ⟨-, rfl⟩ := Prod.mk.inj (Except.ok.inj hfound)
  -- The root is the last node that is written; one of its children is the empty half.
  obtain ⟨mid, below, hmid⟩ := exists_rebuild (sha256 key) 0 (leafHash (sha256 value).bytes)
    ((List.range 255).map defaultHash) written
  rw [rebuild_concat hmid, List.length_map, List.length_range, Nat.zero_add, rebuild_cons]
    at hrebuild
  obtain ⟨rfl, rfl⟩ := Prod.mk.inj (Except.ok.inj hrebuild)
  intro other hother
  have hbit : (sha256 other).bit 255 = !(sha256 key).bit 255 := hother
  rw [show height = 255 + 1 from rfl]
  generalize hpair : ordered (sha256 key) 255 mid (defaultHash 255) = pair
  by_cases hne : branchHash pair.1 pair.2 ≠ defaultHash (255 + 1)
  · rw [if_pos hne, descend_branch (Entry.stored_write (.node pair.1 pair.2) below) hne, hbit,
      ← hpair, ordered]
    cases (sha256 key).bit 255 <;>
      simp only [Bool.not_false, Bool.not_true, Bool.false_eq_true, if_true, if_false] <;>
      exact ⟨_, descend_default _ _ _ _⟩
  · rw [Classical.not_not.mp hne]
    exact ⟨_, descend_default _ _ _ _⟩

end Vacant

/-! ## Counting -/

section Counting

theorem length_of_descend {view : Snapshot} {key : Digest} {h : Nat} {hash leaf : Digest}
    {passed siblings : List Digest} (hrun : descend view key h hash passed = .ok (leaf, siblings)) :
    siblings.length = h + passed.length := by
  induction h generalizing hash passed with
  | zero =>
    obtain ⟨-, rfl⟩ := Prod.mk.inj (Except.ok.inj hrun)
    exact (Nat.zero_add _).symm
  | succ h ih =>
    rw [descend] at hrun
    cases hchildren : children view h hash with
    | error e =>
      rw [hchildren] at hrun
      cases hrun
    | ok pair =>
      rw [hchildren] at hrun
      obtain ⟨left, right⟩ := pair
      simp only [bind, Except.bind] at hrun
      split at hrun <;> rw [ih hrun, List.length_cons] <;> omega

theorem Entry.short (entry : Entry) (hlength : entry.content.length < UInt64.size) :
    entry.address.Short entry.content where
  bucket_lt := by
    have hnode : (Bytes.ofText nodeBucket).length < UInt64.size := by decide
    have hleaf : (Bytes.ofText leafBucket).length < UInt64.size := by decide
    have hvalue : (Bytes.ofText valueBucket).length < UInt64.size := by decide
    cases entry
    · exact hnode
    · exact hleaf
    · exact hvalue
  key_lt := by
    show (sha256 entry.input).bytes.length < _
    rw [Digest.length_eq]
    decide
  value_lt := hlength

theorem rebuild_adds (key : Digest) (h : Nat) (hash : Digest) (siblings : List Digest) :
    (rebuild key h hash siblings).Adds siblings.length := by
  induction siblings generalizing h hash with
  | nil => exact Write.adds_pure hash
  | cons sibling rest ih =>
    intro draft a draft' hrun before hbefore
    rw [rebuild_cons] at hrun
    rw [List.length_cons, Nat.add_comm rest.length, ← Nat.add_assoc]
    refine ih _ _ _ a draft' hrun _ ?_
    split
    · refine hbefore.set (Entry.short (.node _ _) ?_)
      show (_ ++ _ : Bytes).length < _
      rw [List.length_append, Digest.length_eq, Digest.length_eq]
      decide
    · exact hbefore.mono (Nat.le_add_right before 1)

/-- **Setting a key** adds a value, a leaf and a node for every level. -/
theorem update_adds (root : Digest) (key : Bytes) {value : Bytes}
    (hvalue : value.length < UInt64.size) : (update root key value).Adds (2 + height) := by
  refine Write.adds_read_bind fun view found hdown => ?_
  obtain ⟨leaf, siblings⟩ := found
  have hlength : siblings.length = height := length_of_descend hdown
  have hleaf : (Entry.leaf (sha256 value)).content.length < UInt64.size := by
    show (sha256 value).bytes.length < _
    rw [Digest.length_eq]
    decide
  have hcount : 2 + height = 1 + (1 + siblings.length) := by rw [hlength, ← Nat.add_assoc]
  rw [hcount]
  exact (Write.adds_put (Entry.short _ hleaf)).bind fun _ _ _ _ =>
    (Write.adds_put (Entry.short (.value value) hvalue)).bind fun _ _ _ _ => rebuild_adds _ _ _ _

end Counting

end TransparencyLog.SparseMap
