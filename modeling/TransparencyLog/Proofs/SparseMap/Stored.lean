import Mathlib.Data.Set.Function
import TransparencyLog.Proofs.SparseMap.Tree
import TransparencyLog.Proofs.Store.Write

/-!
# The stored map

Everything a map stores stands under the hash of a string that holds it, so writing more changes
nothing that is there, as long as the strings involved have different hashes. On a store that holds
the tree of a map, reading answers by its values, and setting a key stores the tree of the map with
the key set.

* `SparseMap.Entry`: what is stored, and the string it is hashed as;
* `SparseMap.Grows`: what writing entries leaves alone;
* `SparseMap.Readable`: the store holds the tree;
* **`SparseMap.get_eq`**, **`SparseMap.prove_eq`**: reading;
* **`SparseMap.update_spec`**: setting a key.
-/

namespace TransparencyLog.SparseMap

/-! ## Entries -/

/-- What is stored for a map: a branch, a leaf's value hash, or a value. -/
inductive Entry
  | node (left right : Digest)
  | leaf (valueHash : Digest)
  | value (bytes : Bytes)

namespace Entry

/-- The bucket that an entry stands in. -/
def bucket : Entry → String
  | node _ _ => nodeBucket
  | leaf _ => leafBucket
  | value _ => valueBucket

/-- The bytes of an entry. -/
def content : Entry → Bytes
  | node left right => left.bytes ++ right.bytes
  | leaf valueHash => valueHash.bytes
  | value bytes => bytes

/-- What is hashed for an entry. -/
def input : Entry → Bytes
  | node left right => branchInput left right
  | leaf valueHash => leafInput valueHash.bytes
  | value bytes => bytes

/-- An entry stands under the hash of its input. -/
def address (entry : Entry) : Address := ⟨entry.bucket, (sha256 entry.input).bytes⟩

/-- The entry is in the store. -/
def Stored (entry : Entry) (view : Snapshot) : Prop := view entry.address = some entry.content

/-- The draft after writing an entry. -/
def write (entry : Entry) (draft : Draft) : Draft :=
  draft.set entry.bucket (sha256 entry.input).bytes entry.content

theorem content_eq {first second : Entry} (hbucket : first.bucket = second.bucket)
    (hinput : first.input = second.input) : first.content = second.content := by
  have hnl : nodeBucket ≠ leafBucket := by decide
  have hnv : nodeBucket ≠ valueBucket := by decide
  have hlv : leafBucket ≠ valueBucket := by decide
  cases first <;> cases second <;> simp only [bucket] at hbucket
  case node.node a b c d =>
    obtain ⟨rfl, rfl⟩ := branchInput_inj.mp hinput
    rfl
  case leaf.leaf a b => exact leafInput_injective hinput
  case value.value a b => exact hinput
  case node.leaf => exact absurd hbucket hnl
  case node.value => exact absurd hbucket hnv
  case leaf.node => exact absurd hbucket.symm hnl
  case leaf.value => exact absurd hbucket hlv
  case value.node => exact absurd hbucket.symm hnv
  case value.leaf => exact absurd hbucket.symm hlv

end Entry

/-- The address is in none of the buckets of a map. -/
def Outside (address : Address) : Prop := ∀ entry : Entry, address.bucket ≠ entry.bucket

/-! ## Writing entries -/

/-- What was stored for the given strings is still there, and so is all that is not of a map. -/
structure Grows (hashed : Set Bytes) (view view' : Snapshot) : Prop where
  stored : ∀ entry : Entry, entry.input ∈ hashed → entry.Stored view → entry.Stored view'
  outside : ∀ address, Outside address → view' address = view address

theorem Grows.refl (hashed : Set Bytes) (view : Snapshot) : Grows hashed view view :=
  ⟨fun _ _ h => h, fun _ _ => rfl⟩

theorem Grows.trans {hashed : Set Bytes} {view view' view'' : Snapshot}
    (h : Grows hashed view view') (h' : Grows hashed view' view'') : Grows hashed view view'' where
  stored entry hinput hstored := h'.stored entry hinput (h.stored entry hinput hstored)
  outside address hout := (h'.outside address hout).trans (h.outside address hout)

theorem Entry.stored_write (entry : Entry) (draft : Draft) :
    entry.Stored (entry.write draft).get? := by
  rw [Stored, write, Draft.get?_set]
  exact if_pos rfl

/-- Writing an entry leaves the others alone, as long as no two strings have one hash. -/
theorem Entry.grows_write {hashed : Set Bytes} (hinj : Set.InjOn sha256 hashed) (entry : Entry)
    (hinput : entry.input ∈ hashed) (draft : Draft) :
    Grows hashed draft.get? (entry.write draft).get? where
  stored other hother hstored := by
    rw [Stored, write, Draft.get?_set]
    by_cases heq : other.address = entry.address
    · obtain ⟨hbucket, hkey⟩ := Address.mk.inj heq
      have hsame := hinj hother hinput (Digest.ext hkey)
      rw [content_eq hbucket hsame]
      exact if_pos heq
    · exact (if_neg heq).trans hstored
  outside address hout := by
    rw [write, Draft.get?_set]
    exact if_neg fun heq => hout entry (congrArg Address.bucket heq)

/-! ## Stored trees -/

/-- The store holds the tree of height `h`: every branch that is not that of an empty tree, every
leaf and every value. -/
def Readable (view : Snapshot) : Nat → (List Bool → Option Bytes) → Prop
  | 0, values => ∀ value, values [] = some value →
    (Entry.leaf (sha256 value)).Stored view ∧ (Entry.value value).Stored view
  | h + 1, values =>
    (treeRoot (h + 1) values ≠ defaultHash (h + 1) →
      (Entry.node (treeRoot h (half values false)) (treeRoot h (half values true))).Stored view) ∧
    ∀ side, Readable view h (half values side)

theorem readable_none (view : Snapshot) {h : Nat} (hh : h ≤ height) :
    Readable view h fun _ => none := by
  induction h with
  | zero =>
    intro value hvalue
    cases hvalue
  | succ h ih => exact ⟨fun hne => absurd (treeRoot_none hh) hne, fun _ => ih (by omega)⟩

/-- A stored tree stays stored as long as the entries for its strings do. -/
theorem Readable.mono {hashed : Set Bytes} {view view' : Snapshot}
    (hstored : ∀ entry : Entry, entry.input ∈ hashed → entry.Stored view → entry.Stored view')
    {h : Nat} {values : List Bool → Option Bytes} (hsub : treeInputs h values ⊆ hashed)
    (hread : Readable view h values) : Readable view' h values := by
  induction h generalizing values with
  | zero =>
    intro value hvalue
    have hinputs : treeInputs 0 values = {leafInput (sha256 value).bytes, value} := by
      rw [treeInputs, hvalue]
    rw [hinputs] at hsub
    obtain ⟨hleaf, hvalueStored⟩ := hread value hvalue
    exact ⟨hstored _ (hsub (Or.inl rfl)) hleaf, hstored _ (hsub (Or.inr rfl)) hvalueStored⟩
  | succ h ih =>
    refine ⟨fun hne => ?_, fun side => ?_⟩
    · exact hstored _ (hsub (branchInput_mem_treeInputs h values)) (hread.1 hne)
    · exact ih ((treeInputs_half_subset h values side).trans hsub) (hread.2 side)

/-! ## Reading -/

theorem splitPair?_append (left right : Digest) :
    splitPair? (left.bytes ++ right.bytes) = some (left, right) := by
  have htake : (left.bytes ++ right.bytes).take 32 = left.bytes :=
    List.take_left' left.length_eq
  have hdrop : (left.bytes ++ right.bytes).drop 32 = right.bytes :=
    List.drop_left' left.length_eq
  unfold splitPair?
  rw [htake, hdrop, Digest.ofBytes?_bytes, Digest.ofBytes?_bytes]
  rfl

section Reading

variable {hashed : Set Bytes} (hinj : Set.InjOn sha256 hashed)
  (hempty : treeInputs height (fun _ => none) ⊆ hashed) {view : Snapshot}

include hempty in
theorem treeInputs_none_subset {h : Nat} (hh : h ≤ height) :
    treeInputs h (fun _ => none) ⊆ hashed := by
  obtain ⟨above, habove⟩ := Nat.exists_eq_add_of_le hh
  rw [habove] at hempty
  clear hh habove
  induction above with
  | zero => exact hempty
  | succ above ih => exact ih ((treeInputs_half_subset (h + above) _ false).trans hempty)

include hinj hempty in
/-- A branch with the hash of an empty tree is a branch over empty trees. -/
theorem eq_default_of_branchHash {h : Nat} (hh : h < height) {left right : Digest}
    (hinput : branchInput left right ∈ hashed)
    (heq : branchHash left right = defaultHash (h + 1)) :
    left = defaultHash h ∧ right = defaultHash h := by
  have hdefault := treeInputs_none_subset hempty (show h + 1 ≤ height from hh)
    (branchInput_mem_treeInputs h _)
  rw [half_none, half_none, treeRoot_none hh.le] at hdefault
  rw [defaultHash_succ hh] at heq
  exact branchInput_inj.mp (hinj hinput hdefault heq)

include hinj hempty in
theorem children_eq {h : Nat} (hh : h < height) {left right : Digest}
    (hinput : branchInput left right ∈ hashed)
    (hstored : branchHash left right ≠ defaultHash (h + 1) → (Entry.node left right).Stored view) :
    children view h (branchHash left right) = .ok (left, right) := by
  rw [children]
  by_cases heq : branchHash left right = defaultHash (h + 1)
  · obtain ⟨hleft, hright⟩ := eq_default_of_branchHash hinj hempty hh hinput heq
    rw [if_pos heq, hleft, hright]
  · have hget : view.fetch nodeBucket (branchHash left right).bytes =
        .ok (left.bytes ++ right.bytes) := Snapshot.fetch_eq_ok_iff.mpr (hstored heq)
    rw [if_neg heq, storedChildren, hget]
    simp only [bind, Except.bind, splitPair?_append]
    rfl

include hinj hempty in
/-- The way down ends at the leaf of the value on the path and passes its siblings. -/
theorem descend_eq (key : Digest) {h : Nat} (hh : h ≤ height) {values : List Bool → Option Bytes}
    (hsub : treeInputs h values ⊆ hashed) (hread : Readable view h values)
    (passed : List Digest) :
    descend view key h (treeRoot h values) passed =
      .ok (leafOf (values (key.path h)), siblingsOf key h values ++ passed) := by
  induction h generalizing values passed with
  | zero => rfl
  | succ h ih =>
    have hchildren : children view h (treeRoot (h + 1) values) =
        .ok (treeRoot h (half values false), treeRoot h (half values true)) :=
      children_eq hinj hempty hh (hsub (branchInput_mem_treeInputs h values)) hread.1
    have hdown := ih (Nat.le_of_succ_le hh)
      ((treeInputs_half_subset h values (key.bit h)).trans hsub) (hread.2 (key.bit h))
      (treeRoot h (half values (!key.bit h)) :: passed)
    have hleaf : values (key.path (h + 1)) = half values (key.bit h) (key.path h) := rfl
    rw [descend, hchildren, hleaf, siblingsOf, List.append_assoc]
    cases hbit : key.bit h with
    | false => rw [hbit] at hdown; exact hdown
    | true => rw [hbit] at hdown; exact hdown

variable {values : List Bool → Option Bytes} (hsub : treeInputs height values ⊆ hashed)
  (hread : Readable view height values)

include hinj hempty hsub hread in
/-- **The proof for a key** is the list of siblings of its path. -/
theorem prove_eq (key : Bytes) :
    prove view (treeRoot height values) key = .ok (siblingsOf (sha256 key) height values) := by
  rw [prove, descend_eq hinj hempty (sha256 key) (Nat.le_refl _) hsub hread, List.append_nil]
  rfl

theorem path_mem_treeInputs {key : Digest} {h : Nat} {values : List Bool → Option Bytes}
    {value : Bytes} (hvalue : values (key.path h) = some value) :
    leafInput (sha256 value).bytes ∈ treeInputs h values ∧ value ∈ treeInputs h values := by
  induction h generalizing values with
  | zero =>
    have hroot : values [] = some value := hvalue
    rw [treeInputs, hroot]
    exact ⟨Or.inl rfl, Or.inr rfl⟩
  | succ h ih =>
    have hhalf : half values (key.bit h) (key.path h) = some value := hvalue
    obtain ⟨hleaf, hmem⟩ := ih hhalf
    exact ⟨treeInputs_half_subset h values _ hleaf, treeInputs_half_subset h values _ hmem⟩

theorem Readable.stored_of_path {key : Digest} {h : Nat} {values : List Bool → Option Bytes}
    (hread : Readable view h values) {value : Bytes} (hvalue : values (key.path h) = some value) :
    (Entry.leaf (sha256 value)).Stored view ∧ (Entry.value value).Stored view := by
  induction h generalizing values with
  | zero => exact hread value hvalue
  | succ h ih => exact ih (hread.2 (key.bit h)) hvalue

theorem zero_mem_treeInputs_none (h : Nat) :
    leafInput Digest.zero.bytes ∈ treeInputs h fun _ => none := by
  induction h with
  | zero => exact rfl
  | succ h ih => exact treeInputs_half_subset h _ false ih

theorem get_of_descend {root leaf : Digest} {key : Bytes} {siblings : List Digest}
    (h : descend view (sha256 key) height root [] = .ok (leaf, siblings)) :
    get view root key =
      if leaf = defaultHash 0 then .ok none
      else view.fetch leafBucket leaf.bytes >>= fun valueHash =>
        (view.fetch valueBucket valueHash).map some := by
  rw [get, h]
  by_cases hleaf : leaf = defaultHash 0
  · rw [if_pos hleaf]
    exact if_pos hleaf
  · rw [if_neg hleaf]
    exact if_neg hleaf

include hinj hempty hsub hread in
/-- **The value under a key** is the one at its path, unless it hashes to 32 zero bytes. -/
theorem get_eq (key : Bytes)
    (hzero : ∀ value, values ((sha256 key).path height) = some value → sha256 value ≠ Digest.zero) :
    get view (treeRoot height values) key = .ok (values ((sha256 key).path height)) := by
  rw [get_of_descend (descend_eq hinj hempty (sha256 key) (Nat.le_refl _) hsub hread []),
    defaultHash_zero]
  cases hvalue : values ((sha256 key).path height) with
  | none => exact if_pos leafOf_none
  | some value =>
    have hne : leafOf (some value) ≠ emptyLeaf := by
      intro heq
      have hsame := hinj (hsub (path_mem_treeInputs hvalue).1)
        (hempty (zero_mem_treeInputs_none height)) heq
      exact hzero value hvalue (Digest.ext (leafInput_injective hsame))
    obtain ⟨hleaf, hstored⟩ := hread.stored_of_path hvalue
    have hfetch : view.fetch leafBucket (leafOf (some value)).bytes = .ok (sha256 value).bytes :=
      Snapshot.fetch_eq_ok_iff.mpr hleaf
    have hfetch' : view.fetch valueBucket (sha256 value).bytes = .ok value :=
      Snapshot.fetch_eq_ok_iff.mpr hstored
    rw [if_neg hne, hfetch]
    show (view.fetch valueBucket (sha256 value).bytes).map some = _
    rw [hfetch']
    rfl

end Reading

/-- The proof for a key shows its value, or that it has none. -/
theorem verify_siblingsOf (key : Bytes) (values : List Bool → Option Bytes) :
    verify (siblingsOf (sha256 key) height values) (treeRoot height values) key
      (values ((sha256 key).path height)) = true := by
  rw [verify, length_siblingsOf, climb_siblingsOf, beq_self_eq_true, beq_self_eq_true]
  rfl

/-! ## Setting a key -/

/-- One level of the way up: the branch is written unless it is that of an empty tree. -/
theorem rebuild_cons (key : Digest) (h : Nat) (hash sibling : Digest) (rest : List Digest)
    (draft : Draft) :
    let pair := ordered key h hash sibling
    rebuild key h hash (sibling :: rest) draft =
      rebuild key (h + 1) (branchHash pair.1 pair.2) rest
        (if branchHash pair.1 pair.2 ≠ defaultHash (h + 1) then
          (Entry.node pair.1 pair.2).write draft else draft) := by
  intro pair
  rw [rebuild]
  by_cases hne : branchHash pair.1 pair.2 ≠ defaultHash (h + 1)
  · rw [if_pos hne]
    simp only [pair] at hne
    simp only [if_pos hne]
    exact Write.bind_ok (Write.put_apply _ _ _) _
  · rw [if_neg hne]
    simp only [pair] at hne
    simp only [if_neg hne]
    rfl

theorem rebuild_concat {key : Digest} {h : Nat} {hash mid top : Digest} {siblings : List Digest}
    {draft draft' : Draft} (hrun : rebuild key h hash siblings draft = .ok (mid, draft')) :
    rebuild key h hash (siblings ++ [top]) draft =
      rebuild key (h + siblings.length) mid [top] draft' := by
  induction siblings generalizing h hash draft with
  | nil =>
    obtain ⟨rfl, rfl⟩ := Prod.mk.inj (Except.ok.inj hrun)
    rfl
  | cons sibling siblings ih =>
    rw [rebuild_cons] at hrun
    rw [List.cons_append, rebuild_cons, ih hrun, List.length_cons, Nat.add_assoc, Nat.add_comm 1]

section Writing

variable {hashed : Set Bytes} (hinj : Set.InjOn sha256 hashed)

include hinj in
/-- Storing the nodes above a new leaf stores the tree with its value set. -/
theorem rebuild_spec (key : Digest) (value : Bytes) (h : Nat) {values : List Bool → Option Bytes}
    (hsub : treeInputs h (Function.update values (key.path h) (some value)) ⊆ hashed)
    {draft : Draft} (hread : Readable draft.get? h values)
    (hleaf : (Entry.leaf (sha256 value)).Stored draft.get?)
    (hvalue : (Entry.value value).Stored draft.get?) :
    ∃ draft', rebuild key 0 (leafOf (some value)) (siblingsOf key h values) draft =
        .ok (treeRoot h (Function.update values (key.path h) (some value)), draft') ∧
      Readable draft'.get? h (Function.update values (key.path h) (some value)) ∧
      Grows hashed draft.get? draft'.get? := by
  induction h generalizing values with
  | zero =>
    have hset : Function.update values (key.path 0) (some value) [] = some value :=
      Function.update_self _ _ _
    refine ⟨draft, ?_, ?_, Grows.refl _ _⟩
    · rw [treeRoot, hset]
      rfl
    · intro other hother
      rw [hset] at hother
      obtain rfl := Option.some.inj hother
      exact ⟨hleaf, hvalue⟩
  | succ h ih =>
    -- The half with the key is set, and the other one stays.
    have hself := half_update_self values (key.bit h) (key.path h) (some value)
    have hother := half_update_not values (key.bit h) (key.path h) (some value)
    rw [Digest.path] at hsub ⊢
    generalize Function.update values (key.bit h :: key.path h) (some value) = values' at *
    have hhalves := fun side => (treeInputs_half_subset h values' side).trans hsub
    have hsubSelf := hhalves (key.bit h)
    rw [hself] at hsubSelf
    obtain ⟨between, hrun, hreadSelf, hgrows⟩ := ih hsubSelf (hread.2 (key.bit h))
    have hreadOther := hread.2 (!key.bit h)
    rw [← hother] at hreadOther
    rw [← hself] at hrun hreadSelf
    have hinput := hsub (branchInput_mem_treeInputs h values')
    have hboth : ∀ side, Readable between.get? h (half values' side) := by
      intro side
      rcases Bool.eq_or_eq_not side (key.bit h) with rfl | rfl
      · exact hreadSelf
      · exact hreadOther.mono hgrows.stored (hhalves _)
    rw [siblingsOf, ← hother, rebuild_concat hrun, rebuild_cons, length_siblingsOf, Nat.zero_add,
      ordered_halves]
    by_cases hne : treeRoot (h + 1) values' ≠ defaultHash (h + 1)
    · have hwrite := Entry.grows_write hinj (Entry.node _ _) hinput between
      rw [treeRoot] at hne
      rw [if_pos hne]
      refine ⟨_, rfl, ⟨fun _ => Entry.stored_write _ _, fun side => ?_⟩, hgrows.trans hwrite⟩
      exact (hboth side).mono hwrite.stored (hhalves side)
    · refine ⟨between, ?_, ⟨fun h => absurd h hne, hboth⟩, hgrows⟩
      rw [treeRoot] at hne
      rw [if_neg hne]
      rfl

include hinj in
/-- **Setting a key** stores the tree of the map with the key set. What was stored stays, and
nothing outside the map's buckets changes. -/
theorem update_spec (hempty : treeInputs height (fun _ => none) ⊆ hashed) (key value : Bytes)
    {values : List Bool → Option Bytes} (hsub : treeInputs height values ⊆ hashed)
    (hsub' : treeInputs height
      (Function.update values ((sha256 key).path height) (some value)) ⊆ hashed)
    {draft : Draft} (hread : Readable draft.get? height values) :
    ∃ draft', update (treeRoot height values) key value draft =
        .ok (treeRoot height
          (Function.update values ((sha256 key).path height) (some value)), draft') ∧
      Readable draft'.get? height
        (Function.update values ((sha256 key).path height) (some value)) ∧
      Grows hashed draft.get? draft'.get? := by
  have hset : Function.update values ((sha256 key).path height) (some value)
      ((sha256 key).path height) = some value := Function.update_self _ _ _
  obtain ⟨hleafInput, hvalueInput⟩ := path_mem_treeInputs hset
  -- The leaf and the value are written first.
  let leaf := Entry.leaf (sha256 value)
  let withLeaf := leaf.write draft
  let withBoth := (Entry.value value).write withLeaf
  have hgrowsLeaf : Grows hashed draft.get? withLeaf.get? :=
    Entry.grows_write hinj leaf (hsub' hleafInput) draft
  have hgrowsValue : Grows hashed withLeaf.get? withBoth.get? :=
    Entry.grows_write hinj (Entry.value value) (hsub' hvalueInput) withLeaf
  have hgrows := hgrowsLeaf.trans hgrowsValue
  have hstored := hgrowsValue.stored leaf (hsub' hleafInput) (leaf.stored_write draft)
  obtain ⟨draft', hrun, hread', hgrows'⟩ := rebuild_spec hinj (sha256 key) value height hsub'
    (hread.mono hgrows.stored hsub) hstored (Entry.stored_write _ _)
  have hdown := descend_eq hinj hempty (sha256 key) (Nat.le_refl height) hsub hread []
  rw [List.append_nil] at hdown
  refine ⟨draft', ?_, hread', hgrows.trans hgrows'⟩
  have hputLeaf : Write.put leafBucket (leafHash (sha256 value).bytes).bytes (sha256 value).bytes
      draft = .ok ((), withLeaf) := Write.put_apply _ _ _
  have hputValue : Write.put valueBucket (sha256 value).bytes value withLeaf = .ok ((), withBoth) :=
    Write.put_apply _ _ _
  have hdescend : Write.read (fun view =>
      descend view (sha256 key) height (treeRoot height values) []) draft = .ok (_, draft) :=
    Write.read_ok hdown
  rw [update, Write.bind_ok hdescend]
  exact (Write.bind_ok hputLeaf _).trans ((Write.bind_ok hputValue _).trans hrun)

end Writing

end TransparencyLog.SparseMap
