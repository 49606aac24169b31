import TransparencyLog.Ledger
import TransparencyLog.Proofs.SparseMap.Stored
import TransparencyLog.Proofs.Store.File
import TransparencyLog.Proofs.Tree.Nodes

/-!
# What a ledger records

A list of pairs is recorded when the store holds the log of their records and the map that sends
each key to its value and index. The log and the map share no address, so a batch that goes into
both keeps both right. Keys are told apart by their hashes, so this holds as long as the strings
hashed for the keys and the map do not collide.

* `Ledger.leavesOf`, `Ledger.entriesOf`: the log and the map of a list of pairs;
* `Ledger.hashed`, `Ledger.Unambiguous`: the strings that are hashed, and that they can be told
  apart;
* `Ledger.Recorded`: the store holds both;
* **`Ledger.appendAll_spec`**: appending pairs records them;
* **`Ledger.record_run`**: a batch that passes the check is recorded, under a head over all pairs.
-/

namespace TransparencyLog

namespace Ledger

/-! ## The log and the map of a list -/

/-- The leaves of the log: the bytes of the records. -/
def leavesOf (pairs : List Record) : List Bytes :=
  pairs.map fun pair => Framing.pair pair.key pair.value

/-- What the map sends each key to: the bytes of its entry. -/
def entriesOf (pairs : List Record) : List (Bytes × Bytes) :=
  pairs.mapIdx fun index pair => (pair.key, (MapEntry.mk pair.value (UInt64.ofNat index)).encode)

/-- The values in the tree of the map. -/
def valuesOf (pairs : List Record) : List Bool → Option Bytes :=
  SparseMap.assigned (entriesOf pairs)

/-- What is hashed for the keys, and for the trees of the map after any number of pairs. -/
def hashed (pairs : List Record) : Set Bytes :=
  {s | (∃ pair ∈ pairs, s = pair.key) ∨
    ∃ count, s ∈ SparseMap.treeInputs SparseMap.height (valuesOf (pairs.take count))}

/-- The strings that are hashed have different hashes, and no entry hashes to the 32 zero bytes
that stand for its absence. -/
structure Unambiguous (pairs : List Record) : Prop where
  injective : Set.InjOn sha256 (hashed pairs)
  nonzero : ∀ entry ∈ entriesOf pairs, sha256 entry.2 ≠ Digest.zero

/-- Nothing stands in the way of telling strings and entries by their hashes; or it can be named. -/
theorem injOn_or_ambiguous (strings : Set Bytes) (pairs : List Record) :
    (Set.InjOn sha256 strings ∧ ∀ entry ∈ entriesOf pairs, sha256 entry.2 ≠ Digest.zero) ∨
      CollisionBetween strings strings ∨ ∃ entry ∈ entriesOf pairs, sha256 entry.2 = Digest.zero := by
  rcases injOn_or_collision strings with hinj | hcol
  case inr => exact Or.inr (Or.inl hcol)
  by_cases hzero : ∃ entry ∈ entriesOf pairs, sha256 entry.2 = Digest.zero
  · exact Or.inr (Or.inr hzero)
  · exact Or.inl ⟨hinj, fun entry hentry heq => hzero ⟨entry, hentry, heq⟩⟩

theorem length_leavesOf (pairs : List Record) : (leavesOf pairs).length = pairs.length :=
  List.length_map _

theorem leavesOf_concat (pairs : List Record) (pair : Record) :
    leavesOf (pairs ++ [pair]) = leavesOf pairs ++ [Framing.pair pair.key pair.value] :=
  List.map_append

theorem entriesOf_concat (pairs : List Record) (pair : Record) :
    entriesOf (pairs ++ [pair]) = entriesOf pairs ++
      [(pair.key, (MapEntry.mk pair.value (UInt64.ofNat pairs.length)).encode)] :=
  List.mapIdx_concat

theorem entriesOf_append (pairs items : List Record) : entriesOf pairs ⊆ entriesOf (pairs ++ items) := by
  rw [entriesOf, entriesOf, List.mapIdx_append]
  exact List.subset_append_left _ _

theorem mem_entriesOf {pairs : List Record} {entry : Bytes × Bytes} (h : entry ∈ entriesOf pairs) :
    ∃ (index : Nat) (hindex : index < pairs.length), entry = (pairs[index].key,
      (MapEntry.mk pairs[index].value (UInt64.ofNat index)).encode) := by
  obtain ⟨index, hindex, rfl⟩ := List.mem_mapIdx.mp h
  exact ⟨index, hindex, rfl⟩

theorem key_mem_entriesOf {pairs : List Record} {pair : Record} (h : pair ∈ pairs) :
    ∃ entry ∈ entriesOf pairs, entry.1 = pair.key := by
  obtain ⟨index, hindex, rfl⟩ := List.getElem_of_mem h
  exact ⟨_, List.mem_mapIdx.mpr ⟨index, hindex, rfl⟩, rfl⟩

theorem key_mem_hashed {pairs : List Record} {pair : Record} (h : pair ∈ pairs) :
    pair.key ∈ hashed pairs := Or.inl ⟨pair, h, rfl⟩

theorem hashed_append (pairs items : List Record) : hashed pairs ⊆ hashed (pairs ++ items) := by
  rintro s (⟨pair, hpair, rfl⟩ | ⟨count, hs⟩)
  · exact Or.inl ⟨pair, List.mem_append_left _ hpair, rfl⟩
  · refine Or.inr ⟨min count pairs.length, ?_⟩
    rw [List.take_append_of_le_length (Nat.min_le_right _ _)]
    rcases Nat.le_total count pairs.length with hle | hle
    · rw [Nat.min_eq_left hle]
      exact hs
    · rw [List.take_of_length_le hle] at hs
      rw [Nat.min_eq_right hle, List.take_length]
      exact hs

theorem Unambiguous.of_append {pairs items : List Record} (h : Unambiguous (pairs ++ items)) :
    Unambiguous pairs where
  injective := h.injective.mono (hashed_append pairs items)
  nonzero entry hentry := h.nonzero entry (entriesOf_append pairs items hentry)

theorem treeInputs_subset_hashed (pairs : List Record) :
    SparseMap.treeInputs SparseMap.height (valuesOf pairs) ⊆ hashed pairs := by
  intro s hs
  refine Or.inr ⟨pairs.length, ?_⟩
  rw [List.take_length]
  exact hs

theorem treeInputs_none_subset_hashed (pairs : List Record) :
    SparseMap.treeInputs SparseMap.height (fun _ => none) ⊆ hashed pairs := by
  intro s hs
  exact Or.inr ⟨0, hs⟩

/-- A new key is set at a path of its own. -/
theorem valuesOf_concat {pairs : List Record} {pair : Record}
    (hinj : Set.InjOn sha256 (hashed (pairs ++ [pair]))) (hnew : pair.key ∉ pairs.map Record.key) :
    valuesOf (pairs ++ [pair]) =
      Function.update (valuesOf pairs) ((sha256 pair.key).path SparseMap.height)
        (some (MapEntry.mk pair.value (UInt64.ofNat pairs.length)).encode) := by
  rw [valuesOf, entriesOf_concat]
  refine SparseMap.assigned_concat (fun entry hentry heq => hnew ?_) _
  obtain ⟨index, hindex, rfl⟩ := mem_entriesOf hentry
  have hmem : pairs[index] ∈ pairs ++ [pair] := List.mem_append_left _ (List.getElem_mem hindex)
  have hlast : pair ∈ pairs ++ [pair] := List.mem_append_right _ (List.mem_singleton_self _)
  rw [← hinj (key_mem_hashed hmem) (key_mem_hashed hlast) heq]
  exact List.mem_map_of_mem (List.getElem_mem hindex)

/-- A key that collides with none has the entry of its pair, or none if no pair has it. -/
theorem valuesOf_cases {pairs : List Record} {key : Bytes}
    (hkey : ∀ pair ∈ pairs, ¬ Collides key pair.key) :
    (∃ (index : Nat) (hindex : index < pairs.length), pairs[index].key = key ∧
      valuesOf pairs ((sha256 key).path SparseMap.height) =
        some (MapEntry.mk pairs[index].value (UInt64.ofNat index)).encode) ∨
    ((∀ pair ∈ pairs, pair.key ≠ key) ∧
      valuesOf pairs ((sha256 key).path SparseMap.height) = none) := by
  cases hvalue : valuesOf pairs ((sha256 key).path SparseMap.height) with
  | none =>
    refine Or.inr ⟨fun pair hpair heq => ?_, rfl⟩
    obtain ⟨entry, hentry, hsame⟩ := key_mem_entriesOf hpair
    exact SparseMap.assigned_eq_none_iff.mp hvalue entry hentry (by rw [hsame, heq])
  | some value =>
    obtain ⟨entry, hentry, hhash, rfl⟩ := SparseMap.exists_of_assigned_eq_some hvalue
    obtain ⟨index, hindex, rfl⟩ := mem_entriesOf hentry
    have hsame : pairs[index].key = key :=
      ((sha256_cases hhash.symm).resolve_right (hkey _ (List.getElem_mem hindex))).symm
    exact Or.inl ⟨index, hindex, hsame, rfl⟩

/-! ## Addresses -/

theorem bucket_ne {level : Nat} {name : String} (h : name.toList.head? ≠ some 'l') :
    Tree.bucket level ≠ name := by
  rintro rfl
  rw [Tree.bucket, String.toList_append] at h
  exact h rfl

theorem address_outside (level index : Nat) : SparseMap.Outside (Tree.address level index) := by
  have hnode : SparseMap.nodeBucket.toList.head? ≠ some 'l' := by decide
  have hleaf : SparseMap.leafBucket.toList.head? ≠ some 'l' := by decide
  have hvalue : SparseMap.valueBucket.toList.head? ≠ some 'l' := by decide
  intro entry
  cases entry with
  | node left right => exact bucket_ne hnode
  | leaf valueHash => exact bucket_ne hleaf
  | value bytes => exact bucket_ne hvalue

/-- Where the head is stored. -/
def headAddress : Address := ⟨headBucket, headKey⟩

theorem headAddress_outside : SparseMap.Outside headAddress := by
  have hnode : headBucket ≠ SparseMap.nodeBucket := by decide
  have hleaf : headBucket ≠ SparseMap.leafBucket := by decide
  have hvalue : headBucket ≠ SparseMap.valueBucket := by decide
  intro entry
  cases entry with
  | node left right => exact hnode
  | leaf valueHash => exact hleaf
  | value bytes => exact hvalue

theorem headAddress_ne (level index : Nat) : headAddress ≠ Tree.address level index := by
  have hhead : headBucket.toList.head? ≠ some 'l' := by decide
  intro heq
  exact bucket_ne hhead (congrArg Address.bucket heq).symm

/-! ## Recorded lists -/

/-- The store holds the log and the map of the list, whose keys are all different. -/
structure Recorded (view : Snapshot) (pairs : List Record) : Prop where
  nodup : (pairs.map Record.key).Nodup
  fits : ∀ pair ∈ pairs, pair.key.length + pair.value.length ≤ Record.maxPayload
  log : Tree.Holds view (leavesOf pairs)
  map : SparseMap.Readable view SparseMap.height (valuesOf pairs)

theorem recorded_nil (view : Snapshot) : Recorded view [] where
  nodup := List.nodup_nil
  fits _ hpair := absurd hpair List.not_mem_nil
  log := Tree.holds_nil view
  map := SparseMap.readable_none view (Nat.le_refl _)

/-- As many pairs are recorded as there are leaves in the store, which fit 64 bits. -/
theorem Recorded.length_lt {contents : Contents} {pairs : List Record}
    (h : Recorded contents.snapshot pairs) (fits : contents.Fits) :
    pairs.length < UInt64.size := by
  have hle := h.log.length_le_size
  rw [length_leavesOf] at hle
  exact Nat.lt_of_le_of_lt hle fits.size_lt

/-- The head is no part of what is recorded. -/
theorem Recorded.congr {view view' : Snapshot} {pairs : List Record} (h : Recorded view pairs)
    (heq : ∀ address, address ≠ headAddress → view' address = view address) :
    Recorded view' pairs where
  nodup := h.nodup
  fits := h.fits
  log := h.log.congr fun level index => heq _ (headAddress_ne level index).symm
  map := by
    refine h.map.mono (fun entry _ hstored => ?_) (Set.Subset.refl _)
    refine (heq _ fun haddress => ?_).trans hstored
    exact headAddress_outside entry (congrArg Address.bucket haddress.symm)

/-! ## Appending pairs -/

/-- **Appending one pair** records it. -/
theorem append_spec {pairs : List Record} {item : Record} {draft : Draft}
    (h : Recorded draft.get? pairs) (hinj : Set.InjOn sha256 (hashed (pairs ++ [item])))
    (hnew : item.key ∉ pairs.map Record.key)
    (hfits : item.key.length + item.value.length ≤ Record.maxPayload) (rest : List Record) :
    ∃ draft', appendAll ⟨pairs.length⟩ (SparseMap.rootOf (entriesOf pairs)) (item :: rest) draft =
        appendAll ⟨(pairs ++ [item]).length⟩ (SparseMap.rootOf (entriesOf (pairs ++ [item]))) rest
          draft' ∧
      Recorded draft'.get? (pairs ++ [item]) ∧
      draft'.get? headAddress = draft.get? headAddress := by
  obtain ⟨hkey, hvalue, hleaf⟩ := Record.field_lengths hfits
  obtain ⟨grown, hgrow, hlog, hframe⟩ := Tree.append_holds h.log hleaf
  rw [length_leavesOf] at hgrow
  -- The map is not touched by the log.
  have hmap : SparseMap.Readable grown.get? SparseMap.height (valuesOf pairs) := by
    refine h.map.mono (fun entry _ hstored => ?_) (Set.Subset.refl _)
    refine (hframe _ fun level index heq => ?_).trans hstored
    exact address_outside level index entry (congrArg Address.bucket heq.symm)
  have hvalues := valuesOf_concat hinj hnew
  have hsub := treeInputs_subset_hashed (pairs ++ [item])
  have hsub' := (treeInputs_subset_hashed pairs).trans (hashed_append pairs [item])
  rw [hvalues] at hsub
  obtain ⟨draft', hupdate, hread, hgrows⟩ := SparseMap.update_spec hinj
    (treeInputs_none_subset_hashed _) item.key _ hsub' hsub hmap
  rw [← hvalues] at hupdate hread
  refine ⟨draft', ?_, ⟨?_, ?_, ?_, hread⟩, ?_⟩
  · rw [appendAll, Write.bind_ok (Write.lift_ok (Record.encode_eq hkey hvalue)),
      Write.bind_ok hgrow]
    show (SparseMap.update (SparseMap.treeRoot SparseMap.height (valuesOf pairs)) _ _ >>= _) grown = _
    rw [Write.bind_ok hupdate, List.length_append]
    rfl
  · rw [List.map_append]
    refine List.nodup_append.mpr ⟨h.nodup, List.pairwise_singleton _ _, ?_⟩
    intro a ha b hb heq
    obtain rfl := List.mem_singleton.mp hb
    exact hnew (heq ▸ ha)
  · intro pair hpair
    rcases List.mem_append.mp hpair with hpair | hpair
    · exact h.fits pair hpair
    · rw [List.mem_singleton.mp hpair]
      exact hfits
  · rw [leavesOf_concat]
    exact hlog.congr fun level index => hgrows.outside _ (address_outside level index)
  · rw [hgrows.outside _ headAddress_outside]
    exact hframe _ headAddress_ne

/-- **Appending pairs** records them. -/
theorem appendAll_spec {pairs items : List Record} {draft : Draft} (h : Recorded draft.get? pairs)
    (hinj : Set.InjOn sha256 (hashed (pairs ++ items)))
    (hnodup : ((pairs ++ items).map Record.key).Nodup)
    (hfits : ∀ item ∈ items, item.key.length + item.value.length ≤ Record.maxPayload) :
    ∃ draft', appendAll ⟨pairs.length⟩ (SparseMap.rootOf (entriesOf pairs)) items draft =
        .ok ((⟨(pairs ++ items).length⟩, SparseMap.rootOf (entriesOf (pairs ++ items))), draft') ∧
      Recorded draft'.get? (pairs ++ items) ∧
      draft'.get? headAddress = draft.get? headAddress := by
  induction items generalizing pairs draft with
  | nil =>
    rw [List.append_nil]
    exact ⟨draft, rfl, h, rfl⟩
  | cons item rest ih =>
    have hassoc : pairs ++ item :: rest = pairs ++ [item] ++ rest := List.append_cons _ _ _
    rw [hassoc] at hinj hnodup ⊢
    have hnew : item.key ∉ pairs.map Record.key := by
      intro hmem
      rw [List.map_append, List.map_append, List.append_assoc] at hnodup
      exact (List.nodup_append.mp hnodup).2.2 _ hmem _
        (List.mem_append_left _ (List.mem_singleton_self _)) rfl
    obtain ⟨between, hrun, hbetween, hhead⟩ := append_spec h
      (hinj.mono (hashed_append _ rest)) hnew (hfits item List.mem_cons_self) rest
    obtain ⟨draft', hrun', hrecorded, hhead'⟩ := ih hbetween hinj hnodup
      fun other hother => hfits other (List.mem_cons_of_mem _ hother)
    exact ⟨draft', hrun.trans hrun', hrecorded, hhead'.trans hhead⟩

/-! ## The transaction of a batch -/

/-- The signed head over a list. -/
def headOver (signer : Signer) (pairs : List Record) : Except LogError TreeHead :=
  TreeHead.signed signer (UInt64.ofNat pairs.length) (Tree.rootOf (leavesOf pairs))
    (SparseMap.rootOf (entriesOf pairs))

theorem headOver_nil (signer : Signer) :
    headOver signer [] = TreeHead.signed signer 0 emptyRoot SparseMap.emptyRoot := by
  have hmap : SparseMap.rootOf (entriesOf []) = SparseMap.emptyRoot :=
    SparseMap.treeRoot_none (Nat.le_refl _)
  rw [headOver, hmap, leavesOf, List.map_nil, Tree.rootOf_nil]
  rfl

/-- **The map answers** by what is recorded. -/
theorem get_eq {view : Snapshot} {pairs : List Record} (h : Recorded view pairs)
    (hun : Unambiguous pairs) (key : Bytes) :
    SparseMap.get view (SparseMap.rootOf (entriesOf pairs)) key =
      .ok (valuesOf pairs ((sha256 key).path SparseMap.height)) := by
  refine SparseMap.get_eq hun.injective (treeInputs_none_subset_hashed pairs)
    (treeInputs_subset_hashed pairs) h.map key fun value hvalue => ?_
  obtain ⟨entry, hentry, _, rfl⟩ := SparseMap.exists_of_assigned_eq_some hvalue
  exact hun.nonzero entry hentry

/-- What has happened in the transaction of a batch that goes through. -/
theorem exists_of_record {signer : Signer} {items : List Record} {draft draft' : Draft}
    {next : TreeHead} (h : record signer items draft = .ok (next, draft')) :
    ∃ head log mapRoot between logRoot, storedHead draft.get? = .ok head ∧
      appendAll ⟨head.treeSize.toNat⟩ head.mapRoot items draft = .ok ((log, mapRoot), between) ∧
      log.root between.get? = .ok logRoot ∧
      TreeHead.signed signer (UInt64.ofNat log.size) logRoot mapRoot = .ok next ∧
      draft' = between.set headBucket headKey next.encode := by
  rw [record] at h
  obtain ⟨head, _, hreadHead, h₁⟩ := Write.exists_of_bind h
  obtain ⟨_, _, hreadNew, h₂⟩ := Write.exists_of_bind h₁
  obtain ⟨⟨log, mapRoot⟩, between, hall, h₃⟩ := Write.exists_of_bind h₂
  obtain ⟨logRoot, _, hreadRoot, h₄⟩ := Write.exists_of_bind h₃
  obtain ⟨signed, _, hlift, h₅⟩ := Write.exists_of_bind h₄
  obtain ⟨_, stored, hstore, h₆⟩ := Write.exists_of_bind h₅
  obtain ⟨hhead, rfl⟩ := Write.of_read hreadHead
  obtain ⟨-, rfl⟩ := Write.of_read hreadNew
  obtain ⟨hlogRoot, rfl⟩ := Write.of_read hreadRoot
  obtain ⟨hsigned, rfl⟩ := Write.of_lift hlift
  obtain ⟨-, rfl⟩ := Prod.mk.inj (Except.ok.inj hstore)
  obtain ⟨rfl, rfl⟩ := Prod.mk.inj (Except.ok.inj h₆)
  exact ⟨head, log, mapRoot, _, logRoot, hhead, hall, hlogRoot, hsigned, rfl⟩

theorem record_of_checkNew_error {signer : Signer} {items : List Record} {draft : Draft}
    {head : TreeHead} {error : LogError} (hhead : storedHead draft.get? = .ok head)
    (hcheck : checkNew draft.get? head.mapRoot [] items = .error error) :
    record signer items draft = .error error := by
  rw [record, Write.bind_ok (Write.read_ok hhead), Write.bind_error (Write.read_error hcheck)]

/-- **A batch that passes the check** is recorded, and the head over it is signed and stored last. -/
theorem record_run (signer : Signer) {pairs items : List Record} {draft : Draft} {head : TreeHead}
    (h : Recorded draft.get? pairs) (hinj : Set.InjOn sha256 (hashed (pairs ++ items)))
    (hnodup : ((pairs ++ items).map Record.key).Nodup)
    (hfits : ∀ item ∈ items, item.key.length + item.value.length ≤ Record.maxPayload)
    (hhead : storedHead draft.get? = .ok head) (hsize : head.treeSize.toNat = pairs.length)
    (hroot : head.mapRoot = SparseMap.rootOf (entriesOf pairs))
    (hcheck : checkNew draft.get? head.mapRoot [] items = .ok ()) :
    ∃ between : Draft, Recorded between.get? (pairs ++ items) ∧ record signer items draft =
      (headOver signer (pairs ++ items)).map fun next =>
        (next, between.set headBucket headKey next.encode) := by
  obtain ⟨between, hall, hrecorded, _⟩ := appendAll_spec h hinj hnodup hfits
  refine ⟨between, hrecorded, ?_⟩
  have hlogRoot : LogView.root ⟨(pairs ++ items).length⟩ between.get? =
      .ok (Tree.rootOf (leavesOf (pairs ++ items))) := by
    have heq := Tree.rootAt_eq hrecorded.log (Nat.le_refl (pairs ++ items).length)
      (length_leavesOf _).ge
    rw [← length_leavesOf, List.take_length] at heq
    rw [← length_leavesOf]
    exact heq
  have hread : Write.read (fun view => checkNew view head.mapRoot [] items) draft =
      .ok ((), draft) := Write.read_ok hcheck
  have hreadRoot : Write.read (LogView.root ⟨(pairs ++ items).length⟩) between = .ok (_, between) :=
    Write.read_ok hlogRoot
  rw [record, Write.bind_ok (Write.read_ok hhead), Write.bind_ok hread, hsize, hroot,
    Write.bind_ok hall]
  simp only
  rw [Write.bind_ok hreadRoot, headOver]
  cases TreeHead.signed signer (UInt64.ofNat (pairs ++ items).length)
      (Tree.rootOf (leavesOf (pairs ++ items))) (SparseMap.rootOf (entriesOf (pairs ++ items))) with
  | error e => rfl
  | ok next => rfl

theorem recorded_set_head {draft : Draft} {pairs : List Record} (h : Recorded draft.get? pairs)
    (bytes : Bytes) : Recorded (draft.set headBucket headKey bytes).get? pairs :=
  h.congr fun address hne => (draft.get?_set _ _ _ address).trans (if_neg hne)

theorem get?_set_head (draft : Draft) (bytes : Bytes) :
    (draft.set headBucket headKey bytes).get? headAddress = some bytes :=
  (draft.get?_set _ _ _ headAddress).trans (if_pos rfl)

end Ledger

end TransparencyLog
