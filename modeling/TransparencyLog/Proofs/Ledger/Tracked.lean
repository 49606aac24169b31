import TransparencyLog.Proofs.Ledger.Operations
import TransparencyLog.Proofs.SparseMap.Addressed
import TransparencyLog.Proofs.SparseMap.Versions

/-!
# What a batch leaves behind

A batch that goes through appends its leaves to the log and sets its keys in the map, one pair after
another. This says nothing yet about what the map answers, so it needs no word about collisions: the log
holds the leaves, and the map has had one root for each number of pairs, each made from the one before.
The head stored at the end is the signed one over both.

* `Ledger.mapOf`, `Ledger.versionsOf`: the map of a list of pairs, and those on the way to it;
* `Ledger.mapOf_eq_some`, `Ledger.versionInputs_subset_hashed`: the maps of pairs with different keys;
* `Ledger.Tracks`: the store holds the log of a list and has made the versions of its map;
* `Ledger.Tracks.append`, **`Ledger.Tracks.appendAll`**: one pair, and all pairs of a batch;
* **`Ledger.Tracks.record`**, `Ledger.Tracks.record_nil`: the transaction of a batch, and of one without
  pairs;
* `Ledger.IssuedAt`: the head over the first pairs of a list, which is one for each size.
-/

namespace TransparencyLog

namespace Ledger

open SparseMap (KeyMap)

/-! ## The maps of a list -/

/-- The map of a list: each key has the entry of the last pair with it. -/
def mapOf (pairs : List Record) : KeyMap :=
  (entriesOf pairs).foldl (fun map entry => map.insert entry.1 entry.2) ∅

/-- The maps after each number of pairs, from none of them to all. -/
def versionsOf (pairs : List Record) : List KeyMap :=
  (List.range (pairs.length + 1)).map fun count => mapOf (pairs.take count)

theorem mapOf_concat (pairs : List Record) (pair : Record) :
    mapOf (pairs ++ [pair]) = (mapOf pairs).insert pair.key
      (MapEntry.mk pair.value (UInt64.ofNat pairs.length)).encode := by
  rw [mapOf, entriesOf_concat, List.foldl_append]
  rfl

theorem length_versionsOf (pairs : List Record) : (versionsOf pairs).length = pairs.length + 1 := by
  rw [versionsOf, List.length_map, List.length_range]

theorem getElem?_versionsOf {pairs : List Record} {count : Nat} (h : count ≤ pairs.length) :
    (versionsOf pairs)[count]? = some (mapOf (pairs.take count)) := by
  rw [versionsOf, List.getElem?_map, List.getElem?_range (by omega)]
  rfl

theorem versionsOf_concat (pairs : List Record) (pair : Record) :
    versionsOf (pairs ++ [pair]) = versionsOf pairs ++ [mapOf (pairs ++ [pair])] := by
  have hlen : (pairs ++ [pair]).length = pairs.length + 1 := List.length_append
  have hbefore : ∀ count ∈ List.range (pairs.length + 1),
      mapOf ((pairs ++ [pair]).take count) = mapOf (pairs.take count) := by
    intro count hcount
    rw [List.take_append_of_le_length (Nat.lt_succ_iff.mp (List.mem_range.mp hcount))]
  have hlast : (pairs ++ [pair]).take (pairs.length + 1) = pairs ++ [pair] := by
    rw [← hlen, List.take_length]
  rw [versionsOf, hlen, List.range_succ, List.map_append, List.map_congr_left hbefore,
    List.map_singleton, hlast, versionsOf]

theorem mem_entriesOf_of_mapOf {pairs : List Record} {key value : Bytes}
    (h : (mapOf pairs)[key]? = some value) : (key, value) ∈ entriesOf pairs := by
  induction pairs using List.reverseRecOn with
  | nil =>
    have hnone : (mapOf [])[key]? = none := Std.ExtTreeMap.getElem?_empty
    rw [hnone] at h
    cases h
  | append_singleton pairs pair ih =>
    rw [mapOf_concat, Std.ExtTreeMap.getElem?_insert] at h
    rw [entriesOf_concat]
    by_cases heq : compare pair.key key = .eq
    · obtain rfl := Std.LawfulEqCmp.eq_of_compare heq
      rw [if_pos heq] at h
      rw [Option.some.inj h]
      exact List.mem_append_right _ (List.mem_singleton_self _)
    · rw [if_neg heq] at h
      exact List.mem_append_left _ (ih h)

/-- What the map has under a key is the entry of a pair with that key. -/
theorem exists_of_mapOf {pairs : List Record} {key value : Bytes}
    (h : (mapOf pairs)[key]? = some value) : ∃ (index : Nat) (hindex : index < pairs.length),
      pairs[index].key = key ∧ value = (MapEntry.mk pairs[index].value (UInt64.ofNat index)).encode := by
  obtain ⟨index, hindex, heq⟩ := mem_entriesOf (mem_entriesOf_of_mapOf h)
  obtain ⟨rfl, rfl⟩ := Prod.mk.inj heq
  exact ⟨index, hindex, rfl, rfl⟩

theorem mapOf_eq_none {pairs : List Record} {key : Bytes} (h : ∀ pair ∈ pairs, pair.key ≠ key) :
    (mapOf pairs)[key]? = none := by
  by_contra hne
  obtain ⟨value, hvalue⟩ := Option.ne_none_iff_exists'.mp hne
  obtain ⟨index, hindex, hkey, -⟩ := exists_of_mapOf hvalue
  exact h _ (List.getElem_mem hindex) hkey

/-- With different keys, the map has the entry of every pair. -/
theorem mapOf_eq_some {pairs : List Record} (hnodup : (pairs.map Record.key).Nodup) {index : Nat}
    {pair : Record} (h : pairs[index]? = some pair) : (mapOf pairs)[pair.key]? =
      some (MapEntry.mk pair.value (UInt64.ofNat index)).encode := by
  induction pairs using List.reverseRecOn with
  | nil => cases h
  | append_singleton pairs last ih =>
    rw [List.map_append, List.nodup_append] at hnodup
    rw [mapOf_concat, Std.ExtTreeMap.getElem?_insert]
    rcases Nat.lt_or_ge index pairs.length with hlt | hge
    · rw [List.getElem?_append_left hlt] at h
      have hmem : pair.key ∈ pairs.map Record.key := List.mem_map_of_mem (List.mem_of_getElem? h)
      have hne : compare last.key pair.key ≠ .eq := fun heq =>
        hnodup.2.2 _ hmem _ (List.mem_singleton_self _) (Std.LawfulEqCmp.eq_of_compare heq).symm
      rw [if_neg hne]
      exact ih hnodup.1 h
    · rw [List.getElem?_append_right hge, List.getElem?_singleton] at h
      split at h <;> cases h
      obtain rfl : index = pairs.length := by omega
      simp

/-- With different keys and hashes, the tree of the map has the values that the pairs have been given. -/
theorem placed_mapOf {pairs : List Record} (hinj : Set.InjOn sha256 (hashed pairs))
    (hnodup : (pairs.map Record.key).Nodup) : SparseMap.placed (mapOf pairs) = valuesOf pairs := by
  induction pairs using List.reverseRecOn with
  | nil => rfl
  | append_singleton pairs pair ih =>
    have hnew : pair.key ∉ pairs.map Record.key := by
      rw [List.map_append, List.nodup_append] at hnodup
      exact fun hmem => hnodup.2.2 _ hmem _ (List.mem_singleton_self _) rfl
    have hkeys : Set.InjOn sha256 {key | key ∈ mapOf (pairs ++ [pair])} := by
      refine hinj.mono fun key hmem => ?_
      obtain ⟨index, hindex, rfl, -⟩ :=
        exists_of_mapOf (Std.ExtTreeMap.getElem?_eq_some_getElem hmem)
      exact key_mem_hashed (List.getElem_mem hindex)
    rw [List.map_append, List.nodup_append] at hnodup
    rw [mapOf_concat] at hkeys ⊢
    rw [SparseMap.placed_insert hkeys, valuesOf_concat hinj hnew,
      ih (hinj.mono (hashed_append pairs [pair])) hnodup.1]

/-- What is hashed for the maps on the way is hashed for the pairs. -/
theorem versionInputs_subset_hashed {pairs : List Record} (hinj : Set.InjOn sha256 (hashed pairs))
    (hnodup : (pairs.map Record.key).Nodup) :
    SparseMap.versionInputs (versionsOf pairs) ⊆ hashed pairs := by
  rintro s ⟨map, hmap, hs⟩
  obtain ⟨count, -, rfl⟩ := List.mem_map.mp hmap
  have hsub : hashed (pairs.take count) ⊆ hashed pairs := by
    have happend := hashed_append (pairs.take count) (pairs.drop count)
    rw [List.take_append_drop] at happend
    exact happend
  rcases hs with hkey | htree
  · obtain ⟨index, hindex, rfl, -⟩ :=
      exists_of_mapOf (Std.ExtTreeMap.getElem?_eq_some_getElem hkey)
    exact hsub (key_mem_hashed (List.getElem_mem hindex))
  · rw [placed_mapOf (hinj.mono hsub) (hnodup.sublist ((List.take_sublist count pairs).map _))] at htree
    exact hsub (treeInputs_subset_hashed _ htree)

/-! ## Pairs, one after another -/

/-- The store, seen by the transaction that is open on it, holds the log of the list, and the versions
of its map have been made there, each from the one before; they have the given roots. -/
structure Tracks (draft : Draft) (pairs : List Record) (roots : List Digest) : Prop where
  log : Tree.Holds draft.get? (leavesOf pairs)
  map : SparseMap.Reaches draft roots (versionsOf pairs)
  fits : ∀ pair ∈ pairs, pair.key.length + pair.value.length ≤ Record.maxPayload

section Tracks

variable {draft draft' : Draft} {pairs items : List Record} {roots : List Digest} {root : Digest}

theorem tracks_begun (store : Store) : Tracks ⟨store.contents, ∅⟩ [] [SparseMap.emptyRoot] where
  log := Tree.holds_nil _
  map := .begun store
  fits _ hpair := absurd hpair List.not_mem_nil

theorem Tracks.length_roots (h : Tracks draft pairs roots) : roots.length = pairs.length + 1 :=
  h.map.length_eq.trans (length_versionsOf pairs)

/-- The head is no part of what is tracked. -/
theorem Tracks.congr (h : Tracks draft pairs roots)
    (same : ∀ address, address ≠ headAddress → draft'.get? address = draft.get? address) :
    Tracks draft' pairs roots where
  log := h.log.congr fun level index => same _ (headAddress_ne level index).symm
  map := by
    refine h.map.elsewhere fun entry => same _ fun heq => ?_
    exact headAddress_outside entry (congrArg Address.bucket heq.symm)
  fits := h.fits

theorem Tracks.committed (h : Tracks draft pairs roots) : Tracks ⟨draft.merged, ∅⟩ pairs roots where
  log := by
    rw [Draft.get?_base, show draft.merged.snapshot = draft.get? from funext draft.getElem?_merged]
    exact h.log
  map := h.map.committed
  fits := h.fits

/-- Setting a key in the map leaves the log alone. -/
theorem holds_update {leaves : List Bytes} (h : Tree.Holds draft.get? leaves) {key value : Bytes}
    {next : Digest} (hrun : SparseMap.update root key value draft = .ok (next, draft')) :
    Tree.Holds draft'.get? leaves := by
  refine SparseMap.update_keeps (P := fun view => Tree.Holds view leaves) ?_ _ _ _ _ _ _ hrun h
  intro entry draft hheld
  refine hheld.congr fun level index => ?_
  rw [SparseMap.Entry.write, Draft.get?_set]
  exact if_neg fun heq => address_outside level index entry (congrArg Address.bucket heq)

/-- The root that is read back is the one over all leaves. -/
theorem Tracks.root_eq (h : Tracks draft pairs roots) :
    LogView.root ⟨pairs.length⟩ draft.get? = .ok (Tree.rootOf (leavesOf pairs)) := by
  have heq := Tree.rootAt_eq h.log (Nat.le_refl pairs.length) (length_leavesOf _).ge
  rw [← length_leavesOf, List.take_length] at heq
  rw [← length_leavesOf]
  exact heq

/-- **One pair** of a batch that goes through: its leaf is appended and its key is set. -/
theorem Tracks.append (h : Tracks draft pairs roots) (hroot : roots[pairs.length]? = some root)
    {item : Record} {rest : List Record} {grown : LogView × Digest}
    (hrun : appendAll ⟨pairs.length⟩ root (item :: rest) draft = .ok (grown, draft')) :
    ∃ next between, Tracks between (pairs ++ [item]) (roots ++ [next]) ∧
      appendAll ⟨(pairs ++ [item]).length⟩ next rest between = .ok (grown, draft') := by
  rw [appendAll] at hrun
  obtain ⟨data, _, hlift, hrun₁⟩ := Write.exists_of_bind hrun
  obtain ⟨log, appended, hlog, hrun₂⟩ := Write.exists_of_bind hrun₁
  obtain ⟨next, updated, hupdate, hrest⟩ := Write.exists_of_bind hrun₂
  obtain ⟨hencode, rfl⟩ := Write.of_lift hlift
  obtain ⟨-, -, rfl⟩ := Record.of_encode hencode
  have hdata := Tree.length_le_of_append hlog
  -- The log grows by one leaf outside the buckets of the map; then the key is set outside the log's.
  obtain ⟨_, hlog', hheld, hframe⟩ := Tree.append_holds h.log hdata
  rw [length_leavesOf, hlog] at hlog'
  obtain ⟨rfl, rfl⟩ := Prod.mk.inj (Except.ok.inj hlog')
  have hmap : SparseMap.Reaches appended roots (versionsOf pairs) := by
    refine h.map.elsewhere fun entry => hframe _ fun level index heq => ?_
    exact address_outside level index entry (congrArg Address.bucket heq.symm)
  have hlast : (versionsOf pairs)[pairs.length]? = some (mapOf pairs) := by
    rw [getElem?_versionsOf (Nat.le_refl _), List.take_length]
  refine ⟨next, updated, ⟨?_, ?_, ?_⟩, ?_⟩
  · rw [leavesOf_concat]
    exact holds_update hheld hupdate
  · rw [versionsOf_concat, mapOf_concat]
    exact hmap.set pairs.length hroot hlast hupdate
  · intro pair hpair
    rcases List.mem_append.mp hpair with hmem | hmem
    · exact h.fits pair hmem
    · rw [List.mem_singleton.mp hmem]
      have hmax : Record.maxPayload + 4 = Framing.maxField := rfl
      rw [Framing.length_pair] at hdata
      omega
  · rw [List.length_append]
    exact hrest

/-- **All pairs** of a batch that goes through. -/
theorem Tracks.appendAll (h : Tracks draft pairs roots) (hroot : roots[pairs.length]? = some root)
    {grown : LogView × Digest}
    (hrun : Ledger.appendAll ⟨pairs.length⟩ root items draft = .ok (grown, draft')) :
    ∃ later, Tracks draft' (pairs ++ items) (roots ++ later) ∧
      grown.1 = ⟨(pairs ++ items).length⟩ ∧
      (roots ++ later)[(pairs ++ items).length]? = some grown.2 := by
  induction items generalizing pairs roots root draft with
  | nil =>
    obtain ⟨rfl, rfl⟩ := Prod.mk.inj (Except.ok.inj hrun)
    refine ⟨[], ?_, ?_, ?_⟩ <;> simp only [List.append_nil]
    · exact h
    · exact hroot
  | cons item rest ih =>
    obtain ⟨next, between, hnext, hrun⟩ := h.append hroot hrun
    have hlen : (roots ++ [next])[(pairs ++ [item]).length]? = some next := by
      rw [List.length_append, List.length_singleton, ← h.length_roots]
      exact List.getElem?_concat_length
    obtain ⟨later, htracks, hlog, hlast⟩ := ih hnext hlen hrun
    rw [List.append_assoc] at htracks hlog hlast
    rw [List.append_assoc] at htracks hlast
    exact ⟨[next] ++ later, htracks, hlog, hlast⟩

end Tracks

/-! ## Heads -/

/-- The signed head over the first `size` pairs of a list, where the map had the given roots. -/
def IssuedAt (signer : Signer) (pairs : List Record) (roots : List Digest) (size : Nat)
    (head : TreeHead) : Prop :=
  size ≤ pairs.length ∧ ∃ root, roots[size]? = some root ∧
    TreeHead.signed signer (UInt64.ofNat size) (Tree.rootOf (leavesOf (pairs.take size))) root =
      .ok head

section IssuedAt

variable {signer : Signer} {pairs : List Record} {roots : List Digest} {size : Nat} {head : TreeHead}

/-- More pairs leave the head over the first ones as it is. -/
theorem IssuedAt.append (h : IssuedAt signer pairs roots size head) (items : List Record)
    (later : List Digest) : IssuedAt signer (pairs ++ items) (roots ++ later) size head := by
  obtain ⟨hle, root, hroot, hsigned⟩ := h
  refine ⟨?_, root, ?_, ?_⟩
  · rw [List.length_append]
    omega
  · rw [List.getElem?_append_left (List.getElem?_eq_some_iff.mp hroot).1]
    exact hroot
  · rw [List.take_append_of_le_length hle]
    exact hsigned

/-- **There is one head for each size**: signing again gives the same one. -/
theorem IssuedAt.unique (h : IssuedAt signer pairs roots size head) {head' : TreeHead}
    (h' : IssuedAt signer pairs roots size head') : head = head' := by
  obtain ⟨-, root, hroot, hsigned⟩ := h
  obtain ⟨-, root', hroot', hsigned'⟩ := h'
  obtain rfl := Option.some.inj (hroot.symm.trans hroot')
  exact Except.ok.inj (hsigned.symm.trans hsigned')

theorem IssuedAt.toNat_treeSize (h : IssuedAt signer pairs roots size head)
    (hlt : pairs.length < UInt64.size) : head.treeSize.toNat = size := by
  obtain ⟨hle, root, -, hsigned⟩ := h
  rw [(TreeHead.signed_ok hsigned).1]
  exact UInt64.toNat_ofNat_of_lt' (Nat.lt_of_le_of_lt hle hlt)

theorem IssuedAt.logRoot (h : IssuedAt signer pairs roots size head) :
    head.logRoot = Tree.rootOf ((leavesOf pairs).take size) := by
  obtain ⟨-, root, -, hsigned⟩ := h
  rw [(TreeHead.signed_ok hsigned).2.1, leavesOf, leavesOf, List.map_take]

theorem IssuedAt.mapRoot (h : IssuedAt signer pairs roots size head) :
    roots[size]? = some head.mapRoot := by
  obtain ⟨-, root, hroot, hsigned⟩ := h
  rw [(TreeHead.signed_ok hsigned).2.2.1, hroot]

theorem IssuedAt.canSign (h : IssuedAt signer pairs roots size head) : signer.canSign = true := by
  obtain ⟨-, root, -, hsigned⟩ := h
  exact TreeHead.canSign_of_signed hsigned

theorem IssuedAt.verify (h : IssuedAt signer pairs roots size head) (honest : signer.Honest) :
    head.verify signer = true := by
  obtain ⟨-, root, -, hsigned⟩ := h
  exact (TreeHead.signed_ok hsigned).2.2.2 honest

end IssuedAt

/-! ## The transaction of a batch -/

/-- **A batch that goes through** leaves its pairs behind those before, and stores the head over all of
them. -/
theorem Tracks.record {signer : Signer} {draft draft' : Draft} {pairs items : List Record}
    {roots : List Digest} {head next : TreeHead} (h : Tracks draft pairs roots)
    (hhead : storedHead draft.get? = .ok head) (hsize : head.treeSize.toNat = pairs.length)
    (hroot : roots[pairs.length]? = some head.mapRoot)
    (hrun : Ledger.record signer items draft = .ok (next, draft')) :
    ∃ later, Tracks draft' (pairs ++ items) (roots ++ later) ∧
      IssuedAt signer (pairs ++ items) (roots ++ later) (pairs ++ items).length next ∧
      draft'.get? headAddress = some next.encode := by
  obtain ⟨before, log, mapRoot, between, logRoot, hbefore, hall, hlogRoot, hsigned, rfl⟩ :=
    exists_of_record hrun
  obtain rfl := Except.ok.inj (hhead.symm.trans hbefore)
  rw [hsize] at hall
  obtain ⟨later, htracks, hlog, hlast⟩ := h.appendAll hroot hall
  obtain rfl : log = ⟨(pairs ++ items).length⟩ := hlog
  obtain rfl := Except.ok.inj (hlogRoot.symm.trans htracks.root_eq)
  refine ⟨later, ?_, ⟨Nat.le_refl _, mapRoot, hlast, ?_⟩, get?_set_head _ _⟩
  · exact htracks.congr fun address hne => (between.get?_set _ _ _ address).trans (if_neg hne)
  · rw [List.take_length]
    exact hsigned

/-- **A batch of no pairs** stores the head that is stored already. -/
theorem Tracks.record_nil {signer : Signer} {draft : Draft} {pairs : List Record}
    {roots : List Digest} {head : TreeHead} (h : Tracks draft pairs roots)
    (hhead : storedHead draft.get? = .ok head) (hsize : head.treeSize.toNat = pairs.length)
    (hissued : IssuedAt signer pairs roots pairs.length head) :
    Ledger.record signer [] draft = .ok (head, draft.set headBucket headKey head.encode) := by
  obtain ⟨-, root, hroot, hsigned⟩ := id hissued
  obtain rfl := Option.some.inj (hroot.symm.trans hissued.mapRoot)
  rw [List.take_length] at hsigned
  have hnew : Write.read (fun view => checkNew view head.mapRoot [] []) draft = .ok ((), draft) :=
    Write.read_ok rfl
  have hall : Ledger.appendAll ⟨pairs.length⟩ head.mapRoot [] draft =
      .ok ((⟨pairs.length⟩, head.mapRoot), draft) := rfl
  rw [Ledger.record, Write.bind_ok (Write.read_ok hhead), Write.bind_ok hnew, hsize,
    Write.bind_ok hall]
  simp only
  rw [Write.bind_ok (Write.read_ok h.root_eq), Write.bind_ok (Write.lift_ok hsigned)]
  rfl

end Ledger

end TransparencyLog
