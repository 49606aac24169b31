import TransparencyLog.Proofs.SparseMap.Keyed
import TransparencyLog.Proofs.SparseMap.Stored
import TransparencyLog.Proofs.Store.Commit

/-!
# Every version of a map

Setting a key returns a new root and leaves the old ones as they are, so a history of maps may branch:
a key is set on top of any root that was ever returned. Each root is the one taken over the whole tree
of the map that it stands for, whatever order the keys were set in, and its tree stays stored for good.
So every version answers by its map forever, as long as the strings hashed for the versions do not
collide.

* `SparseMap.Reaches`: the runs of a store of maps, with every root returned and its map;
* `SparseMap.versionInputs`: what is hashed for the versions;
* `SparseMap.Holds`: the roots are those of the maps, and their trees are stored; a lemma for every
  kind of step and **`SparseMap.holds_of_reaches`** for whole runs;
* `SparseMap.Answers`, **`SparseMap.versions_readable`**: every version answers by its map;
* **`SparseMap.roots_canonical`**: a root depends on nothing but its map.
-/

namespace TransparencyLog.SparseMap

/-! ## Runs -/

/-- What a store of maps can become, seen by the transaction that is open on it. Beside it stand the
roots returned so far and the maps they stand for, the empty one first. A key is set on top of any of
them; the transaction is committed and the next one begins. In between anything may happen that leaves
the entries of maps alone: others write to the store, or it is read again from its file. A transaction
that is given up leaves the store as it was before. -/
inductive Reaches : Draft → List Digest → List KeyMap → Prop
  | begun (store : Store) : Reaches ⟨store.contents, ∅⟩ [emptyRoot] [∅]
  | set {draft draft' : Draft} {roots : List Digest} {maps : List KeyMap}
    (before : Reaches draft roots maps) (base : Nat) {root : Digest} {map : KeyMap}
    (found : roots[base]? = some root) (found' : maps[base]? = some map) {key value : Bytes}
    {next : Digest} (step : update root key value draft = .ok (next, draft')) :
    Reaches draft' (roots ++ [next]) (maps ++ [map.insert key value])
  | committed {draft : Draft} {roots : List Digest} {maps : List KeyMap}
    (before : Reaches draft roots maps) : Reaches ⟨draft.merged, ∅⟩ roots maps
  | elsewhere {draft draft' : Draft} {roots : List Digest} {maps : List KeyMap}
    (before : Reaches draft roots maps)
    (same : ∀ entry : Entry, draft'.get? entry.address = draft.get? entry.address) :
    Reaches draft' roots maps

theorem Reaches.length_eq {draft : Draft} {roots : List Digest} {maps : List KeyMap}
    (h : Reaches draft roots maps) : roots.length = maps.length := by
  induction h with
  | begun store => rw [List.length_singleton, List.length_singleton]
  | set before base found found' step ih =>
    rw [List.length_append, List.length_append, ih, List.length_singleton, List.length_singleton]
  | committed before ih => exact ih
  | elsewhere before same ih => exact ih

/-- What is hashed for the versions of a map. -/
def versionInputs (maps : List KeyMap) : Set Bytes := {s | ∃ map ∈ maps, s ∈ keyedInputs map}

theorem keyedInputs_subset_versionInputs {maps : List KeyMap} {map : KeyMap} (hmem : map ∈ maps) :
    keyedInputs map ⊆ versionInputs maps := fun _ hs => ⟨map, hmem, hs⟩

theorem versionInputs_subset_append (maps later : List KeyMap) :
    versionInputs maps ⊆ versionInputs (maps ++ later) := by
  rintro s ⟨map, hmem, hs⟩
  exact ⟨map, List.mem_append_left _ hmem, hs⟩

/-! ## What is stored -/

/-- The roots are those of the maps, and the store holds their trees. -/
structure Holds (view : Snapshot) (roots : List Digest) (maps : List KeyMap) : Prop where
  roots_eq : roots = maps.map keyedRoot
  empty_mem : ∅ ∈ maps
  readable : ∀ map ∈ maps, Readable view height (placed map)

section Stored

variable {hashed : Set Bytes} {view view' : Snapshot} {draft : Draft} {roots : List Digest}
  {maps : List KeyMap}

theorem holds_begun (view : Snapshot) : Holds view [emptyRoot] [∅] where
  roots_eq := by rw [List.map_singleton, keyedRoot_empty]
  empty_mem := List.mem_singleton_self _
  readable := by
    intro map hmap
    obtain rfl := List.mem_singleton.mp hmap
    rw [placed_empty]
    exact readable_none view (Nat.le_refl height)

theorem Holds.congr (h : Holds view roots maps)
    (same : ∀ entry : Entry, view' entry.address = view entry.address) :
    Holds view' roots maps where
  roots_eq := h.roots_eq
  empty_mem := h.empty_mem
  readable := by
    intro map hmap
    refine Readable.mono ?_ (Set.subset_univ _) (h.readable map hmap)
    intro entry _ hstored
    exact (same entry).trans hstored

theorem Holds.root_eq (h : Holds view roots maps) {index : Nat} {root : Digest} {map : KeyMap}
    (found : roots[index]? = some root) (found' : maps[index]? = some map) :
    root = keyedRoot map := by
  rw [h.roots_eq, List.getElem?_map, found'] at found
  exact (Option.some.inj found).symm

theorem Holds.exists_map (h : Holds view roots maps) {index : Nat} {root : Digest}
    (found : roots[index]? = some root) : ∃ map, maps[index]? = some map := by
  rw [h.roots_eq, List.getElem?_map] at found
  obtain ⟨map, hmap, -⟩ := Option.map_eq_some_iff.mp found
  exact ⟨map, hmap⟩

theorem Holds.treeInputs_none_subset (h : Holds view roots maps)
    (hsub : versionInputs maps ⊆ hashed) : treeInputs height (fun _ => none) ⊆ hashed := by
  intro s hs
  exact hsub (keyedInputs_subset_versionInputs h.empty_mem (Or.inr hs))

/-- Setting a key on top of a version adds the map with the key set, and keeps the others. -/
theorem Holds.set (hinj : Set.InjOn sha256 hashed) (h : Holds draft.get? roots maps) {map : KeyMap}
    (hmap : map ∈ maps) {key value : Bytes}
    (hsub : versionInputs (maps ++ [map.insert key value]) ⊆ hashed) :
    ∃ draft', update (keyedRoot map) key value draft =
        .ok (keyedRoot (map.insert key value), draft') ∧
      Holds draft'.get? (roots ++ [keyedRoot (map.insert key value)])
        (maps ++ [map.insert key value]) := by
  have hold := (versionInputs_subset_append maps [map.insert key value]).trans hsub
  have hnew := (keyedInputs_subset_versionInputs
    (List.mem_append_right maps (List.mem_singleton_self (map.insert key value)))).trans hsub
  have htree : ∀ other ∈ maps, treeInputs height (placed other) ⊆ hashed := by
    intro other hother s hs
    exact hold (keyedInputs_subset_versionInputs hother (Or.inr hs))
  have hinsert := placed_insert (hinj.mono (Set.subset_union_left.trans hnew))
  have hnewTree := Set.subset_union_right.trans hnew
  unfold keyedRoot
  rw [hinsert] at hnewTree ⊢
  obtain ⟨draft', hrun, hread, hgrows⟩ := update_spec hinj (h.treeInputs_none_subset hold) key value
    (htree map hmap) hnewTree (h.readable map hmap)
  refine ⟨draft', hrun, ?_, List.mem_append_left _ h.empty_mem, ?_⟩
  · rw [List.map_append, ← h.roots_eq, List.map_singleton, keyedRoot, hinsert]
  · intro other hother
    rcases List.mem_append.mp hother with hmem | hmem
    · exact (h.readable other hmem).mono hgrows.stored (htree other hmem)
    · obtain rfl := List.mem_singleton.mp hmem
      rw [hinsert]
      exact hread

/-- **Along a run** the roots stay those of the maps, and the trees stay stored. -/
theorem holds_of_reaches (hinj : Set.InjOn sha256 hashed) (h : Reaches draft roots maps)
    (hsub : versionInputs maps ⊆ hashed) : Holds draft.get? roots maps := by
  induction h with
  | begun store => exact holds_begun _
  | set before base found found' step ih =>
    have hbefore := ih ((versionInputs_subset_append _ _).trans hsub)
    obtain ⟨draft', hrun, hholds⟩ := hbefore.set hinj (List.mem_of_getElem? found') hsub
    rw [hbefore.root_eq found found', hrun] at step
    obtain ⟨rfl, rfl⟩ := Prod.mk.inj (Except.ok.inj step)
    exact hholds
  | committed before ih =>
    refine (ih hsub).congr ?_
    intro entry
    rw [Draft.get?_base]
    exact Draft.getElem?_merged _ _
  | elsewhere before same ih => exact (ih hsub).congr same

end Stored

/-! ## Setting never fails -/

section Setting

variable {draft : Draft} {root : Digest}

theorem exists_rebuild (key : Digest) (h : Nat) (hash : Digest) (siblings : List Digest)
    (draft : Draft) : ∃ next draft', rebuild key h hash siblings draft = .ok (next, draft') := by
  induction siblings generalizing h hash draft with
  | nil => exact ⟨hash, draft, rfl⟩
  | cons sibling siblings ih =>
    rw [rebuild_cons]
    exact ih _ _ _

/-- A key that can be found, or found to be absent, can be set. -/
theorem exists_update_of_descend {key : Bytes} {found : Digest × List Digest}
    (hdown : descend draft.get? (sha256 key) height root [] = .ok found) (value : Bytes) :
    ∃ next draft', update root key value draft = .ok (next, draft') := by
  have hread : Write.read (fun view => descend view (sha256 key) height root []) draft =
    .ok (found, draft) := Write.read_ok hdown
  obtain ⟨next, draft', hrun⟩ := exists_rebuild (sha256 key) 0 (leafHash (sha256 value).bytes)
    found.2 ((draft.set leafBucket (leafHash (sha256 value).bytes).bytes (sha256 value).bytes).set
      valueBucket (sha256 value).bytes value)
  refine ⟨next, draft', ?_⟩
  rw [update, Write.bind_ok hread]
  exact (Write.bind_ok (Write.put_apply _ _ _) _).trans
    ((Write.bind_ok (Write.put_apply _ _ _) _).trans hrun)

/-- The way down an empty tree reads nothing, ends at an empty leaf and passes empty trees. -/
theorem descend_default (view : Snapshot) (key : Digest) (h : Nat) (passed : List Digest) :
    descend view key h (defaultHash h) passed =
      .ok (defaultHash 0, (List.range h).map defaultHash ++ passed) := by
  induction h generalizing passed with
  | zero => rfl
  | succ h ih =>
    have hchildren : children view h (defaultHash (h + 1)) = .ok (defaultHash h, defaultHash h) :=
      if_pos rfl
    rw [descend, hchildren, List.range_succ, List.map_append, List.append_assoc]
    show (if key.bit h then descend view key h (defaultHash h) (defaultHash h :: passed)
      else descend view key h (defaultHash h) (defaultHash h :: passed)) = _
    rw [ite_self]
    exact ih _

theorem exists_update_empty (draft : Draft) (key value : Bytes) :
    ∃ next draft', update emptyRoot key value draft = .ok (next, draft') :=
  exists_update_of_descend (descend_default draft.get? (sha256 key) height []) value

end Setting

/-! ## Reading every version -/

/-- Any key can be set on top of any of the roots. -/
def Settable (draft : Draft) (roots : List Digest) : Prop :=
  ∀ root ∈ roots, ∀ key value, ∃ next draft', update root key value draft = .ok (next, draft')

/-- Every root stands for its map, whatever else has been set since. The map is known by its root;
reading and proving answer by the map, for keys that are there and for keys that are not, and any key
can be set. -/
structure Answers (draft : Draft) (roots : List Digest) (maps : List KeyMap) : Prop where
  length_eq : roots.length = maps.length
  known : ∀ (i j : Nat) (root : Digest), roots[i]? = some root → roots[j]? = some root →
    maps[i]? = maps[j]?
  settable : Settable draft roots
  get_eq : ∀ (i : Nat) (root : Digest) (map : KeyMap), roots[i]? = some root →
    maps[i]? = some map → ∀ key, Apart key map → get draft.get? root key = .ok map[key]?
  prove_eq : ∀ (i : Nat) (root : Digest) (map : KeyMap), roots[i]? = some root →
    maps[i]? = some map → ∀ key, Apart key map → ∃ siblings,
      prove draft.get? root key = .ok siblings ∧ siblings.length = height ∧
        verify siblings root key map[key]? = true

section Reading

variable {draft draft' : Draft} {roots roots' : List Digest}
  {maps maps' : List KeyMap}

section Version

variable (hinj : Set.InjOn sha256 (versionInputs maps)) (h : Holds draft.get? roots maps)
  {map : KeyMap} (hmap : map ∈ maps) {key : Bytes} (apart : Apart key map)

include hinj hmap

include apart in
theorem placed_path_of_mem : placed map ((sha256 key).path height) = map[key]? := by
  have hkeys := Set.subset_union_left.trans (keyedInputs_subset_versionInputs hmap)
  exact placed_path (hinj.mono hkeys) apart

include h

theorem Holds.exists_update (value : Bytes) :
    ∃ next draft', update (keyedRoot map) key value draft = .ok (next, draft') := by
  have htree := Set.subset_union_right.trans (keyedInputs_subset_versionInputs hmap)
  have hdown := descend_eq hinj (h.treeInputs_none_subset (Set.Subset.refl _)) (sha256 key)
    (Nat.le_refl height) htree (h.readable map hmap) []
  exact exists_update_of_descend hdown value

include apart

/-- Reading a key gives what its map has, unless that hashes to 32 zero bytes. -/
theorem Holds.get_eq (hzero : ∀ value, map[key]? = some value → sha256 value ≠ Digest.zero) :
    get draft.get? (keyedRoot map) key = .ok map[key]? := by
  have htree := Set.subset_union_right.trans (keyedInputs_subset_versionInputs hmap)
  have hpath := placed_path_of_mem hinj hmap apart
  rw [← hpath]
  refine SparseMap.get_eq hinj (h.treeInputs_none_subset (Set.Subset.refl _)) htree
    (h.readable map hmap) key ?_
  intro value hvalue
  exact hzero value (hpath.symm.trans hvalue)

/-- The proof of a key shows what its map has. -/
theorem Holds.prove_eq : ∃ siblings, prove draft.get? (keyedRoot map) key = .ok siblings ∧
    siblings.length = height ∧ verify siblings (keyedRoot map) key map[key]? = true := by
  have htree := Set.subset_union_right.trans (keyedInputs_subset_versionInputs hmap)
  refine ⟨siblingsOf (sha256 key) height (placed map), ?_, length_siblingsOf _ _ _, ?_⟩
  · exact SparseMap.prove_eq hinj (h.treeInputs_none_subset (Set.Subset.refl _)) htree
      (h.readable map hmap) key
  · rw [← placed_path_of_mem hinj hmap apart]
    exact verify_siblingsOf key (placed map)

end Version

theorem Holds.settable (hinj : Set.InjOn sha256 (versionInputs maps))
    (h : Holds draft.get? roots maps) : Settable draft roots := by
  intro root hroot key value
  rw [h.roots_eq] at hroot
  obtain ⟨map, hmap, rfl⟩ := List.mem_map.mp hroot
  exact h.exists_update hinj hmap value

/-- Maps that are read in the same way are the same map. -/
theorem eq_of_get_eq {hashed : Set Bytes} (hinj : Set.InjOn sha256 hashed) {view : Snapshot} {root : Digest}
    {map map' : KeyMap} (hsub : keyedInputs map ⊆ hashed) (hsub' : keyedInputs map' ⊆ hashed)
    (hget : ∀ key, Apart key map → get view root key = .ok map[key]?)
    (hget' : ∀ key, Apart key map' → get view root key = .ok map'[key]?) : map = map' := by
  have hkey : ∀ key ∈ hashed, map[key]? = map'[key]? := by
    intro key hkey
    have hread := hget key (apart_of_injOn hinj hsub hkey)
    exact Except.ok.inj (hread.symm.trans (hget' key (apart_of_injOn hinj hsub' hkey)))
  apply Std.ExtTreeMap.ext_getElem?
  intro key
  by_cases hmem : key ∈ map
  · exact hkey key (hsub (Or.inl hmem))
  by_cases hmem' : key ∈ map'
  · exact hkey key (hsub' (Or.inl hmem'))
  · rw [Std.ExtTreeMap.getElem?_eq_none hmem, Std.ExtTreeMap.getElem?_eq_none hmem']

/-- On a store that holds the versions, they answer, if no value hashes to 32 zero bytes. -/
theorem Holds.answers (hinj : Set.InjOn sha256 (versionInputs maps))
    (h : Holds draft.get? roots maps) (hzero : ∀ map ∈ maps, ∀ key value : Bytes,
      map[key]? = some value → sha256 value ≠ Digest.zero) : Answers draft roots maps := by
  have hget : ∀ (i : Nat) (root : Digest) (map : KeyMap), roots[i]? = some root →
      maps[i]? = some map → ∀ key, Apart key map → get draft.get? root key = .ok map[key]? := by
    intro i root map hroot hfound key hapart
    have hmap := List.mem_of_getElem? hfound
    rw [h.root_eq hroot hfound]
    exact h.get_eq hinj hmap hapart (hzero map hmap key)
  refine ⟨?_, ?_, h.settable hinj, hget, ?_⟩
  · rw [h.roots_eq, List.length_map]
  · intro i j root hroot hroot'
    obtain ⟨map, hfound⟩ := h.exists_map hroot
    obtain ⟨map', hfound'⟩ := h.exists_map hroot'
    have hsub := keyedInputs_subset_versionInputs (List.mem_of_getElem? hfound)
    have hsub' := keyedInputs_subset_versionInputs (List.mem_of_getElem? hfound')
    rw [hfound, hfound']
    exact congrArg some (eq_of_get_eq hinj hsub hsub' (hget i root map hroot hfound)
      (hget j root map' hroot' hfound'))
  · intro i root map hroot hfound key hapart
    rw [h.root_eq hroot hfound]
    exact h.prove_eq hinj (List.mem_of_getElem? hfound) hapart

/-- **Every version stays readable and right.** In whatever state a run has left the store, every root
that was ever returned answers by the map that it stands for. The only ways out are two different
strings with one hash among those hashed for the versions, and a value that hashes to 32 zero bytes. -/
theorem versions_readable (h : Reaches draft roots maps) :
    Answers draft roots maps ∨ CollisionBetween (versionInputs maps) (versionInputs maps) ∨
      ∃ map ∈ maps, ∃ key value : Bytes, map[key]? = some value ∧ sha256 value = Digest.zero := by
  rcases injOn_or_collision (versionInputs maps) with hinj | hcol
  · by_cases hzero : ∃ map ∈ maps, ∃ key value : Bytes,
      map[key]? = some value ∧ sha256 value = Digest.zero
    · exact Or.inr (Or.inr hzero)
    · refine Or.inl ((holds_of_reaches hinj h (Set.Subset.refl _)).answers hinj ?_)
      intro map hmap key value hget heq
      exact hzero ⟨map, hmap, key, value, hget, heq⟩
  · exact Or.inr (Or.inl hcol)

/-- A key is set in the empty map, on a store in memory. -/
theorem versions_readable_one_key : ∃ (draft : Draft) (root : Digest) (maps : List KeyMap),
    maps = [∅, (∅ : KeyMap).insert [1] [2]] ∧ Reaches draft [emptyRoot, root] maps ∧
      (Answers draft [emptyRoot, root] maps ∨
        CollisionBetween (versionInputs maps) (versionInputs maps) ∨
        ∃ map ∈ maps, ∃ key value : Bytes, map[key]? = some value ∧ sha256 value = Digest.zero) := by
  obtain ⟨root, draft, hset⟩ := exists_update_empty ⟨Store.inMemory.contents, ∅⟩ [1] [2]
  have hreach := (Reaches.begun Store.inMemory).set 0 rfl rfl hset
  exact ⟨draft, root, _, rfl, hreach, versions_readable hreach⟩

/-- **A root depends on nothing but its map.** In two runs, on whatever stores, every root returned is
the one taken over the whole tree of its map, and any key can be set on top of it. So equal maps have
equal roots, in whatever order their keys were set and however often they were set again. The only
way out is a collision among the strings hashed in either run. -/
theorem roots_canonical (h : Reaches draft roots maps) (h' : Reaches draft' roots' maps') :
    (roots = maps.map keyedRoot ∧ Settable draft roots ∧ roots' = maps'.map keyedRoot ∧
      Settable draft' roots' ∧ ∀ i j : Nat, maps[i]? = maps'[j]? → roots[i]? = roots'[j]?) ∨
    CollisionBetween (versionInputs maps) (versionInputs maps) ∨
    CollisionBetween (versionInputs maps') (versionInputs maps') := by
  rcases injOn_or_collision (versionInputs maps) with hinj | hcol
  · rcases injOn_or_collision (versionInputs maps') with hinj' | hcol'
    · have hholds := holds_of_reaches hinj h (Set.Subset.refl _)
      have hholds' := holds_of_reaches hinj' h' (Set.Subset.refl _)
      refine Or.inl ⟨hholds.roots_eq, hholds.settable hinj, hholds'.roots_eq,
        hholds'.settable hinj', ?_⟩
      intro i j hsame
      rw [hholds.roots_eq, hholds'.roots_eq, List.getElem?_map, List.getElem?_map, hsame]
    · exact Or.inr (Or.inr hcol')
  · exact Or.inr (Or.inl hcol)

/-- One run sets a key in the empty map; the other has set a different key there before. -/
theorem roots_canonical_one_key :
    ∃ (draft draft' : Draft) (root other root' : Digest) (maps maps' : List KeyMap),
      maps = [∅, (∅ : KeyMap).insert [1] [2]] ∧
      maps' = [∅, (∅ : KeyMap).insert [3] [4], (∅ : KeyMap).insert [1] [2]] ∧
      Reaches draft [emptyRoot, root] maps ∧ Reaches draft' [emptyRoot, other, root'] maps' ∧
      (root' = root ∨ CollisionBetween (versionInputs maps) (versionInputs maps) ∨
        CollisionBetween (versionInputs maps') (versionInputs maps')) := by
  obtain ⟨root, draft, hset⟩ := exists_update_empty ⟨Store.inMemory.contents, ∅⟩ [1] [2]
  obtain ⟨other, between, hother⟩ := exists_update_empty ⟨Store.inMemory.contents, ∅⟩ [3] [4]
  obtain ⟨root', draft', hset'⟩ := exists_update_empty between [1] [2]
  have hreach := (Reaches.begun Store.inMemory).set 0 rfl rfl hset
  have hbetween := (Reaches.begun Store.inMemory).set 0 rfl rfl hother
  have hreach' := hbetween.set 0 rfl rfl hset'
  refine ⟨draft, draft', root, other, root', _, _, rfl, rfl, hreach, hreach', ?_⟩
  rcases roots_canonical hreach hreach' with ⟨-, -, -, -, hsame⟩ | hcol
  · exact Or.inl (Option.some.inj (hsame 1 2 rfl)).symm
  · exact Or.inr hcol

end Reading

end TransparencyLog.SparseMap
