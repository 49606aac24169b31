import Mathlib.Data.Set.Function
import Std.Data.ExtTreeMap.Lemmas
import TransparencyLog.Proofs.SparseMap.Tree

/-!
# The tree of a finite map

A finite map puts its values at the paths of its keys. As long as its keys have different hashes, the
tree has a value at a path exactly if the map has one under a key with that path, and setting a key in
the map sets the value at the key's path.

* `SparseMap.KeyMap`, `SparseMap.placed`, `SparseMap.keyedRoot`: the map, its tree and the tree's root;
* `SparseMap.keyedInputs`: what is hashed for it;
* **`SparseMap.placed_eq_some_iff`**, `SparseMap.placed_path`: the values of the tree;
* **`SparseMap.placed_insert`**: setting a key.
-/

namespace TransparencyLog.SparseMap

/-- A finite map from keys to values. -/
abbrev KeyMap := Std.ExtTreeMap Bytes Bytes compare

/-- The values of a map, each at the path of its key's hash. -/
def placed (map : KeyMap) : List Bool → Option Bytes := assigned map.toList

/-- The root of a map, taken over the whole tree. -/
def keyedRoot (map : KeyMap) : Digest := treeRoot height (placed map)

/-- What is hashed for a map: its keys, and what its tree consists of. -/
def keyedInputs (map : KeyMap) : Set Bytes := {key | key ∈ map} ∪ treeInputs height (placed map)

/-- No other key of the map has the hash of this one. -/
def Apart (key : Bytes) (map : KeyMap) : Prop :=
  ∀ other ∈ map, sha256 other = sha256 key → other = key

/-! ## The empty map -/

theorem placed_empty : placed ∅ = fun _ => none := rfl

theorem keyedRoot_empty : keyedRoot ∅ = emptyRoot := treeRoot_none (Nat.le_refl height)

/-! ## Values -/

section Values

variable {map : KeyMap} {key value : Bytes}

theorem apart_of_injOn {hashed : Set Bytes} (hinj : Set.InjOn sha256 hashed)
    (hsub : keyedInputs map ⊆ hashed) (hkey : key ∈ hashed) : Apart key map := by
  intro other hother heq
  exact hinj (hsub (Or.inl hother)) hkey heq

theorem mem_of_getElem? (hget : map[key]? = some value) : key ∈ map :=
  Std.ExtTreeMap.mem_iff_isSome_getElem?.mpr (by rw [hget, Option.isSome_some])

theorem exists_of_placed {path : List Bool} (h : placed map path = some value) :
    ∃ key, map[key]? = some value ∧ (sha256 key).path height = path := by
  obtain ⟨pair, hfind, rfl⟩ := Option.map_eq_some_iff.mp h
  have hpath := List.find?_some hfind
  exact ⟨pair.1, Std.ExtTreeMap.mem_toList_iff_getElem?_eq_some.mp (List.mem_of_find?_eq_some hfind),
    of_decide_eq_true hpath⟩

/-- **The tree of a map** has a value at a path if the map has it under a key with that path. -/
theorem placed_eq_some_iff (hinj : Set.InjOn sha256 {key | key ∈ map}) {path : List Bool} :
    placed map path = some value ↔
      ∃ key, map[key]? = some value ∧ (sha256 key).path height = path := by
  refine ⟨exists_of_placed, ?_⟩
  rintro ⟨key, hget, rfl⟩
  cases hplaced : placed map ((sha256 key).path height) with
  | none =>
    have hmem := Std.ExtTreeMap.mem_toList_iff_getElem?_eq_some.mpr hget
    exact absurd rfl (assigned_eq_none_iff.mp hplaced (key, value) hmem)
  | some found =>
    obtain ⟨other, hother, hpath⟩ := exists_of_placed hplaced
    obtain rfl := hinj (mem_of_getElem? hother) (mem_of_getElem? hget)
      (Digest.path_injective hpath)
    rw [← hother, hget]

theorem placed_path (hinj : Set.InjOn sha256 {key | key ∈ map}) (apart : Apart key map) :
    placed map ((sha256 key).path height) = map[key]? := by
  ext value
  rw [placed_eq_some_iff hinj]
  constructor
  · rintro ⟨other, hget, hpath⟩
    rw [← apart other (mem_of_getElem? hget) (Digest.path_injective hpath)]
    exact hget
  · intro hget
    exact ⟨key, hget, rfl⟩

/-- **Setting a key** sets the value at its path. -/
theorem placed_insert (hinj : Set.InjOn sha256 {other | other ∈ map.insert key value}) :
    placed (map.insert key value) =
      Function.update (placed map) ((sha256 key).path height) (some value) := by
  have hsub : Set.InjOn sha256 {other | other ∈ map} := by
    refine hinj.mono ?_
    intro other hother
    exact Std.ExtTreeMap.mem_insert.mpr (Or.inr hother)
  funext path
  by_cases hpath : path = (sha256 key).path height
  · subst hpath
    rw [Function.update_self, placed_eq_some_iff hinj]
    exact ⟨key, Std.ExtTreeMap.getElem?_insert_self, rfl⟩
  · rw [Function.update_of_ne hpath]
    ext found
    rw [placed_eq_some_iff hinj, placed_eq_some_iff hsub]
    apply exists_congr
    intro other
    refine and_congr_left ?_
    rintro rfl
    have hne : compare key other ≠ .eq := by
      intro heq
      rw [Std.LawfulEqCmp.eq_of_compare heq] at hpath
      exact hpath rfl
    rw [Std.ExtTreeMap.getElem?_insert, if_neg hne]

end Values

end TransparencyLog.SparseMap
