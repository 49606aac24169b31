import TransparencyLog.Proofs.SparseMap.Binding
import TransparencyLog.Proofs.SparseMap.Stored
import TransparencyLog.Store.Basic

/-!
# Whatever is read has its hash

Anyone may ask for any root: one that was never a root, a branch somewhere inside a tree, a leaf. The
way down reads the store all the same, and it does so from a node to the two that its hash was taken
over. So the way back up leads to the root that was asked for, whatever has been stored meanwhile.
That needs no word about collisions: an entry stands under the hash of its own bytes, even where it has
taken the place of another one.

* `SparseMap.Addressed`: every entry of a map stands under its hash; writing keeps it so;
* `SparseMap.update_keeps`: what every entry written keeps, setting a key keeps;
* `SparseMap.update_ignores`: it does not depend on what stands elsewhere;
* `SparseMap.Updated`: what a store of maps can become, whatever roots keys are set on;
* **`SparseMap.Addressed.climb_of_descend`**: the way back up;
* **`SparseMap.Addressed.verify_of_lookup`**: a value and a proof that are read belong together;
* `SparseMap.get_ne_invalidProof`, `SparseMap.prove_ne_invalidProof`: reading fails for other reasons.
-/

namespace TransparencyLog.SparseMap

/-! ## Entries under their hashes -/

/-- What stands in the buckets of a map is an entry under the hash of its input. -/
def Addressed (view : Snapshot) : Prop :=
  ∀ address bytes, ¬ Outside address → view address = some bytes →
    ∃ entry : Entry, entry.address = address ∧ entry.content = bytes

section Keeping

variable {view view' : Snapshot}

theorem Addressed.congr (h : Addressed view)
    (same : ∀ address, ¬ Outside address → view' address = view address) : Addressed view' := by
  intro address bytes hinside hget
  exact h address bytes hinside ((same address hinside).symm.trans hget)

theorem addressed_of_none (h : ∀ address, ¬ Outside address → view address = none) :
    Addressed view := by
  intro address bytes hinside hget
  rw [h address hinside] at hget
  cases hget

/-- Writing an entry leaves every entry under its hash, also where it takes the place of another. -/
theorem Addressed.write {draft : Draft} (h : Addressed draft.get?) (entry : Entry) :
    Addressed (entry.write draft).get? := by
  intro address bytes hinside hget
  rw [Entry.write, Draft.get?_set] at hget
  by_cases heq : address = entry.address
  · exact ⟨entry, heq.symm, Option.some.inj ((if_pos heq).symm.trans hget)⟩
  · exact h address bytes hinside ((if_neg heq).symm.trans hget)

theorem Addressed.set_outside {draft : Draft} (h : Addressed draft.get?) {bucket : String}
    {key : Bytes} (outside : Outside ⟨bucket, key⟩) (bytes : Bytes) :
    Addressed (draft.set bucket key bytes).get? := by
  refine h.congr fun address hinside => ?_
  rw [Draft.get?_set]
  refine if_neg ?_
  rintro rfl
  exact hinside outside

end Keeping

/-! ## Setting keys -/

section Setting

variable {P : Snapshot → Prop}
  (keeps : ∀ (entry : Entry) (draft : Draft), P draft.get? → P (entry.write draft).get?)

include keeps

theorem rebuild_keeps (key : Digest) (h : Nat) (hash : Digest) (siblings : List Digest) :
    (rebuild key h hash siblings).Keeps P := by
  induction siblings generalizing h hash with
  | nil => exact Write.keeps_pure hash
  | cons sibling siblings ih =>
    intro draft next draft' hrun hbefore
    rw [rebuild_cons] at hrun
    refine ih _ _ _ next draft' hrun ?_
    split
    · exact keeps _ draft hbefore
    · exact hbefore

/-- **What every entry written keeps**, setting a key keeps, on top of whatever root. -/
theorem update_keeps (root : Digest) (key value : Bytes) : (update root key value).Keeps P := by
  refine (Write.keeps_read _).bind fun found => ?_
  have hleaf : (Write.put leafBucket (leafHash (sha256 value).bytes).bytes
      (sha256 value).bytes).Keeps P := Write.keeps_put (keeps (Entry.leaf (sha256 value)))
  have hvalue : (Write.put valueBucket (sha256 value).bytes value).Keeps P :=
    Write.keeps_put (keeps (Entry.value value))
  exact hleaf.bind fun _ => hvalue.bind fun _ => rebuild_keeps keeps _ _ _ _

end Setting

section Ignoring

variable {outside : Address} (elsewhere : Outside outside)

include elsewhere

theorem children_agree {view view' : Snapshot} (same : Snapshot.AgreeOff outside view view') (h : Nat)
    (hash : Digest) : children view' h hash = children view h hash := by
  have hfetch : view'.fetch nodeBucket hash.bytes = view.fetch nodeBucket hash.bytes := by
    refine Snapshot.fetch_congr (same _ fun heq => ?_)
    exact elsewhere (.node hash hash) (congrArg Address.bucket heq.symm)
  rw [children, children, storedChildren, storedChildren, hfetch]

theorem descend_agree {view view' : Snapshot} (same : Snapshot.AgreeOff outside view view')
    (key : Digest) (h : Nat) (hash : Digest) (passed : List Digest) :
    descend view' key h hash passed = descend view key h hash passed := by
  induction h generalizing hash passed with
  | zero => rfl
  | succ h ih =>
    rw [descend, descend, children_agree elsewhere same]
    simp only [ih]

omit elsewhere in
theorem rebuild_ignores (key : Digest) (h : Nat) (hash : Digest) (siblings : List Digest) :
    (rebuild key h hash siblings).Ignores outside := by
  induction siblings generalizing h hash with
  | nil => exact Write.ignores_pure hash
  | cons sibling siblings ih =>
    intro draft draft' same root next hrun
    rw [rebuild_cons] at hrun ⊢
    refine ih _ _ _ _ ?_ root next hrun
    split
    · exact same.set _ _ _
    · exact same

/-- Setting a key does not depend on what stands outside the map. -/
theorem update_ignores (root : Digest) (key value : Bytes) :
    (update root key value).Ignores outside := by
  have hread : (Write.read fun view => descend view (sha256 key) height root []).Ignores outside :=
    Write.ignores_read fun view view' same => descend_agree elsewhere same _ _ _ _
  refine hread.bind fun found => ?_
  exact (Write.ignores_put _ _ _).bind fun _ =>
    (Write.ignores_put _ _ _).bind fun _ => rebuild_ignores _ _ _ _

end Ignoring

/-- What a store of maps can become, seen by the transaction that is open on it. It starts without
entries of maps. Keys are set on top of anything that a key can be set on; the transaction is committed
and the next one begins. In between anything may happen that leaves the buckets of maps alone. -/
inductive Updated : Draft → Prop
  | begun {store : Store}
    (empty : ∀ address, ¬ Outside address → store.contents.snapshot address = none) :
    Updated ⟨store.contents, ∅⟩
  | set {draft draft' : Draft} (before : Updated draft) {root : Digest} {key value : Bytes}
    {next : Digest} (step : update root key value draft = .ok (next, draft')) : Updated draft'
  | committed {draft : Draft} (before : Updated draft) : Updated ⟨draft.merged, ∅⟩
  | elsewhere {draft draft' : Draft} (before : Updated draft)
    (same : ∀ address, ¬ Outside address → draft'.get? address = draft.get? address) :
    Updated draft'

/-- **Along a run** every entry stays under its hash. -/
theorem Updated.addressed {draft : Draft} (h : Updated draft) : Addressed draft.get? := by
  induction h with
  | begun empty =>
    rw [Draft.get?_base]
    exact addressed_of_none empty
  | set before step ih =>
    exact update_keeps (fun entry _ hbefore => hbefore.write entry) _ _ _ _ _ _ step ih
  | committed before ih =>
    refine ih.congr fun address _ => ?_
    rw [Draft.get?_base]
    exact Draft.getElem?_merged _ address
  | elsewhere before same ih => exact ih.congr same

/-! ## Reading entries -/

section Reading

variable {view : Snapshot} (h : Addressed view)

include h

/-- What is fetched from a bucket is an entry of the bucket. -/
theorem Addressed.exists_entry (kind : Entry) {key bytes : Bytes}
    (hfetch : view.fetch kind.bucket key = .ok bytes) :
    ∃ entry : Entry, entry.bucket = kind.bucket ∧ (sha256 entry.input).bytes = key ∧
      entry.content = bytes := by
  have hget := Snapshot.fetch_eq_ok_iff.mp hfetch
  obtain ⟨entry, haddress, hcontent⟩ := h ⟨kind.bucket, key⟩ bytes (fun hout => hout kind rfl) hget
  obtain ⟨hbucket, hkey⟩ := Address.mk.inj haddress
  exact ⟨entry, hbucket, hkey, hcontent⟩

/-- A stored node stands under the hash of its children. -/
theorem Addressed.branchHash_of_fetch {hash : Digest} {bytes : Bytes}
    (hfetch : view.fetch nodeBucket hash.bytes = .ok bytes) :
    ∃ left right : Digest, bytes = left.bytes ++ right.bytes ∧ branchHash left right = hash := by
  have hleaf : leafBucket ≠ nodeBucket := by decide
  have hvalue : valueBucket ≠ nodeBucket := by decide
  obtain ⟨entry, hbucket, hkey, rfl⟩ := h.exists_entry (.node hash hash) hfetch
  cases entry with
  | node left right => exact ⟨left, right, rfl, Digest.ext hkey⟩
  | leaf _ => exact absurd hbucket hleaf
  | value _ => exact absurd hbucket hvalue

/-- A stored leaf stands under the hash of its value hash. -/
theorem Addressed.leafHash_of_fetch {leaf : Digest} {bytes : Bytes}
    (hfetch : view.fetch leafBucket leaf.bytes = .ok bytes) : leafHash bytes = leaf := by
  have hnode : nodeBucket ≠ leafBucket := by decide
  have hvalue : valueBucket ≠ leafBucket := by decide
  obtain ⟨entry, hbucket, hkey, rfl⟩ := h.exists_entry (.leaf leaf) hfetch
  cases entry with
  | node _ _ => exact absurd hbucket hnode
  | leaf _ => exact Digest.ext hkey
  | value _ => exact absurd hbucket hvalue

/-- A stored value stands under its hash. -/
theorem Addressed.sha256_of_fetch {hash value : Bytes}
    (hfetch : view.fetch valueBucket hash = .ok value) : (sha256 value).bytes = hash := by
  have hnode : nodeBucket ≠ valueBucket := by decide
  have hleaf : leafBucket ≠ valueBucket := by decide
  obtain ⟨entry, hbucket, hkey, rfl⟩ := h.exists_entry (.value value) hfetch
  cases entry with
  | node _ _ => exact absurd hbucket hnode
  | leaf _ => exact absurd hbucket hleaf
  | value _ => exact hkey

/-! ## Lookups -/

/-- A node is the branch over its children, at whatever height it is met. -/
theorem Addressed.branchHash_of_children {level : Nat} (hlevel : level < height)
    {hash left right : Digest} (hchildren : children view level hash = .ok (left, right)) :
    branchHash left right = hash := by
  rw [children] at hchildren
  by_cases hdefault : hash = defaultHash (level + 1)
  · rw [if_pos hdefault] at hchildren
    obtain ⟨rfl, rfl⟩ := Prod.mk.inj (Except.ok.inj hchildren)
    rw [hdefault, defaultHash_succ hlevel]
  · rw [if_neg hdefault, storedChildren] at hchildren
    cases hfetch : view.fetch nodeBucket hash.bytes with
    | error e =>
      rw [hfetch] at hchildren
      cases hchildren
    | ok bytes =>
      obtain ⟨left', right', rfl, hhash⟩ := h.branchHash_of_fetch hfetch
      rw [hfetch] at hchildren
      simp only [bind, Except.bind, splitPair?_append] at hchildren
      obtain ⟨rfl, rfl⟩ := Prod.mk.inj (Except.ok.inj hchildren)
      exact hhash

/-- **The way back up.** The siblings that the way down has passed lead from where it ended to where it
began. -/
theorem Addressed.climb_of_descend {key : Digest} {level : Nat} (hlevel : level ≤ height)
    {hash leaf : Digest} {passed siblings : List Digest}
    (hdown : descend view key level hash passed = .ok (leaf, siblings)) :
    ∃ own, siblings = own ++ passed ∧ own.length = level ∧ climb key 0 leaf own = hash := by
  induction level generalizing hash passed with
  | zero =>
    obtain ⟨rfl, rfl⟩ := Prod.mk.inj (Except.ok.inj hdown)
    exact ⟨[], rfl, rfl, rfl⟩
  | succ level ih =>
    rw [descend] at hdown
    cases hchildren : children view level hash with
    | error e =>
      rw [hchildren] at hdown
      cases hdown
    | ok pair =>
      obtain ⟨left, right⟩ := pair
      have hhash := h.branchHash_of_children hlevel hchildren
      rw [hchildren] at hdown
      simp only [bind, Except.bind] at hdown
      -- One step down, to the side of the key's bit, is one step up.
      have hstep : ∀ {side sibling : Digest}, ordered key level side sibling = (left, right) →
          descend view key level side (sibling :: passed) = .ok (leaf, siblings) →
          ∃ own, siblings = own ++ passed ∧ own.length = level + 1 ∧ climb key 0 leaf own = hash := by
        intro side sibling hordered hrest
        obtain ⟨own, rfl, hlen, hclimb⟩ := ih (Nat.le_of_succ_le hlevel) hrest
        refine ⟨own ++ [sibling], ?_, ?_, ?_⟩
        · rw [List.append_assoc, List.singleton_append]
        · rw [List.length_append, hlen, List.length_singleton]
        · rw [climb_concat, hclimb, hlen, Nat.zero_add, climb_cons, hordered]
          exact hhash
      by_cases hbit : key.bit level = true
      · rw [if_pos hbit] at hdown
        exact hstep (if_pos hbit) hdown
      · rw [if_neg hbit] at hdown
        exact hstep (if_neg hbit) hdown

/-- The value that is read has the leaf at which the way down ends. -/
theorem Addressed.leafOf_of_get {root leaf : Digest} {key : Bytes} {siblings : List Digest}
    (hdown : descend view (sha256 key) height root [] = .ok (leaf, siblings)) {value : Option Bytes}
    (hget : get view root key = .ok value) : leafOf value = leaf := by
  rw [get_of_descend hdown] at hget
  by_cases hdefault : leaf = defaultHash 0
  · rw [if_pos hdefault] at hget
    obtain rfl := Except.ok.inj hget
    rw [hdefault, defaultHash_zero, leafOf_none]
  · rw [if_neg hdefault] at hget
    cases hfetch : view.fetch leafBucket leaf.bytes with
    | error e =>
      rw [hfetch] at hget
      cases hget
    | ok valueHash =>
      rw [hfetch] at hget
      simp only [bind, Except.bind] at hget
      cases hfetch' : view.fetch valueBucket valueHash with
      | error e =>
        rw [hfetch'] at hget
        cases hget
      | ok found =>
        rw [hfetch'] at hget
        obtain rfl := Except.ok.inj hget
        rw [leafOf, h.sha256_of_fetch hfetch']
        exact h.leafHash_of_fetch hfetch

/-- **A value and a proof that are read** for one key under one root belong together, whatever the root
is. -/
theorem Addressed.verify_of_lookup {root : Digest} {key : Bytes} {value : Option Bytes}
    {siblings : List Digest} (hget : get view root key = .ok value)
    (hprove : prove view root key = .ok siblings) : verify siblings root key value = true := by
  rw [prove] at hprove
  cases hdown : descend view (sha256 key) height root [] with
  | error e =>
    rw [hdown] at hprove
    cases hprove
  | ok found =>
    obtain ⟨leaf, passed⟩ := found
    rw [hdown] at hprove
    obtain rfl : passed = siblings := Except.ok.inj hprove
    obtain ⟨own, hown, hlen, hclimb⟩ := h.climb_of_descend (Nat.le_refl height) hdown
    rw [List.append_nil] at hown
    subst hown
    rw [verify_eq_true_iff, h.leafOf_of_get hdown hget]
    exact ⟨hlen, hclimb⟩

end Reading

/-! ## Failures -/

section Failures

theorem bind_ne_error {α β : Type} {error : LogError} {first : Except LogError α}
    {rest : α → Except LogError β} (h : first ≠ .error error) (h' : ∀ a, rest a ≠ .error error) :
    (first >>= rest) ≠ .error error := by
  cases first with
  | error e => exact fun heq => h (congrArg Except.error (Except.error.inj heq))
  | ok a => exact h' a

variable (view : Snapshot)

theorem fetch_ne_invalidProof (bucket : String) (key : Bytes) :
    view.fetch bucket key ≠ .error .invalidProof := by
  rw [Snapshot.fetch]
  cases view ⟨bucket, key⟩ <;> simp

theorem children_ne_invalidProof (level : Nat) (hash : Digest) :
    children view level hash ≠ .error .invalidProof := by
  rw [children]
  split
  · simp
  · refine bind_ne_error (fetch_ne_invalidProof view _ _) fun bytes => ?_
    cases splitPair? bytes with
    | none => exact fun heq => by cases heq
    | some pair => exact fun heq => by cases heq

theorem descend_ne_invalidProof (key : Digest) (level : Nat) (hash : Digest)
    (passed : List Digest) : descend view key level hash passed ≠ .error .invalidProof := by
  induction level generalizing hash passed with
  | zero => exact fun heq => by cases heq
  | succ level ih =>
    rw [descend]
    refine bind_ne_error (children_ne_invalidProof view _ _) fun pair => ?_
    by_cases hbit : key.bit level = true
    · simp only [if_pos hbit]
      exact ih _ _
    · simp only [if_neg hbit]
      exact ih _ _

theorem get_ne_invalidProof (root : Digest) (key : Bytes) :
    get view root key ≠ .error .invalidProof := by
  refine bind_ne_error (descend_ne_invalidProof view _ _ _ _) fun found => ?_
  by_cases hdefault : found.1 = defaultHash 0
  · simp only [if_pos hdefault]
    exact fun heq => by cases heq
  · simp only [if_neg hdefault]
    refine bind_ne_error (fetch_ne_invalidProof view _ _) fun valueHash => ?_
    exact bind_ne_error (fetch_ne_invalidProof view _ _) fun value heq => by cases heq

theorem prove_ne_invalidProof (root : Digest) (key : Bytes) :
    prove view root key ≠ .error .invalidProof :=
  bind_ne_error (descend_ne_invalidProof view _ _ _ _) fun _ heq => by cases heq

end Failures

end TransparencyLog.SparseMap
