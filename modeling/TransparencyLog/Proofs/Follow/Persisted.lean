import TransparencyLog.Proofs.Follow.Trust

/-!
# The stored head of a cache

A cache keeps the head that it trusts in a store, under the name of its log. Restoring a cache reads
it back and asks for its signature again; adopting a head stores it first, and a head that could not
be stored is not trusted either. Nothing else in the store is touched.

* `HeadCache.persisted`: the head stored for a log, if there is one;
* **`HeadCache.restore_eq_ok_iff`**: when restoring gives a cache;
* `HeadCache.adopt_of_clear`, `HeadCache.adopt_outcome`, **`HeadCache.refresh_outcome`**: an adoption and
  a refresh happen as a whole or not at all;
* `TrustedHead.NeverShrinks`: a head that is known gives way only to one that is not smaller.
-/

namespace TransparencyLog

/-! ## Sizes -/

/-- A head that is known stays known or gives way to one that is not smaller. -/
def TrustedHead.NeverShrinks (before after : Option TrustedHead) : Prop :=
  ∀ old, before = some old → ∃ new, after = some new ∧ old.head.treeSize ≤ new.head.treeSize

namespace TrustedHead

theorem NeverShrinks.refl (trusted : Option TrustedHead) : NeverShrinks trusted trusted := by
  intro old hold
  exact ⟨old, hold, UInt64.le_refl _⟩

theorem NeverShrinks.trans {first second third : Option TrustedHead}
    (h : NeverShrinks first second) (h' : NeverShrinks second third) : NeverShrinks first third := by
  intro old hold
  obtain ⟨mid, hmid, hle⟩ := h old hold
  obtain ⟨new, hnew, hle'⟩ := h' mid hmid
  exact ⟨new, hnew, UInt64.le_trans hle hle'⟩

end TrustedHead

namespace HeadCache

/-! ## Reading -/

/-- The head stored for a log, if there is one. -/
def persisted (logName : String) (store : Store) : Except LogError (Option TrustedHead) :=
  match stored logName store with
  | .ok bytes => (TrustedHead.decode bytes).map some
  | .error e => if e.isNotFound then .ok none else .error e

section Reading

variable {logName : String} {verifier : Signer} {store store' : Store} {cache : HeadCache}

theorem storedAt_inj {name name' : String} : storedAt name = storedAt name' ↔ name = name' := by
  simp [storedAt]

theorem stored_of_some {bytes : Bytes}
    (h : store.contents.snapshot (storedAt logName) = some bytes) :
    stored logName store = .ok bytes :=
  Snapshot.fetch_eq_ok_iff.mpr h

theorem stored_congr (h : store'.contents.snapshot (storedAt logName) =
    store.contents.snapshot (storedAt logName)) : stored logName store' = stored logName store :=
  Snapshot.fetch_congr h

theorem persisted_congr (h : stored logName store' = stored logName store) :
    persisted logName store' = persisted logName store := by
  unfold persisted
  rw [h]

theorem persisted_of_some {trusted : TrustedHead} (fits : trusted.Fits)
    (h : store.contents.snapshot (storedAt logName) = some trusted.encode) :
    persisted logName store = .ok (some trusted) := by
  unfold persisted
  rw [stored_of_some h]
  simp [TrustedHead.decode_encode fits, Except.map]

theorem restore_congr (h : stored logName store' = stored logName store) :
    restore logName verifier store' = restore logName verifier store := by
  unfold restore
  rw [h]

/-- **Restoring gives a cache** that trusts the stored head, if its log has signed it. -/
theorem restore_eq_ok_iff : restore logName verifier store = .ok cache ↔
    cache.logName = logName ∧ cache.verifier = verifier ∧
      persisted logName store = .ok cache.trusted ∧
      ∀ head, cache.head? = some head → head.verify verifier = true := by
  obtain ⟨name, key, trusted⟩ := cache
  unfold restore persisted head?
  cases hstored : stored logName store with
  | error e =>
    by_cases habsent : e.isNotFound = true
    · constructor
      · intro h
        simp only [if_pos habsent, Except.ok.injEq, HeadCache.mk.injEq] at h
        obtain ⟨rfl, rfl, rfl⟩ := h
        simp [habsent]
      · rintro ⟨rfl, rfl, hread, -⟩
        simp only [if_pos habsent, Except.ok.injEq] at hread ⊢
        rw [hread]
    · simp [habsent]
  | ok bytes =>
    cases hdecode : TrustedHead.decode bytes with
    | error e => simp [hdecode, Except.map]
    | ok found =>
      by_cases hverify : found.head.verify verifier = true
      · constructor
        · intro h
          simp only [hdecode, if_pos hverify, Except.ok.injEq, HeadCache.mk.injEq] at h
          obtain ⟨rfl, rfl, rfl⟩ := h
          simp [hdecode, hverify, Except.map]
        · rintro ⟨rfl, rfl, hread, -⟩
          simp only [hdecode, Except.map, Except.ok.injEq] at hread
          simp [hdecode, hverify, hread]
      · constructor
        · intro h
          simp [hdecode, hverify] at h
        · rintro ⟨rfl, rfl, hread, hsigned⟩
          simp only [hdecode, Except.map, Except.ok.injEq] at hread
          subst hread
          exact absurd (hsigned _ rfl) hverify

end Reading

/-! ## Adopting -/

/-- The transaction of an adoption writes the head and nothing else. -/
theorem exists_draft (logName : String) (store : Store) (trusted : TrustedHead) :
    ∃ draft, Write.put logName storedKey trusted.encode ⟨store.contents, ∅⟩ = .ok ((), draft) ∧
      draft.pending.isEmpty = false ∧ ∀ address, draft.merged[address]? =
        if address = storedAt logName then some trusted.encode
        else store.contents.snapshot address := by
  refine ⟨_, Write.put_apply _ _ _, Store.isEmpty_pending_set _ _ _ _, ?_⟩
  intro address
  rw [Draft.getElem?_merged, Draft.get?_set, Draft.get?_base]
  rfl

/-- If nothing is in the way of a commit, a head is stored and trusted, and nothing else in the store
changes. -/
theorem adopt_of_clear (cache : HeadCache) {store : Store} (clear : store.Clear)
    (trusted : TrustedHead) : ∃ store', store'.Clear ∧
      cache.adopt store trusted = (.ok (), { cache with trusted := some trusted }, store') ∧
      ∀ address, store'.contents.snapshot address =
        if address = storedAt cache.logName then some trusted.encode
        else store.contents.snapshot address := by
  obtain ⟨draft, hrun, hwritten, hview⟩ := exists_draft cache.logName store trusted
  unfold adopt
  rw [Store.update_of_clear clear hrun hwritten]
  exact ⟨_, Store.clear_written _ _, rfl, hview⟩

/-- **An adoption** stores the head and trusts it, and nothing else in the store changes; or it
changes neither the trusted head nor the contents. -/
theorem adopt_outcome (cache : HeadCache) (store : Store) (trusted : TrustedHead) :
    (∃ store', cache.adopt store trusted = (.ok (), { cache with trusted := some trusted }, store') ∧
      ∀ address, store'.contents.snapshot address =
        if address = storedAt cache.logName then some trusted.encode
        else store.contents.snapshot address) ∨
    ∃ error store', cache.adopt store trusted = (.error error, cache, store') ∧
      store.Alike store' := by
  by_cases hclear : store.Clear
  · obtain ⟨store', -, hadopt, hview⟩ := cache.adopt_of_clear hclear trusted
    exact Or.inl ⟨store', hadopt, hview⟩
  · obtain ⟨draft, hrun, hwritten, -⟩ := exists_draft cache.logName store trusted
    obtain ⟨store', hupdate, halike⟩ := Store.update_of_not_clear hclear hrun hwritten
    unfold adopt
    rw [hupdate]
    exact Or.inr ⟨_, store', rfl, halike⟩

/-! ## Refreshing -/

section Refreshing

variable {cache cache' : HeadCache} {store store' : Store} {fetched : Except ApiError TreeHead}
  {prove : UInt64 → UInt64 → Except ApiError (List Digest)} {now : String}

/-- A head that passes the checks is already trusted, or signed by the log. -/
theorem signed_of_check {candidate : TreeHead} {result : RefreshOutcome}
    (h : cache.check fetched prove = .ok (candidate, result)) :
    cache.head? = some candidate ∨ candidate.verify cache.verifier = true := by
  obtain ⟨-, ⟨-, hsigned, -⟩ | ⟨hsame, -⟩ | ⟨_, _, -, -, hsigned, -⟩⟩ := check_cases h
  · exact Or.inr hsigned
  · exact Or.inl hsame
  · exact Or.inr hsigned

/-- A head that passes the checks beside a trusted one is the same, or larger, signed and linked. -/
theorem check_beside {old candidate : TreeHead} {result : RefreshOutcome}
    (hold : cache.head? = some old) (h : cache.check fetched prove = .ok (candidate, result)) :
    candidate = old ∨
      (old.treeSize < candidate.treeSize ∧ candidate.verify cache.verifier = true ∧
        ∃ proof, prove old.treeSize candidate.treeSize = .ok proof ∧
          Tree.verifyConsistency old.logRoot candidate.logRoot old.treeSize.toNat
            candidate.treeSize.toNat proof = true) := by
  obtain ⟨-, ⟨hnone, -⟩ | ⟨hsame, -⟩ | ⟨before, proof, hbefore, hlt, hsigned, hproof, hlink, -⟩⟩ :=
    check_cases h
  · simp [hnone] at hold
  · exact Or.inl (Option.some.inj (hsame.symm.trans hold))
  · obtain rfl := Option.some.inj (hold.symm.trans hbefore)
    exact Or.inr ⟨hlt, hsigned, proof, hproof, hlink⟩

/-- **A refresh** stores and trusts a head that has passed the checks, or fails and changes neither
the trusted head nor the contents. -/
theorem refresh_outcome {outcome : Except CacheError RefreshOutcome}
    (h : cache.refresh store fetched prove now = (outcome, cache', store')) :
    (∃ candidate result, outcome = .ok result ∧
      cache.check fetched prove = .ok (candidate, result) ∧
      cache' = { cache with trusted := some ⟨candidate, now⟩ } ∧
      ∀ address, store'.contents.snapshot address =
        if address = storedAt cache.logName then some (TrustedHead.encode ⟨candidate, now⟩)
        else store.contents.snapshot address) ∨
    ∃ error, outcome = .error error ∧ cache' = cache ∧ store.Alike store' := by
  unfold refresh at h
  cases hcheck : cache.check fetched prove with
  | error e =>
    simp only [hcheck, Prod.mk.injEq] at h
    obtain ⟨rfl, rfl, rfl⟩ := h
    exact Or.inr ⟨e, rfl, rfl, Store.Alike.refl _⟩
  | ok checked =>
    obtain ⟨candidate, result⟩ := checked
    simp only [hcheck] at h
    rcases adopt_outcome cache store ⟨candidate, now⟩ with
      ⟨after, hadopt, hview⟩ | ⟨e, after, hadopt, halike⟩
    · simp only [hadopt, Prod.mk.injEq] at h
      obtain ⟨rfl, rfl, rfl⟩ := h
      exact Or.inl ⟨candidate, result, rfl, rfl, rfl, hview⟩
    · simp only [hadopt, Prod.mk.injEq] at h
      obtain ⟨rfl, rfl, rfl⟩ := h
      exact Or.inr ⟨e, rfl, rfl, halike⟩

end Refreshing

end HeadCache

end TransparencyLog
