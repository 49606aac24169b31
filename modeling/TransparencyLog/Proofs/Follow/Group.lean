import TransparencyLog.Proofs.Follow.Persisted

/-!
# Caches that share a store

A follower of many logs has a cache for each of them, and all of them keep their heads in one store.
The logs may answer whatever they like, a head may fail to be stored, and caches are opened again at
any time, on the store at hand or on what another process reads from its file. Each cache stays what
would be restored for it: it trusts the stored head, which its log has signed. So no refresh reaches
beyond its own log, and sizes only grow.

* `CacheGroup`, `CacheGroup.Run`: caches of different logs on one store, and their runs;
* `HeadCache.Refreshed`, **`HeadCache.refreshed`**: what one refresh does;
* `CacheGroup.InStep`: every cache is what would be restored for it; one lemma for each kind of step
  and **`CacheGroup.run_inStep`** for whole runs;
* **`CacheGroup.run_keeps_trust`**.
-/

namespace TransparencyLog

/-! ## Runs -/

/-- Caches that keep their heads in one store. -/
structure CacheGroup where
  caches : List HeadCache
  store : Store

namespace CacheGroup

def logNames (group : CacheGroup) : List String := group.caches.map HeadCache.logName

/-- What a group of caches can become. A cache for another log is opened; a refresh of one cache is
completed, whatever its log answers; one cache is opened again; another process reads the store from
its file and opens all caches again. In between anything may happen to the store that leaves the
stored heads alone: others write to it, and its files get in the way of a commit. The lengths in what
is stored fit their 64 bits, and a refresh is dated by a time. -/
inductive Run (start : CacheGroup) : CacheGroup → Prop
  | none : Run start start
  | opened {group : CacheGroup} (before : Run start group) {logName : String} {verifier : Signer}
    {cache : HeadCache} (new : logName ∉ group.logNames)
    (step : HeadCache.restore logName verifier group.store = .ok cache) :
    Run start ⟨group.caches ++ [cache], group.store⟩
  | refreshed {group : CacheGroup} (before : Run start group) {index : Nat}
    {cache cache' : HeadCache} (found : group.caches[index]? = some cache)
    {fetched : Except ApiError TreeHead} {now : String}
    (fits : ∀ head, fetched = .ok head → TrustedHead.Fits ⟨head, now⟩)
    {prove : UInt64 → UInt64 → Except ApiError (List Digest)}
    {outcome : Except CacheError RefreshOutcome} {store : Store}
    (step : cache.refresh group.store fetched prove now = (outcome, cache', store)) :
    Run start ⟨group.caches.set index cache', store⟩
  | reopened {group : CacheGroup} (before : Run start group) {index : Nat}
    {cache cache' : HeadCache} (found : group.caches[index]? = some cache)
    (step : HeadCache.restore cache.logName cache.verifier group.store = .ok cache') :
    Run start ⟨group.caches.set index cache', group.store⟩
  | takenOver {group : CacheGroup} (before : Run start group) (kept : group.store.Kept)
    (fits : group.store.contents.Fits) {store : Store} (reread : group.store.reread = .ok store)
    {caches : List HeadCache} (step : group.caches.mapM
      (fun cache => HeadCache.restore cache.logName cache.verifier store) = .ok caches) :
    Run start ⟨caches, store⟩
  | elsewhere {group : CacheGroup} (before : Run start group) {store : Store}
    (same : ∀ cache ∈ group.caches,
      HeadCache.stored cache.logName store = HeadCache.stored cache.logName group.store) :
    Run start ⟨group.caches, store⟩

end CacheGroup

/-! ## One refresh -/

namespace HeadCache

/-- What a refresh does to a cache and to the store. If it fails, the trusted and the stored head
stay. A head of the same size is the same head; a larger one is what the log has answered, with its
signature and a proof that it continues the old one. Heads of other logs are left alone. -/
structure Refreshed (cache : HeadCache) (store : Store) (fetched : Except ApiError TreeHead)
    (prove : UInt64 → UInt64 → Except ApiError (List Digest))
    (outcome : Except CacheError RefreshOutcome) (cache' : HeadCache) (store' : Store) : Prop where
  logName_eq : cache'.logName = cache.logName
  verifier_eq : cache'.verifier = cache.verifier
  failed : ∀ error, outcome = .error error →
    cache' = cache ∧ stored cache.logName store' = stored cache.logName store
  neverShrinks : TrustedHead.NeverShrinks cache.trusted cache'.trusted
  same_size : ∀ old new, cache.head? = some old → cache'.head? = some new →
    new.treeSize = old.treeSize → new = old
  larger : ∀ old new, cache.head? = some old → cache'.head? = some new →
    old.treeSize < new.treeSize → fetched = .ok new ∧ new.verify cache.verifier = true ∧
      ∃ proof, prove old.treeSize new.treeSize = .ok proof ∧
        Tree.verifyConsistency old.logRoot new.logRoot old.treeSize.toNat new.treeSize.toNat proof =
          true
  others : ∀ name, name ≠ cache.logName → stored name store' = stored name store

section Step

variable {cache cache' : HeadCache} {store store' : Store} {fetched : Except ApiError TreeHead}
  {prove : UInt64 → UInt64 → Except ApiError (List Digest)} {now : String}
  {outcome : Except CacheError RefreshOutcome}

theorem refreshed_of_failed (error : CacheError) (halike : store.Alike store') :
    Refreshed cache store fetched prove (.error error) cache store' where
  logName_eq := rfl
  verifier_eq := rfl
  failed := by
    intro _ _
    exact ⟨rfl, stored_congr (by rw [halike.contents])⟩
  neverShrinks := TrustedHead.NeverShrinks.refl _
  same_size := by
    intro old new hold hnew _
    exact Option.some.inj (hnew.symm.trans hold)
  larger := by
    intro old new hold hnew hlt
    rw [Option.some.inj (hnew.symm.trans hold)] at hlt
    exact absurd hlt (UInt64.lt_irrefl _)
  others := by
    intro name _
    exact stored_congr (by rw [halike.contents])

theorem refreshed_of_adopted {candidate : TreeHead} {result : RefreshOutcome}
    (hcheck : cache.check fetched prove = .ok (candidate, result))
    (hview : ∀ address, store'.contents.snapshot address =
      if address = storedAt cache.logName then some (TrustedHead.encode ⟨candidate, now⟩)
      else store.contents.snapshot address) :
    Refreshed cache store fetched prove (.ok result)
      { cache with trusted := some ⟨candidate, now⟩ } store' where
  logName_eq := rfl
  verifier_eq := rfl
  failed := by
    intro error h
    cases h
  neverShrinks := by
    intro old hold
    refine ⟨_, rfl, ?_⟩
    have hhead : cache.head? = some old.head := by simp [head?, hold]
    rcases check_beside hhead hcheck with rfl | ⟨hlt, -⟩
    · exact UInt64.le_refl _
    · exact UInt64.le_of_lt hlt
  same_size := by
    rintro old _ hold ⟨⟩ hsize
    rcases check_beside hold hcheck with rfl | ⟨hlt, -⟩
    · rfl
    · rw [show candidate.treeSize = old.treeSize from hsize] at hlt
      exact absurd hlt (UInt64.lt_irrefl _)
  larger := by
    rintro old _ hold ⟨⟩ hlt
    rcases check_beside hold hcheck with rfl | ⟨-, hsigned, hproof⟩
    · exact absurd hlt (UInt64.lt_irrefl _)
    · exact ⟨(check_cases hcheck).1, hsigned, hproof⟩
  others := by
    intro name hne
    refine stored_congr ?_
    rw [hview, if_neg]
    intro heq
    exact hne (storedAt_inj.mp heq)

/-- **Every refresh** does that, whatever the log answers. -/
theorem refreshed (h : cache.refresh store fetched prove now = (outcome, cache', store')) :
    Refreshed cache store fetched prove outcome cache' store' := by
  rcases refresh_outcome h with ⟨candidate, result, rfl, hcheck, rfl, hview⟩ | ⟨e, rfl, rfl, halike⟩
  · exact refreshed_of_adopted hcheck hview
  · exact refreshed_of_failed e halike

/-- A cache that is what would be restored for it is so again after a refresh. -/
theorem restore_refreshed
    (hrestore : restore cache.logName cache.verifier store = .ok cache)
    (fits : ∀ head, fetched = .ok head → TrustedHead.Fits ⟨head, now⟩)
    (h : cache.refresh store fetched prove now = (outcome, cache', store')) :
    restore cache'.logName cache'.verifier store' = .ok cache' := by
  rcases refresh_outcome h with ⟨candidate, result, rfl, hcheck, rfl, hview⟩ | ⟨e, rfl, rfl, halike⟩
  · obtain ⟨-, -, -, hverified⟩ := restore_eq_ok_iff.mp hrestore
    refine restore_eq_ok_iff.mpr ⟨rfl, rfl, ?_, ?_⟩
    · exact persisted_of_some (fits candidate (check_cases hcheck).1) (by rw [hview, if_pos rfl])
    · rintro _ ⟨⟩
      exact (signed_of_check hcheck).elim (hverified candidate) id
  · have hsame : stored cache'.logName store' = stored cache'.logName store :=
      stored_congr (by rw [halike.contents])
    rw [restore_congr hsame]
    exact hrestore

end Step

end HeadCache

namespace CacheGroup

/-! ## What holds between the steps -/

/-- The caches are of different logs, and each of them is what would be restored for it. -/
structure InStep (group : CacheGroup) : Prop where
  nodup : group.logNames.Nodup
  restored : ∀ cache ∈ group.caches,
    HeadCache.restore cache.logName cache.verifier group.store = .ok cache

/-- Every cache is still there, for the same log and key, and trusts no smaller head. -/
def Follows (before after : CacheGroup) : Prop :=
  ∀ (index : Nat) (cache : HeadCache), before.caches[index]? = some cache →
    ∃ cache', after.caches[index]? = some cache' ∧ cache'.logName = cache.logName ∧
      cache'.verifier = cache.verifier ∧ TrustedHead.NeverShrinks cache.trusted cache'.trusted

theorem Follows.of_caches_eq {before after : CacheGroup} (h : after.caches = before.caches) :
    before.Follows after := by
  intro index cache hcache
  exact ⟨cache, by rw [h, hcache], rfl, rfl, TrustedHead.NeverShrinks.refl _⟩

theorem Follows.trans {first second third : CacheGroup} (h : first.Follows second)
    (h' : second.Follows third) : first.Follows third := by
  intro index cache hcache
  obtain ⟨mid, hmid, hname, hkey, hgrown⟩ := h index cache hcache
  obtain ⟨last, hlast, hname', hkey', hgrown'⟩ := h' index mid hmid
  exact ⟨last, hlast, hname'.trans hname, hkey'.trans hkey, hgrown.trans hgrown'⟩

section Steps

variable {group : CacheGroup} {index : Nat} {cache cache' : HeadCache} {store : Store}

theorem inStep_empty (store : Store) : InStep ⟨[], store⟩ :=
  ⟨List.nodup_nil, fun _ hcache => absurd hcache List.not_mem_nil⟩

theorem InStep.restore_at (h : group.InStep) (found : group.caches[index]? = some cache) :
    HeadCache.restore cache.logName cache.verifier group.store = .ok cache :=
  h.restored cache (List.mem_of_getElem? found)

/-- Two caches of a group are for different logs. -/
theorem InStep.logName_ne (h : group.InStep) (found : group.caches[index]? = some cache)
    {other : Nat} (hne : other ≠ index) (found' : group.caches[other]? = some cache') :
    cache'.logName ≠ cache.logName := by
  intro heq
  have hlen : other < group.logNames.length := by
    rw [logNames, List.length_map]
    exact (List.getElem?_eq_some_iff.mp found').1
  refine hne ((List.getElem?_inj hlen h.nodup).mp ?_)
  simp [logNames, found, found', heq]

/-- A cache that was what would be restored for it is found unchanged when it is opened again. -/
theorem InStep.reopen_eq (h : group.InStep) (found : group.caches[index]? = some cache)
    (step : HeadCache.restore cache.logName cache.verifier group.store = .ok cache') :
    group.caches.set index cache' = group.caches := by
  obtain rfl := Except.ok.inj ((h.restore_at found).symm.trans step)
  obtain ⟨hlt, hget⟩ := List.getElem?_eq_some_iff.mp found
  rw [← hget, List.set_getElem_self]

theorem InStep.open (h : group.InStep) {logName : String} {verifier : Signer}
    (new : logName ∉ group.logNames)
    (step : HeadCache.restore logName verifier group.store = .ok cache) :
    InStep ⟨group.caches ++ [cache], group.store⟩ ∧
      group.Follows ⟨group.caches ++ [cache], group.store⟩ := by
  obtain ⟨rfl, rfl, -, -⟩ := HeadCache.restore_eq_ok_iff.mp step
  refine ⟨⟨?_, ?_⟩, ?_⟩
  · rw [logNames, List.map_append]
    refine List.nodup_append.mpr ⟨h.nodup, by simp, ?_⟩
    rintro name hname _ hother rfl
    obtain rfl := List.mem_singleton.mp hother
    exact new hname
  · intro other hother
    rcases List.mem_append.mp hother with hmem | hmem
    · exact h.restored other hmem
    · obtain rfl := List.mem_singleton.mp hmem
      exact step
  · intro index cache hcache
    refine ⟨cache, ?_, rfl, rfl, TrustedHead.NeverShrinks.refl _⟩
    rw [List.getElem?_append_left (List.getElem?_eq_some_iff.mp hcache).1, hcache]

theorem InStep.refresh (h : group.InStep) (found : group.caches[index]? = some cache)
    {fetched : Except ApiError TreeHead} {now : String}
    (fits : ∀ head, fetched = .ok head → TrustedHead.Fits ⟨head, now⟩)
    {prove : UInt64 → UInt64 → Except ApiError (List Digest)}
    {outcome : Except CacheError RefreshOutcome}
    (step : cache.refresh group.store fetched prove now = (outcome, cache', store)) :
    InStep ⟨group.caches.set index cache', store⟩ ∧
      group.Follows ⟨group.caches.set index cache', store⟩ := by
  have hrefreshed := HeadCache.refreshed step
  have hlt := (List.getElem?_eq_some_iff.mp found).1
  refine ⟨⟨?_, ?_⟩, ?_⟩
  · -- The names are as before.
    have hnames : (group.caches.set index cache').map HeadCache.logName = group.logNames := by
      apply List.ext_getElem?
      intro other
      by_cases heq : index = other
      · subst heq
        rw [List.getElem?_map, List.getElem?_set_self hlt, logNames, List.getElem?_map, found]
        exact congrArg some hrefreshed.logName_eq
      · simp [logNames, List.getElem?_set_ne heq]
    rw [logNames, hnames]
    exact h.nodup
  · intro other hother
    obtain ⟨place, hplace⟩ := List.mem_iff_getElem?.mp hother
    by_cases heq : index = place
    · subst heq
      rw [List.getElem?_set_self hlt] at hplace
      obtain rfl := Option.some.inj hplace
      exact HeadCache.restore_refreshed (h.restore_at found) fits step
    · rw [List.getElem?_set_ne heq] at hplace
      have hne := h.logName_ne found (Ne.symm heq) hplace
      rw [HeadCache.restore_congr (hrefreshed.others _ hne)]
      exact h.restore_at hplace
  · intro place old hold
    by_cases heq : index = place
    · subst heq
      obtain rfl := Option.some.inj (hold.symm.trans found)
      exact ⟨cache', List.getElem?_set_self hlt, hrefreshed.logName_eq, hrefreshed.verifier_eq,
        hrefreshed.neverShrinks⟩
    · refine ⟨old, ?_, rfl, rfl, TrustedHead.NeverShrinks.refl _⟩
      rw [List.getElem?_set_ne heq, hold]

theorem mapM_restore {caches : List HeadCache} (h : ∀ cache ∈ caches,
    HeadCache.restore cache.logName cache.verifier store = .ok cache) : caches.mapM
      (fun cache => HeadCache.restore cache.logName cache.verifier store) = .ok caches := by
  induction caches with
  | nil => rfl
  | cons first rest ih =>
    rw [List.mapM_cons, h first List.mem_cons_self,
      ih fun other hother => h other (List.mem_cons_of_mem _ hother)]
    rfl

/-- Another process finds every cache as it was. -/
theorem InStep.takeOver_eq (h : group.InStep) (kept : group.store.Kept)
    (fits : group.store.contents.Fits) (reread : group.store.reread = .ok store)
    {caches : List HeadCache} (step : group.caches.mapM
      (fun cache => HeadCache.restore cache.logName cache.verifier store) = .ok caches) :
    store = group.store ∧ caches = group.caches := by
  rw [Store.reread_eq kept fits] at reread
  obtain rfl := Except.ok.inj reread
  exact ⟨rfl, (Except.ok.inj ((mapM_restore h.restored).symm.trans step)).symm⟩

theorem InStep.elsewhere (h : group.InStep) (same : ∀ cache ∈ group.caches,
    HeadCache.stored cache.logName store = HeadCache.stored cache.logName group.store) :
    InStep ⟨group.caches, store⟩ := by
  refine ⟨h.nodup, ?_⟩
  intro cache hcache
  rw [HeadCache.restore_congr (same cache hcache)]
  exact h.restored cache hcache

end Steps

/-- **Along a run** every cache stays what would be restored for it, and trusts no smaller head than
before. -/
theorem run_inStep {start group : CacheGroup} (h : start.InStep) (hrun : Run start group) :
    group.InStep ∧ start.Follows group := by
  induction hrun with
  | none => exact ⟨h, Follows.of_caches_eq rfl⟩
  | opened before new step ih =>
    obtain ⟨hnext, hfollows⟩ := ih.1.open new step
    exact ⟨hnext, ih.2.trans hfollows⟩
  | refreshed before found fits step ih =>
    obtain ⟨hnext, hfollows⟩ := ih.1.refresh found fits step
    exact ⟨hnext, ih.2.trans hfollows⟩
  | reopened before found step ih =>
    rw [ih.1.reopen_eq found step]
    exact ih
  | takenOver before kept fits reread step ih =>
    obtain ⟨rfl, rfl⟩ := ih.1.takeOver_eq kept fits reread step
    exact ih
  | elsewhere before same ih =>
    exact ⟨ih.1.elsewhere same, ih.2.trans (Follows.of_caches_eq rfl)⟩

/-- **Trust is kept.** At every moment of a run, each cache trusts the head that is stored for it,
which its log has signed, and opening it again gives the very same cache. From then on its tree size
never decreases. A refresh that fails changes neither the trusted nor the stored head; one that keeps
the size keeps the head; one that increases it has seen a signature and a proof that links the two
heads; and none changes what is stored for another cache. -/
theorem run_keeps_trust {store : Store} {group : CacheGroup} (hrun : Run ⟨[], store⟩ group) :
    (∀ cache ∈ group.caches,
      (∀ head, cache.head? = some head → head.verify cache.verifier = true) ∧
      HeadCache.persisted cache.logName group.store = .ok cache.trusted ∧
      HeadCache.restore cache.logName cache.verifier group.store = .ok cache) ∧
    (∀ later, Run group later → group.Follows later) ∧
    (∀ (index : Nat) (cache : HeadCache), group.caches[index]? = some cache →
      ∀ fetched prove now outcome cache' store',
        cache.refresh group.store fetched prove now = (outcome, cache', store') →
        cache.Refreshed group.store fetched prove outcome cache' store' ∧
          ∀ (place : Nat) (other : HeadCache), place ≠ index →
            group.caches[place]? = some other →
            (group.caches.set index cache')[place]? = some other ∧
              HeadCache.stored other.logName store' =
                HeadCache.stored other.logName group.store) := by
  have hstep := (run_inStep (inStep_empty store) hrun).1
  refine ⟨?_, ?_, ?_⟩
  · intro cache hcache
    have hrestore := hstep.restored cache hcache
    obtain ⟨-, -, hpersisted, hverified⟩ := HeadCache.restore_eq_ok_iff.mp hrestore
    exact ⟨hverified, hpersisted, hrestore⟩
  · intro later hlater
    exact (run_inStep hstep hlater).2
  · intro index cache found fetched prove now outcome cache' store' step
    have hrefreshed := HeadCache.refreshed step
    refine ⟨hrefreshed, ?_⟩
    intro place other hne found'
    refine ⟨?_, hrefreshed.others _ (hstep.logName_ne found hne found')⟩
    rw [List.getElem?_set_ne (Ne.symm hne), found']

/-- Two caches on one store, of which one trusts a head of one leaf, and then one of two. -/
theorem run_keeps_trust_one_to_two : ∃ (before after : CacheGroup) (first second : TreeHead),
    Run ⟨[], Store.inMemory⟩ before ∧ Run before after ∧ after.logNames = ["first", "second"] ∧
      before.caches.map HeadCache.head? = [some first, none] ∧
      after.caches.map HeadCache.head? = [some second, none] ∧
      first.treeSize = 1 ∧ second.treeSize = 2 ∧ before.Follows after ∧
      (∀ cache ∈ after.caches,
        HeadCache.persisted cache.logName after.store = .ok cache.trusted ∧
        HeadCache.restore cache.logName cache.verifier after.store = .ok cache) ∧
      ∃ proof, Tree.verifyConsistency first.logRoot second.logRoot 1 2 proof = true := by
  let verifier : Signer := ⟨[], none, fun _ _ => true⟩
  let first : TreeHead := ⟨1, Tree.rootOf [[1]], emptyRoot, []⟩
  let second : TreeHead := ⟨2, Tree.rootOf [[1], [2]], emptyRoot, []⟩
  let now := "1970-01-01T00:00:00Z"
  let prove : UInt64 → UInt64 → Except ApiError (List Digest) := fun _ _ =>
    .ok (Tree.prefixProof 1 [[1], [2]])
  have time : (Bytes.ofText now).length < UInt64.size ∧ Moment.isMoment now = true := by decide
  have fits (head : TreeHead) (hlength : head.signature.length < UInt64.size) :
      ∀ answer, (Except.ok head : Except ApiError TreeHead) = .ok answer →
        TrustedHead.Fits ⟨answer, now⟩ := by
    rintro _ ⟨⟩
    exact ⟨hlength, time.1, time.2⟩
  let empty : HeadCache := ⟨"first", verifier, none⟩
  let held : HeadCache := ⟨"first", verifier, some ⟨first, now⟩⟩
  let other : HeadCache := ⟨"second", verifier, none⟩
  have hopened := ((Run.none : Run ⟨[], Store.inMemory⟩ _).opened List.not_mem_nil
    (show HeadCache.restore "first" verifier Store.inMemory = .ok empty by rfl)).opened
    (by decide) (show HeadCache.restore "second" verifier Store.inMemory = .ok other by rfl)
  have hfirst : empty.check (.ok first) prove = .ok (first, .initialized 1) :=
    HeadCache.check_of_none rfl rfl
  have hlink : Tree.verifyConsistency first.logRoot second.logRoot 1 2
      (Tree.prefixProof 1 [[1], [2]]) = true :=
    Tree.verifyConsistency_prefixProof (show 1 ≤ [[1], [2]].length by decide)
  have hsecond : held.check (.ok second) prove = .ok (second, .advanced 1 2) :=
    HeadCache.check_of_linked rfl (show (1 : UInt64) < 2 by decide) rfl rfl hlink
  obtain ⟨contents, hstep⟩ := StoredCache.refresh_inMemory hfirst ∅ now
  obtain ⟨contents', hstep'⟩ := StoredCache.refresh_inMemory hsecond contents now
  have hfound : [empty, other][0]? = some empty := rfl
  have hfound' : [held, other][0]? = some held := rfl
  have hbefore := hopened.refreshed hfound (fits first (by decide)) hstep
  have hafter := hbefore.refreshed hfound' (fits second (by decide)) hstep'
  have hbetween := (Run.none : Run ⟨[held, other], ⟨contents, .memory⟩⟩ _).refreshed hfound'
    (fits second (by decide)) hstep'
  obtain ⟨-, hfollows, hrefresh⟩ := run_keeps_trust hbefore
  obtain ⟨proof, -, hproof⟩ := ((hrefresh 0 held rfl _ _ _ _ _ _ hstep').1.larger first second rfl rfl
    (show (1 : UInt64) < 2 by decide)).2.2
  refine ⟨_, _, first, second, hbefore, hbetween, rfl, rfl, rfl, rfl, rfl, hfollows _ hbetween, ?_,
    proof, hproof⟩
  intro cache hcache
  exact ((run_keeps_trust hafter).1 cache hcache).2

end CacheGroup

end TransparencyLog
