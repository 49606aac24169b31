import TransparencyLog.Follow.Cache
import TransparencyLog.Proofs.Store.File
import TransparencyLog.Proofs.Tree.Consistency

/-!
# Trust is append-only

A follower trusts one head after another, across refreshes in which the log answers whatever it
likes, and across restarts from the head it has stored. Each head continues the one before: either
it makes the same claim, or a proof links the two. So two heads that were trusted one after the
other belong to a list and its beginning, unless strings that were hashed on the way collide.

* `StoredCache`, `StoredCache.Run`: a follower and its runs, with what the accepted proofs hash;
* `HeadCache.check_of_none`, `HeadCache.check_of_same`, `HeadCache.check_of_linked`: checks that pass;
* `HeadCache.restore_cases`, `HeadCache.check_cases`, `HeadCache.adopt_cases`: the single steps;
* `TreeHead.Extends`, `StoredCache.Continues`: one head continues another, and so does what a
  follower trusts; both are reflexive and transitive;
* `StoredCache.Persists`: the stored head makes the claim of the trusted one, a step lemma for every
  kind of step and **`StoredCache.run_extends`** for whole runs;
* **`StoredCache.trusted_append_only`**.
-/

namespace TransparencyLog

open TransparencyLog.Tree

/-! ## Runs -/

/-- Where the head of a log is stored. -/
def HeadCache.storedAt (logName : String) : Address := ⟨logName, storedKey⟩

/-- A follower of one log: what it knows, and the store that it keeps its head in. -/
structure StoredCache where
  cache : HeadCache
  store : Store

namespace StoredCache

/-- What is hashed to check the proof of a head that a refresh has adopted. -/
def acceptedInputs (cache : HeadCache) (fetched : Except ApiError TreeHead)
    (prove : UInt64 → UInt64 → Except ApiError (List Digest)) :
    Except CacheError RefreshOutcome → Set Bytes
  | .ok (.advanced _ _) => {s | ∃ old candidate proof, cache.head? = some old ∧
      fetched = .ok candidate ∧ prove old.treeSize candidate.treeSize = .ok proof ∧
      s ∈ consistencyInputs old.logRoot old.treeSize.toNat candidate.treeSize.toNat proof}
  | _ => ∅

/-- What a follower can become: any number of refreshes, whatever the log answers to them, and of
restarts, on the store at hand or on what another process reads from its file. In between anything
may happen to the store that leaves the stored head alone: other caches write to it, and its files
get in the way of a commit. Beside the follower stands what the proofs accepted on the way have
hashed. A file is read again only if the lengths in it fit their 64 bits. -/
inductive Run (start : StoredCache) : StoredCache → Set Bytes → Prop
  | none : Run start start ∅
  | refreshed {f : StoredCache} {hashed : Set Bytes} (before : Run start f hashed)
    (fetched : Except ApiError TreeHead)
    (prove : UInt64 → UInt64 → Except ApiError (List Digest)) (now : String)
    {outcome : Except CacheError RefreshOutcome} {cache : HeadCache} {store : Store}
    (step : f.cache.refresh f.store fetched prove now = (outcome, cache, store)) :
    Run start ⟨cache, store⟩ (hashed ∪ acceptedInputs f.cache fetched prove outcome)
  | restarted {f : StoredCache} {hashed : Set Bytes} (before : Run start f hashed) {cache : HeadCache}
    (step : HeadCache.restore f.cache.logName f.cache.verifier f.store = .ok cache) :
    Run start ⟨cache, f.store⟩ hashed
  | reloaded {f : StoredCache} {hashed : Set Bytes} (before : Run start f hashed)
    (fits : f.store.contents.Fits) {cache : HeadCache} {store : Store}
    (reread : f.store.reread = .ok store)
    (step : HeadCache.restore f.cache.logName f.cache.verifier store = .ok cache) :
    Run start ⟨cache, store⟩ hashed
  | elsewhere {f : StoredCache} {hashed : Set Bytes} (before : Run start f hashed) {store : Store}
    (kept : store.Kept)
    (same : store.contents.snapshot (HeadCache.storedAt f.cache.logName) =
      f.store.contents.snapshot (HeadCache.storedAt f.cache.logName)) :
    Run start ⟨f.cache, store⟩ hashed

end StoredCache

/-! ## The steps of a cache -/

namespace HeadCache

/-- A cache starts with the stored head, or with none if there is none. -/
theorem restore_cases {logName : String} {verifier : Signer} {store : Store} {cache : HeadCache}
    (h : restore logName verifier store = .ok cache) :
    cache.logName = logName ∧
      ((store.contents.snapshot (storedAt logName) = none ∧ cache.head? = none) ∨
        ∃ bytes trusted, store.contents.snapshot (storedAt logName) = some bytes ∧
          TrustedHead.decode bytes = .ok trusted ∧ cache.head? = some trusted.head) := by
  unfold restore stored Store.view Snapshot.fetch at h
  cases hget : store.contents.snapshot (storedAt logName) with
  | none =>
    rw [storedAt] at hget
    simp only [hget] at h
    obtain rfl := Except.ok.inj h
    exact ⟨rfl, Or.inl ⟨rfl, rfl⟩⟩
  | some bytes =>
    rw [storedAt] at hget
    simp only [hget] at h
    cases hdecode : TrustedHead.decode bytes with
    | error e => simp [hdecode] at h
    | ok trusted =>
      simp only [hdecode] at h
      by_cases hverify : trusted.head.verify verifier = true
      · rw [if_pos hverify] at h
        obtain rfl := Except.ok.inj h
        exact ⟨rfl, Or.inr ⟨bytes, trusted, rfl, hdecode, rfl⟩⟩
      · rw [if_neg hverify] at h
        cases h

section Passing

variable {cache : HeadCache} {prove : UInt64 → UInt64 → Except ApiError (List Digest)}
  {candidate old : TreeHead}

theorem check_of_none (hnone : cache.head? = none) (hsigned : candidate.verify cache.verifier = true) :
    cache.check (.ok candidate) prove = .ok (candidate, .initialized candidate.treeSize) := by
  have hassess : cache.assess candidate = .ok (.adopt (.initialized candidate.treeSize)) := by
    rw [assess, hnone]
    exact if_pos hsigned
  simp only [check, hassess]

theorem check_of_same (hsame : cache.head? = some candidate) :
    cache.check (.ok candidate) prove = .ok (candidate, .unchanged candidate.treeSize) := by
  have hassess : cache.assess candidate = .ok (.adopt (.unchanged candidate.treeSize)) := by
    rw [assess, hsame]
    simp only [if_neg (UInt64.lt_irrefl candidate.treeSize), if_pos]
  simp only [check, hassess]

theorem check_of_linked (hold : cache.head? = some old) (hlt : old.treeSize < candidate.treeSize)
    (hsigned : candidate.verify cache.verifier = true) {proof : List Digest}
    (hproof : prove old.treeSize candidate.treeSize = .ok proof)
    (hlink : Tree.verifyConsistency old.logRoot candidate.logRoot old.treeSize.toNat
      candidate.treeSize.toNat proof = true) :
    cache.check (.ok candidate) prove =
      .ok (candidate, .advanced old.treeSize candidate.treeSize) := by
  have hassess : cache.assess candidate = .ok (.prove old) := by
    rw [assess, hold]
    simp only [if_neg (UInt64.not_lt.mpr (UInt64.le_of_lt hlt)), if_neg (UInt64.ne_of_lt hlt).symm,
      if_pos hsigned]
  simp only [check, hassess, hproof, checkLink, if_pos hlink, Except.map]

end Passing

/-- A head passes the checks as the first one, which the log has signed, as the one already trusted,
or signed and with a proof. It is the one that was fetched. -/
theorem check_cases {cache : HeadCache} {fetched : Except ApiError TreeHead}
    {prove : UInt64 → UInt64 → Except ApiError (List Digest)} {candidate : TreeHead}
    {outcome : RefreshOutcome} (h : cache.check fetched prove = .ok (candidate, outcome)) :
    fetched = .ok candidate ∧
      ((cache.head? = none ∧ candidate.verify cache.verifier = true ∧
          outcome = .initialized candidate.treeSize) ∨
        (cache.head? = some candidate ∧ outcome = .unchanged candidate.treeSize) ∨
        ∃ old proof, cache.head? = some old ∧ old.treeSize < candidate.treeSize ∧
          candidate.verify cache.verifier = true ∧
          prove old.treeSize candidate.treeSize = .ok proof ∧
          verifyConsistency old.logRoot candidate.logRoot old.treeSize.toNat
            candidate.treeSize.toNat proof = true ∧
          outcome = .advanced old.treeSize candidate.treeSize) := by
  unfold check at h
  cases fetched with
  | error e => simp at h
  | ok head =>
  unfold assess at h
  cases hold : cache.head? with
  | none =>
    by_cases hverify : head.verify cache.verifier = true
    · simp only [hold, if_pos hverify, Except.ok.injEq, Prod.mk.injEq] at h
      obtain ⟨rfl, rfl⟩ := h
      exact ⟨rfl, Or.inl ⟨rfl, hverify, rfl⟩⟩
    · simp [hold, hverify] at h
  | some old =>
  simp only [hold] at h
  by_cases hless : head.treeSize < old.treeSize
  · simp [if_pos hless] at h
  rw [if_neg hless] at h
  by_cases hsize : head.treeSize = old.treeSize
  · rw [if_pos hsize] at h
    by_cases hsame : head = old
    · rw [if_pos hsame] at h
      obtain ⟨rfl, rfl⟩ := Prod.mk.inj (Except.ok.inj h)
      exact ⟨rfl, Or.inr (Or.inl ⟨by rw [hsame], by rw [hsame]⟩)⟩
    · simp [if_neg hsame] at h
  rw [if_neg hsize] at h
  by_cases hverify : head.verify cache.verifier = true
  · simp only [if_pos hverify] at h
    cases hproof : prove old.treeSize head.treeSize with
    | error e => simp [hproof] at h
    | ok proof =>
      simp only [hproof, checkLink] at h
      by_cases hlink : verifyConsistency old.logRoot head.logRoot old.treeSize.toNat
          head.treeSize.toNat proof = true
      · rw [if_pos hlink] at h
        obtain ⟨rfl, rfl⟩ := Prod.mk.inj (Except.ok.inj h)
        have hlt : old.treeSize < head.treeSize :=
          UInt64.lt_of_le_of_ne (UInt64.not_lt.mp hless) (Ne.symm hsize)
        exact ⟨rfl, Or.inr (Or.inr ⟨old, proof, rfl, hlt, hverify, hproof, hlink, rfl⟩)⟩
      · simp [if_neg hlink, Except.map] at h
  · simp [if_neg hverify] at h

/-- A head is stored and trusted, or both store and trust stay as they were. -/
theorem adopt_cases {store : Store} (hkept : store.Kept) (cache : HeadCache)
    (trusted : TrustedHead) :
    ∃ store', store'.Kept ∧
      ((cache.adopt store trusted = (.ok (), { cache with trusted := some trusted }, store') ∧
          store'.contents.snapshot (storedAt cache.logName) = some trusted.encode) ∨
        ∃ e, cache.adopt store trusted = (.error e, cache, store') ∧
          store'.contents = store.contents) := by
  unfold adopt
  obtain ⟨store', hkept', ⟨a, draft, hrun, hupdate, hview⟩ | ⟨e, hupdate, hsame⟩⟩ :=
    Store.update_cases hkept (Write.put cache.logName storedKey trusted.encode)
  · rw [Write.put_apply] at hrun
    obtain ⟨rfl, rfl⟩ := Prod.mk.inj (Except.ok.inj hrun)
    rw [hupdate]
    refine ⟨store', hkept', Or.inl ⟨rfl, ?_⟩⟩
    rw [hview (Store.isEmpty_pending_set _ _ _ _), Draft.get?_set]
    exact if_pos rfl
  · rw [hupdate]
    exact ⟨store', hkept', Or.inr ⟨_, rfl, hsame⟩⟩

end HeadCache

/-! ## One head continues another -/

/-- The later head's tree, whatever list it is over, begins with the earlier head's tree, or among
its branches and the given strings there is a collision. -/
def TreeHead.Extends (earlier later : TreeHead) (hashed : Set Bytes) : Prop :=
  earlier.treeSize.toNat ≤ later.treeSize.toNat ∧
    (0 < earlier.treeSize.toNat → ∀ leaves : List Bytes, leaves.length = later.treeSize.toNat →
      later.logRoot = rootOf leaves →
      (earlier.logRoot = rootOf (leaves.take earlier.treeSize.toNat) ∧
        branchInputs (leaves.take earlier.treeSize.toNat) ⊆ branchInputs leaves ∪ hashed) ∨
      CollisionBetween (branchInputs leaves ∪ hashed) (branchInputs leaves ∪ hashed))

namespace TreeHead

theorem Extends.of_same {earlier later : TreeHead} (hsize : earlier.treeSize = later.treeSize)
    (hroot : earlier.logRoot = later.logRoot) (hashed : Set Bytes) :
    earlier.Extends later hashed := by
  refine ⟨by rw [hsize], fun _ leaves hlen heq => Or.inl ?_⟩
  rw [List.take_of_length_le (by rw [hsize, hlen]), hroot]
  exact ⟨heq, Set.subset_union_left⟩

theorem Extends.of_proof {earlier later : TreeHead} {proof : List Digest}
    (hlt : earlier.treeSize < later.treeSize)
    (h : verifyConsistency earlier.logRoot later.logRoot earlier.treeSize.toNat
      later.treeSize.toNat proof = true) :
    earlier.Extends later (consistencyInputs earlier.logRoot earlier.treeSize.toNat
      later.treeSize.toNat proof) := by
  have hlt' := UInt64.lt_iff_toNat_lt.mp hlt
  refine ⟨hlt'.le, fun hpos leaves hlen heq => ?_⟩
  rw [← hlen] at hlt' h ⊢
  rw [heq] at h
  rcases verifyConsistency_cases hpos hlt' h with ⟨hold, _, hsubset⟩ | hcol
  · exact Or.inl ⟨hold, hsubset⟩
  · exact Or.inr (hcol.mono Set.subset_union_left Set.subset_union_right)

theorem Extends.mono {earlier later : TreeHead} {hashed hashed' : Set Bytes}
    (h : earlier.Extends later hashed) (hsub : hashed ⊆ hashed') :
    earlier.Extends later hashed' := by
  refine ⟨h.1, fun hpos leaves hlen heq => ?_⟩
  have hunion := Set.union_subset_union_right (branchInputs leaves) hsub
  rcases h.2 hpos leaves hlen heq with ⟨hroot, hsubset⟩ | hcol
  · exact Or.inl ⟨hroot, hsubset.trans hunion⟩
  · exact Or.inr (hcol.mono hunion hunion)

/-- A chain of two links: the list in the middle is the beginning of the list at the end. -/
theorem Extends.trans {first second third : TreeHead} {hashed hashed' : Set Bytes}
    (h : first.Extends second hashed) (h' : second.Extends third hashed') :
    first.Extends third (hashed ∪ hashed') := by
  refine ⟨h.1.trans h'.1, fun hpos leaves hlen heq => ?_⟩
  have hright : branchInputs leaves ∪ hashed' ⊆ branchInputs leaves ∪ (hashed ∪ hashed') :=
    Set.union_subset_union_right _ Set.subset_union_right
  rcases h'.2 (Nat.lt_of_lt_of_le hpos h.1) leaves hlen heq with ⟨hroot, hsubset⟩ | hcol
  · have hmid : (leaves.take second.treeSize.toNat).length = second.treeSize.toNat := by
      rw [List.length_take, hlen]
      exact Nat.min_eq_left h'.1
    have htake : (leaves.take second.treeSize.toNat).take first.treeSize.toNat =
        leaves.take first.treeSize.toNat := by
      rw [List.take_take, Nat.min_eq_left h.1]
    have hleft : branchInputs (leaves.take second.treeSize.toNat) ∪ hashed ⊆
        branchInputs leaves ∪ (hashed ∪ hashed') := by
      refine Set.union_subset (hsubset.trans hright) ?_
      exact Set.subset_union_left.trans Set.subset_union_right
    have hfirst := h.2 hpos _ hmid hroot
    rw [htake] at hfirst
    rcases hfirst with ⟨hroot', hsubset'⟩ | hcol
    · exact Or.inl ⟨hroot', hsubset'.trans hleft⟩
    · exact Or.inr (hcol.mono hleft hleft)
  · exact Or.inr (hcol.mono hright hright)

end TreeHead

namespace StoredCache

/-- The head trusted before, if there is one, is continued by one trusted after. -/
def Continues (before after : StoredCache) (hashed : Set Bytes) : Prop :=
  ∀ head, before.cache.head? = some head →
    ∃ head', after.cache.head? = some head' ∧ head.Extends head' hashed

theorem Continues.of_same {before after : StoredCache} (h : after.cache = before.cache)
    (hashed : Set Bytes) : before.Continues after hashed := by
  intro head hhead
  exact ⟨head, by rw [h, hhead], TreeHead.Extends.of_same rfl rfl _⟩

theorem Continues.trans {first second third : StoredCache} {hashed hashed' : Set Bytes}
    (h : first.Continues second hashed) (h' : second.Continues third hashed') :
    first.Continues third (hashed ∪ hashed') := by
  intro head hhead
  obtain ⟨mid, hmid, hfirst⟩ := h head hhead
  obtain ⟨last, hlast, hsecond⟩ := h' mid hmid
  exact ⟨last, hlast, hfirst.trans hsecond⟩

/-! ## What is stored -/

/-- The follower's file is in step with its store, and whatever reads back from the stored head
makes the claim of the head trusted now. -/
structure Persists (f : StoredCache) : Prop where
  kept : f.store.Kept
  absent : f.cache.head? = none →
    f.store.contents.snapshot (HeadCache.storedAt f.cache.logName) = none
  present : ∀ head, f.cache.head? = some head →
    ∃ bytes, f.store.contents.snapshot (HeadCache.storedAt f.cache.logName) = some bytes ∧
      ∀ trusted, TrustedHead.decode bytes = .ok trusted →
        trusted.head.treeSize = head.treeSize ∧ trusted.head.logRoot = head.logRoot

theorem persists_of_restore {logName : String} {verifier : Signer} {store : Store}
    {cache : HeadCache} (hkept : store.Kept)
    (h : HeadCache.restore logName verifier store = .ok cache) : Persists ⟨cache, store⟩ := by
  obtain ⟨rfl, ⟨hview, hnone⟩ | ⟨bytes, trusted, hview, hdecode, hsome⟩⟩ :=
    HeadCache.restore_cases h
  · refine ⟨hkept, fun _ => hview, fun head hhead => ?_⟩
    rw [hnone] at hhead
    cases hhead
  · refine ⟨hkept, fun hhead => ?_, fun head hhead => ⟨bytes, hview, fun read hread => ?_⟩⟩
    · rw [hsome] at hhead
      cases hhead
    · rw [hdecode] at hread
      rw [hsome] at hhead
      obtain rfl := Except.ok.inj hread
      obtain rfl := Option.some.inj hhead
      exact ⟨rfl, rfl⟩

/-- A restart goes on with the claim of the head trusted before. -/
theorem Persists.restart {f : StoredCache} (h : f.Persists) {cache : HeadCache}
    (hrestore : HeadCache.restore f.cache.logName f.cache.verifier f.store = .ok cache) :
    Persists ⟨cache, f.store⟩ ∧ f.Continues ⟨cache, f.store⟩ ∅ := by
  refine ⟨persists_of_restore h.kept hrestore, ?_⟩
  intro head hhead
  obtain ⟨bytes, hview, hclaim⟩ := h.present head hhead
  obtain ⟨_, ⟨hview', _⟩ | ⟨bytes', trusted, hview', hdecode, hsome⟩⟩ :=
    HeadCache.restore_cases hrestore
  · rw [hview] at hview'
    cases hview'
  · obtain rfl := Option.some.inj (hview.symm.trans hview')
    obtain ⟨hsize, hroot⟩ := hclaim trusted hdecode
    exact ⟨trusted.head, hsome, TreeHead.Extends.of_same hsize.symm hroot.symm _⟩

/-- A refresh keeps the stored head in step and goes on from the head trusted before. -/
theorem Persists.refresh {f : StoredCache} (h : f.Persists) {fetched : Except ApiError TreeHead}
    {prove : UInt64 → UInt64 → Except ApiError (List Digest)} {now : String}
    {outcome : Except CacheError RefreshOutcome} {cache : HeadCache} {store : Store}
    (hrefresh : f.cache.refresh f.store fetched prove now = (outcome, cache, store)) :
    Persists ⟨cache, store⟩ ∧
      f.Continues ⟨cache, store⟩ (acceptedInputs f.cache fetched prove outcome) := by
  unfold HeadCache.refresh at hrefresh
  cases hcheck : f.cache.check fetched prove with
  | error e =>
    simp only [hcheck, Prod.mk.injEq] at hrefresh
    obtain ⟨rfl, rfl, rfl⟩ := hrefresh
    exact ⟨h, Continues.of_same rfl _⟩
  | ok checked =>
    obtain ⟨candidate, adopted⟩ := checked
    simp only [hcheck] at hrefresh
    obtain ⟨store', hkept, ⟨hadopt, hview⟩ | ⟨e, hadopt, hsame⟩⟩ :=
      HeadCache.adopt_cases h.kept f.cache ⟨candidate, now⟩
    · -- The head is adopted, so it is stored.
      simp only [hadopt, Prod.mk.injEq] at hrefresh
      obtain ⟨rfl, rfl, rfl⟩ := hrefresh
      refine ⟨⟨hkept, fun hnone => (by cases hnone), ?_⟩, ?_⟩
      · rintro _ ⟨⟩
        exact ⟨_, hview, fun trusted hdecode => TrustedHead.decode_claim hdecode⟩
      · intro head hhead
        refine ⟨candidate, rfl, ?_⟩
        obtain ⟨hfetched, ⟨hnone, -⟩ | ⟨hsome, -⟩ | ⟨old, proof, hold, hlt, -, hproof, hverify, rfl⟩⟩ :=
          HeadCache.check_cases hcheck
        · rw [hnone] at hhead
          cases hhead
        · obtain rfl := Option.some.inj (hhead.symm.trans hsome)
          exact TreeHead.Extends.of_same rfl rfl _
        · obtain rfl := Option.some.inj (hhead.symm.trans hold)
          refine (TreeHead.Extends.of_proof hlt hverify).mono ?_
          intro s hs
          exact ⟨head, candidate, proof, hold, hfetched, hproof, hs⟩
    · -- Storing fails, so nothing changes.
      simp only [hadopt, Prod.mk.injEq] at hrefresh
      obtain ⟨rfl, rfl, rfl⟩ := hrefresh
      refine ⟨⟨hkept, ?_, ?_⟩, Continues.of_same rfl _⟩
      · rw [hsame]
        exact h.absent
      · rw [hsame]
        exact h.present

/-- **Along a run** the stored head stays in step, and a head trusted at its start is continued by
one trusted at its end. -/
theorem run_extends {start f : StoredCache} {hashed : Set Bytes} (h : start.Persists)
    (hrun : Run start f hashed) : f.Persists ∧ start.Continues f hashed := by
  induction hrun with
  | none => exact ⟨h, Continues.of_same rfl _⟩
  | refreshed before fetched prove now step ih =>
    obtain ⟨hpersists, hstep⟩ := ih.1.refresh step
    exact ⟨hpersists, ih.2.trans hstep⟩
  | restarted before step ih =>
    obtain ⟨hpersists, hstep⟩ := ih.1.restart step
    have hextends := ih.2.trans hstep
    rw [Set.union_empty] at hextends
    exact ⟨hpersists, hextends⟩
  | reloaded before fits reread step ih =>
    rw [Store.reread_eq ih.1.kept fits] at reread
    obtain rfl := Except.ok.inj reread
    obtain ⟨hpersists, hstep⟩ := ih.1.restart step
    have hextends := ih.2.trans hstep
    rw [Set.union_empty] at hextends
    exact ⟨hpersists, hextends⟩
  | elsewhere before kept same ih =>
    refine ⟨⟨kept, ?_, ?_⟩, ih.2⟩
    · rw [same]
      exact ih.1.absent
    · rw [same]
      exact ih.1.present

/-- **Trust is append-only.** Of two heads that a follower trusted one after the other, the later
one is not smaller, and if it is the root of a list, the earlier one is the root of the list's
beginning. The only way out is a collision among the branches of the list's tree and of the checks
of the proofs accepted in between. -/
theorem trusted_append_only {logName : String} {verifier : Signer} {store : Store}
    (hkept : store.Kept) {cache : HeadCache}
    (hopen : HeadCache.restore logName verifier store = .ok cache) {earlier later : StoredCache}
    {before between : Set Bytes} (hbefore : Run ⟨cache, store⟩ earlier before)
    (hbetween : Run earlier later between) {first second : TreeHead}
    (hfirst : earlier.cache.head? = some first) (hsecond : later.cache.head? = some second) :
    first.treeSize ≤ second.treeSize ∧
      (0 < first.treeSize → ∀ leaves : List Bytes, leaves.length = second.treeSize.toNat →
        second.logRoot = rootOf leaves →
        first.logRoot = rootOf (leaves.take first.treeSize.toNat) ∨
          CollisionBetween (branchInputs leaves ∪ between) (branchInputs leaves ∪ between)) := by
  obtain ⟨hpersists, _⟩ := run_extends (persists_of_restore hkept hopen) hbefore
  obtain ⟨head, hhead, hsize, hroot⟩ := (run_extends hpersists hbetween).2 first hfirst
  obtain rfl := Option.some.inj (hhead.symm.trans hsecond)
  refine ⟨UInt64.le_iff_toNat_le.mpr hsize, fun hpos leaves hlen heq => ?_⟩
  exact (hroot (UInt64.lt_iff_toNat_lt.mp hpos) leaves hlen heq).imp_left And.left

/-- On a store in memory a head that passes the checks is adopted. -/
theorem refresh_inMemory {cache : HeadCache} {fetched : Except ApiError TreeHead}
    {prove : UInt64 → UInt64 → Except ApiError (List Digest)} {candidate : TreeHead}
    {outcome : RefreshOutcome} (h : cache.check fetched prove = .ok (candidate, outcome))
    (contents : Contents) (now : String) :
    ∃ next, cache.refresh ⟨contents, .memory⟩ fetched prove now =
      (.ok outcome, { cache with trusted := some ⟨candidate, now⟩ }, ⟨next, .memory⟩) := by
  unfold HeadCache.refresh HeadCache.adopt Store.update
  simp only [h, Write.put_apply, Store.isEmpty_pending_set]
  exact ⟨_, rfl⟩

/-- A follower that trusts a log of one leaf, and then one of two. -/
theorem trusted_append_only_one_of_two :
    ∃ (earlier later : StoredCache) (between : Set Bytes) (first second : TreeHead),
      Run earlier later between ∧ earlier.cache.head? = some first ∧
      later.cache.head? = some second ∧ first.treeSize = 1 ∧ second.treeSize = 2 ∧
      second.logRoot = rootOf [[1], [2]] ∧
      (first.logRoot = rootOf [[1]] ∨
        CollisionBetween (branchInputs [[1], [2]] ∪ between)
          (branchInputs [[1], [2]] ∪ between)) := by
  let verifier : Signer := ⟨[], none, fun _ _ => true⟩
  let first : TreeHead := ⟨1, rootOf [[1]], emptyRoot, []⟩
  let second : TreeHead := ⟨2, rootOf [[1], [2]], emptyRoot, []⟩
  let prove : UInt64 → UInt64 → Except ApiError (List Digest) := fun _ _ =>
    .ok (prefixProof 1 [[1], [2]])
  let start : HeadCache := ⟨"log", verifier, none⟩
  have hopen : HeadCache.restore "log" verifier Store.inMemory = .ok start := by rfl
  have hfirst : start.check (.ok first) prove = .ok (first, .initialized 1) := by rfl
  obtain ⟨contents, hstep⟩ := refresh_inMemory hfirst ∅ "then"
  let earlier : StoredCache := ⟨{ start with trusted := some ⟨first, "then"⟩ }, ⟨contents, .memory⟩⟩
  have hproof : verifyConsistency first.logRoot second.logRoot 1 2 (prefixProof 1 [[1], [2]]) =
    true := verifyConsistency_prefixProof (show 1 ≤ [[1], [2]].length by decide)
  have hsecond : earlier.cache.check (.ok second) prove = .ok (second, .advanced 1 2) :=
    HeadCache.check_of_linked rfl (show (1 : UInt64) < 2 by decide) rfl rfl hproof
  obtain ⟨contents', hstep'⟩ := refresh_inMemory hsecond contents "now"
  have hbefore := (Run.none : Run ⟨start, Store.inMemory⟩ _ _).refreshed (.ok first) prove "then" hstep
  have hbetween := (Run.none : Run earlier _ _).refreshed (.ok second) prove "now" hstep'
  obtain ⟨_, hroot⟩ := trusted_append_only Store.kept_inMemory hopen hbefore hbetween rfl rfl
  exact ⟨earlier, _, _, first, second, hbetween, rfl, rfl, rfl, rfl, rfl,
    hroot (by decide) [[1], [2]] rfl rfl⟩

end StoredCache

end TransparencyLog
