import Mathlib.Logic.Relation
import TransparencyLog.Proofs.Follow.Persisted

/-!
# Refreshes that are dropped

A refresh hands the head that it has checked over as a job, and the job is carried out even if the
refresh has been dropped in the meantime. Dropping it lets the next refresh begin, which checks its
head against what is trusted at that moment. So several jobs can be in flight, and none of them looks
again at the trusted head when it is carried out.

* `LiveCache`, `LiveCache.Run`: a cache between the steps of its refreshes, with the jobs in flight
  and the log that answers it; which jobs may be carried out is left open;
* **`LiveCache.size_rolls_back`**: in any order a job can bring back an older head, though the log's
  heads only grow;
* `LiveCache.Ordered`, **`LiveCache.run_ordered`**: if jobs are carried out in the order in which they
  were handed over, the trusted head, the jobs and what the log shows are sorted by size;
* **`LiveCache.size_never_shrinks`**;
* `LiveCache.Patient`, **`LiveCache.run_patient`**: if no refresh is dropped while it waits for its job,
  one job is in flight at a time, and so jobs are in order by themselves.
-/

namespace TransparencyLog

/-! ## Runs -/

/-- How far a refresh has come: it has asked for the log's head, the answer is on its way, it has
asked for a proof, or it waits for its job. -/
inductive Underway
  | asking
  | answered (candidate : TreeHead)
  | proving (old candidate : TreeHead)
  | adopting
deriving DecidableEq

/-- A cache that refreshes work on: the head that its log shows, the refresh that holds the cache, and
the jobs in flight, in the order in which they were handed over. -/
structure LiveCache where
  cache : HeadCache
  store : Store
  shown : TreeHead
  underway : Option Underway := none
  jobs : List TrustedHead := []

namespace LiveCache

def handOver (s : LiveCache) (trusted : TrustedHead) : LiveCache :=
  { s with underway := some .adopting, jobs := s.jobs ++ [trusted] }

/-- A refresh that waits for a job waits for the last one that was handed over. -/
def awaits (s : LiveCache) (index : Nat) : Bool :=
  s.underway = some .adopting ∧ index + 1 = s.jobs.length

/-- Carries out a job: its head is stored and trusted. A refresh that waits for it is over then. -/
def carryOut (s : LiveCache) (index : Nat) (job : TrustedHead) : LiveCache :=
  let (_, cache, store) := s.cache.adopt s.store job
  { s with
    cache, store
    underway := if s.awaits index then none else s.underway
    jobs := s.jobs.eraseIdx index }

/-- The steps of an honest log, whose heads only grow, of the refreshes that ask it, and of the jobs
that they leave behind. A refresh that holds the cache keeps others out. It may be dropped at any
point; a call or a check that fails ends it just the same. Which of the jobs in flight may be carried
out next is up to `pick`. In between anything may happen to the store that leaves the stored head
alone. -/
inductive Step (pick : Nat → Prop) (s : LiveCache) : LiveCache → Prop
  | grown {head : TreeHead} (larger : s.shown.treeSize ≤ head.treeSize) :
    Step pick s { s with shown := head }
  | called (free : s.underway = none) : Step pick s { s with underway := some .asking }
  | answered (asked : s.underway = some .asking) :
    Step pick s { s with underway := some (.answered s.shown) }
  | passed {candidate : TreeHead} {outcome : RefreshOutcome} {now : String}
    (arrived : s.underway = some (.answered candidate))
    (verdict : s.cache.assess candidate = .ok (.adopt outcome))
    (fits : TrustedHead.Fits ⟨candidate, now⟩) : Step pick s (s.handOver ⟨candidate, now⟩)
  | challenged {candidate old : TreeHead} (arrived : s.underway = some (.answered candidate))
    (verdict : s.cache.assess candidate = .ok (.prove old)) :
    Step pick s { s with underway := some (.proving old candidate) }
  | linked {old candidate : TreeHead} {proof : List Digest} {outcome : RefreshOutcome} {now : String}
    (arrived : s.underway = some (.proving old candidate))
    (verdict : HeadCache.checkLink old candidate proof = .ok outcome)
    (fits : TrustedHead.Fits ⟨candidate, now⟩) : Step pick s (s.handOver ⟨candidate, now⟩)
  | dropped : Step pick s { s with underway := none }
  | carriedOut {index : Nat} {job : TrustedHead} (found : s.jobs[index]? = some job)
    (chosen : pick index) : Step pick s (s.carryOut index job)
  | elsewhere {store : Store} (same : HeadCache.stored s.cache.logName store =
      HeadCache.stored s.cache.logName s.store) : Step pick s { s with store }

abbrev Run (pick : Nat → Prop) : LiveCache → LiveCache → Prop := Relation.ReflTransGen (Step pick)

def persisted (s : LiveCache) : Except LogError (Option TrustedHead) :=
  HeadCache.persisted s.cache.logName s.store

/-! ## Single jobs -/

section Jobs

variable {s : LiveCache} {index : Nat} {job : TrustedHead}

/-- If nothing is in the way of a commit, a job puts its head in the place of the trusted and of the
stored one, whatever these are. -/
theorem carryOut_of_clear (s : LiveCache) (index : Nat) (clear : s.store.Clear) (fits : job.Fits) :
    (s.carryOut index job).store.Clear ∧ (s.carryOut index job).cache.trusted = some job ∧
      (s.carryOut index job).persisted = .ok (some job) ∧
      (s.carryOut index job).jobs = s.jobs.eraseIdx index := by
  obtain ⟨store', hclear, hadopt, hview⟩ := s.cache.adopt_of_clear clear job
  unfold carryOut persisted
  rw [hadopt]
  exact ⟨hclear, rfl, HeadCache.persisted_of_some fits (by rw [hview, if_pos rfl]), rfl⟩

/-- A job that stores its head or fails leaves the trusted head stored. -/
theorem carryOut_persisted (h : s.persisted = .ok s.cache.trusted) (fits : job.Fits) :
    (s.carryOut index job).persisted = .ok (s.carryOut index job).cache.trusted := by
  unfold carryOut persisted
  rcases s.cache.adopt_outcome s.store job with ⟨store', hadopt, hview⟩ | ⟨e, store', hadopt, halike⟩
  · rw [hadopt]
    exact HeadCache.persisted_of_some fits (by rw [hview, if_pos rfl])
  · rw [hadopt]
    have hsame : HeadCache.stored s.cache.logName store' = HeadCache.stored s.cache.logName s.store :=
      HeadCache.stored_congr (by rw [halike.contents])
    exact (HeadCache.persisted_congr hsame).trans h

end Jobs

/-! ## Jobs in any order -/

section AnyOrder

variable {cache : HeadCache} {store : Store} {first second : TreeHead} {now : String}

/-- A refresh that is dropped leaves its job in flight beside that of the next one. The second head
was set beside the same trusted head as the first, as no job has been carried out in between. -/
theorem two_in_flight (pick : Nat → Prop) (new : cache.trusted = none)
    (hfirst : first.verify cache.verifier = true) (hsecond : second.verify cache.verifier = true)
    (larger : first.treeSize ≤ second.treeSize) (fits : TrustedHead.Fits ⟨first, now⟩)
    (fits' : TrustedHead.Fits ⟨second, now⟩) :
    Run pick ⟨cache, store, first, none, []⟩
      ⟨cache, store, second, some .adopting, [⟨first, now⟩, ⟨second, now⟩]⟩ := by
  have hverdict : ∀ candidate : TreeHead, candidate.verify cache.verifier = true →
      cache.assess candidate = .ok (.adopt (.initialized candidate.treeSize)) := by
    intro candidate hsigned
    simp [HeadCache.assess, HeadCache.head?, new, hsigned]
  have hstart : Run pick ⟨cache, store, first, none, []⟩ _ := .refl
  have hbefore := ((hstart.tail (.called rfl)).tail (.answered rfl)).tail
    (.passed rfl (hverdict first hfirst) fits)
  have hdropped := (hbefore.tail .dropped).tail (.grown larger)
  exact ((hdropped.tail (.called rfl)).tail (.answered rfl)).tail
    (.passed rfl (hverdict second hsecond) fits')

/-- If the second of these jobs is carried out first, the first one brings its older head back. -/
theorem rolls_back (clear : store.Clear) (new : cache.trusted = none)
    (hfirst : first.verify cache.verifier = true) (hsecond : second.verify cache.verifier = true)
    (larger : first.treeSize ≤ second.treeSize) (fits : TrustedHead.Fits ⟨first, now⟩)
    (fits' : TrustedHead.Fits ⟨second, now⟩) : ∃ earlier later : LiveCache,
      Run (fun _ => True) ⟨cache, store, first, none, []⟩ earlier ∧
      Run (fun _ => True) earlier later ∧
      earlier.cache.trusted = some ⟨second, now⟩ ∧
      earlier.persisted = .ok (some ⟨second, now⟩) ∧
      later.cache.trusted = some ⟨first, now⟩ ∧ later.persisted = .ok (some ⟨first, now⟩) := by
  let flying : LiveCache :=
    ⟨cache, store, second, some .adopting, [⟨first, now⟩, ⟨second, now⟩]⟩
  obtain ⟨hclear, htrusted, hpersisted, hjobs⟩ :=
    carryOut_of_clear flying 1 clear fits'
  obtain ⟨-, htrusted', hpersisted', -⟩ := carryOut_of_clear _ 0 hclear fits
  have hflying : Run (fun _ => True) ⟨cache, store, first, none, []⟩ flying :=
    two_in_flight _ new hfirst hsecond larger fits fits'
  refine ⟨_, _, hflying.tail (.carriedOut rfl trivial), .single (.carriedOut ?_ trivial),
    htrusted, hpersisted, htrusted', hpersisted'⟩
  rw [hjobs]
  rfl

end AnyOrder

/-- **A size can shrink.** A log of one leaf shows its head and then that of two leaves; a refresh that
is dropped leaves its job behind, and the next refresh's job overtakes it. The size of the trusted and
of the stored head goes from two back to one. -/
theorem size_rolls_back : ∃ (cache : HeadCache) (first : TreeHead) (earlier later : LiveCache),
    HeadCache.restore "log" cache.verifier Store.inMemory = .ok cache ∧
      Run (fun _ => True) ⟨cache, Store.inMemory, first, none, []⟩ earlier ∧
      Run (fun _ => True) earlier later ∧
      ∃ old new : TrustedHead, old.head.treeSize = 2 ∧ new.head.treeSize = 1 ∧
        earlier.cache.trusted = some old ∧ earlier.persisted = .ok (some old) ∧
        later.cache.trusted = some new ∧ later.persisted = .ok (some new) := by
  let cache : HeadCache := ⟨"log", ⟨[], none, fun _ _ => true⟩, none⟩
  let first : TreeHead := ⟨1, Tree.rootOf [[1]], emptyRoot, []⟩
  let second : TreeHead := ⟨2, Tree.rootOf [[1], [2]], emptyRoot, []⟩
  let now := "1970-01-01T00:00:00Z"
  have hclear : Store.inMemory.Clear := by
    rintro _ ⟨⟩
  have hnew : cache.trusted = none := rfl
  have hlarger : first.treeSize ≤ second.treeSize := by decide
  have hfirst : TrustedHead.Fits ⟨first, now⟩ := ⟨by decide, by decide, by decide⟩
  have hsecond : TrustedHead.Fits ⟨second, now⟩ := ⟨by decide, by decide, by decide⟩
  obtain ⟨earlier, later, hbefore, hbetween, htrusted, hpersisted, htrusted', hpersisted'⟩ :=
    rolls_back hclear hnew rfl rfl hlarger hfirst hsecond
  exact ⟨cache, first, earlier, later, rfl, hbefore, hbetween, _, _, rfl, rfl, htrusted, hpersisted,
    htrusted', hpersisted'⟩

/-! ## Jobs in order -/

/-- The size of a head that is on its way or waits for its proof. -/
def pendingSizes : Option Underway → List UInt64
  | none => []
  | some .asking => []
  | some (.answered candidate) => [candidate.treeSize]
  | some (.proving _ candidate) => [candidate.treeSize]
  | some .adopting => []

/-- The sizes of the heads that a cache trusts, that its jobs will bring, that its refresh has been
given, and that its log shows. -/
def sizes (s : LiveCache) : List UInt64 :=
  (s.cache.trusted.toList ++ s.jobs).map (fun trusted => trusted.head.treeSize) ++
    pendingSizes s.underway ++ [s.shown.treeSize]

/-- Heads lie between the trusted one and the one shown in the order of their sizes, and the trusted
head is stored. -/
structure Ordered (s : LiveCache) : Prop where
  sorted : s.sizes.Pairwise (· ≤ ·)
  fits : ∀ job ∈ s.jobs, job.Fits
  stored : s.persisted = .ok s.cache.trusted

section InOrder

variable {s s' : LiveCache}

/-- A refresh whose head passes moves the head's size from its own place to the end of the jobs. -/
theorem Ordered.handOver {candidate : TreeHead} {now : String} (h : s.Ordered)
    (pending : pendingSizes s.underway = [candidate.treeSize])
    (fits : TrustedHead.Fits ⟨candidate, now⟩) : (s.handOver ⟨candidate, now⟩).Ordered := by
  refine ⟨?_, ?_, h.stored⟩
  · have hsizes : (s.handOver ⟨candidate, now⟩).sizes = s.sizes := by
      unfold sizes
      rw [pending]
      simp [LiveCache.handOver, pendingSizes]
    rw [hsizes]
    exact h.sorted
  · intro job hjob
    rcases List.mem_append.mp hjob with hmem | hmem
    · exact h.fits job hmem
    · obtain rfl := List.mem_singleton.mp hmem
      exact fits

/-- The refresh that waits for a job has no head of its own any more. -/
theorem pendingSizes_carryOut (s : LiveCache) (index : Nat) (job : TrustedHead) :
    pendingSizes (s.carryOut index job).underway = pendingSizes s.underway := by
  show pendingSizes (if s.awaits index then none else s.underway) = _
  by_cases hawaits : s.awaits index = true
  · have hadopting : s.underway = some .adopting := (of_decide_eq_true hawaits).1
    rw [if_pos hawaits, hadopting]
    rfl
  · rw [if_neg hawaits]

/-- The oldest job takes the trusted head's place, or leaves it its place if it fails. -/
theorem Ordered.carryOut {job : TrustedHead} {rest : List TrustedHead} (h : s.Ordered)
    (hjobs : s.jobs = job :: rest) : (s.carryOut 0 job).Ordered ∧
      TrustedHead.NeverShrinks s.cache.trusted (s.carryOut 0 job).cache.trusted := by
  have hfits : job.Fits := h.fits job (by rw [hjobs]; exact List.mem_cons_self)
  have hrest : (s.carryOut 0 job).jobs = rest := by
    show s.jobs.eraseIdx 0 = rest
    rw [hjobs, List.eraseIdx_cons_zero]
  have htrusted : (s.carryOut 0 job).cache.trusted = some job ∨
      (s.carryOut 0 job).cache.trusted = s.cache.trusted := by
    unfold LiveCache.carryOut
    rcases s.cache.adopt_outcome s.store job with ⟨store', hadopt, -⟩ | ⟨e, store', hadopt, -⟩
    · rw [hadopt]
      exact Or.inl rfl
    · rw [hadopt]
      exact Or.inr rfl
  refine ⟨⟨?_, ?_, carryOut_persisted h.stored hfits⟩, ?_⟩
  · refine h.sorted.sublist ?_
    unfold sizes
    rw [pendingSizes_carryOut, hrest, hjobs]
    refine List.Sublist.append_right (List.Sublist.append_right (List.Sublist.map _ ?_) _) _
    rcases htrusted with heq | heq
    · rw [heq]
      exact List.sublist_append_right _ _
    · rw [heq]
      exact List.Sublist.append_left (List.sublist_cons_self _ _) _
  · intro other hother
    rw [hrest] at hother
    exact h.fits other (by rw [hjobs]; exact List.mem_cons_of_mem _ hother)
  · rcases htrusted with heq | heq
    · intro old hold
      refine ⟨job, heq, ?_⟩
      have hsorted := h.sorted
      unfold sizes at hsorted
      rw [hold, hjobs] at hsorted
      exact List.rel_of_pairwise_cons hsorted (List.mem_cons_self)
    · rw [heq]
      exact TrustedHead.NeverShrinks.refl _

theorem Ordered.le_shown (h : s.Ordered) : ∀ size ∈ s.sizes, size ≤ s.shown.treeSize := by
  intro size hsize
  rcases List.mem_append.mp hsize with hmem | hmem
  · exact (List.pairwise_append.mp h.sorted).2.2 size hmem _ (List.mem_singleton_self _)
  · rw [List.mem_singleton.mp hmem]
    exact UInt64.le_refl _

/-- Every step keeps the order, if only the oldest job may be carried out. -/
theorem Ordered.step (h : s.Ordered) (next : Step (· = 0) s s') :
    s'.Ordered ∧ TrustedHead.NeverShrinks s.cache.trusted s'.cache.trusted := by
  have hsame := TrustedHead.NeverShrinks.refl s.cache.trusted
  have hsorted := h.sorted
  cases next with
  | grown larger =>
    -- All sizes but the last are as before, and below what was shown before.
    refine ⟨⟨?_, h.fits, h.stored⟩, hsame⟩
    refine List.pairwise_append.mpr
      ⟨(List.pairwise_append.mp hsorted).1, List.pairwise_singleton _ _, ?_⟩
    rintro size hsize _ hlast
    obtain rfl := List.mem_singleton.mp hlast
    exact UInt64.le_trans (h.le_shown size (List.mem_append_left _ hsize)) larger
  | called free =>
    refine ⟨⟨?_, h.fits, h.stored⟩, hsame⟩
    unfold sizes at hsorted ⊢
    rw [free] at hsorted
    exact hsorted
  | answered asked =>
    -- The size shown stands there twice now.
    refine ⟨⟨?_, h.fits, h.stored⟩, hsame⟩
    have hsizes : sizes { s with underway := some (.answered s.shown) } =
        s.sizes ++ [s.shown.treeSize] := by
      unfold sizes
      rw [asked]
      simp [pendingSizes]
    rw [hsizes]
    refine List.pairwise_append.mpr ⟨hsorted, List.pairwise_singleton _ _, ?_⟩
    rintro size hsize _ hlast
    obtain rfl := List.mem_singleton.mp hlast
    exact h.le_shown size hsize
  | passed arrived verdict fits => exact ⟨h.handOver (by rw [arrived]; rfl) fits, hsame⟩
  | challenged arrived verdict =>
    refine ⟨⟨?_, h.fits, h.stored⟩, hsame⟩
    unfold sizes at hsorted ⊢
    rw [arrived] at hsorted
    exact hsorted
  | linked arrived verdict fits => exact ⟨h.handOver (by rw [arrived]; rfl) fits, hsame⟩
  | dropped =>
    refine ⟨⟨hsorted.sublist ?_, h.fits, h.stored⟩, hsame⟩
    unfold sizes
    rw [pendingSizes, List.append_nil]
    exact List.Sublist.append_right (List.sublist_append_left _ _) _
  | carriedOut found chosen =>
    subst chosen
    obtain ⟨rest, hjobs⟩ := List.head?_eq_some_iff.mp (List.head?_eq_getElem?.trans found)
    exact h.carryOut hjobs
  | elsewhere same =>
    exact ⟨⟨hsorted, h.fits, (HeadCache.persisted_congr same).trans h.stored⟩, hsame⟩

/-- **In order**, jobs never bring back an older head, however many refreshes are dropped. -/
theorem run_ordered {start : LiveCache} (h : start.Ordered) (hrun : Run (· = 0) start s) :
    s.Ordered ∧ TrustedHead.NeverShrinks start.cache.trusted s.cache.trusted := by
  induction hrun with
  | refl => exact ⟨h, TrustedHead.NeverShrinks.refl _⟩
  | tail before next ih =>
    obtain ⟨hnext, hgrown⟩ := ih.1.step next
    exact ⟨hnext, ih.2.trans hgrown⟩

/-- A cache that has been opened on an honest log's store is in order. -/
theorem ordered_of_restore {logName : String} {verifier : Signer} {store : Store} {cache : HeadCache}
    {shown : TreeHead} (hopen : HeadCache.restore logName verifier store = .ok cache)
    (hshown : ∀ head, cache.head? = some head → head.treeSize ≤ shown.treeSize) :
    Ordered ⟨cache, store, shown, none, []⟩ := by
  obtain ⟨rfl, -, hstored, -⟩ := HeadCache.restore_eq_ok_iff.mp hopen
  refine ⟨?_, fun job hjob => absurd hjob List.not_mem_nil, hstored⟩
  unfold sizes
  cases htrusted : cache.trusted with
  | none => exact List.pairwise_singleton _ _
  | some trusted =>
    exact List.pairwise_pair.mpr (hshown trusted.head (by rw [HeadCache.head?, htrusted]; rfl))

/-- **A size never shrinks** if jobs are carried out in the order in which they were handed over. The
trusted head is always the stored one, and its tree size never decreases, wherever refreshes are
dropped and however many jobs are in flight. -/
theorem size_never_shrinks {logName : String} {verifier : Signer} {store : Store} {cache : HeadCache}
    {shown : TreeHead} (hopen : HeadCache.restore logName verifier store = .ok cache)
    (hshown : ∀ head, cache.head? = some head → head.treeSize ≤ shown.treeSize)
    {earlier later : LiveCache} (hbefore : Run (· = 0) ⟨cache, store, shown, none, []⟩ earlier)
    (hbetween : Run (· = 0) earlier later) :
    TrustedHead.NeverShrinks earlier.cache.trusted later.cache.trusted ∧
      earlier.persisted = .ok earlier.cache.trusted ∧
      later.persisted = .ok later.cache.trusted := by
  have hearlier := (run_ordered (ordered_of_restore hopen hshown) hbefore).1
  obtain ⟨hlater, hgrown⟩ := run_ordered hearlier hbetween
  exact ⟨hgrown, hearlier.stored, hlater.stored⟩

/-- The same two jobs, in the order in which they were handed over. -/
theorem size_never_shrinks_one_to_two : ∃ (cache : HeadCache) (earlier later : LiveCache)
    (old new : TrustedHead), Run (· = 0) earlier later ∧ cache.trusted = none ∧
      earlier.cache.trusted = some old ∧ later.cache.trusted = some new ∧
      old.head.treeSize = 1 ∧ new.head.treeSize = 2 ∧
      earlier.persisted = .ok (some old) ∧ later.persisted = .ok (some new) ∧
      TrustedHead.NeverShrinks earlier.cache.trusted later.cache.trusted := by
  let cache : HeadCache := ⟨"log", ⟨[], none, fun _ _ => true⟩, none⟩
  let first : TreeHead := ⟨1, Tree.rootOf [[1]], emptyRoot, []⟩
  let second : TreeHead := ⟨2, Tree.rootOf [[1], [2]], emptyRoot, []⟩
  let now := "1970-01-01T00:00:00Z"
  let flying : LiveCache :=
    ⟨cache, Store.inMemory, second, some .adopting, [⟨first, now⟩, ⟨second, now⟩]⟩
  have hclear : flying.store.Clear := by
    rintro _ ⟨⟩
  have hfirst : TrustedHead.Fits ⟨first, now⟩ := ⟨by decide, by decide, by decide⟩
  have hsecond : TrustedHead.Fits ⟨second, now⟩ := ⟨by decide, by decide, by decide⟩
  have hopen : HeadCache.restore "log" cache.verifier Store.inMemory = .ok cache := by rfl
  have hflying : Run (· = 0) ⟨cache, Store.inMemory, first, none, []⟩ flying :=
    two_in_flight _ rfl rfl rfl (by decide) hfirst hsecond
  obtain ⟨hclear', htrusted, -, hjobs⟩ := carryOut_of_clear flying 0 hclear hfirst
  obtain ⟨-, htrusted', -, -⟩ := carryOut_of_clear _ 0 hclear' hsecond
  have holdest : flying.jobs[0]? = some ⟨first, now⟩ := rfl
  have hnext : (flying.carryOut 0 ⟨first, now⟩).jobs[0]? = some ⟨second, now⟩ := by
    rw [hjobs]
    rfl
  have hbefore := hflying.tail (.carriedOut holdest rfl)
  have hbetween : Run (· = 0) (flying.carryOut 0 ⟨first, now⟩) _ := .single (.carriedOut hnext rfl)
  obtain ⟨hgrown, hstored, hstored'⟩ :=
    size_never_shrinks hopen (by rintro _ ⟨⟩) hbefore hbetween
  rw [htrusted] at hstored
  rw [htrusted'] at hstored'
  exact ⟨cache, _, _, _, _, hbetween, rfl, htrusted, htrusted', rfl, rfl, hstored, hstored', hgrown⟩

/-! ## One job at a time -/

/-- A step in which no refresh is over before the job that it waits for. -/
def Patient (s s' : LiveCache) : Prop :=
  Step (fun _ => True) s s' ∧
    (s.underway = some .adopting → s'.underway = none → s'.jobs.length < s.jobs.length)

/-- No job is in flight but that of the refresh that waits for it. -/
def Single (s : LiveCache) : Prop :=
  s.jobs = [] ∨ ∃ job, s.jobs = [job] ∧ s.underway = some .adopting

theorem Single.jobs_eq_nil (h : s.Single) (busy : s.underway ≠ some .adopting) : s.jobs = [] := by
  rcases h with hnil | ⟨_, _, hadopting⟩
  · exact hnil
  · exact absurd hadopting busy

theorem single_handOver (hnil : s.jobs = []) (trusted : TrustedHead) :
    (s.handOver trusted).Single := by
  refine Or.inr ⟨trusted, ?_, rfl⟩
  show s.jobs ++ [trusted] = [trusted]
  rw [hnil, List.nil_append]

theorem Single.step (h : s.Single) (next : Patient s s') : s'.Single ∧ Step (· = 0) s s' := by
  obtain ⟨next, patient⟩ := next
  cases next with
  | grown larger => exact ⟨h, .grown larger⟩
  | called free =>
    have hnil := h.jobs_eq_nil (by simp [free])
    exact ⟨Or.inl hnil, .called free⟩
  | answered asked =>
    have hnil := h.jobs_eq_nil (by simp [asked])
    exact ⟨Or.inl hnil, .answered asked⟩
  | passed arrived verdict fits =>
    have hnil := h.jobs_eq_nil (by simp [arrived])
    exact ⟨single_handOver hnil _, .passed arrived verdict fits⟩
  | challenged arrived verdict =>
    have hnil := h.jobs_eq_nil (by simp [arrived])
    exact ⟨Or.inl hnil, .challenged arrived verdict⟩
  | linked arrived verdict fits =>
    have hnil := h.jobs_eq_nil (by simp [arrived])
    exact ⟨single_handOver hnil _, .linked arrived verdict fits⟩
  | dropped =>
    rcases h with hnil | ⟨_, _, hadopting⟩
    · exact ⟨Or.inl hnil, .dropped⟩
    · exact absurd (patient hadopting rfl) (Nat.lt_irrefl _)
  | @carriedOut index _ found _ =>
    -- The job found is the only one, so it is the oldest.
    rcases h with hnil | ⟨only, hjobs, _⟩
    · simp [hnil] at found
    · obtain rfl : index = 0 := by
        have hlt := (List.getElem?_eq_some_iff.mp found).1
        rw [hjobs] at hlt
        exact Nat.lt_one_iff.mp hlt
      refine ⟨Or.inl ?_, .carriedOut found rfl⟩
      show s.jobs.eraseIdx 0 = []
      rw [hjobs, List.eraseIdx_cons_zero]
  | elsewhere same => exact ⟨h, .elsewhere same⟩

/-- **With patience**, jobs never bring back an older head, in whatever order they may be carried out. -/
theorem run_patient {start : LiveCache} (h : start.Ordered) (single : start.Single)
    (hrun : Relation.ReflTransGen Patient start s) :
    s.Ordered ∧ TrustedHead.NeverShrinks start.cache.trusted s.cache.trusted := by
  have hordered : s.Single ∧ Run (· = 0) start s := by
    induction hrun with
    | refl => exact ⟨single, .refl⟩
    | tail before next ih =>
      obtain ⟨hsingle, hstep⟩ := ih.1.step next
      exact ⟨hsingle, ih.2.tail hstep⟩
  exact run_ordered h hordered.2

end InOrder

end LiveCache

end TransparencyLog
