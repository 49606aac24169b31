import TransparencyLog.Proofs.Follow.Persisted
import TransparencyLog.Proofs.Ledger.Issued

/-!
# An honest log is never rejected

A follower polls a log while batches are committed, heads are shown and either of the two is opened
again. Its refresh has three steps: a head is fetched; it is checked, with a proof asked of the log as it
is by then; it is adopted. The head shown never becomes smaller, so no head that is fetched is smaller
than the trusted one. Heads of one size are one head, and a log can prove any two of its sizes to
continue each other. So no check ever fails.

* `Polling`, `Polling.Step`, `Polling.Run`: a log, its follower and their runs;
* `Polling.refresh_eq`: a refresh that nothing comes between is these three steps;
* `Polling.Sound`: what holds between the steps; **`Polling.Sound.check_eq`** for a check, a lemma for
  every kind of step, and **`Polling.sound_of_run`** for whole runs;
* `Polling.exists_finished`: a refresh that is underway can always go on;
* **`Polling.refreshes_succeed`**.
-/

namespace TransparencyLog

open Ledger

/-- What a refresh does that puts a head in the place of the trusted one. -/
def RefreshOutcome.of (old? : Option TreeHead) (candidate : TreeHead) : RefreshOutcome :=
  match old? with
  | none => .initialized candidate.treeSize
  | some old =>
    if candidate.treeSize = old.treeSize then .unchanged candidate.treeSize
    else .advanced old.treeSize candidate.treeSize

/-- How far a refresh has come: the log has been asked for its head, or a head has passed the checks. -/
inductive PollStage
  | fetched (answer : Except ApiError TreeHead)
  | passed (candidate : TreeHead) (outcome : RefreshOutcome)

/-- The head that a refresh has fetched. -/
def PollStage.answer : PollStage → Except ApiError TreeHead
  | .fetched answer => answer
  | .passed candidate _ => .ok candidate

/-- A log and a follower of it, with the refresh that is underway and the outcomes of those before. -/
structure Polling where
  log : SharedLog
  cache : HeadCache
  store : Store
  underway : Option PollStage := none
  outcomes : List (Except CacheError RefreshOutcome) := []

namespace Polling

/-! ## Runs -/

/-- The log is asked for its head. -/
def fetch (p : Polling) : Polling :=
  { p with underway := some (.fetched (p.log.served.read .head)) }

/-- The head fetched is checked; if it needs a proof, the log is asked for it now. -/
def check (p : Polling) (answer : Except ApiError TreeHead) : Polling :=
  match p.cache.check answer fun first second => p.log.served.read (.consistency first second) with
  | .ok (candidate, outcome) => { p with underway := some (.passed candidate outcome) }
  | .error e => { p with underway := none, outcomes := p.outcomes ++ [.error e] }

/-- A head that has passed is stored and trusted. -/
def adopt (p : Polling) (candidate : TreeHead) (outcome : RefreshOutcome) (now : String) : Polling :=
  let (adopted, cache, store) := p.cache.adopt p.store ⟨candidate, now⟩
  { p with cache, store, underway := none, outcomes := p.outcomes ++ [adopted.map fun _ => outcome] }

/-- One step of either. The log takes a step of its own. The follower begins a refresh, if none is
underway, or goes on with it; nothing is in the way when it stores a head. It starts again, on the store
at hand or on what another process reads from its file, and forgets the refresh that was underway. In
between anything may happen to its store that leaves the stored head alone. -/
inductive Step (name : String) (signer : Signer) : Polling → Polling → Prop
  | log {p : Polling} {log' : SharedLog} {items : List Record} {issued : List TreeHead}
    (step : SharedLog.Step name signer p.log items issued log') :
    Step name signer p { p with log := log' }
  | fetched {p : Polling} (idle : p.underway = none) : Step name signer p p.fetch
  | checked {p : Polling} {answer : Except ApiError TreeHead}
    (underway : p.underway = some (.fetched answer)) : Step name signer p (p.check answer)
  | adopted {p : Polling} {candidate : TreeHead} {outcome : RefreshOutcome}
    (underway : p.underway = some (.passed candidate outcome)) (clear : p.store.Clear) (now : String)
    (fits : TrustedHead.Fits ⟨candidate, now⟩) : Step name signer p (p.adopt candidate outcome now)
  | restarted {p : Polling} {cache : HeadCache}
    (step : HeadCache.restore p.cache.logName p.cache.verifier p.store = .ok cache) :
    Step name signer p { p with cache, underway := none }
  | reloaded {p : Polling} {store : Store} {cache : HeadCache} (fits : p.store.contents.Fits)
    (reread : p.store.reread = .ok store)
    (step : HeadCache.restore p.cache.logName p.cache.verifier store = .ok cache) :
    Step name signer p { p with cache, store, underway := none }
  | elsewhere {p : Polling} {store : Store} (kept : store.Kept)
    (same : store.contents.snapshot (HeadCache.storedAt p.cache.logName) =
      p.store.contents.snapshot (HeadCache.storedAt p.cache.logName)) :
    Step name signer p { p with store }

/-- What a log and its follower can become. The log has been opened on a fresh store and may have taken
any steps since; the follower starts without a trusted head. -/
inductive Run (name : String) (signer : Signer) (logName : String) (verifier : Signer) :
    Polling → Prop
  | opened {log : SharedLog} {pairs : List Record} {heads : List TreeHead} {cache : HeadCache}
    {store : Store} (reaches : SharedLog.Reaches name signer log pairs heads) (kept : store.Kept)
    (restored : HeadCache.restore logName verifier store = .ok cache) (new : cache.trusted = none) :
    Run name signer logName verifier { log, cache, store }
  | next {p p' : Polling} (before : Run name signer logName verifier p)
    (step : Step name signer p p') : Run name signer logName verifier p'

/-- A refresh of the follower, all at once. -/
def refresh (p : Polling) (now : String) :
    Except CacheError RefreshOutcome × HeadCache × Store :=
  p.cache.refresh p.store (p.log.served.read .head)
    (fun first second => p.log.served.read (.consistency first second)) now

/-- **A refresh that nothing comes between** is its steps, one after another. -/
theorem refresh_eq (p : Polling) (now : String) :
    (∃ e, p.check (p.log.served.read .head) =
        { p with underway := none, outcomes := p.outcomes ++ [.error e] } ∧
      p.refresh now = (.error e, p.cache, p.store)) ∨
    ∃ candidate outcome,
      p.check (p.log.served.read .head) = { p with underway := some (.passed candidate outcome) } ∧
      p.adopt candidate outcome now =
        { p with
          cache := (p.refresh now).2.1
          store := (p.refresh now).2.2
          underway := none
          outcomes := p.outcomes ++ [(p.refresh now).1] } := by
  unfold refresh check HeadCache.refresh
  cases p.cache.check (p.log.served.read .head) fun first second =>
      p.log.served.read (.consistency first second) with
  | error e => exact Or.inl ⟨e, rfl, rfl⟩
  | ok checked => exact Or.inr ⟨checked.1, checked.2, rfl, rfl⟩

/-! ## What holds between steps -/

/-- The log is sound, and the follower checks with its key. The stored head is the trusted one. Whatever
is trusted or fetched was issued by the log and is no larger than the head shown, and what is fetched is
no smaller than what is trusted. No refresh has failed. -/
structure Sound (signer : Signer) (p : Polling) (pairs : List Record) (heads : List TreeHead)
    (roots : List Digest) : Prop where
  log : p.log.Sound signer pairs heads roots
  kept : p.store.Kept
  verifier : p.cache.verifier.verify = signer.verify
  persisted : HeadCache.persisted p.cache.logName p.store = .ok p.cache.trusted
  trusted : ∀ old, p.cache.head? = some old →
    old ∈ heads ∧ old.treeSize ≤ p.log.ledger.head.treeSize
  underway : ∀ stage, p.underway = some stage → ∃ candidate, stage.answer = .ok candidate ∧
    candidate ∈ heads ∧ candidate.treeSize ≤ p.log.ledger.head.treeSize ∧
    ∀ old, p.cache.head? = some old → old.treeSize ≤ candidate.treeSize
  outcomes : ∀ outcome ∈ p.outcomes, ∃ result, outcome = .ok result

section Sound

variable {name logName : String} {signer verifier : Signer} {p p' : Polling} {pairs : List Record}
  {heads : List TreeHead} {roots : List Digest} {candidate : TreeHead}

/-- The log's proof links any two heads that it has issued. -/
theorem Sound.exists_link (h : Sound signer p pairs heads roots) {old : TreeHead} (hold : old ∈ heads)
    (hmem : candidate ∈ heads) (hle : old.treeSize ≤ candidate.treeSize) :
    ∃ proof, p.log.served.read (.consistency old.treeSize candidate.treeSize) = .ok proof ∧
      Tree.verifyConsistency old.logRoot candidate.logRoot old.treeSize.toNat
        candidate.treeSize.toNat proof = true := by
  exact ⟨_, h.log.read_consistency hle (h.log.issuedAt hmem).2, h.log.verify_prefixProof hold hmem hle⟩

theorem Sound.verify (h : Sound signer p pairs heads roots) (honest : signer.Honest)
    (hmem : candidate ∈ heads) : candidate.verify p.cache.verifier = true := by
  rw [TreeHead.verify, h.verifier]
  exact (h.log.issuedAt hmem).1.verify honest

/-- **A head that the log has issued** passes the checks, if it is no smaller than the trusted one. -/
theorem Sound.check_eq (h : Sound signer p pairs heads roots) (honest : signer.Honest)
    (hmem : candidate ∈ heads)
    (hle : ∀ old, p.cache.head? = some old → old.treeSize ≤ candidate.treeSize) :
    p.cache.check (.ok candidate)
      (fun first second => p.log.served.read (.consistency first second)) =
        .ok (candidate, .of p.cache.head? candidate) := by
  have hsigned := h.verify honest hmem
  cases hhead : p.cache.head? with
  | none => exact HeadCache.check_of_none hhead hsigned
  | some old =>
    have hold := (h.trusted old hhead).1
    by_cases hsize : candidate.treeSize = old.treeSize
    · -- Heads of one size are one head, signature and all, so this is no fork.
      obtain rfl := h.log.eq_of_treeSize hmem hold hsize
      simp only [RefreshOutcome.of, if_true]
      exact HeadCache.check_of_same hhead
    · obtain ⟨proof, hproof, hlink⟩ := h.exists_link hold hmem (hle old hhead)
      have hlt := UInt64.lt_of_le_of_ne (hle old hhead) (Ne.symm hsize)
      simp only [RefreshOutcome.of, if_neg hsize]
      exact HeadCache.check_of_linked hhead hlt hsigned hproof hlink

/-! ## Steps -/

/-- **A step of the log** issues more heads, and shows none that is smaller. -/
theorem Sound.step_log (h : Sound signer p pairs heads roots) {log' : SharedLog} {items : List Record}
    {issued : List TreeHead} (step : SharedLog.Step name signer p.log items issued log') :
    ∃ later, Sound signer { p with log := log' } (pairs ++ items) (heads ++ issued)
      (roots ++ later) := by
  obtain ⟨later, hlog⟩ := h.log.step step
  have hshown := h.log.shown_le step
  refine ⟨later, hlog, h.kept, h.verifier, h.persisted, ?_, ?_, h.outcomes⟩
  · intro old hold
    obtain ⟨hmem, hle⟩ := h.trusted old hold
    exact ⟨List.mem_append_left _ hmem, UInt64.le_trans hle hshown⟩
  · intro stage hstage
    obtain ⟨candidate, hanswer, hmem, hle, hold⟩ := h.underway stage hstage
    exact ⟨candidate, hanswer, List.mem_append_left _ hmem, UInt64.le_trans hle hshown, hold⟩

/-- **The head that is fetched** is the one shown. -/
theorem Sound.fetch (h : Sound signer p pairs heads roots) : Sound signer p.fetch pairs heads roots := by
  refine ⟨h.log, h.kept, h.verifier, h.persisted, h.trusted, ?_, h.outcomes⟩
  rintro stage ⟨⟩
  exact ⟨p.log.ledger.head, rfl, h.log.shown, UInt64.le_refl _, fun old hold => (h.trusted old hold).2⟩

/-- **The head that was fetched** passes. -/
theorem Sound.check (h : Sound signer p pairs heads roots) (honest : signer.Honest)
    {answer : Except ApiError TreeHead} (underway : p.underway = some (.fetched answer)) :
    Sound signer (p.check answer) pairs heads roots := by
  obtain ⟨candidate, rfl, hmem, hle, hold⟩ := h.underway _ underway
  rw [Polling.check, h.check_eq honest hmem hold]
  refine ⟨h.log, h.kept, h.verifier, h.persisted, h.trusted, ?_, h.outcomes⟩
  rintro stage ⟨⟩
  exact ⟨candidate, rfl, hmem, hle, hold⟩

/-- **A head that has passed** is stored and trusted. -/
theorem Sound.adopt (h : Sound signer p pairs heads roots) {outcome : RefreshOutcome}
    (underway : p.underway = some (.passed candidate outcome)) (clear : p.store.Clear) {now : String}
    (fits : TrustedHead.Fits ⟨candidate, now⟩) :
    Sound signer (p.adopt candidate outcome now) pairs heads roots := by
  obtain ⟨_, ⟨⟩, hmem, hle, -⟩ := h.underway _ underway
  obtain ⟨store', hkept, hcases⟩ := HeadCache.adopt_cases h.kept p.cache ⟨candidate, now⟩
  obtain ⟨_, -, hclear, -⟩ := p.cache.adopt_of_clear clear ⟨candidate, now⟩
  rcases hcases with ⟨hadopt, hstored⟩ | ⟨e, hadopt, -⟩
  · rw [Polling.adopt, hadopt]
    refine ⟨h.log, hkept, h.verifier, HeadCache.persisted_of_some fits hstored, ?_, ?_, ?_⟩
    · rintro old ⟨⟩
      exact ⟨hmem, hle⟩
    · rintro stage ⟨⟩
    · intro result hresult
      rcases List.mem_append.mp hresult with hbefore | hlast
      · exact h.outcomes result hbefore
      · exact ⟨outcome, List.mem_singleton.mp hlast⟩
  · cases hadopt.symm.trans hclear

/-- **A follower that starts again** knows what it knew. -/
theorem Sound.restore_eq (h : Sound signer p pairs heads roots) (honest : signer.Honest) :
    HeadCache.restore p.cache.logName p.cache.verifier p.store = .ok p.cache := by
  refine HeadCache.restore_eq_ok_iff.mpr ⟨rfl, rfl, h.persisted, fun head hhead => ?_⟩
  exact h.verify honest (h.trusted head hhead).1

/-- A refresh that is given up leaves no trace. -/
theorem Sound.give_up (h : Sound signer p pairs heads roots) :
    Sound signer { p with underway := none } pairs heads roots := by
  refine ⟨h.log, h.kept, h.verifier, h.persisted, h.trusted, ?_, h.outcomes⟩
  rintro stage ⟨⟩

/-- **Every step** keeps all this. -/
theorem Sound.step (h : Sound signer p pairs heads roots) (honest : signer.Honest)
    (step : Step name signer p p') : ∃ pairs heads roots, Sound signer p' pairs heads roots := by
  cases step with
  | log step =>
    obtain ⟨later, hnext⟩ := h.step_log step
    exact ⟨_, _, _, hnext⟩
  | fetched idle => exact ⟨_, _, _, h.fetch⟩
  | checked underway => exact ⟨_, _, _, h.check honest underway⟩
  | adopted underway clear now fits => exact ⟨_, _, _, h.adopt underway clear fits⟩
  | restarted step =>
    obtain rfl := Except.ok.inj (step.symm.trans (h.restore_eq honest))
    exact ⟨_, _, _, h.give_up⟩
  | reloaded fits reread step =>
    rw [Store.reread_eq h.kept fits] at reread
    obtain rfl := Except.ok.inj reread
    obtain rfl := Except.ok.inj (step.symm.trans (h.restore_eq honest))
    exact ⟨_, _, _, h.give_up⟩
  | elsewhere kept same =>
    refine ⟨pairs, heads, roots, h.log, kept, h.verifier, ?_, h.trusted, h.underway, h.outcomes⟩
    rw [HeadCache.persisted_congr (HeadCache.stored_congr same)]
    exact h.persisted

/-- **Every run** of a log that signs honestly and a follower with its key. -/
theorem sound_of_run (honest : signer.Honest) (key : verifier.verify = signer.verify)
    (run : Run name signer logName verifier p) :
    ∃ pairs heads roots, Sound signer p pairs heads roots := by
  induction run with
  | @opened log pairs heads cache store reaches kept restored new =>
    obtain ⟨roots, hlog⟩ := SharedLog.sound_of_reaches reaches
    obtain ⟨hname, hverifier, hpersisted, -⟩ := HeadCache.restore_eq_ok_iff.mp restored
    refine ⟨pairs, heads, roots, hlog, kept, ?_, ?_, ?_, ?_, ?_⟩
    · rw [hverifier]
      exact key
    · rw [hname]
      exact hpersisted
    · intro old hold
      rw [HeadCache.head?, new] at hold
      cases hold
    · rintro stage ⟨⟩
    · intro outcome houtcome
      cases houtcome
  | next before step ih =>
    obtain ⟨pairs, heads, roots, sound⟩ := ih
    exact sound.step honest step

/-! ## Whole refreshes -/

/-- **A refresh that is underway** can be finished, whatever the log has done since its head was
fetched. -/
theorem exists_finished (honest : signer.Honest) (key : verifier.verify = signer.verify)
    (run : Run name signer logName verifier p)
    (underway : p.underway = some (.fetched (.ok candidate))) (clear : p.store.Clear) {now : String}
    (fits : TrustedHead.Fits ⟨candidate, now⟩) : ∃ store : Store, store.Clear ∧
      Run name signer logName verifier
        { p with
          cache := { p.cache with trusted := some ⟨candidate, now⟩ }
          store
          underway := none
          outcomes := p.outcomes ++ [.ok (.of p.cache.head? candidate)] } := by
  obtain ⟨pairs, heads, roots, sound⟩ := sound_of_run honest key run
  obtain ⟨_, ⟨⟩, hmem, -, hold⟩ := sound.underway _ underway
  have hcheck := sound.check_eq honest hmem hold
  let passed : Polling :=
    { p with underway := some (.passed candidate (.of p.cache.head? candidate)) }
  have hpassed : p.check (.ok candidate) = passed := by
    rw [Polling.check, hcheck]
  obtain ⟨store, hclear, hadopt, -⟩ := p.cache.adopt_of_clear clear ⟨candidate, now⟩
  have checked : Run name signer logName verifier passed := hpassed ▸ run.next (.checked underway)
  have adopted := checked.next (.adopted rfl (show passed.store.Clear from clear) now fits)
  rw [Polling.adopt, hadopt] at adopted
  exact ⟨store, hclear, adopted⟩

/-- **An honest log is never rejected.** However a log and its follower take turns, every refresh so far
has succeeded. So does one that follows at once, if nothing is in the way when it stores the head; and a
follower that starts again accepts the head that it has stored. -/
theorem refreshes_succeed (honest : signer.Honest) (key : verifier.verify = signer.verify)
    (run : Run name signer logName verifier p) :
    (∀ outcome ∈ p.outcomes, ∃ result, outcome = .ok result) ∧
      (p.store.Clear → ∀ now : String, ∃ result cache store,
        p.refresh now = (.ok result, cache, store)) ∧
      HeadCache.restore p.cache.logName p.cache.verifier p.store = .ok p.cache := by
  obtain ⟨pairs, heads, roots, sound⟩ := sound_of_run honest key run
  refine ⟨sound.outcomes, fun clear now => ?_, sound.restore_eq honest⟩
  have hcheck := sound.check_eq honest sound.log.shown fun old hold => (sound.trusted old hold).2
  obtain ⟨store, -, hadopt, -⟩ := p.cache.adopt_of_clear clear ⟨p.log.ledger.head, now⟩
  have hfetched : p.log.served.read .head = .ok p.log.ledger.head := rfl
  rw [refresh, HeadCache.refresh, hfetched, hcheck]
  simp only
  rw [hadopt]
  exact ⟨_, _, store, rfl⟩

end Sound

/-- A batch is committed between the fetching of the first head and its check, and shown afterwards; the
next refresh advances to its head with a proof. -/
theorem refreshes_succeed_advance : ∃ p : Polling, Run "log" Signer.mirror "log" Signer.mirror p ∧
    p.outcomes = [.ok (.initialized 1), .ok (.advanced 1 2)] ∧
    (∀ outcome ∈ p.outcomes, ∃ result, outcome = .ok result) ∧
    (∀ now : String, ∃ result cache store, p.refresh now = (.ok result, cache, store)) ∧
    HeadCache.restore p.cache.logName p.cache.verifier p.store = .ok p.cache := by
  let now := "1970-01-01T00:00:00Z"
  have time : (Bytes.ofText now).length < UInt64.size ∧ Moment.isMoment now = true := by decide
  obtain ⟨g⟩ := exists_grown_one_two "log" (show Store.inMemory.contents = ∅ from rfl)
    Store.clear_inMemory
  have hshown := g.standing.publish_eq "log" Signer.mirror g.standing_one
  have hnext := g.standing_one.publish_eq "log" Signer.mirror g.standing_two
  let start : Polling :=
    ⟨⟨⟨"log", Signer.mirror, g.genesis⟩, g.opened, []⟩, ⟨"log", Signer.mirror, none⟩,
      Store.inMemory, none, []⟩
  have opened : Run "log" Signer.mirror "log" Signer.mirror start :=
    .opened (g.reaches rfl) Store.kept_inMemory rfl rfl
  have committed := opened.next (.log (.committed g.commit_one g.fits_one))
  have published : Run "log" Signer.mirror "log" Signer.mirror
      { start with log := ⟨⟨"log", Signer.mirror, g.one⟩, g.afterOne, []⟩ } := by
    have next := committed.next (.log (.published (show ([] ++ [g.one])[0]? = some g.one from rfl)))
    rw [← hshown]
    exact next
  have fetched := published.next (.fetched rfl)
  have overtaken := fetched.next (.log (.committed g.commit_two g.fits_two))
  obtain ⟨store, clear, first⟩ := exists_finished Signer.mirror_honest rfl overtaken rfl
    Store.clear_inMemory
    (⟨g.standing_one.signature_lt (by decide), time.1, time.2⟩ : TrustedHead.Fits ⟨g.one, now⟩)
  have later : Run "log" Signer.mirror "log" Signer.mirror
      ⟨⟨⟨"log", Signer.mirror, g.two⟩, g.afterTwo, []⟩, ⟨"log", Signer.mirror, some ⟨g.one, now⟩⟩, store,
        none, [.ok (.of none g.one)]⟩ := by
    have next := first.next (.log (.published (show ([] ++ [g.two])[0]? = some g.two from rfl)))
    rw [← hnext]
    exact next
  have again := later.next (.fetched rfl)
  obtain ⟨store', clear', second⟩ := exists_finished Signer.mirror_honest rfl again rfl clear
    (⟨g.standing_two.signature_lt (by decide), time.1, time.2⟩ : TrustedHead.Fits ⟨g.two, now⟩)
  obtain ⟨hbefore, hrefresh, hrestore⟩ := refreshes_succeed Signer.mirror_honest rfl second
  refine ⟨_, second, ?_, hbefore, hrefresh clear', hrestore⟩
  simp [RefreshOutcome.of, HeadCache.head?, g.treeSize_one, g.treeSize_two, fetch, SharedLog.served]

end Polling

end TransparencyLog
