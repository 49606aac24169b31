import TransparencyLog.Proofs.Daemon.Remote
import TransparencyLog.Proofs.Ledger.Acceptance
import TransparencyLog.Proofs.Ledger.Refinement
import TransparencyLog.Proofs.Ledger.Shared

/-!
# Only submissions change a log

Whatever requests a daemon gets, its log changes only by a submission that is answered with success. Such
a submission is signed with the daemon's secret at a time near its clock, the pairs of its body are
recorded as one batch behind those before, and the answer is the new head. Every other request leaves the
head, the contents and the file alone.

* `Daemon.Alike`, `Daemon.Authentic`, and **`Daemon.handle_cases`**: what one request does;
* `ServedLog.Records`: the log has recorded a list of pairs;
* `Daemon.Serves`, `Daemon.Reached`: the runs of a daemon, and what holds between requests;
* **`Daemon.log_changed_only_by_submission`**: every request of every run.
-/

namespace TransparencyLog

/-! ## One request -/

namespace Daemon

variable {daemon : Daemon} {around : Surroundings} {request : Http.Request} {items : List Record}

/-- Nothing has changed but what a commit that failed has left in the scratch file. -/
structure Alike (daemon daemon' : Daemon) : Prop where
  served : Option.Rel ServedLog.Alike daemon.served daemon'.served
  others : daemon' = { daemon with served := daemon'.served }

theorem Alike.refl (daemon : Daemon) : daemon.Alike daemon := by
  refine ⟨?_, rfl⟩
  cases daemon.served with
  | none => exact .none
  | some log => exact .some (.refl log)

theorem Alike.of_some {daemon' : Daemon} (h : daemon.Alike daemon') {log : ServedLog}
    (hserved : daemon.served = some log) : ∃ log', daemon'.served = some log' ∧ log.Alike log' := by
  have hrel := h.served
  rw [hserved] at hrel
  generalize daemon'.served = served' at hrel ⊢
  cases hrel with
  | some same => exact ⟨_, rfl, same⟩

theorem Alike.of_none {daemon' : Daemon} (h : daemon.Alike daemon') (hserved : daemon.served = none) :
    daemon'.served = none := by
  have hrel := h.served
  rw [hserved] at hrel
  generalize daemon'.served = served' at hrel ⊢
  cases hrel
  rfl

/-- The request tells a time near the clock and the keyed hash of that time and of its own body, under the
daemon's secret. -/
def Authentic (daemon : Daemon) (now : Int64) (request : Http.Request) : Prop :=
  ∃ secret time, daemon.secret = some secret ∧
    Auth.readTimestamp (request.header? Auth.timestampHeader) = .ok time ∧
    (now.toInt - time.toInt).natAbs ≤ Auth.maxSkew ∧
    Auth.readSignature (request.header? Auth.signatureHeader) = .ok (Auth.mac secret time request.body)

theorem authentic_of_readSubmission {now : Int64} (h : daemon.readSubmission now request = .ok items) :
    daemon.Authentic now request ∧ Wire.readBatch request.body = .ok items := by
  obtain ⟨-, secret, hsecret, hverify, hitems⟩ := readSubmission_eq_ok_iff.mp h
  obtain ⟨time, htime, hsignature, hfresh⟩ := Auth.verify_eq_ok_iff.mp hverify
  exact ⟨⟨secret, time, hsecret, htime, hfresh, hsignature⟩, hitems⟩

/-- **What a request does.** It changes nothing, and is no submission that is answered with success; or it
is one, and the log has taken the pairs of its body. -/
theorem handle_cases (daemon : Daemon) (around : Surroundings) (request : Http.Request) :
    (¬ (request.IsSubmission ∧ (daemon.handle around request).1.status = 200) ∧
      daemon.Alike (daemon.handle around request).2) ∨
    ∃ items log head log', request.IsSubmission ∧ daemon.Authentic around.now request ∧
      Wire.readBatch request.body = .ok items ∧ daemon.served = some log ∧
      log.answer (.submit items) = (.ok head, log') ∧
      daemon.handle around request =
        (⟨200, (LogCall.submit items).write head⟩, { daemon with served := some log' }) := by
  by_cases hsubmission : request.IsSubmission
  case neg =>
    rw [handle_other hsubmission]
    exact Or.inl ⟨fun h => hsubmission h.1, .refl daemon⟩
  rw [handle_submission hsubmission]
  cases hread : daemon.readSubmission around.now request with
  | error e =>
    have hsubmit : daemon.submit around.now request = (.error e, daemon) := by
      simp only [submit, hread]
    rw [hsubmit]
    exact Or.inl ⟨fun h => status_ne_of_readSubmission hread h.2, .refl daemon⟩
  | ok items =>
    cases hserved : daemon.served with
    | none =>
      have hsubmit : daemon.submit around.now request = (.error .notServed, daemon) := by
        simp only [submit, hread, hserved]
      rw [hsubmit]
      refine Or.inl ⟨fun h => ?_, .refl daemon⟩
      cases h.2
    | some log =>
      rw [submit_eq hread hserved]
      rcases hanswer : log.answer (.submit items) with ⟨_ | head, log'⟩
      case error e =>
        refine Or.inl ⟨fun h => e.status_ne h.2, ?_, rfl⟩
        rw [hserved]
        refine .some ?_
        have halike := ServedLog.alike_of_error (congrArg Prod.fst hanswer)
        rwa [hanswer] at halike
      case ok =>
        obtain ⟨hauthentic, hitems⟩ := authentic_of_readSubmission hread
        exact Or.inr ⟨items, log, head, log', hsubmission, hauthentic, hitems, rfl, hanswer, rfl⟩

end Daemon

/-! ## What a log has recorded -/

/-- The log has recorded the pairs: the head it shows is the stored one, with the size and the root of the
list, and a range of records is a range of the list. -/
structure ServedLog.Records (log : ServedLog) (pairs : List Record) : Prop where
  stored : log.store.view Ledger.storedHead = .ok log.ledger.head
  treeSize : log.ledger.head.treeSize.toNat = pairs.length
  logRoot : ∃ leaves, pairs.mapM Record.encode = .ok leaves ∧
    log.ledger.head.logRoot = Tree.rootOf leaves
  records : ∀ first last, first ≤ last → last < pairs.length →
    Ledger.records log.store first last = .ok ((pairs.drop first).take (last - first + 1))

namespace SharedLog

open Ledger

variable {name : String} {signer : Signer} {log log' : ServedLog} {pairs items : List Record}
  {heads : List TreeHead}

/-- **With every head shown**, the pairs committed are the pairs recorded. -/
theorem records_of_reaches (h : Reaches name signer ⟨log.ledger, log.store, []⟩ pairs heads) :
    log.Records pairs := by
  obtain ⟨roots, sound⟩ := sound_of_reaches h
  have hsize := sound.shown_treeSize rfl
  refine ⟨sound.stored_of_idle rfl, hsize, ⟨_, mapM_encode_eq sound.tracks.fits, ?_⟩,
    fun first last hle hlt => ?_⟩
  · have hroot := (sound.issuedAt sound.shown).1.logRoot
    rwa [hsize, ← length_leavesOf, List.take_length] at hroot
  · refine records_of_entries (entries_of_holds sound.holds sound.storedLog_eq hle hlt) fun pair hpair => ?_
    exact sound.tracks.fits pair (List.mem_of_mem_drop (List.mem_of_mem_take hpair))

/-- A log that is as it was, up to its scratch file, is reached as well. -/
theorem Reaches.alike (h : Reaches name signer ⟨log.ledger, log.store, []⟩ pairs heads)
    (alike : log.Alike log') : Reaches name signer ⟨log'.ledger, log'.store, []⟩ pairs heads := by
  obtain ⟨slot, hstore⟩ := alike.store.exists_withScratch
  rw [alike.ledger, hstore]
  exact h.quiet (.obstructed slot)

end SharedLog

/-! ## Runs of a daemon -/

namespace Daemon

variable {daemon daemon' : Daemon} {pairs : List Record}

/-- The daemon serves no log and nothing is recorded, or it serves a log that has committed the pairs and
shown every head. -/
def Serves (daemon : Daemon) (pairs : List Record) : Prop :=
  (daemon.served = none ∧ pairs = []) ∨ ∃ log name signer heads, daemon.served = some log ∧
    SharedLog.Reaches name signer ⟨log.ledger, log.store, []⟩ pairs heads

/-- The pairs that a request adds: those of its body, if it is a submission answered with success. -/
def accepted (daemon : Daemon) (around : Surroundings) (request : Http.Request) : List Record :=
  if request.IsSubmission ∧ (daemon.handle around request).1.status = 200 then
    (Wire.readBatch request.body).toOption.getD []
  else []

/-- The daemon once something else has got in the way of the scratch file. -/
def obstruct (daemon : Daemon) (slot : Slot) : Daemon :=
  { daemon with served := daemon.served.map fun log => ⟨log.ledger, log.store.withScratch slot⟩ }

/-- What a daemon can become, with the pairs its log has recorded: any requests are handled, followed logs
are refreshed, and something else gets in the way of the scratch file. The lengths in the store fit their
64 bits. -/
inductive Reached : Daemon → List Record → Prop
  | started {daemon : Daemon} {pairs : List Record} (serves : daemon.Serves pairs) : Reached daemon pairs
  | handled {daemon : Daemon} {pairs : List Record} (before : Reached daemon pairs)
    (around : Surroundings) (request : Http.Request)
    (fits : ∀ log, (daemon.handle around request).2.served = some log → log.store.contents.Fits) :
    Reached (daemon.handle around request).2 (pairs ++ daemon.accepted around request)
  | refreshed {daemon daemon' : Daemon} {pairs : List Record} (before : Reached daemon pairs)
    {around : Surroundings} {name : String} {outcome : Except CacheError RefreshOutcome}
    (step : daemon.refresh around name = some (outcome, daemon')) : Reached daemon' pairs
  | obstructed {daemon : Daemon} {pairs : List Record} (before : Reached daemon pairs) (slot : Slot) :
    Reached (daemon.obstruct slot) pairs

theorem Serves.records (h : daemon.Serves pairs) {log : ServedLog} (hserved : daemon.served = some log) :
    log.Records pairs := by
  rcases h with ⟨hnone, -⟩ | ⟨other, name, signer, heads, hother, reaches⟩
  · rw [hserved] at hnone
    cases hnone
  · obtain rfl := Option.some.inj (hserved.symm.trans hother)
    exact SharedLog.records_of_reaches reaches

theorem Serves.alike (h : daemon.Serves pairs) (alike : daemon.Alike daemon') : daemon'.Serves pairs := by
  rcases h with ⟨hnone, hpairs⟩ | ⟨log, name, signer, heads, hserved, reaches⟩
  · exact Or.inl ⟨alike.of_none hnone, hpairs⟩
  · obtain ⟨log', hserved', same⟩ := alike.of_some hserved
    exact Or.inr ⟨log', name, signer, heads, hserved', reaches.alike same⟩

theorem Serves.obstruct (h : daemon.Serves pairs) (slot : Slot) : (daemon.obstruct slot).Serves pairs := by
  rcases h with ⟨hnone, hpairs⟩ | ⟨log, name, signer, heads, hserved, reaches⟩
  · exact Or.inl ⟨by rw [Daemon.obstruct, hnone]; rfl, hpairs⟩
  · refine Or.inr ⟨⟨log.ledger, log.store.withScratch slot⟩, name, signer, heads, ?_, ?_⟩
    · rw [Daemon.obstruct, hserved]
      rfl
    · exact reaches.quiet (.obstructed slot)

/-- **An accepted submission** is recorded behind the others, and its head is shown. -/
theorem Serves.submit (h : daemon.Serves pairs) {items : List Record} {log log' : ServedLog}
    {head : TreeHead} (hserved : daemon.served = some log)
    (hanswer : log.answer (.submit items) = (.ok head, log')) (fits : log'.store.contents.Fits) :
    Serves { daemon with served := some log' } (pairs ++ items) ∧ log'.ledger.head = head := by
  rcases h with ⟨hnone, -⟩ | ⟨other, name, signer, heads, hother, reaches⟩
  · rw [hserved] at hnone
    cases hnone
  · obtain rfl := Option.some.inj (hserved.symm.trans hother)
    have hsubmit : log.ledger.submit log.store items = (.ok head, log'.ledger, log'.store) := by
      obtain ⟨hhead, rfl⟩ := Prod.mk.inj hanswer
      exact Prod.ext hhead rfl
    obtain ⟨hnext, hhead⟩ := reaches.submit hsubmit fits
    exact ⟨Or.inr ⟨log', name, signer, _, rfl, hnext⟩, hhead⟩

/-- **One request** leaves a daemon whose log has recorded what the request has added. -/
theorem Serves.handle (h : daemon.Serves pairs) (around : Surroundings) (request : Http.Request)
    (fits : ∀ log, (daemon.handle around request).2.served = some log → log.store.contents.Fits) :
    (daemon.handle around request).2.Serves (pairs ++ daemon.accepted around request) := by
  rcases handle_cases daemon around request with
    ⟨hnot, halike⟩ | ⟨items, log, head, log', hsubmission, -, hitems, hserved, hanswer, hhandle⟩
  · rw [accepted, if_neg hnot, List.append_nil]
    exact h.alike halike
  · have haccepted : daemon.accepted around request = items := by
      rw [accepted, if_pos ⟨hsubmission, by rw [hhandle]⟩, hitems]
      rfl
    rw [haccepted, hhandle]
    exact (h.submit hserved hanswer (fits log' (by rw [hhandle]))).1

theorem served_refresh {around : Surroundings} {name : String}
    {outcome : Except CacheError RefreshOutcome}
    (h : daemon.refresh around name = some (outcome, daemon')) : daemon'.served = daemon.served := by
  unfold refresh at h
  obtain ⟨log, -, hlog⟩ := Option.bind_eq_some_iff.mp h
  cases hlog
  rfl

/-- **Between the requests of a run** the log has recorded the pairs of the submissions that were
accepted. -/
theorem serves_of_reached (h : Reached daemon pairs) : daemon.Serves pairs := by
  induction h with
  | started serves => exact serves
  | handled before around request fits ih => exact ih.handle around request fits
  | refreshed before step ih =>
    unfold Serves
    rw [served_refresh step]
    exact ih
  | obstructed before slot ih => exact ih.obstruct slot

/-- **Only a submission changes the log.** In every run of a daemon the log it serves has recorded the
pairs of the submissions that were accepted. A request that is no submission leaves the daemon as it is.
One that is not answered with success leaves the head, the contents and the file of the log as they were.
One that is answered with success is authentic, the pairs of its body are recorded as one batch behind the
others, and the answer is the new head. -/
theorem log_changed_only_by_submission (reached : Reached daemon pairs) (around : Surroundings)
    (request : Http.Request) :
    (∀ log, daemon.served = some log → log.Records pairs) ∧
    (¬ request.IsSubmission → (daemon.handle around request).2 = daemon) ∧
    (¬ (request.IsSubmission ∧ (daemon.handle around request).1.status = 200) →
      daemon.Alike (daemon.handle around request).2) ∧
    (request.IsSubmission ∧ (daemon.handle around request).1.status = 200 →
      daemon.Authentic around.now request ∧ ∃ items log head log',
        Wire.readBatch request.body = .ok items ∧ daemon.served = some log ∧
        log.answer (.submit items) = (.ok head, log') ∧
        daemon.handle around request =
          (⟨200, (LogCall.submit items).write head⟩, { daemon with served := some log' }) ∧
        (log'.store.contents.Fits → log'.ledger.head = head ∧ log'.Records (pairs ++ items))) := by
  have serves := serves_of_reached reached
  refine ⟨fun log hserved => serves.records hserved, handle_other, fun hnot => ?_, fun hsuccess => ?_⟩
  · rcases handle_cases daemon around request with
      ⟨-, halike⟩ | ⟨items, log, head, log', hsubmission, -, -, -, -, hhandle⟩
    · exact halike
    · exact absurd ⟨hsubmission, by rw [hhandle]⟩ hnot
  · rcases handle_cases daemon around request with
      ⟨hnot, -⟩ | ⟨items, log, head, log', -, hauthentic, hitems, hserved, hanswer, hhandle⟩
    · exact absurd hsuccess hnot
    · refine ⟨hauthentic, items, log, head, log', hitems, hserved, hanswer, hhandle, fun fits => ?_⟩
      obtain ⟨hnext, hhead⟩ := serves.submit hserved hanswer fits
      exact ⟨hhead, hnext.records rfl⟩

/-- Two pairs are submitted with the secret, one after the other. The second submission changes nothing
without its signature. -/
theorem log_changed_only_by_submission_second_pair :
    ∃ (daemon : Daemon) (around : Surroundings) (request : Http.Request) (log : ServedLog),
      Reached daemon [⟨[1], [5]⟩] ∧ request.IsSubmission ∧
        (daemon.handle around request).1.status = 200 ∧ daemon.Authentic around.now request ∧
        (daemon.handle around request).2 = { daemon with served := some log } ∧
        log.Records [⟨[1], [5]⟩, ⟨[2], [6]⟩] ∧
        daemon.Alike (daemon.handle around { request with headers := [] }).2 := by
  obtain ⟨g⟩ := Ledger.exists_grown_one_two "log" (show Store.inMemory.contents = ∅ from rfl)
    Store.clear_inMemory
  let serving (head : TreeHead) (store : Store) : Daemon :=
    ⟨some ⟨⟨"log", Signer.mirror, head⟩, store⟩, [], .inMemory, .percentage 50, some "secret", 5⟩
  let around : Surroundings := ⟨9, "", fun _ _ => .error .unreachable⟩
  let request (items : List Record) := (RemoteLog.ofUrl "http://log.example" (some "secret")).request 7
    (.submit items) ⟨Bytes.ofText "/submit", none⟩
  have fresh : (around.now.toInt - (7 : Int64).toInt).natAbs ≤ Auth.maxSkew := by decide
  have hone : (serving g.genesis g.opened).handle around (request [⟨[1], [5]⟩]) =
      (⟨200, (LogCall.submit [⟨[1], [5]⟩]).write g.one⟩, serving g.one g.afterOne) := by
    refine (handle_request rfl rfl fresh rfl rfl (by decide +kernel)).trans ?_
    rw [g.answer_one]
    rfl
  have htwo : (serving g.one g.afterOne).handle around (request [⟨[2], [6]⟩]) =
      (⟨200, (LogCall.submit [⟨[2], [6]⟩]).write g.two⟩, serving g.two g.afterTwo) := by
    refine (handle_request rfl rfl fresh rfl rfl (by decide +kernel)).trans ?_
    rw [g.answer_two]
    rfl
  have started : Reached (serving g.genesis g.opened) [] :=
    .started (Or.inr ⟨_, "log", Signer.mirror, _, rfl, g.reaches rfl⟩)
  have reached : Reached (serving g.one g.afterOne) [⟨[1], [5]⟩] := by
    have handled := started.handled around (request [⟨[1], [5]⟩]) (by
      rw [hone]
      rintro _ ⟨⟩
      exact g.fits_one)
    have haccepted : (serving g.genesis g.opened).accepted around (request [⟨[1], [5]⟩]) =
        [⟨[1], [5]⟩] := by
      rw [accepted, hone, if_pos ⟨⟨rfl, rfl⟩, rfl⟩]
      exact congrArg (fun read => (Except.toOption read).getD []) (Wire.readBatch_ofRecords _)
    rwa [hone, haccepted] at handled
  have hstatus : ((serving g.one g.afterOne).handle around (request [⟨[2], [6]⟩])).1.status = 200 := by
    rw [htwo]
  obtain ⟨-, -, -, hsuccess⟩ :=
    log_changed_only_by_submission reached around (request [⟨[2], [6]⟩])
  obtain ⟨hauthentic, items, log, head, log', hitems, hserved, hanswer, hafter, hrecords⟩ :=
    hsuccess ⟨⟨rfl, rfl⟩, hstatus⟩
  obtain rfl : items = [⟨[2], [6]⟩] := Except.ok.inj (hitems.symm.trans (Wire.readBatch_ofRecords _))
  obtain rfl : _ = log := Option.some.inj hserved
  rw [g.answer_two] at hanswer
  obtain ⟨-, rfl⟩ := Prod.mk.inj hanswer
  obtain ⟨-, -, hrefused, hforged⟩ :=
    log_changed_only_by_submission reached around { request [⟨[2], [6]⟩] with headers := [] }
  refine ⟨_, around, request [⟨[2], [6]⟩], ⟨⟨"log", Signer.mirror, g.two⟩, g.afterTwo⟩, reached,
    ⟨rfl, rfl⟩, hstatus, hauthentic, ?_, ?_, ?_⟩
  · rw [hafter]
  · exact (hrecords g.fits_two).2
  · refine hrefused fun h => ?_
    obtain ⟨⟨_, _, -, htime, -⟩, -⟩ := hforged h
    cases htime

end Daemon

end TransparencyLog
