import TransparencyLog.Daemon.Serve
import TransparencyLog.Proofs.Auth
import TransparencyLog.Proofs.Ledger.Submission

/-!
# What a request does to a daemon

Only one kind of request is handed the log to change it, a submission that has passed every check. All
others leave the daemon as it is, and a submission that the log refuses leaves the log as it is.

* `ServedLog.Alike`: the log is as it was;
* `ServedLog.alike_of_error`: a call that fails changes nothing;
* `Daemon.readSubmission_eq_ok_iff`: which submissions reach the log;
* `Http.Request.IsSubmission`, with `Daemon.handle_submission` and `Daemon.handle_other`: what a request
  does.
-/

namespace TransparencyLog

/-- The same head is shown, and the store and its file have the same entries. -/
structure ServedLog.Alike (log log' : ServedLog) : Prop where
  ledger : log'.ledger = log.ledger
  store : log.store.Alike log'.store

namespace ServedLog

variable {log log' log'' : ServedLog}

theorem Alike.refl (log : ServedLog) : log.Alike log := ⟨rfl, .refl log.store⟩

theorem Alike.trans (h : log.Alike log') (h' : log'.Alike log'') : log.Alike log'' :=
  ⟨h'.ledger.trans h.ledger, h.store.trans h'.store⟩

/-- **A call that fails changes nothing.** -/
theorem alike_of_error {α : Type} {call : LogCall α} {e : LogError}
    (h : (log.answer call).1 = .error e) : log.Alike (log.answer call).2 := by
  cases call with
  | submit items =>
    obtain ⟨hledger, hstore⟩ := Ledger.alike_of_submit_error
      (show log.ledger.submit log.store items = (.error e, _) from Prod.ext h rfl)
    exact ⟨hledger, hstore⟩
  | _ => exact .refl log

end ServedLog

/-- The status of a refusal is not that of a success. -/
theorem LogError.status_ne (e : LogError) : e.status ≠ 200 := by
  cases e <;> simp [status]

/-- A request that is meant to change the log. -/
def Http.Request.IsSubmission (request : Http.Request) : Prop :=
  request.method = .post ∧ request.target.path = Bytes.ofText "/submit"

instance (request : Http.Request) : Decidable request.IsSubmission :=
  inferInstanceAs (Decidable (_ ∧ _))

theorem Route.ofPath?_eq_submit_iff {path : Bytes} :
    Route.ofPath? path = some .submit ↔ path = Bytes.ofText "/submit" := by
  constructor
  · intro h
    unfold ofPath? at h
    split at h
    · next name route hfind =>
      obtain rfl := Option.some.inj h
      have hmem := List.mem_of_find?_eq_some hfind
      have hname : Bytes.ofText name = path := by simpa using List.find?_some hfind
      simp only [fixed, List.mem_cons, Prod.mk.injEq, reduceCtorEq, and_false, and_true,
        List.not_mem_nil, or_false, false_or] at hmem
      rw [← hname, hmem]
    · split at h
      · unfold keyed? at h
        split at h
        · cases h
        split at h
        · cases h
        split at h <;> cases h
      · cases h
  · rintro rfl
    decide

namespace Daemon

variable {daemon : Daemon} {around : Surroundings} {request : Http.Request} {items : List Record}

section ReadSubmission

variable {now : Int64} {secret : String}

theorem readSubmission_of_long (long : maxBody < request.body.length) :
    daemon.readSubmission now request = .error .tooLarge := by
  rw [readSubmission, if_pos long]
  rfl

theorem readSubmission_of_none (short : ¬ maxBody < request.body.length) (hsecret : daemon.secret = none) :
    daemon.readSubmission now request = .error .submitDisabled := by
  rw [readSubmission, if_neg short, hsecret]
  rfl

theorem readSubmission_of_some (short : ¬ maxBody < request.body.length)
    (hsecret : daemon.secret = some secret) : daemon.readSubmission now request = (do
      (Auth.verify secret (request.header? Auth.timestampHeader)
        (request.header? Auth.signatureHeader) request.body now).mapError .unauthorised
      (Wire.readBatch request.body).mapError .field) := by
  rw [readSubmission, if_neg short, hsecret]

/-- **The submissions that reach the log**: submissions are taken, the body is not too long, the request
is signed and fresh, and the body is a batch. -/
theorem readSubmission_eq_ok_iff : daemon.readSubmission now request = .ok items ↔
    request.body.length ≤ maxBody ∧ ∃ secret, daemon.secret = some secret ∧
      Auth.verify secret (request.header? Auth.timestampHeader)
        (request.header? Auth.signatureHeader) request.body now = .ok () ∧
      Wire.readBatch request.body = .ok items := by
  by_cases hlong : maxBody < request.body.length
  · rw [readSubmission_of_long hlong]
    refine iff_of_false (by rintro ⟨⟩) ?_
    rintro ⟨hshort, -⟩
    omega
  cases hsecret : daemon.secret with
  | none => simp [readSubmission_of_none hlong hsecret]
  | some secret =>
    rw [readSubmission_of_some hlong hsecret]
    cases hverify : Auth.verify secret (request.header? Auth.timestampHeader)
      (request.header? Auth.signatureHeader) request.body now with
    | error e =>
      refine iff_of_false (by rintro ⟨⟩) ?_
      rintro ⟨-, other, hother, hok, -⟩
      rw [← Option.some.inj hother, hverify] at hok
      cases hok
    | ok checked =>
      have hread : (Wire.readBatch request.body).mapError ServiceError.field = .ok items ↔
          Wire.readBatch request.body = .ok items := by
        cases Wire.readBatch request.body <;> simp [Except.mapError]
      refine hread.trans ⟨fun h => ⟨Nat.not_lt.mp hlong, secret, rfl, hverify, h⟩, ?_⟩
      rintro ⟨-, -, -, -, h⟩
      exact h

/-- A submission that is turned away does not get the status of a success. -/
theorem status_ne_of_readSubmission {e : ServiceError} (h : daemon.readSubmission now request = .error e) :
    e.status ≠ 200 := by
  by_cases hlong : maxBody < request.body.length
  · cases (readSubmission_of_long hlong).symm.trans h
    simp [ServiceError.status]
  cases hsecret : daemon.secret with
  | none =>
    cases (readSubmission_of_none hlong hsecret).symm.trans h
    simp [ServiceError.status]
  | some secret =>
    rw [readSubmission_of_some hlong hsecret] at h
    cases hverify : Auth.verify secret (request.header? Auth.timestampHeader)
      (request.header? Auth.signatureHeader) request.body now with
    | error fault =>
      rw [hverify] at h
      cases h
      simp [ServiceError.status]
    | ok checked =>
      cases hbatch : Wire.readBatch request.body with
      | error fault =>
        rw [hverify, hbatch] at h
        cases h
        simp [ServiceError.status]
      | ok items =>
        rw [hverify, hbatch] at h
        cases h

end ReadSubmission

/-- The outcome of a request that a log has answered. -/
def outcomeOf {α : Type} (call : LogCall α) : Except LogError α → Except ServiceError Bytes
  | .ok a => .ok (call.write a)
  | .error e => .error (.api (.log e))

/-- A submission that has passed the checks is handed to the log. -/
theorem submit_eq {now : Int64} {log : ServedLog} (hread : daemon.readSubmission now request = .ok items)
    (hserved : daemon.served = some log) : daemon.submit now request =
      (outcomeOf (.submit items) (log.answer (.submit items)).1,
        { daemon with served := some (log.answer (.submit items)).2 }) := by
  simp only [submit, hread, hserved]
  cases (log.answer (.submit items)).1 <;> rfl

/-- **A submission** does what becomes of it. -/
theorem handle_submission (h : request.IsSubmission) :
    daemon.handle around request = (.ofOutcome (daemon.submit around.now request).1,
      (daemon.submit around.now request).2) := by
  have hroute : Route.ofPath? request.target.path = some .submit :=
    Route.ofPath?_eq_submit_iff.mpr h.2
  rw [handle, if_neg (by simp [h.1]), hroute, h.1]

/-- **Any other request** leaves the daemon as it is. -/
theorem handle_other (h : ¬ request.IsSubmission) : (daemon.handle around request).2 = daemon := by
  unfold handle
  split
  · rfl
  split
  · rfl
  · rfl
  · rfl
  · next hroute hmethod => exact absurd ⟨hmethod, Route.ofPath?_eq_submit_iff.mp hroute⟩ h
  · rfl

end Daemon

end TransparencyLog
