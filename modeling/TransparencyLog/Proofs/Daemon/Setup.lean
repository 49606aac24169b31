import Mathlib.Data.String.Basic
import TransparencyLog.Daemon.Setup
import TransparencyLog.Proofs.Daemon.Submissions

/-!
# The files of a daemon

A daemon keeps its trusted heads and the log that it serves in files with an extension of their own. It
writes the scratch file of each beside it, under another extension. So whatever the state directory and the
names of the logs are, no store of a daemon is its own scratch file, and no request and no refresh changes
that.

* `Path.exists_last_ofText`, **`Path.scratch_ofText_ne`**: paths whose scratch path is another one;
* `Daemon.Apart`: the scratch file of every store has a path of its own;
* `Daemon.setUp_cases`: where the stores of a daemon come from;
* `Daemon.apart_of_setUp`, a lemma for every kind of step, and **`Daemon.apart_of_running`**: so it is for
  every daemon at any time;
* `Daemon.kept_of_setUp`: the trusted heads that a daemon begins with are those of its file.
-/

namespace TransparencyLog

/-! ## Paths with an extension -/

namespace Path

/-- Pieces of a text that are cut before its end leave the end to the last piece. -/
theorem exists_splitOnP_append {cut : Char → Bool} (start : List Char) {last : List Char}
    (whole : ∀ c ∈ last, cut c = false) :
    ∃ pieces piece, List.splitOnP cut (start ++ last) = pieces ++ [piece ++ last] := by
  induction start with
  | nil => exact ⟨[], [], List.splitOnP_eq_singleton whole⟩
  | cons c rest ih =>
    obtain ⟨pieces, piece, hrest⟩ := ih
    rw [List.cons_append, List.splitOnP_cons_eq_if_modifyHead, hrest]
    split
    · exact ⟨[] :: pieces, piece, rfl⟩
    · cases pieces with
      | nil => exact ⟨[], c :: piece, rfl⟩
      | cons first pieces => exact ⟨(c :: first) :: pieces, piece, rfl⟩

/-- The last name of a path ends as its text does. -/
theorem exists_last_ofText (text : String) {extension : String} (long : 2 < extension.length)
    (whole : ∀ c ∈ extension.toList, (c == '/') = false) :
    ∃ name, (ofText (text ++ extension)).getLast? = some name ∧ extension.toList <:+ name.toList := by
  obtain ⟨pieces, piece, hsplit⟩ := exists_splitOnP_append text.toList whole
  have hpieces : (text ++ extension).splitToList (· == '/') =
      pieces.map String.ofList ++ [String.ofList (piece ++ extension.toList)] := by
    rw [String.splitToList_of_valid, String.toList_append, hsplit, List.map_append]
    rfl
  have hlength : 2 < (String.ofList (piece ++ extension.toList)).length := by
    rw [String.length_ofList, List.length_append, String.length_toList]
    omega
  refine ⟨String.ofList (piece ++ extension.toList), ?_, ?_⟩
  · rw [ofText, hpieces, List.foldl_append, List.foldl_cons, List.foldl_nil, enter, if_neg, if_neg,
      List.getLast?_concat]
    · intro heq
      rw [heq] at hlength
      exact absurd hlength (by decide)
    · rintro (heq | heq) <;> rw [heq] at hlength <;> exact absurd hlength (by decide)
  · rw [String.toList_ofList]
    exact List.suffix_append _ _

/-- **A text with an extension of its own** is a path that is not its own scratch path. -/
theorem scratch_ofText_ne (text : String) :
    (ofText (text ++ ".bin")).scratch ≠ ofText (text ++ ".bin") := by
  have hlong : 2 < ".bin".length := by decide
  obtain ⟨name, hlast, hname⟩ := exists_last_ofText text hlong (by simp)
  refine scratch_ne hlast fun htmp => ?_
  have heq := (List.suffix_of_suffix_length_le htmp hname (Nat.le_refl 4)).eq_of_length rfl
  exact absurd heq (by decide)

end Path

theorem HeadCache.apart_refresh {store : Store} (h : store.Apart) (cache : HeadCache)
    (fetched : Except ApiError TreeHead)
    (prove : UInt64 → UInt64 → Except ApiError (List Digest)) (now : String) :
    (cache.refresh store fetched prove now).2.2.Apart := by
  unfold refresh
  cases cache.check fetched prove with
  | error e => exact h
  | ok checked =>
    have hafter := h.update (Write.put cache.logName storedKey (TrustedHead.encode ⟨checked.1, now⟩)) none
    simp only [adopt]
    rcases hrun : store.update _ with ⟨outcome, after⟩
    rw [hrun] at hafter
    cases outcome <;> exact hafter

/-! ## Setting up -/

namespace Daemon

section Setup

variable {α β : Type} {folder folder' : Folder}

/-- A setup that succeeds has come through its first part. -/
theorem Setup.exists_of_bind {first : Setup α} {rest : α → Setup β} {b : β}
    (h : (first >>= rest) folder = (.ok b, folder')) :
    ∃ a between, first folder = (.ok a, between) ∧ rest a between = (.ok b, folder') := by
  change ExceptT.bindCont rest (first folder).1 (first folder).2 = _ at h
  rcases hfirst : first folder with ⟨e | a, between⟩ <;> rw [hfirst] at h
  · cases h
  · exact ⟨a, between, rfl, h⟩

theorem of_orStop {ε : Type} {fault : ε → SetupFault} {outcome : Except ε α} {a : α}
    (h : orStop fault outcome folder = (.ok a, folder')) : outcome = .ok a ∧ folder' = folder := by
  cases outcome with
  | ok a =>
    cases h
    exact ⟨rfl, rfl⟩
  | error e => cases h

end Setup

section Apart

variable {daemon : Daemon} {folder folder' : Folder} {stateDir : String}

theorem scratch_trustPath_ne (stateDir : String) :
    (trustPath stateDir).scratch ≠ trustPath stateDir := by
  have htext : stateDir ++ "/sth-cache.bin" = stateDir ++ "/sth-cache" ++ ".bin" := by
    rw [show "/sth-cache.bin" = "/sth-cache" ++ ".bin" from rfl, String.append_assoc]
  rw [trustPath, htext]
  exact Path.scratch_ofText_ne _

theorem scratch_logPath_ne (stateDir name : String) :
    (logPath stateDir name).scratch ≠ logPath stateDir name := by
  have htext : stateDir ++ "/" ++ name ++ ".log.bin" = stateDir ++ "/" ++ name ++ ".log" ++ ".bin" := by
    rw [show ".log.bin" = ".log" ++ ".bin" from rfl, ← String.append_assoc]
  rw [logPath, htext]
  exact Path.scratch_ofText_ne _

/-- The scratch file of every store of the daemon has a path of its own. -/
structure Apart (daemon : Daemon) : Prop where
  trust : daemon.trust.Apart
  served : ∀ log, daemon.served = some log → log.store.Apart

theorem apart_of_openServed {entry : LogEntry} {log : ServedLog}
    (h : openServed stateDir entry folder = (.ok log, folder')) : log.store.Apart := by
  unfold openServed at h
  obtain ⟨found, _, -, h⟩ := Setup.exists_of_bind h
  obtain ⟨signer, _, -, h⟩ := Setup.exists_of_bind h
  obtain ⟨store, _, hopen, h⟩ := Setup.exists_of_bind h
  have apart := Folder.apart_of_openFile (scratch_logPath_ne stateDir entry.name) (of_orStop hopen).1
  obtain ⟨_, _, -, h⟩ := Setup.exists_of_bind h
  have hresume : (ServedLog.resume entry.name signer store).1 = .ok log := (of_orStop h).1
  have hafter := Ledger.apart_resume apart entry.name signer none
  unfold ServedLog.resume at hresume
  rcases hrun : Ledger.resume entry.name signer store with ⟨outcome, after⟩
  rw [hrun] at hresume hafter
  cases outcome with
  | error e => cases hresume
  | ok ledger =>
    cases hresume
    exact hafter

/-- The stores of a daemon that is set up have been opened at its paths. -/
theorem setUp_cases {secret : Option String} {network : NetworkConfig}
    (h : setUp stateDir secret network folder = (.ok daemon, folder')) :
    (∃ files : Folder, Store.openFile (files.storedFile (trustPath stateDir)) = .ok daemon.trust) ∧
      ∀ log, daemon.served = some log → ∃ entry files files',
        openServed stateDir entry files = (.ok log, files') := by
  unfold setUp at h
  obtain ⟨start, _, -, h⟩ := Setup.exists_of_bind h
  cases hmake : start.makeDirectories? (Path.ofText stateDir) with
  | none =>
    simp only [hmake] at h
    obtain ⟨_, _, hthrow, -⟩ := Setup.exists_of_bind h
    cases hthrow
  | some made =>
    simp only [hmake] at h
    obtain ⟨_, _, -, h⟩ := Setup.exists_of_bind h
    obtain ⟨files, _, -, h⟩ := Setup.exists_of_bind h
    obtain ⟨trust, _, htrust, h⟩ := Setup.exists_of_bind h
    obtain ⟨served, _, hserved, h⟩ := Setup.exists_of_bind h
    obtain ⟨followed, _, -, h⟩ := Setup.exists_of_bind h
    obtain ⟨strategy, _, -, h⟩ := Setup.exists_of_bind h
    cases h
    refine ⟨⟨files, (of_orStop htrust).1⟩, ?_⟩
    rintro log rfl
    cases hentry : network.served? with
    | none =>
      rw [hentry] at hserved
      cases hserved
    | some entry =>
      rw [hentry, Option.mapM_some] at hserved
      obtain ⟨opened, _, hopened, hsome⟩ := Setup.exists_of_bind hserved
      cases hsome
      exact ⟨entry, _, _, hopened⟩

/-- Every daemon that is set up has such stores. -/
theorem apart_of_setUp {secret : Option String} {network : NetworkConfig}
    (h : setUp stateDir secret network folder = (.ok daemon, folder')) : daemon.Apart := by
  obtain ⟨⟨files, htrust⟩, hserved⟩ := setUp_cases h
  refine ⟨Folder.apart_of_openFile (scratch_trustPath_ne stateDir) htrust, fun log hlog => ?_⟩
  obtain ⟨entry, _, _, hopened⟩ := hserved log hlog
  exact apart_of_openServed hopened

/-- The file of the trusted heads stands for what the daemon knows of them. -/
theorem kept_of_setUp {secret : Option String} {network : NetworkConfig}
    (h : setUp stateDir secret network folder = (.ok daemon, folder')) : daemon.trust.Kept := by
  obtain ⟨⟨files, htrust⟩, -⟩ := setUp_cases h
  exact Store.kept_of_openFile htrust

/-- No request changes that. -/
theorem Apart.handle (h : daemon.Apart) (around : Surroundings) (request : Http.Request) :
    (daemon.handle around request).2.Apart := by
  rcases handle_cases daemon around request with
    ⟨-, halike⟩ | ⟨items, log, head, log', -, -, -, hserved, hanswer, hhandle⟩
  · refine ⟨by rw [halike.others]; exact h.trust, fun log' hlog' => ?_⟩
    cases hserved : daemon.served with
    | none => cases hlog'.symm.trans (halike.of_none hserved)
    | some log =>
      obtain ⟨same, hsame, hlog⟩ := halike.of_some hserved
      obtain rfl := Option.some.inj (hlog'.symm.trans hsame)
      exact (h.served log hserved).alike hlog.store
  · rw [hhandle]
    refine ⟨h.trust, ?_⟩
    rintro _ ⟨⟩
    have hafter := Ledger.apart_submit (h.served log hserved) log.ledger items none
    obtain ⟨-, rfl⟩ := Prod.mk.inj hanswer
    exact hafter

/-- No refresh changes that. -/
theorem Apart.refresh (h : daemon.Apart) {around : Surroundings} {name : String}
    {outcome : Except CacheError RefreshOutcome} {daemon' : Daemon}
    (step : daemon.refresh around name = some (outcome, daemon')) : daemon'.Apart := by
  unfold Daemon.refresh at step
  obtain ⟨log, -, hstep⟩ := Option.bind_eq_some_iff.mp step
  cases hstep
  exact ⟨HeadCache.apart_refresh h.trust log.cache _ _ _, h.served⟩

theorem Apart.obstruct (h : daemon.Apart) (slot : Slot) : (daemon.obstruct slot).Apart := by
  refine ⟨h.trust, fun log hlog => ?_⟩
  obtain ⟨before, hserved, rfl⟩ := Option.map_eq_some_iff.mp hlog
  exact (h.served before hserved).withScratch slot

/-- What becomes of a daemon once it is set up: any requests are handled, followed logs are refreshed, and
something else gets in the way of a scratch file. -/
inductive Running (stateDir : String) : Daemon → Prop
  | begun {daemon : Daemon} {secret : Option String} {network : NetworkConfig} {folder folder' : Folder}
    (h : setUp stateDir secret network folder = (.ok daemon, folder')) : Running stateDir daemon
  | handled {daemon : Daemon} (before : Running stateDir daemon) (around : Surroundings)
    (request : Http.Request) : Running stateDir (daemon.handle around request).2
  | refreshed {daemon daemon' : Daemon} (before : Running stateDir daemon) {around : Surroundings}
    {name : String} {outcome : Except CacheError RefreshOutcome}
    (step : daemon.refresh around name = some (outcome, daemon')) : Running stateDir daemon'
  | obstructed {daemon : Daemon} (before : Running stateDir daemon) (slot : Slot) :
    Running stateDir (daemon.obstruct slot)

/-- **No store of a daemon** is ever its own scratch file. -/
theorem apart_of_running (h : Running stateDir daemon) : daemon.Apart := by
  induction h with
  | begun h => exact apart_of_setUp h
  | handled before around request ih => exact ih.handle around request
  | refreshed before step ih => exact ih.refresh step
  | obstructed before slot ih => exact ih.obstruct slot

end Apart

end Daemon

end TransparencyLog
