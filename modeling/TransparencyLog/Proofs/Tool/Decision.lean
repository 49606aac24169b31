import TransparencyLog.Proofs.Daemon.Remote
import TransparencyLog.Proofs.Tool.KeyPath
import TransparencyLog.Tool.Run

/-!
# Asking for a decision on a key

An operator submits pairs, and asks for decisions by their keys. A submitted key goes as bytes into a
signed message, and arrives whatever it is. A key that is asked for goes as it is into a URL, and the
daemon decides on what it reads out of that.

* `Http.Request.decisionKey?`, `Daemon.decision`, **`Daemon.handle_decision`**: what a daemon is asked;
* `Command.exists_decisionRequest`, `Command.decisionKey?_eq_iff`: what is sent for a key;
* **`Command.decides_submitted_iff`**: submitted keys and keys asked for.
-/

namespace TransparencyLog

/-! ## What a daemon is asked -/

/-- The key of the decision that a request asks for, if it asks for one. -/
def Http.Request.decisionKey? (request : Http.Request) : Option Bytes :=
  match request.method, Route.ofPath? request.target.path with
  | .get, some (.ask (.decision segment)) => (Route.readSegment? segment).map Bytes.ofText
  | _, _ => none

theorem Http.Request.decisionKey?_eq_iff {request : Http.Request} {key : String} :
    request.decisionKey? = some (Bytes.ofText key) ↔ request.method = .get ∧
      ∃ segment, Route.ofPath? request.target.path = some (.ask (.decision segment)) ∧
        Percent.decode segment = Bytes.ofText key := by
  rw [decisionKey?]
  constructor
  · intro h
    split at h
    · next segment hmethod hpath =>
      obtain ⟨text, htext, hkey⟩ := Option.map_eq_some_iff.mp h
      rw [Bytes.ofText_injective hkey] at htext
      exact ⟨hmethod, segment, hpath, Utf8.decode?_eq_some_iff.mp htext⟩
    · cases h
  · rintro ⟨hmethod, segment, hpath, hkey⟩
    rw [hmethod, hpath]
    change (Utf8.decode? (Percent.decode segment)).map Bytes.ofText = _
    rw [hkey, Utf8.decode?_ofText]
    rfl

/-- The decision of a daemon on a key, as a message. -/
def Daemon.decision (daemon : Daemon) (around : Surroundings) (key : Bytes) : Except ServiceError Bytes :=
  match (daemon.survey around key).decide daemon.strategy with
  | .ok correlation => .ok (Wire.bytesOfData correlation.toData)
  | .error failure => .error (.noDecision failure)

/-- **A daemon decides on the key that it is asked for.** -/
theorem Daemon.handle_decision {request : Http.Request} {key : Bytes}
    (h : request.decisionKey? = some key) (daemon : Daemon) (around : Surroundings) :
    daemon.handle around request = (.ofOutcome (daemon.decision around key), daemon) := by
  rw [Http.Request.decisionKey?] at h
  split at h
  · next segment hmethod hpath =>
    obtain ⟨text, htext, rfl⟩ := Option.map_eq_some_iff.mp h
    rw [handle, if_neg (by rw [hmethod]; decide), hmethod, hpath]
    simp only [answer, htext, need]
    rfl
  · cases h

/-! ## What an operator asks -/

namespace Command

variable {base : String} {items : List String} {batch : List Record}
  {record : Record} {key : String}

/-- **What is sent for a key** asks along the key's path. -/
theorem exists_decisionRequest (hbase : Http.Url.IsBase base) (key : String) :
    ∃ url request, decisionRequest? base key = some (url, request) ∧ request.method = .get ∧
      request.target.path = Http.Url.keyPath (Bytes.ofText key) := by
  obtain ⟨scheme, host, hscheme, hhost, hplain⟩ := RemoteLog.exists_withoutSlashes hbase
  have hfront : ∀ b ∈ Bytes.ofText "/decide/", 0x20 < b.toNat ∧ b ≠ 0x23 ∧ b ≠ 0x3F := by decide +kernel
  have hslash : ∀ bytes, Bytes.ofText "/decide/" ++ bytes = 0x2F :: (Bytes.ofText "decide/" ++ bytes) := by
    intro bytes
    rw [show Bytes.ofText "/decide/" = 0x2F :: Bytes.ofText "decide/" by decide +kernel, List.cons_append]
  have hend : Http.Url.stripEnd (Bytes.ofText ("/decide/" ++ key)) =
      Bytes.ofText "/decide/" ++ Http.Url.stripEnd (Bytes.ofText key) := by
    rw [Bytes.ofText_append, Http.Url.stripEnd_append fun b hb => (hfront b hb).1]
  have hurl : decisionUrl base key = scheme ++ "://" ++ host ++ ("/decide/" ++ key) := by
    rw [decisionUrl, hplain, String.append_assoc]
  obtain ⟨url, hparse, hpath⟩ : ∃ url, Http.Url.parse? (decisionUrl base key) = some url ∧
      url.target.path = Http.Url.keyPath (Bytes.ofText key) := by
    refine ⟨_, hurl ▸ Http.Url.parse?_host hscheme hhost (hend.trans (hslash _)), ?_⟩
    rw [Http.Url.keyPath, Http.Url.spelled, Http.Url.onHost, ← hslash,
      Http.Url.path_split_append fun b hb => (hfront b hb).2]
  exact ⟨url, _, by rw [decisionRequest?, hparse]; rfl, rfl, hpath⟩

/-- **A key is asked for if it spells itself**, and otherwise it is not. -/
theorem decisionKey?_eq_iff {request : Http.Request} (hmethod : request.method = .get)
    (hpath : request.target.path = Http.Url.keyPath (Bytes.ofText key)) :
    request.decisionKey? = some (Bytes.ofText key) ↔ Http.Url.SpellsItself (Bytes.ofText key) := by
  rw [Http.Request.decisionKey?_eq_iff, hpath]
  constructor
  · rintro ⟨-, segment, hsegment, hdecode⟩
    obtain ⟨name, last, hsegments, hne, rfl⟩ := Http.Url.ofPath?_keyPath hsegment
    rw [Http.Url.decode_encode_path] at hdecode
    exact Http.Url.spellsItself_of_segments hsegments hne hdecode
  · intro h
    exact ⟨hmethod, _, h.ofPath?_keyPath, (Http.Url.decode_encode_path _).trans h.unescaped⟩

/-- An item's key is a text, and it is not empty. -/
theorem exists_key {item : String} (h : pairOf item = .ok record) :
    ∃ key : String, record.key = Bytes.ofText key ∧ key ≠ "" := by
  simp only [pairOf] at h
  split at h
  · next c rest value hkey hvalue =>
    cases h
    refine ⟨_, rfl, fun hempty => ?_⟩
    rw [hkey, String.ofList_eq_empty_iff] at hempty
    cases hempty
  · cases h

/-- **Submitted keys and keys asked for.** What is submitted arrives as it was meant, and every key in it is
the bytes of a text. A decision on that text is asked for by the URL of a path, and the daemon that gets
the request decides on that key exactly if the key spells itself. -/
theorem decides_submitted_iff (secret : String) (now : Int64) (hbase : Http.Url.IsBase base)
    (hbatch : items.mapM pairOf = .ok batch) :
    (∃ url request, (Command.submit base secret items).outgoing? now = some (url, request) ∧
      Wire.readBatch request.body = .ok batch) ∧
    ∀ record ∈ batch, ∃ key : String, record.key = Bytes.ofText key ∧ key ≠ "" ∧
      ∃ url request, (Command.decide base key).outgoing? now = some (url, request) ∧
        (request.decisionKey? = some record.key ↔ Http.Url.SpellsItself record.key) ∧
        ∀ asked, request.decisionKey? = some asked → ∀ (daemon : Daemon) (around : Surroundings),
          daemon.handle around request = (.ofOutcome (daemon.decision around asked), daemon) := by
  constructor
  · obtain ⟨url, hout, -, -⟩ := RemoteLog.exists_outgoing hbase (some secret) now (.submit batch)
    have hsent : (Command.submit base secret items).outgoing? now =
        some (url, (RemoteLog.ofUrl base (some secret)).request now (.submit batch) url.target) := by
      rw [outgoing?, hbatch]
      exact hout
    exact ⟨url, _, hsent, Wire.readBatch_ofRecords batch⟩
  · intro record hrecord
    obtain ⟨item, -, hitem⟩ := exists_of_mem_mapM hbatch hrecord
    obtain ⟨key, hkey, hne⟩ := exists_key hitem
    obtain ⟨url, request, hout, hmethod, hpath⟩ := exists_decisionRequest hbase key
    refine ⟨key, hkey, hne, url, request, hout, ?_, fun asked hasked => Daemon.handle_decision hasked⟩
    rw [hkey]
    exact decisionKey?_eq_iff hmethod hpath

/-- A key with a blank, a letter of two bytes and a percent sign that begins no escape. -/
theorem decides_submitted_iff_blank : ["50% Größe=31"].mapM pairOf =
      .ok [⟨Bytes.ofText "50% Größe", Bytes.ofText "31"⟩] ∧
    ∃ url request, (Command.decide "http://log.example/" "50% Größe").outgoing? 7 = some (url, request) ∧
      request.decisionKey? = some (Bytes.ofText "50% Größe") := by
  have hbase : Http.Url.IsBase "http://log.example/" :=
    ⟨"http", "log.example", 1, Or.inl rfl, ⟨by decide, by decide +kernel⟩, rfl⟩
  have hbatch : ["50% Größe=31"].mapM pairOf = .ok [⟨Bytes.ofText "50% Größe", Bytes.ofText "31"⟩] := by
    decide +kernel
  have hspells : Http.Url.SpellsItself (Bytes.ofText "50% Größe") :=
    ⟨by decide +kernel, ⟨_, 0x65, (List.dropLast_append_getLast (by decide +kernel)).symm, by decide⟩,
      by decide +kernel, by decide +kernel⟩
  obtain ⟨-, hkeys⟩ := decides_submitted_iff "secret" 7 hbase hbatch
  obtain ⟨key, hkey, -, url, request, hout, hasks, -⟩ := hkeys _ List.mem_cons_self
  rw [← Bytes.ofText_injective hkey] at hout
  exact ⟨hbatch, url, request, hout, hasks.mpr hspells⟩

/-- A key with a question mark: the pair is submitted under the whole key, and the decision is asked for on
what stands before the mark. -/
theorem decides_before_question_mark : ["a?b=32"].mapM pairOf =
      .ok [⟨Bytes.ofText "a?b", Bytes.ofText "32"⟩] ∧
    ∃ url request, (Command.decide "http://log.example" "a?b").outgoing? 7 = some (url, request) ∧
      request.decisionKey? = some (Bytes.ofText "a") ∧ Bytes.ofText "a" ≠ Bytes.ofText "a?b" := by
  have hasked : ((Command.decide "http://log.example" "a?b").outgoing? 7).bind
      (fun sent => sent.2.decisionKey?) = some (Bytes.ofText "a") := by decide +kernel
  obtain ⟨sent, hout, hasks⟩ := Option.bind_eq_some_iff.mp hasked
  exact ⟨by decide +kernel, sent.1, sent.2, hout, hasks, by decide +kernel⟩

end Command

end TransparencyLog
