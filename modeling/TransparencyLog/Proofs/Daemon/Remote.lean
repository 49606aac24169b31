import TransparencyLog.Proofs.Daemon.Serving
import TransparencyLog.Proofs.Http
import TransparencyLog.Proofs.Ledger.Acceptance
import TransparencyLog.Proofs.Wire
import TransparencyLog.Remote

/-!
# A log asked over HTTP is the log itself

A client turns a call into a request, the daemon turns the request back into the call, asks its log and
turns the answer into a response, and the client reads the answer out of it. Nothing is lost on the way,
whatever the call and whatever the answer. An error arrives as its status and its text.

* `Http.Url.IsBase`, `RemoteLog.exists_outgoing`: where a call goes;
* `Daemon.handle_request`: the daemon does what the call says;
* `LogCall.readResponse_ofOutcome`: the client learns what the log has said;
* **`RemoteLog.ask_daemon`**: a whole call.
-/

namespace TransparencyLog

/-! ## The request -/

/-- A URL of a host, with any number of slashes at its end. -/
def Http.Url.IsBase (url : String) : Prop :=
  ∃ scheme host slashes, (scheme = "http" ∨ scheme = "https") ∧ IsHost host ∧
    url = scheme ++ "://" ++ host ++ String.ofList (List.replicate slashes '/')

theorem Http.Url.IsHost.exists_last {host : String} (h : IsHost host) :
    ∃ front last, host.toList = front ++ [last] ∧ last ≠ '/' := by
  obtain ⟨hne, hbytes⟩ := h
  have hlist : host.toList ≠ [] := fun h => hne (String.toList_eq_nil_iff.mp h)
  refine ⟨_, _, (List.dropLast_append_getLast hlist).symm, fun hlast => ?_⟩
  have hhost : host = String.ofList host.toList.dropLast ++ "/" := by
    apply String.toList_injective
    rw [String.toList_append, String.toList_ofList]
    show host.toList = host.toList.dropLast ++ ['/']
    rw [← hlast, List.dropLast_append_getLast]
  have hslash : 0x2F ∈ Bytes.ofText host := by
    rw [hhost, Bytes.ofText_append]
    exact List.mem_append_right _ (by decide)
  exact absurd (hbytes 0x2F hslash).2 (by decide)

namespace RemoteLog

theorem withoutSlashes_append {text : String} {front : List Char} {last : Char}
    (htext : text.toList = front ++ [last]) (hlast : last ≠ '/') (slashes : Nat) :
    withoutSlashes (text ++ String.ofList (List.replicate slashes '/')) = text := by
  have hall : ∀ c ∈ List.replicate slashes '/', (c == '/') = true :=
    fun c hc => beq_iff_eq.mpr (List.eq_of_mem_replicate hc)
  apply String.toList_injective
  rw [withoutSlashes, String.toList_append, String.toList_ofList, String.toList_ofList,
    List.reverse_append, List.reverse_replicate, List.dropWhile_append_of_pos hall, htext]
  simp [hlast]

end RemoteLog

theorem LogCall.isFixedPath_path {α : Type} (call : LogCall α) : Http.Url.IsFixedPath call.path := by
  cases call <;> dsimp only [path] <;> exact ⟨by decide +kernel, ⟨_, rfl⟩, by decide, by decide⟩

theorem Http.Url.form_withForm {url : Url} (h : url.target.query = none) (form : Form) :
    (url.withForm form).target.form = form := by
  by_cases hempty : Form.write form = []
  · have hform : Form.parse [] = form := by rw [← hempty, Form.parse_write]
    simp [withForm, Target.form, h, hempty, hform]
  · simp [withForm, Target.form, h, hempty, Form.parse_write]

namespace RemoteLog

variable {base : String}

theorem exists_withoutSlashes (hbase : Http.Url.IsBase base) :
    ∃ scheme host, (scheme = "http" ∨ scheme = "https") ∧ Http.Url.IsHost host ∧
      withoutSlashes base = scheme ++ "://" ++ host := by
  obtain ⟨scheme, host, slashes, hscheme, hhost, rfl⟩ := hbase
  obtain ⟨front, last, hlist, hlast⟩ := hhost.exists_last
  have htext : (scheme ++ "://" ++ host).toList = ((scheme ++ "://").toList ++ front) ++ [last] := by
    rw [String.toList_append, hlist, List.append_assoc]
  exact ⟨scheme, host, hscheme, hhost, withoutSlashes_append htext hlast slashes⟩

/-- **Where a call goes**: to its own path, with its own named values. -/
theorem exists_outgoing (hbase : Http.Url.IsBase base) (secret : Option String) (now : Int64) {α : Type}
    (call : LogCall α) : ∃ url : Http.Url,
      (ofUrl base secret).outgoing? now call =
        some (url, (ofUrl base secret).request now call url.target) ∧
      url.target.path = Bytes.ofText call.path ∧ url.target.form = call.form := by
  obtain ⟨scheme, host, hscheme, hhost, hplain⟩ := exists_withoutSlashes hbase
  let plain : Http.Url := ⟨scheme, Bytes.ofText host, ⟨Bytes.ofText call.path, none⟩⟩
  have hparse : Http.Url.parse? ((ofUrl base secret).baseUrl ++ call.path) = some plain := by
    rw [ofUrl, hplain]
    exact Http.Url.parse?_path hscheme hhost call.isFixedPath_path
  refine ⟨plain.withForm call.form, ?_, rfl, Http.Url.form_withForm rfl call.form⟩
  rw [outgoing?, url?, hparse]
  rfl

end RemoteLog

/-! ## The daemon -/

/-- Two numbers are read back by their names. -/
theorem Form.number?_pair {name name' : String} (h : name ≠ name') (n n' : UInt64) :
    number? [(name, toString n.toNat), (name', toString n'.toNat)] name = some n ∧
      number? [(name, toString n.toNat), (name', toString n'.toNat)] name' = some n' := by
  have hfirst : text? [(name, toString n.toNat), (name', toString n'.toNat)] name =
      some (toString n.toNat) := by simp [text?, h.symm]
  have hsecond : text? [(name, toString n.toNat), (name', toString n'.toNat)] name' =
      some (toString n'.toNat) := by simp [text?, h]
  rw [number?, number?, hfirst, hsecond]
  exact ⟨Decimal.uint64?_toString n, Decimal.uint64?_toString n'⟩

/-- The route of a call. -/
def LogCall.route {α : Type} : LogCall α → Route
  | .head => .ask .head
  | .consistency _ _ => .ask .consistency
  | .audit _ _ => .ask .audit
  | .entries _ _ => .ask .entries
  | .mapValue _ _ => .ask .mapValue
  | .submit _ => .submit

theorem LogCall.ofPath?_path {α : Type} (call : LogCall α) :
    Route.ofPath? (Bytes.ofText call.path) = some call.route := by
  cases call <;> dsimp only [path, route] <;> decide

namespace Daemon

variable {α : Type} {call : LogCall α} {daemon : Daemon} {around : Surroundings} {log : ServedLog}
  {secret base : String} {now : Int64} {target : Http.Target}

/-- The named values of a call are read back. -/
theorem answer_form {question : Question} (h : call.route = .ask question) :
    daemon.answer around call.form question = daemon.answerCall call := by
  cases call with
  | submit => cases h
  | head => cases h; rfl
  | mapValue key root =>
    cases h
    have hkey : Form.text? (LogCall.mapValue key root).form "key" = some (Hex.encode key) := rfl
    have hroot : Form.text? (LogCall.mapValue key root).form "map_root" = some root.text := rfl
    rw [answer, readMapKey, hkey, hroot]
    simp only [need, ok_bind, Wire.bytesOf_encode, Wire.digestOf_text, Except.mapError]
    rfl
  | consistency first second =>
    cases h
    obtain ⟨hfirst, hsecond⟩ := Form.number?_pair (show "first" ≠ "second" by decide) first second
    rw [answer, LogCall.form, hfirst, hsecond]
    rfl
  | audit index size =>
    cases h
    obtain ⟨hindex, hsize⟩ := Form.number?_pair (show "index" ≠ "tree_size" by decide) index size
    rw [answer, LogCall.form, hindex, hsize]
    rfl
  | entries start finish =>
    cases h
    obtain ⟨hstart, hfinish⟩ := Form.number?_pair (show "start" ≠ "finish" by decide) start finish
    rw [answer, LogCall.form, hstart, hfinish]
    rfl

theorem answerCall_eq (hserved : daemon.served = some log) :
    daemon.answerCall call = outcomeOf call (log.answer call).1 := by
  simp only [answerCall, hserved, ServedLog.read]
  cases (log.answer call).1 <;> rfl

/-- The headers of a signed submission are found. -/
theorem header?_submitHeaders {client : RemoteLog} (hsecret : client.secret = some secret)
    {request : Http.Request} {body : Bytes} (h : request.headers = client.submitHeaders now body) :
    request.header? Auth.timestampHeader = some (toString now.toInt) ∧
      request.header? Auth.signatureHeader = some (Auth.sign secret now body) := by
  have hnames : ("Content-Type".toLower == Auth.timestampHeader.toLower) = false ∧
      ("Content-Type".toLower == Auth.signatureHeader.toLower) = false ∧
      (Auth.timestampHeader.toLower == Auth.signatureHeader.toLower) = false := by decide +kernel
  obtain ⟨htype, htype', hother⟩ := hnames
  rw [RemoteLog.submitHeaders, hsecret] at h
  constructor
  · have hfind : request.headers.find? (fun header => header.1.toLower ==
        Auth.timestampHeader.toLower) = some (Auth.timestampHeader, toString now.toInt) := by
      simp [h, htype]
    rw [Http.Request.header?, hfind, Option.map_some, Option.filter_some,
      if_pos (Auth.isReadable_timestamp now)]
  · have hfind : request.headers.find? (fun header => header.1.toLower ==
        Auth.signatureHeader.toLower) = some (Auth.signatureHeader, Auth.sign secret now body) := by
      simp [h, htype', hother]
    rw [Http.Request.header?, hfind, Option.map_some, Option.filter_some,
      if_pos (Auth.isReadable_sign secret now body)]

/-- **The daemon does what a call says**: it asks its log, and keeps the log as it is after that. -/
theorem handle_request (hserved : daemon.served = some log) (hsecret : daemon.secret = some secret)
    (fresh : (around.now.toInt - now.toInt).natAbs ≤ Auth.maxSkew)
    (hpath : target.path = Bytes.ofText call.path) (hform : target.form = call.form)
    (short : ((RemoteLog.ofUrl base (some secret)).request now call target).body.length ≤ maxBody) :
    daemon.handle around ((RemoteLog.ofUrl base (some secret)).request now call target) =
      (.ofOutcome (outcomeOf call (log.answer call).1),
        { daemon with served := some (log.answer call).2 }) := by
  cases call with
  | submit items =>
    let request := (RemoteLog.ofUrl base (some secret)).request now (.submit items) target
    obtain ⟨htime, hsign⟩ := header?_submitHeaders (show (RemoteLog.ofUrl base _).secret = _ from rfl)
      (show request.headers = RemoteLog.submitHeaders _ now request.body from rfl)
    have hread : daemon.readSubmission around.now request = .ok items := by
      refine readSubmission_eq_ok_iff.mpr ⟨short, secret, hsecret, ?_, Wire.readBatch_ofRecords items⟩
      rw [htime, hsign]
      exact Auth.verify_sign fresh secret request.body
    rw [handle_submission ⟨rfl, hpath⟩, submit_eq hread hserved]
  | _ =>
    have hsame : { daemon with served := some log } = daemon := by rw [← hserved]
    rw [handle, if_neg (by simp [RemoteLog.request])]
    simp only [RemoteLog.request, hpath, LogCall.ofPath?_path, LogCall.route, hform]
    rw [answer_form rfl, answerCall_eq hserved]
    exact congrArg (Prod.mk _) hsame.symm

end Daemon

/-! ## The response -/

/-- An error as whoever asks over HTTP sees it. -/
def LogError.seen (e : LogError) : ApiError := .remote e.status ("log error: " ++ e.message)

/-- **The client learns what the log has said.** -/
theorem LogCall.readResponse_ofOutcome {α : Type} (call : LogCall α) (answer : Except LogError α) :
    call.readResponse (.ofOutcome (Daemon.outcomeOf call answer)) = answer.mapError LogError.seen := by
  cases answer with
  | ok a =>
    have hsuccess : Http.Response.isSuccess ⟨200, call.write a⟩ = true := rfl
    show call.readResponse ⟨200, call.write a⟩ = _
    rw [readResponse, if_pos hsuccess, call.read_write]
    rfl
  | error e =>
    have hfailure : Http.Response.isSuccess ⟨e.status, (ServiceError.api (.log e)).body⟩ = false := by
      cases e <;> rfl
    have hmessage : ApiError.message (.log e) = "log error: " ++ e.message := rfl
    show call.readResponse ⟨e.status, (ServiceError.api (.log e)).body⟩ = _
    rw [readResponse, hfailure, ServiceError.body, ServiceError.body.say, hmessage,
      Wire.errorText_errorToData]
    rfl

/-! ## Whole calls -/

/-- **A log asked over HTTP is the log itself.** A call goes out, the daemon's log ends where the call
brings it, and the client has the same answer. If the log refuses, it stays as it was, and the client has
the status and the text of the error. -/
theorem RemoteLog.ask_daemon {daemon : Daemon} {log : ServedLog} {around : Surroundings}
    {secret base : String} {now : Int64} {α : Type} (call : LogCall α)
    (served : daemon.served = some log) (taken : daemon.secret = some secret)
    (hbase : Http.Url.IsBase base)
    (fresh : (around.now.toInt - now.toInt).natAbs ≤ Auth.maxSkew)
    (short : ∀ target,
      ((ofUrl base (some secret)).request now call target).body.length ≤ Daemon.maxBody) :
    ∃ url request, (ofUrl base (some secret)).outgoing? now call = some (url, request) ∧
      (daemon.handle around request).2 = { daemon with served := some (log.answer call).2 } ∧
      ∀ exchange : Http.Exchange, exchange url request = .ok (daemon.handle around request).1 →
        (∀ a, (log.answer call).1 = .ok a →
          ask exchange now (ofUrl base (some secret)) call = .ok a) ∧
        ∀ e, (log.answer call).1 = .error e → log.Alike (log.answer call).2 ∧
          ask exchange now (ofUrl base (some secret)) call =
            .error (.remote e.status ("log error: " ++ e.message)) := by
  obtain ⟨url, hout, hpath, hform⟩ := exists_outgoing hbase (some secret) now call
  have hhandle : daemon.handle around ((ofUrl base (some secret)).request now call url.target) = _ :=
    Daemon.handle_request served taken fresh hpath hform (short _)
  refine ⟨url, _, hout, by rw [hhandle], fun exchange hexchange => ?_⟩
  have hask : ask exchange now (ofUrl base (some secret)) call =
      (log.answer call).1.mapError LogError.seen := by
    rw [hhandle] at hexchange
    simp only [ask, hout, hexchange]
    exact call.readResponse_ofOutcome _
  refine ⟨fun a ha => ?_, fun e he => ⟨ServedLog.alike_of_error he, ?_⟩⟩
  · rw [hask, ha]
    rfl
  · rw [hask, he]
    rfl

/-- A pair that is submitted over HTTP is recorded, and the client has the new head. A range that ends
before it starts is refused in the same words. -/
theorem RemoteLog.ask_daemon_pair : ∃ (daemon : Daemon) (around : Surroundings) (grown : ServedLog)
    (client : RemoteLog) (url url' : Http.Url) (request request' : Http.Request),
    client.outgoing? 7 (.submit [⟨[1], [5]⟩]) = some (url, request) ∧
      (daemon.handle around request).2 = { daemon with served := some grown } ∧
      grown.ledger.head.treeSize = 1 ∧
      (∀ exchange : Http.Exchange, exchange url request = .ok (daemon.handle around request).1 →
        ask exchange 7 client (.submit [⟨[1], [5]⟩]) = .ok grown.ledger.head) ∧
      client.outgoing? 7 (.entries 1 0) = some (url', request') ∧
      ∀ exchange : Http.Exchange, exchange url' request' = .ok (daemon.handle around request').1 →
        ask exchange 7 client (.entries 1 0) =
          .error (.remote 400 "log error: Out of range: start 1 after finish 0") := by
  obtain ⟨g⟩ := Ledger.exists_grown_one_two "log" (show Store.inMemory.contents = ∅ from rfl)
    Store.clear_inMemory
  have hbase : Http.Url.IsBase "http://log.example/" :=
    ⟨"http", "log.example", 1, Or.inl rfl, ⟨by decide, by decide +kernel⟩, rfl⟩
  let daemon : Daemon := ⟨some ⟨⟨"log", Signer.mirror, g.genesis⟩, g.opened⟩, [], .inMemory,
    .percentage 50, some "secret", 5⟩
  let around : Surroundings := ⟨9, "", fun _ _ => .error .unreachable⟩
  have served : daemon.served = some _ := rfl
  have taken : daemon.secret = some "secret" := rfl
  have fresh : (around.now.toInt - (7 : Int64).toInt).natAbs ≤ Auth.maxSkew := by decide
  have short : (Wire.bytesOfData (Wire.SubmitForm.ofRecords [⟨[1], [5]⟩]).toData).length ≤
      Daemon.maxBody := by decide +kernel
  obtain ⟨url, request, hout, hafter, hask⟩ :=
    ask_daemon (.submit [⟨[1], [5]⟩]) served taken hbase fresh fun _ => short
  obtain ⟨url', request', hout', -, hask'⟩ :=
    ask_daemon (.entries 1 0) served taken hbase fresh fun _ => Nat.zero_le _
  rw [g.answer_one] at hafter hask
  refine ⟨daemon, around, _, _, url, url', request, request', hout, hafter,
    g.treeSize_one, fun exchange hexchange => ?_, hout',
    fun exchange hexchange => ?_⟩
  · exact (hask exchange hexchange).1 g.one rfl
  · exact ((hask' exchange hexchange).2 (.outOfRange (.startAfterFinish 1 0)) rfl).2

end TransparencyLog
