import TransparencyLog.Http.Status
import TransparencyLog.Remote
import TransparencyLog.Store.Folder
import TransparencyLog.Tool.Command

/-!
# Running commands

A command reads and writes files, asks a log or a daemon, and ends with something to print, a
failure, or both.

* `CommandFailure`, `CommandFailure.message`;
* `Command.pairOf`, `Command.decisionUrl`, `Command.outgoing?`: what is sent;
* `Command.run`.
-/

namespace TransparencyLog

/-- Why a command fails. -/
inductive CommandFailure
  | fileExists (path : String)
  | unwritable (path : String)
  | notPair (item : String)
  | api (error : ApiError)
  | exchange (fault : Http.Fault)
  | badResponse
  | noDecision (status : Nat)
deriving DecidableEq, Repr

def CommandFailure.message : CommandFailure → String
  | .fileExists path => path ++ " already exists"
  | .unwritable path => "Failed to write " ++ path
  | .notPair item => "expected key=value, got " ++ item
  | .api error => error.message
  | .exchange .unreachable => "the daemon cannot be reached"
  | .exchange .timeout => "the daemon did not answer in time"
  | .badResponse => "the response cannot be read"
  | .noDecision status => "no decision (" ++ Http.statusText status ++ ")"

/-- What a command prints, and why it failed if it did. -/
structure CommandResult where
  output : String := ""
  failure : Option CommandFailure := none
deriving DecidableEq, Repr

/-- The exit code of a result. -/
def CommandResult.exitCode (result : CommandResult) : Nat := if result.failure.isSome then 1 else 0

namespace Command

/-- The result of a command that fails. -/
def fail (failure : CommandFailure) : CommandResult := { failure }

/-- A value printed over several lines. -/
def print (d : Data) : String := Json.pretty d ++ "\n"

/-! ## Keys -/

/-- Makes a key from a random seed: the seed goes to a new file, the public key is printed. -/
def runMakeKey (seed : Bytes) (folder : Folder) (path : String) : CommandResult × Folder :=
  if folder.slot (Path.ofText path) != .absent then (fail (.fileExists path), folder)
  else match folder.write? (Path.ofText path) (Bytes.ofText (Hex.encode seed)) with
    | none => (fail (.unwritable path), folder)
    | some folder =>
      ({ output := Hex.encode (Signer.ofSeed seed).publicKey ++ "\n" }, folder)

/-! ## Heads and submissions -/

/-- Prints the head that a call gives. -/
def printHead : Except ApiError TreeHead → CommandResult
  | .ok head => { output := print (Wire.HeadForm.ofHead head).toData }
  | .error e => fail (.api e)

/-- The pair in an item: the key, which is not empty, up to the first `=`, then the value. -/
def pairOf (item : String) : Except CommandFailure Record :=
  let key := item.toList.takeWhile (· != '=')
  match key, (item.toList.dropWhile (· != '=')).tail? with
  | _ :: _, some value =>
    .ok ⟨Bytes.ofText (String.ofList key), Bytes.ofText (String.ofList value)⟩
  | _, _ => .error (.notPair item)

def runSubmit (exchange : Http.Exchange) (now : Int64) (url secret : String)
    (items : List String) : CommandResult :=
  match items.mapM pairOf with
  | .error failure => fail failure
  | .ok batch => printHead ((RemoteLog.ofUrl url (some secret)).ask exchange now (.submit batch))

/-! ## Decisions -/

/-- The URL that asks for the decision on a key; the key stands in it as it is. -/
def decisionUrl (url key : String) : String := RemoteLog.withoutSlashes url ++ "/decide/" ++ key

/-- Shows a response to a request for a decision. -/
def showDecision (response : Http.Response) : CommandResult :=
  match (Json.parse? response.body).filter Data.isWellFormed with
  | none => fail .badResponse
  | some d =>
    { output := print d.sorted
      failure := if response.isSuccess then none else some (.noDecision response.status) }

/-- The request for a decision with the URL it goes to. -/
def decisionRequest? (url key : String) : Option (Http.Url × Http.Request) :=
  (Http.Url.parse? (decisionUrl url key)).map fun url =>
    (url, { method := .get, target := url.target })

def runDecide (exchange : Http.Exchange) (url key : String) : CommandResult :=
  match decisionRequest? url key with
  | none => fail (.exchange .unreachable)
  | some (url, request) =>
    match exchange url request with
    | .error fault => fail (.exchange fault)
    | .ok response => showDecision response

/-! ## All commands -/

/-- The one request that a command makes, if it makes one. -/
def outgoing? (now : Int64) : Command → Option (Http.Url × Http.Request)
  | .makeKey _ => none
  | .showHead url => (RemoteLog.ofUrl url none).outgoing? now .head
  | .submit url secret items =>
    match items.mapM pairOf with
    | .error _ => none
    | .ok batch => (RemoteLog.ofUrl url (some secret)).outgoing? now (.submit batch)
  | .decide url key => decisionRequest? url key

/-- Runs a command at some time, with a random seed in case it makes a key. -/
def run (seed : Bytes) (exchange : Http.Exchange) (now : Int64) (folder : Folder) :
    Command → CommandResult × Folder
  | .makeKey path => runMakeKey seed folder path
  | .showHead url => (printHead ((RemoteLog.ofUrl url none).ask exchange now .head), folder)
  | .submit url secret items => (runSubmit exchange now url secret items, folder)
  | .decide url key => (runDecide exchange url key, folder)

end Command

end TransparencyLog
