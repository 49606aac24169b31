import Std.Async.DNS
import Std.Async.TCP
import Std.Async.Timer
import Std.Time.DateTime.Timestamp
import TransparencyLog.Http.Transfer
import TransparencyLog.Tool.Run

/-!
# The operator's tool

The command line around `Command.run`: arguments, environment, clock, random bytes, the file of a
new key, and the one connection that a command may need.
-/

namespace TransparencyLog

open Std.Async Std.Net

/-- How long a response may take, in milliseconds. -/
def patience : Std.Time.Millisecond.Offset := 10000

/-- The name of a host and the number of the socket to connect to. -/
def hostParts (url : Http.Url) : String × UInt16 :=
  let (name, socket) := url.host.cut 0x3A
  (Utf8.lossy name, ((socket.bind fun digits => Decimal.unsigned? UInt16.size
    (Utf8.lossy digits)).map UInt16.ofNat).getD 80)

/-- The socket address of a host. -/
def addressOf (host : String) (socket : UInt16) : Async SocketAddress := do
  match IPv4Addr.ofString host with
  | some address => return .v4 ⟨address, socket⟩
  | none =>
    let found ← DNS.getAddrInfo host "" none
    match found.toList with
    | .v4 address :: _ => return .v4 ⟨address, socket⟩
    | .v6 address :: _ => return .v6 ⟨address, socket⟩
    | [] => throw (IO.userError "unknown host")

/-- Reads from a connection until the other side closes it. -/
partial def readAll (client : TCP.Socket.Client) (sofar : ByteArray) : Async ByteArray := do
  match ← client.recv? 65536 with
  | some chunk => readAll client (sofar ++ chunk)
  | none => return sofar

/-- Sends a request on a connection of its own and reads the response. Nothing is sent where a
secure connection is asked for. -/
def sendRequest (url : Http.Url) (request : Http.Request) :
    Async (Except Http.Fault Http.Response) := do
  if url.scheme != "http" then return .error .unreachable
  let (host, socket) := hostParts url
  let client ← TCP.Socket.Client.mk
  client.connect (← addressOf host socket)
  client.send ⟨(request.write url).toArray⟩
  match Http.Response.read? (← readAll client .empty).toList with
  | some response => return .ok response
  | none => return .error .unreachable

def giveUp : Async (Except Http.Fault Http.Response) := do
  sleep patience
  return .error .timeout

/-- What becomes of the request that a command makes. -/
def exchangeFor (now : Int64) (command : Command) : IO Http.Exchange := do
  match command.outgoing? now with
  | none => return fun _ _ => .error .unreachable
  | some (url, request) =>
    let outcome ← try (Async.race (sendRequest url request) giveUp).block
      catch _ => pure (.error .unreachable)
    return fun _ _ => outcome

/-- Whether something stands at a path. -/
def isTaken (path : String) : IO Bool :=
  try
    discard (IO.FS.Handle.mk path .read)
    return true
  catch _ => return false

/-- The files that a command sees: only what stands at the path of a new key. -/
def folderFor : Command → IO Folder
  | .makeKey path => do
    let way := Path.ofText path
    let folder := ((({} : Folder).makeDirectories? way.dropLast).getD {})
    return if ← isTaken path then folder.put way (.file []) else folder
  | _ => return {}

/-- Writes the file of a new key. -/
def writeKey (folder : Folder) (path : String) : IO Bool :=
  match folder.read? (Path.ofText path) with
  | none => return true
  | some bytes =>
    try
      IO.FS.writeBinFile path ⟨bytes.toArray⟩
      return true
    catch _ => return false

/-- Prints a result and gives its exit code. -/
def report (result : CommandResult) : IO UInt32 := do
  IO.print result.output
  match result.failure with
  | some failure => IO.eprintln ("Error: " ++ failure.message)
  | none => pure ()
  return UInt32.ofNat result.exitCode

def execute (command : Command) : IO UInt32 := do
  let seed := (← IO.getRandomBytes 32).toList
  let now := Int64.ofInt (← Std.Time.Timestamp.now).toSecondsSinceUnixEpoch.val
  let folder ← folderFor command
  let (result, after) := command.run seed (← exchangeFor now command) now folder
  match command, result.failure with
  | .makeKey path, none =>
    if ← writeKey after path then report result
    else report (Command.fail (.unwritable path))
  | _, _ => report result

/-- What is said when there is no command to run. -/
def usage : String :=
  "usage: keygen PATH | sth --url URL | submit --url URL --secret SECRET KEY=VALUE... | " ++
    "decide --url URL INPUT_HASH"

/-- Runs the command of the arguments. -/
def runTool (arguments : List String) : IO UInt32 := do
  let url ← IO.getEnv "TLOG_URL"
  let secret ← IO.getEnv "TLOGD_SUBMIT_SECRET"
  let environment (name : String) : Option String :=
    if name = "TLOG_URL" then url else if name = "TLOGD_SUBMIT_SECRET" then secret else none
  match Command.parse environment arguments with
  | .ok command => execute command
  | .error .help => do
    IO.println usage
    return 0
  | .error .wrong => do
    IO.eprintln usage
    return 2

end TransparencyLog

def main (arguments : List String) : IO UInt32 := TransparencyLog.runTool arguments
