import TransparencyLog.Config.Network
import TransparencyLog.Daemon.Basic
import TransparencyLog.Store.Folder

/-!
# Setting up a daemon

A daemon is set up from a configured network and the files it keeps: a directory for its state, in
it the store of trusted heads and the store of the log it serves. What went wrong is told together
with its cause.

* `SetupFault`, `SetupFault.context`, `SetupFault.message`;
* `NetworkConfig.load`: the network of a file;
* `Daemon.setUp`;
* `Daemon.withFilesIn`, `Daemon.keepFilesIn`: a daemon's files among others.
-/

namespace TransparencyLog

/-- Why a daemon cannot be set up. -/
inductive SetupFault
  | unreadableConfig (path : String)
  | badConfig (path : String) (fault : NetworkFault)
  | stateFolder (path : String)
  | trustStore (error : LogError)
  | signingKey (name : String) (error : LogError)
  | logStore (name : String) (error : LogError)
  | log (name : String) (error : LogError)
  | publicKey (name : String) (error : LogError)
  | trustedHead (name : String) (error : CacheError)
  | rules (error : Quorum.DecisionError)

namespace SetupFault

/-- What was attempted. -/
def context : SetupFault → String
  | .unreadableConfig path => "Failed to read config " ++ path
  | .badConfig path _ => "Invalid config " ++ path
  | .stateFolder path => "Failed to create state dir " ++ path
  | .trustStore _ => "Failed to open sth cache store"
  | .signingKey name _ => "Failed to load signing key for " ++ name
  | .logStore name _ => "Failed to open storage for " ++ name
  | .log name _ => "Failed to open log " ++ name
  | .publicKey name _ => "Invalid public_key for " ++ name
  | .trustedHead name _ => "Failed to restore trusted head for " ++ name
  | .rules _ => "Invalid decider config"

/-- Why it failed, where more is known. -/
def cause? : SetupFault → Option String
  | .unreadableConfig _ | .stateFolder _ => none
  | .badConfig _ fault => some fault.message
  | .trustStore e | .signingKey _ e | .logStore _ e | .log _ e | .publicKey _ e => some e.message
  | .trustedHead _ e => some e.message
  | .rules e => some e.message

def message (fault : SetupFault) : String :=
  fault.context ++ ((fault.cause?.map (": " ++ ·)).getD "")

end SetupFault

/-- Reads and checks the configuration file at a path. -/
def NetworkConfig.load (folder : Folder) (path : String) : Except SetupFault NetworkConfig :=
  match (folder.read? (Path.ofText path)).bind Utf8.decode? with
  | none => .error (.unreadableConfig path)
  | some text => (NetworkConfig.parse text).mapError (.badConfig path)

/-! ## Files -/

/-- The file of the trusted heads. -/
def trustPath (stateDir : String) : Path := Path.ofText (stateDir ++ "/sth-cache.bin")

/-- The file of a served log. -/
def logPath (stateDir name : String) : Path := Path.ofText (stateDir ++ "/" ++ name ++ ".log.bin")

/-- The signer whose seed is in a file. -/
def Signer.load (folder : Folder) (path : String) : Except LogError Signer :=
  match (folder.read? (Path.ofText path)).bind Utf8.decode? with
  | none => .error (.key (.unreadable path))
  | some text => Signer.ofSeedText text

namespace Daemon

/-- A step of setting up, which may leave files behind. -/
abbrev Setup := ExceptT SetupFault (StateM Folder)

/-- Goes on with a value, or stops with a fault. -/
def orStop {ε α : Type} (fault : ε → SetupFault) : Except ε α → Setup α
  | .ok a => pure a
  | .error e => throw (fault e)

/-- Opens the log that is served here. -/
def openServed (stateDir : String) (entry : LogEntry) : Setup ServedLog := do
  let folder ← get
  let signer ← orStop (.signingKey entry.name)
    (Signer.load folder (entry.privateKeyPath.getD ""))
  let path := logPath stateDir entry.name
  let store ← orStop (.logStore entry.name) (Store.openFile (folder.storedFile path))
  let (log, store) := ServedLog.resume entry.name signer store
  set (folder.keep path store)
  orStop (.log entry.name) log

/-- The key that a log's heads are checked with, and where the log is asked. -/
def originOf (secret : Option String) (served : Option ServedLog) (entry : LogEntry) :
    Except LogError (Signer × Origin) :=
  match entry.mode, served with
  | .served, some log => do return (← Signer.ofPublicKey log.ledger.signer.publicKey, .here)
  | _, _ => do
    return (← Signer.ofKeyText (entry.publicKey.getD ""),
      .remote (RemoteLog.ofUrl (entry.url.getD "") secret))

/-- Begins to follow a log, from the head stored for it. -/
def follow (trust : Store) (secret : Option String) (served : Option ServedLog)
    (entry : LogEntry) : Setup Followed := do
  let (verifier, origin) ← orStop (.publicKey entry.name) (originOf secret served entry)
  let cache ← orStop (.trustedHead entry.name) (HeadCache.restore entry.name verifier trust)
  return ⟨cache, origin⟩

/-- Sets up the daemon of a network, with its state in a directory. -/
def setUp (stateDir : String) (secret : Option String) (network : NetworkConfig) :
    Setup Daemon := do
  match (← get).makeDirectories? (Path.ofText stateDir) with
  | none => throw (.stateFolder stateDir)
  | some folder => set folder
  let trust ← orStop .trustStore (Store.openFile ((← get).storedFile (trustPath stateDir)))
  let served ← network.served?.mapM (openServed stateDir)
  let followed ← network.logs.mapM (follow trust secret served)
  let strategy ← orStop .rules (Quorum.strategyOf network.rules)
  return {
    served
    followed := followed.mergeSort fun a b => decide (a.cache.logName ≤ b.cache.logName)
    trust, strategy, secret
    callTimeout := network.cache.callTimeout }

/-- The daemon with the files that now stand at its paths. -/
def withFilesIn (daemon : Daemon) (stateDir : String) (folder : Folder) : Daemon :=
  { daemon with
    trust := daemon.trust.withFilesAt folder (trustPath stateDir)
    served := daemon.served.map fun log =>
      { log with store := log.store.withFilesAt folder (logPath stateDir log.ledger.name) } }

/-- The files, once a daemon's own are put at its paths. -/
def keepFilesIn (daemon : Daemon) (stateDir : String) (folder : Folder) : Folder :=
  let folder := folder.keep (trustPath stateDir) daemon.trust
  match daemon.served with
  | none => folder
  | some log => folder.keep (logPath stateDir log.ledger.name) log.store

end Daemon

end TransparencyLog
