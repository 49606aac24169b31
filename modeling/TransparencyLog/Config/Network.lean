import TransparencyLog.Data.Toml
import TransparencyLog.Quorum.Rule

/-!
# The log network

A configuration file lists the logs to follow, one of which may be served here, the rules to decide
by, and how often and how patiently the others are asked.

* `LogEntry`, `CacheSettings`, `NetworkConfig`;
* `NetworkFault`, `NetworkFault.message`;
* `NetworkConfig.parse`: reads a file and checks it.
-/

namespace TransparencyLog

/-- Where a log lives. -/
inductive LogMode
  | served
  | remote
deriving DecidableEq, Repr

def LogMode.word : LogMode → String
  | .served => "local"
  | .remote => "remote"

/-- One configured log. -/
structure LogEntry where
  name : String
  mode : LogMode
  url : Option String
  publicKey : Option String
  privateKeyPath : Option String
deriving DecidableEq, Repr

/-- How often heads are refreshed and how long a call may take, as configured. -/
structure CacheSettings where
  refreshSecs : Nat := 10
  callTimeoutSecs : Nat := 5
deriving DecidableEq, Repr

/-- Seconds between refreshes: at least one. -/
def CacheSettings.refresh (settings : CacheSettings) : Nat := max 1 settings.refreshSecs

/-- Seconds a call may take: at least one. -/
def CacheSettings.callTimeout (settings : CacheSettings) : Nat := max 1 settings.callTimeoutSecs

/-- A configured network. -/
structure NetworkConfig where
  logs : List LogEntry
  rules : List Quorum.Rule
  cache : CacheSettings
deriving DecidableEq, Repr

/-- Why a configuration file is refused. -/
inductive NetworkFault
  | malformed
  | noLog
  | noRule
  | duplicateName (name : String)
  | needsKeyPath (name : String)
  | needsUrl (name : String)
  | badUrl (name : String)
  | needsPublicKey (name : String)
  | severalServed
deriving DecidableEq, Repr

def NetworkFault.message : NetworkFault → String
  | .malformed => "malformed configuration"
  | .noLog => "at least one [[log]] is required"
  | .noRule => "at least one [[decider]] is required"
  | .duplicateName name => "duplicate log name " ++ name
  | .needsKeyPath name => "local log " ++ name ++ " needs private_key_path"
  | .needsUrl name => "remote log " ++ name ++ " needs url"
  | .badUrl name => "url of log " ++ name ++ " must start with http:// or https://"
  | .needsPublicKey name => "remote log " ++ name ++ " needs public_key"
  | .severalServed => "at most one local log may be served"

/-! ## Reading -/

/-- The mode a word stands for. -/
def LogMode.ofData? (d : Data) : Option LogMode := do
  match ← d.text? with
  | "local" => some .served
  | "remote" => some .remote
  | _ => none

/-- Reads a text that may be absent. -/
def optionalText? : Option Data → Option (Option String)
  | none => some none
  | some d => d.text?.map some

/-- Reads a number that may be absent. -/
def naturalOr? (fallback : Nat) : Option Data → Option Nat
  | none => some fallback
  | some d => d.natural? UInt64.size

def LogEntry.ofData? (d : Data) : Option LogEntry := do
  match ← d.parts? ["name", "mode", "url", "public_key", "private_key_path"] with
  | [some name, some mode, url, publicKey, keyPath] =>
    return ⟨← name.text?, ← LogMode.ofData? mode, ← optionalText? url, ← optionalText? publicKey,
      ← optionalText? keyPath⟩
  | _ => none

def CacheSettings.ofData? (d : Data) : Option CacheSettings := do
  match ← d.parts? ["refresh_secs", "call_timeout_secs"] with
  | [refresh, timeout] => return ⟨← naturalOr? 10 refresh, ← naturalOr? 5 timeout⟩
  | _ => none

namespace NetworkConfig

/-- Reads a network, unchecked. -/
def ofData? (d : Data) : Option NetworkConfig := do
  match ← d.fields? ["log", "decider", "cache"] with
  | [logs, rules, cache] =>
    let logs ← (logs.getD (.list [])).list?
    return ⟨← logs.mapM LogEntry.ofData?, ← Quorum.Rule.listOfData? (rules.getD (.list [])),
      ← CacheSettings.ofData? (cache.getD (.table []))⟩
  | _ => none

/-! ## Checking -/

/-- Whether a URL is of a kind that can be asked. -/
def isHttpUrl (url : String) : Bool :=
  "http://".toList.isPrefixOf url.toList || "https://".toList.isPrefixOf url.toList

/-- Checks what a log of its mode needs. -/
def checkEntry (entry : LogEntry) : Except NetworkFault Unit :=
  match entry.mode with
  | .served => if entry.privateKeyPath.isNone then .error (.needsKeyPath entry.name) else .ok ()
  | .remote =>
    match entry.url with
    | none => .error (.needsUrl entry.name)
    | some url =>
      if !isHttpUrl url then .error (.badUrl entry.name)
      else if entry.publicKey.isNone then .error (.needsPublicKey entry.name)
      else .ok ()

/-- Checks the logs one after the other; no two have one name. -/
def checkEntries : List String → List LogEntry → Except NetworkFault Unit
  | _, [] => .ok ()
  | seen, entry :: rest => do
    if seen.contains entry.name then throw (.duplicateName entry.name)
    checkEntry entry
    checkEntries (entry.name :: seen) rest

def check (network : NetworkConfig) : Except NetworkFault Unit := do
  if network.logs.isEmpty then throw .noLog
  if network.rules.isEmpty then throw .noRule
  checkEntries [] network.logs
  if 1 < network.logs.countP (·.mode = .served) then throw .severalServed

/-- Reads and checks a configuration file. -/
def parse (text : String) : Except NetworkFault NetworkConfig :=
  match (Toml.parse? text).bind ofData? with
  | none => .error .malformed
  | some network => do
    network.check
    return network

/-- The log served here. -/
def served? (network : NetworkConfig) : Option LogEntry := network.logs.find? (·.mode = .served)

end NetworkConfig

end TransparencyLog
