import TransparencyLog.Follow.Survey
import TransparencyLog.Quorum.Strategy
import TransparencyLog.Remote

/-!
# Daemons

A daemon serves at most one log of its own and follows others, its own among them. It surveys all
followed logs for a key and decides by its strategy.

* `Daemon`, `Followed`, `Origin`, and the `Surroundings` it works in;
* `Daemon.ask`: asking a followed log;
* `Daemon.refresh`;
* `Daemon.queries`, `Daemon.survey`.
-/

namespace TransparencyLog

/-- Where a followed log is asked. -/
inductive Origin
  | here
  | remote (log : RemoteLog)

/-- A followed log: the head trusted for it, and where it is asked. -/
structure Followed where
  cache : HeadCache
  origin : Origin

/-- A daemon: the log it serves, the logs it follows in order of their names, the store of trusted
heads, the strategy, the secret of submitters, and the seconds a call may take. -/
structure Daemon where
  served : Option ServedLog
  followed : List Followed
  trust : Store
  strategy : Quorum.Strategy
  secret : Option String
  callTimeout : Nat

/-- The time, as a number of seconds and in writing, and the way to other logs. -/
structure Surroundings where
  now : Int64
  stamp : String
  exchange : Http.Exchange

namespace Daemon

def ask {α : Type} (daemon : Daemon) (around : Surroundings) (origin : Origin)
    (call : LogCall α) : Except ApiError α :=
  match origin, daemon.served with
  | .remote log, _ => log.ask around.exchange around.now call
  | .here, some log => log.read call
  | .here, none => .error .task

/-- The names of the followed logs. -/
def logNames (daemon : Daemon) : List String := daemon.followed.map fun f => f.cache.logName

/-- Refreshes the trusted head of a followed log. -/
def refreshLog (daemon : Daemon) (around : Surroundings) (log : Followed) :
    Except CacheError RefreshOutcome × Followed × Store :=
  let (outcome, cache, trust) := log.cache.refresh daemon.trust
    (daemon.ask around log.origin .head)
    (fun first second => daemon.ask around log.origin (.consistency first second)) around.stamp
  (outcome, { log with cache }, trust)

/-- Refreshes the trusted head of a name, if it is followed. -/
def refresh (daemon : Daemon) (around : Surroundings) (name : String) :
    Option (Except CacheError RefreshOutcome × Daemon) := do
  let log ← daemon.followed.find? fun f => f.cache.logName == name
  let (outcome, refreshed, trust) := daemon.refreshLog around log
  let followed := daemon.followed.map fun f => if f.cache.logName == name then refreshed else f
  return (outcome, { daemon with followed, trust })

/-- The queries of all followed logs for a key. -/
def queries (daemon : Daemon) (around : Surroundings) (key : Bytes) : List Query :=
  daemon.followed.mapIdx fun number log =>
    ⟨number, log.cache, some fun root => daemon.ask around log.origin (.mapValue key root)⟩

/-- Asks every followed log for a key. -/
def survey (daemon : Daemon) (around : Surroundings) (key : Bytes) : Survey :=
  let queries := daemon.queries around key
  Survey.gather (Query.names queries) (queries.map fun query => query.ended key)

end Daemon

end TransparencyLog
