import Std.Data.ExtTreeMap
import TransparencyLog.Follow.Cache
import TransparencyLog.Quorum.Correlation

/-!
# Surveys

One question goes to every followed log, each in a query of its own. A log's answer counts only if its
proof holds under the head trusted for it; a log without such an answer is a miss. Queries end in any
order, and one that dies tells only its number, so each end is put back to its log by number. Answers
are put in order of the logs' names, whatever order they arrive in.

* `HeadCache.query`: one log's checked answer;
* `Query`, `QueryEnd`: a query on its way, and how it ended;
* `Survey.gather`: the ends of all queries, by log;
* `Survey.responses`, `Survey.misses`;
* `Survey.decide`, `Survey.hashes`.
-/

namespace TransparencyLog

/-- Why a log has no answer. -/
inductive QueryError
  | noTrustedHead
  | invalidProof
  | api (error : ApiError)
  | malformed (error : LogError)
deriving DecidableEq, Repr

/-- Checks a log's answer for a key under a head. Gives the recorded value in hexadecimal, or that
there is none. -/
def checkAnswer (head : TreeHead) (key : Bytes) (found : MapValue) :
    Except QueryError (Option String) :=
  match found.proof.expand with
  | .error e => .error (.malformed e)
  | .ok siblings =>
    if SparseMap.verify siblings head.mapRoot key found.value then
      match found.value with
      | none => .ok none
      | some bytes =>
        match MapEntry.decode bytes with
        | .error e => .error (.malformed e)
        | .ok entry => .ok (some (Hex.encode entry.value))
    else .error .invalidProof

/-- A log's checked answer for a key, given how to ask it. -/
def HeadCache.query (cache : HeadCache) (key : Bytes)
    (ask : Digest → Except ApiError MapValue) : Except QueryError (Option String) :=
  match cache.head? with
  | none => .error .noTrustedHead
  | some head =>
    match ask head.mapRoot with
    | .error e => .error (.api e)
    | .ok found => checkAnswer head key found

/-! ## Queries -/

/-- A query on its way: its number, the cache of the log that is asked, and what the log answers at a
map root; without that, the query dies. -/
structure Query where
  number : Nat
  cache : HeadCache
  ask : Option (Digest → Except ApiError MapValue)

/-- How the query of a number ended: with an answer, or by dying. -/
structure QueryEnd where
  number : Nat
  answer : Option (Except QueryError (Option String))

/-- What is reported for the log that was asked. -/
def QueryEnd.report (ended : QueryEnd) : Except QueryError (Option String) :=
  ended.answer.getD (.error (.api .task))

namespace Query

/-- The name of the log that is asked. -/
def logName (query : Query) : String := query.cache.logName

/-- The end of a query for a key. -/
def ended (query : Query) (key : Bytes) : QueryEnd := ⟨query.number, query.ask.map (query.cache.query key)⟩

/-- The logs that are asked, by the numbers of the queries. -/
def names (queries : List Query) : Std.ExtTreeMap Nat String compare :=
  .ofList (queries.map fun query => (query.number, query.logName)) compare

end Query

/-- What each log answered, by name. -/
abbrev Survey := List (String × Except QueryError (Option String))

namespace Survey

/-- Takes in the ends of queries as they come. Each number stands for its log once. -/
def gather : Std.ExtTreeMap Nat String compare → List QueryEnd → Survey
  | _, [] => []
  | names, ended :: rest =>
    match names[ended.number]? with
    | none => gather names rest
    | some name => (name, ended.report) :: gather (names.erase ended.number) rest

/-! ## Outcomes -/

/-- The answers in order of the names. -/
def inOrder (survey : Survey) : Survey := survey.mergeSort fun a b => decide (a.1 ≤ b.1)

/-- The checked value of an answer. -/
def value? : Except QueryError (Option String) → Option String
  | .ok value => value
  | .error _ => none

/-- The answers with a value, in order of the names. -/
def responses (survey : Survey) : List Quorum.Answer :=
  survey.inOrder.filterMap fun (name, answer) =>
    (value? answer).map fun hash => ⟨name, hash⟩

/-- The logs without a value, in order. -/
def misses (survey : Survey) : List String :=
  survey.inOrder.filterMap fun (name, answer) =>
    if (value? answer).isNone then some name else none

def decide (survey : Survey) (strategy : Quorum.Strategy) :
    Except Quorum.NoDecision Quorum.Correlation :=
  Quorum.correlate strategy survey.responses survey.misses

/-- Puts a log's value, if it has one, into a table. -/
def tabulate (table : Std.ExtTreeMap String String compare)
    (told : String × Except QueryError (Option String)) : Std.ExtTreeMap String String compare :=
  match value? told.2 with
  | some hash => table.insert told.1 hash
  | none => table

/-- The values by log name. -/
def hashes (survey : Survey) : List (String × String) := (survey.inOrder.foldl tabulate ∅).toList

end Survey

end TransparencyLog
