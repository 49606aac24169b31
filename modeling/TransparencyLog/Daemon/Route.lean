import TransparencyLog.Http.Form

/-!
# Routes

The paths a daemon answers. Most ask a question; one takes submissions. The two routes for a key
end in one segment that is not empty.

* `Question`, `Route`, `Route.ofPath?`;
* `Route.readSegment?`: the text of a segment.
-/

namespace TransparencyLog

/-- What can be asked without changing anything. -/
inductive Question
  | head
  | consistency
  | audit
  | entries
  | mapValue
  | decision (segment : Bytes)
  | hashes (segment : Bytes)
deriving DecidableEq, Repr

/-- What a path leads to. -/
inductive Route
  | ask (question : Question)
  | submit
deriving DecidableEq, Repr

namespace Route

/-- The paths without a variable part. -/
def fixed : List (String × Route) :=
  [("/sth", .ask .head), ("/log/consistency", .ask .consistency), ("/log/audit", .ask .audit),
    ("/log/entries", .ask .entries), ("/map/value", .ask .mapValue), ("/submit", .submit)]

/-- The question that a segment ends. -/
def keyed? (name segment : Bytes) : Option Route :=
  if segment.isEmpty then none
  else if name = Bytes.ofText "decide" then some (.ask (.decision segment))
  else if name = Bytes.ofText "hashmap" then some (.ask (.hashes segment))
  else none

/-- The route of a path. -/
def ofPath? (path : Bytes) : Option Route :=
  match fixed.find? fun entry => Bytes.ofText entry.1 == path with
  | some (_, route) => some route
  | none =>
    match Bytes.pieces 0x2F path with
    | [[], name, segment] => keyed? name segment
    | _ => none

/-- The text of a segment, once its escapes are read. -/
def readSegment? (segment : Bytes) : Option String := Utf8.decode? (Percent.decode segment)

end Route

end TransparencyLog
