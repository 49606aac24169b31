import TransparencyLog.Http.Message

/-!
# URLs

A URL as a client reads it before it sends a request: blanks around it fall away, a path's dot
segments are resolved, and bytes that may not stand in a path or a query are escaped. Escapes that
are there already stay as they are.

* `Http.Url`, `Http.Url.parse?`;
* `Http.Url.withForm`: the URL with more named values in its query;
* `Http.Exchange`: sending a request and waiting for the response.
-/

namespace TransparencyLog.Http

/-- Where a request goes: the scheme, the host as it is written, and the target there. -/
structure Url where
  scheme : String
  host : Bytes
  target : Target
deriving DecidableEq, Repr

namespace Url

/-! ## Paths -/

/-- Whether a byte may stand in a path as it is. -/
def isPathByte (b : UInt8) : Bool :=
  0x20 < b && b < 0x7F &&
    !(b == 0x22 || b == 0x23 || b == 0x3C || b == 0x3E || b == 0x3F || b == 0x60 || b == 0x7B ||
      b == 0x7D)

/-- Whether a byte may stand in a query as it is. -/
def isQueryByte (b : UInt8) : Bool :=
  0x20 < b && b < 0x7F && !(b == 0x22 || b == 0x23 || b == 0x27 || b == 0x3C || b == 0x3E)

/-- The dots of a segment that consists of dots only, escaped or not. -/
def dots : Bytes → Option Nat
  | [] => some 0
  | 0x2E :: rest => (dots rest).map (· + 1)
  | 0x25 :: 0x32 :: e :: rest =>
    if e == 0x65 || e == 0x45 then (dots rest).map (· + 1) else none
  | _ => none

/-- Resolves dot segments; the segments before are given in reverse. A dot segment at the end leaves
an empty one. -/
def resolve : List Bytes → List Bytes → List Bytes
  | done, [] => done.reverse
  | done, segment :: rest =>
    let finish (done : List Bytes) : List Bytes := if rest.isEmpty then [] :: done else done
    match dots segment with
    | some 1 => resolve (finish done) rest
    | some 2 => resolve (finish done.tail) rest
    | _ => resolve (segment :: done) rest

/-- The path of what follows a host: always with a slash in front. -/
def readPath (bytes : Bytes) : Bytes :=
  let slashed := bytes.map fun b => if b == 0x5C then 0x2F else b
  let segments := resolve [] ((Bytes.pieces 0x2F slashed).drop 1)
  (if segments.isEmpty then [[]] else segments).flatMap fun segment =>
    0x2F :: Percent.encode isPathByte segment

/-! ## Whole URLs -/

/-- Takes away blanks and control bytes around a text, and tabs and line ends within. -/
def strip (bytes : Bytes) : Bytes :=
  let trimmed := ((bytes.dropWhile (· ≤ 0x20)).reverse.dropWhile (· ≤ 0x20)).reverse
  trimmed.filter fun b => b != 0x09 && b != 0x0A && b != 0x0D

/-- Whether a byte ends a host. -/
def endsHost (b : UInt8) : Bool := b == 0x2F || b == 0x5C || b == 0x3F || b == 0x23

def readRest (scheme : String) (bytes : Bytes) : Option Url :=
  let rest := bytes.dropWhile fun b => b == 0x2F || b == 0x5C
  let (host, rest) := (rest.takeWhile (!endsHost ·), rest.dropWhile (!endsHost ·))
  let target := Target.split rest
  if host.isEmpty then none
  else some ⟨scheme, host, readPath target.path, target.query.map (Percent.encode isQueryByte)⟩

def parse? (text : String) : Option Url :=
  let (scheme, rest) := (strip (Bytes.ofText text)).cut 0x3A
  match (Utf8.lossy scheme).toLower, rest with
  | "http", some rest => readRest "http" rest
  | "https", some rest => readRest "https" rest
  | _, _ => none

/-- The URL with more named values in its query. -/
def withForm (url : Url) (form : Form) : Url :=
  let before := url.target.query.getD []
  let query := if before.isEmpty then Form.write form else
    if form.isEmpty then before else before ++ 0x26 :: Form.write form
  { url with target := { url.target with query := if query.isEmpty then none else some query } }

end Url

/-- Why a request has no response. -/
inductive Fault
  | unreachable
  | timeout
deriving DecidableEq, Repr, Inhabited

/-- Sends a request to the host of a URL and waits for the response. -/
abbrev Exchange := Url → Request → Except Fault Response

end TransparencyLog.Http
