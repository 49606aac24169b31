import TransparencyLog.Http.Form

/-!
# Requests and responses

What goes over the wire between a log and whoever asks it, as far as a log looks at it. A target is
a path and a query; what follows a `#` is not part of either.

* `Http.Target`, `Http.Target.parse?`;
* `Http.Request`, `Http.Response`, with `Http.Request.header?`.
-/

namespace TransparencyLog.Http

/-- A method. -/
inductive Method
  | get
  | head
  | post
  | options
  | other (name : String)
deriving DecidableEq, Repr

def Method.ofName : String → Method
  | "GET" => .get
  | "HEAD" => .head
  | "POST" => .post
  | "OPTIONS" => .options
  | name => .other name

def Method.name : Method → String
  | .get => "GET"
  | .head => "HEAD"
  | .post => "POST"
  | .options => "OPTIONS"
  | .other name => name

/-- A path and a query, escaped as they were sent. -/
structure Target where
  path : Bytes
  query : Option Bytes := none
deriving DecidableEq, Repr

namespace Target

/-- Takes a text apart at the first `?` and the first `#`, unchecked. -/
def split (bytes : Bytes) : Target :=
  let (path, query) := (bytes.cut 0x23).1.cut 0x3F
  ⟨path, query⟩

/-- Whether a byte may stand in a path. -/
def isPathByte (b : UInt8) : Bool :=
  b == 0x21 || b == 0x22 || (0x24 ≤ b && b ≤ 0x3B) || b == 0x3D || (0x40 ≤ b && b ≤ 0x5F) ||
    0x61 ≤ b

/-- Whether a byte may stand in a query. -/
def isQueryByte (b : UInt8) : Bool :=
  b == 0x21 || (0x24 ≤ b && b ≤ 0x3B) || b == 0x3D || 0x3F ≤ b

/-- Whether a path and a query hold only bytes that may stand there. -/
def isClean (target : Target) : Bool :=
  target.path.all isPathByte && (target.query.getD []).all isQueryByte

/-- Reads a target. A text without a slash names a host and has an empty path. -/
def parse? (text : String) : Option Target :=
  let bytes := Bytes.ofText text
  match bytes with
  | [] => none
  | 0x2F :: _ => some (split bytes) |>.filter isClean
  | _ => if bytes.all fun b => isPathByte b && b != 0x2F then some ⟨[], none⟩ else none

/-- The named values of the query. -/
def form (target : Target) : Form := Form.parse (target.query.getD [])

end Target

/-- A request. -/
structure Request where
  method : Method
  target : Target
  headers : List (String × String) := []
  body : Bytes := []
deriving DecidableEq, Repr

/-- Whether a header's value is readable text: visible characters, blanks and tabs. -/
def isReadable (value : String) : Bool :=
  value.toList.all fun c => c == '\t' || (' ' ≤ c && c ≤ '~')

/-- The value of a header, if it is readable. Names are told apart without case. -/
def Request.header? (request : Request) (name : String) : Option String :=
  ((request.headers.find? fun header => header.1.toLower == name.toLower).map Prod.snd).filter
    isReadable

/-- A response. -/
structure Response where
  status : Nat
  body : Bytes := []
deriving DecidableEq, Repr

def Response.isSuccess (response : Response) : Bool :=
  200 ≤ response.status && response.status < 300

end TransparencyLog.Http
