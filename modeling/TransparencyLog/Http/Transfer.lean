import TransparencyLog.Http.Url

/-!
# Requests and responses on a connection

The bytes that a client writes to a connection of its own for one request, and what it reads back
until the other side closes the connection.

* `Http.Request.write`;
* `Http.Response.read?`.
-/

namespace TransparencyLog.Http

def lineEnd : Bytes := [0x0D, 0x0A]

def line (text : Bytes) : Bytes := text ++ lineEnd

def headerLine (name value : String) : Bytes := line (Bytes.ofText (name ++ ": " ++ value))

/-- A target as it stands in a request. -/
def Target.write (target : Target) : Bytes :=
  target.path ++ ((target.query.map (0x3F :: ·)).getD [])

/-- A request to the host of a URL. -/
def Request.write (request : Request) (url : Url) : Bytes :=
  line (Bytes.ofText request.method.name ++ 0x20 :: request.target.write ++
      Bytes.ofText " HTTP/1.0") ++
    line (Bytes.ofText "Host: " ++ url.host) ++
    request.headers.flatMap (fun (name, value) => headerLine name value) ++
    headerLine "Content-Length" (toString request.body.length) ++
    lineEnd ++ request.body

/-- What follows the first empty line. -/
def afterHeaders : Bytes → Option Bytes
  | 0x0D :: 0x0A :: 0x0D :: 0x0A :: rest => some rest
  | _ :: rest => afterHeaders rest
  | [] => none

/-- Reads a response: the status in its first line and the body after its headers. -/
def Response.read? (bytes : Bytes) : Option Response := do
  match (bytes.cut 0x0D).1.pieces 0x20 with
  | _ :: status :: _ =>
    return ⟨← (← Utf8.decode? status).toNat?, ← afterHeaders bytes⟩
  | _ => none

end TransparencyLog.Http
