import TransparencyLog.Crypto.Hmac
import TransparencyLog.Text.Blank
import TransparencyLog.Text.Decimal
import TransparencyLog.Text.Hex

/-!
# Request authentication

Whoever may submit shares a secret with the log. A request carries the time it was made and a
keyed hash of that time, a point and its body. The time must be near the log's own clock, so an
old request cannot be sent again later.

* `Auth.sign`: the signature of a request;
* `Auth.verify`: checks a request's two headers at some time;
* `Auth.Fault`, `Auth.Fault.message`.
-/

namespace TransparencyLog.Auth

def timestampHeader : String := "X-Timestamp"

def signatureHeader : String := "X-Signature"

/-- By how many seconds a request's time may differ from the clock. -/
def maxSkew : Nat := 300

/-- Why a request is refused. -/
inductive Fault
  | missing (header : String)
  | malformed (header : String)
  | stale
  | mismatch
deriving DecidableEq, Repr

def Fault.message : Fault → String
  | .missing header => "missing " ++ header ++ " header"
  | .malformed header => "malformed " ++ header ++ " header"
  | .stale => "request timestamp outside the allowed window"
  | .mismatch => "signature mismatch"

/-- What is signed: the time in decimal, a point, the body. -/
def message (timestamp : Int64) (body : Bytes) : Bytes :=
  Bytes.ofText (toString timestamp.toInt) ++ Bytes.ofText "." ++ body

/-- The keyed hash of a time and a body. -/
def mac (secret : String) (timestamp : Int64) (body : Bytes) : Bytes :=
  Hmac.code (Bytes.ofText secret) (message timestamp body)

def sign (secret : String) (timestamp : Int64) (body : Bytes) : String :=
  Hex.encode (mac secret timestamp body)

def readTimestamp : Option String → Except Fault Int64
  | none => .error (.missing timestampHeader)
  | some text =>
    match Decimal.int64? (Blank.trim text) with
    | some timestamp => .ok timestamp
    | none => .error (.malformed timestampHeader)

def readSignature : Option String → Except Fault Bytes
  | none => .error (.missing signatureHeader)
  | some text =>
    match Hex.decode (Blank.trim text) with
    | .ok signature => .ok signature
    | .error _ => .error (.malformed signatureHeader)

/-- Whether two times are near enough. -/
def isFresh (now timestamp : Int64) : Bool := (now.toInt - timestamp.toInt).natAbs ≤ maxSkew

/-- Checks a request at some time. -/
def verify (secret : String) (timestamp signature : Option String) (body : Bytes) (now : Int64) :
    Except Fault Unit := do
  let timestamp ← readTimestamp timestamp
  let signature ← readSignature signature
  if !isFresh now timestamp then throw .stale
  if signature ≠ mac secret timestamp body then throw .mismatch

end TransparencyLog.Auth
