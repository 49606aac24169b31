import TransparencyLog.Api
import TransparencyLog.Text.Moment
import TransparencyLog.Tree.Proof

/-!
# Trusted heads

A follower of a log keeps the last head it has come to trust. A new head is trusted when the log's
key signed it and either it is the very head already trusted or a proof shows that it continues
that one. The first head is trusted on its signature. Whatever else the log answers, the trusted
head stays.

A refresh has three steps: the new head is assessed, a proof is checked if one is needed, and the
head is adopted, which stores it and then trusts it.

* `HeadCache`, `HeadCache.restore`;
* `HeadCache.assess`, `HeadCache.checkLink`, `HeadCache.adopt`: the steps;
* `HeadCache.refresh`: all of them;
* `RefreshOutcome`, `CacheError`.
-/

namespace TransparencyLog

/-- A head that was proven, and when. -/
structure TrustedHead where
  head : TreeHead
  confirmedAt : String
deriving DecidableEq, Repr

namespace TrustedHead

/-- The stored form. -/
def encode (trusted : TrustedHead) : Bytes :=
  trusted.head.encode ++ Binary.text trusted.confirmedAt

/-- Reads the stored form; the time must be one. -/
def reader : Binary.Reader TrustedHead := do
  let head ← TreeHead.reader
  let confirmedAt ← Binary.readText
  if Moment.isMoment confirmedAt then return ⟨head, confirmedAt⟩ else failure

/-- The trusted head that stored bytes stand for. -/
def decode (bytes : Bytes) : Except LogError TrustedHead := Binary.decode reader bytes

end TrustedHead

/-- What a refresh did to the trusted head, by tree size. -/
inductive RefreshOutcome
  | initialized (size : UInt64)
  | unchanged (size : UInt64)
  | advanced (first second : UInt64)
deriving DecidableEq, Repr

/-- Why a head was not adopted. -/
inductive CacheError
  | regression (trusted candidate : UInt64)
  | fork (size : UInt64)
  | badSignature
  | inconsistentProof (first second : UInt64)
  | api (error : ApiError)
  | storage (error : LogError)
deriving DecidableEq, Repr

def CacheError.message : CacheError → String
  | .regression trusted candidate =>
    "tree size regressed from " ++ toString trusted.toNat ++ " to " ++ toString candidate.toNat
  | .fork size => "conflicting head at tree size " ++ toString size.toNat
  | .badSignature => "bad signature on candidate head"
  | .inconsistentProof first second =>
    "consistency proof from " ++ toString first.toNat ++ " to " ++ toString second.toNat ++
      " does not verify"
  | .api error => error.message
  | .storage error => "storage error: " ++ error.message

/-- A follower's knowledge of one log. -/
structure HeadCache where
  logName : String
  verifier : Signer
  trusted : Option TrustedHead := none

namespace HeadCache

/-- The key of a stored head in the log's bucket. -/
def storedKey : Bytes := Bytes.ofText "HEAD"

def head? (cache : HeadCache) : Option TreeHead := cache.trusted.map TrustedHead.head

def stored (logName : String) (store : Store) : Except LogError Bytes :=
  store.view fun view => view.fetch logName storedKey

/-- A cache that goes on from the head stored for the log, if there is one. -/
def restore (logName : String) (verifier : Signer) (store : Store) :
    Except CacheError HeadCache :=
  match stored logName store with
  | .error e => if e.isNotFound then .ok ⟨logName, verifier, none⟩ else .error (.storage e)
  | .ok bytes =>
    match TrustedHead.decode bytes with
    | .error e => .error (.storage e)
    | .ok trusted =>
      if trusted.head.verify verifier then .ok ⟨logName, verifier, some trusted⟩
      else .error .badSignature

/-! ## The steps of a refresh -/

/-- What a new head needs before it can be adopted. -/
inductive Verdict
  | adopt (outcome : RefreshOutcome)
  | prove (old : TreeHead)
deriving DecidableEq, Repr

/-- Sets a new head beside the trusted one. -/
def assess (cache : HeadCache) (candidate : TreeHead) : Except CacheError Verdict :=
  match cache.head? with
  | none =>
    if candidate.verify cache.verifier then .ok (.adopt (.initialized candidate.treeSize))
    else .error .badSignature
  | some old =>
    if candidate.treeSize < old.treeSize then
      .error (.regression old.treeSize candidate.treeSize)
    else if candidate.treeSize = old.treeSize then
      if candidate = old then .ok (.adopt (.unchanged old.treeSize))
      else .error (.fork old.treeSize)
    else if candidate.verify cache.verifier then .ok (.prove old)
    else .error .badSignature

/-- Checks that a new head continues an old one. -/
def checkLink (old candidate : TreeHead) (proof : List Digest) :
    Except CacheError RefreshOutcome :=
  if Tree.verifyConsistency old.logRoot candidate.logRoot old.treeSize.toNat
      candidate.treeSize.toNat proof then
    .ok (.advanced old.treeSize candidate.treeSize)
  else .error (.inconsistentProof old.treeSize candidate.treeSize)

/-- Stores a head and then trusts it. -/
def adopt (cache : HeadCache) (store : Store) (trusted : TrustedHead) :
    Except CacheError Unit × HeadCache × Store :=
  match store.update (Write.put cache.logName storedKey trusted.encode) with
  | (.ok (), store) => (.ok (), { cache with trusted := some trusted }, store)
  | (.error e, store) => (.error (.api (.log e)), cache, store)

/-- Checks a new head, asking for a proof if it needs one. -/
def check (cache : HeadCache) (fetched : Except ApiError TreeHead)
    (prove : UInt64 → UInt64 → Except ApiError (List Digest)) :
    Except CacheError (TreeHead × RefreshOutcome) :=
  match fetched with
  | .error e => .error (.api e)
  | .ok candidate =>
    match cache.assess candidate with
    | .error e => .error e
    | .ok (.adopt outcome) => .ok (candidate, outcome)
    | .ok (.prove old) =>
      match prove old.treeSize candidate.treeSize with
      | .error e => .error (.api e)
      | .ok proof => (checkLink old candidate proof).map fun outcome => (candidate, outcome)

/-- A whole refresh, given what the log answers. -/
def refresh (cache : HeadCache) (store : Store) (fetched : Except ApiError TreeHead)
    (prove : UInt64 → UInt64 → Except ApiError (List Digest)) (now : String) :
    Except CacheError RefreshOutcome × HeadCache × Store :=
  match cache.check fetched prove with
  | .error e => (.error e, cache, store)
  | .ok (candidate, outcome) =>
    let (adopted, cache, store) := cache.adopt store ⟨candidate, now⟩
    (adopted.map fun _ => outcome, cache, store)

end HeadCache

end TransparencyLog
