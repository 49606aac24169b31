import Std.Data.ExtTreeMap
import TransparencyLog.Follow.Peer
import TransparencyLog.Follow.Survey

/-!
# Following a network over time

Several logs are followed at once. Each followed log may have a refresh loop, which refreshes its
head at once, then at a fixed interval, and early when triggered. Time is counted in milliseconds
and passes only while something waits: a loop for its next tick, a call for its answer.

A refresh holds its cache until it is over, so at most one runs for a cache at any time. A tick that
is met late by more than a moment moves the later ones; several triggers before the loop looks
count once. A crash during a refresh ends its loop.

* `Network`: peers, followers, loops and the clock;
* `Network.readyAt`, `Network.fire`: when a loop goes on, and how;
* `Network.runThrough`, `Network.sleep`: letting time pass;
* `Network.refresh`, `Network.survey`: what a caller does in between.
-/

namespace TransparencyLog

/-- A cache, the peer that answers for it, and how long a call to it may take. -/
structure Follower where
  cache : HeadCache
  peer : String
  timeout : Nat

/-- How far a refresh has come: it waits for a head, or for the proof that a head continues the
trusted one. -/
inductive Stage
  | head
  | proof (old candidate : TreeHead)

/-- A refresh waiting for a call: how far it has come, how the peer behaved when the call was made,
and when the call ends. -/
structure Waiting where
  stage : Stage
  met : Behaviour
  ends : Nat

/-- What a refresh loop does. -/
inductive LoopState
  | idle
  | blocked
  | refreshing (call : Waiting)
  | dead

/-- A refresh loop: its follower, its interval, its next tick, whether it was triggered. -/
structure RefreshLoop where
  follower : Nat
  every : Nat
  due : Nat
  triggered : Bool := false
  state : LoopState := .idle

/-- By how much a tick may be late without moving the later ones. -/
def tickTolerance : Nat := 5

/-- The tick after one that is met now. -/
def nextDue (now due every : Nat) : Nat :=
  if due + tickTolerance < now then now + every else due + every

/-- The loop once it has taken its tick or, if none is due, its trigger. -/
def RefreshLoop.woken (loop : RefreshLoop) (now : Nat) : RefreshLoop :=
  if loop.due ≤ now then { loop with due := nextDue now loop.due loop.every }
  else { loop with triggered := false }

/-- How a refresh ended. -/
inductive RefreshEnd
  | crashed
  | done (result : Except CacheError RefreshOutcome)

/-- Followed logs, their loops and the clock. All caches share one store. A follower keeps its
number when another takes over its name, and so does a loop begun for it. -/
structure Network where
  now : Nat := 0
  stamp : String := "1970-01-01T00:00:00Z"
  store : Store := Store.inMemory
  peers : Std.ExtTreeMap String Peer compare := ∅
  followers : Array Follower := #[]
  names : Std.ExtTreeMap String Nat compare := ∅
  loops : Std.ExtTreeMap String RefreshLoop compare := ∅
  held : Option Nat := none

namespace Network

/-! ## Calls -/

/-- Makes a call of a refresh: the peer counts it, and its behaviour says when it ends. -/
def beginCall (net : Network) (follower : Follower) (stage : Stage) : Network × Waiting :=
  match net.peers[follower.peer]? with
  | none => (net, ⟨stage, {}, net.now⟩)
  | some peer =>
    ({ net with peers := net.peers.insert follower.peer peer.called },
      ⟨stage, peer.behaviour, net.now + peer.behaviour.duration follower.timeout⟩)

/-- What a call ends in. -/
def endCall {α : Type} (net : Network) (follower : Follower) (met : Behaviour)
    (call : LogCall α) : Reply α :=
  match net.peers[follower.peer]? with
  | none => .answer (.error .task) false
  | some peer => (peer.reply met call).within met.delay follower.timeout

/-! ## Refreshes -/

/-- A refresh goes on with another call, or is over. -/
inductive Progress
  | call (stage : Stage)
  | over (ending : RefreshEnd)

def adopt (net : Network) (index : Nat) (follower : Follower) (candidate : TreeHead)
    (outcome : RefreshOutcome) : Network × Progress :=
  let (adopted, cache, store) := follower.cache.adopt net.store ⟨candidate, net.stamp⟩
  ({ net with store, followers := net.followers.set! index { follower with cache } },
    .over (.done (adopted.map fun _ => outcome)))

/-- Goes on with a refresh when its call has ended. -/
def proceed (net : Network) (index : Nat) (follower : Follower) (call : Waiting) :
    Network × Progress :=
  match call.stage with
  | .head =>
    match net.endCall follower call.met .head with
    | .crash => (net, .over .crashed)
    | .answer (.error e) _ => (net, .over (.done (.error (.api e))))
    | .answer (.ok candidate) _ =>
      match follower.cache.assess candidate with
      | .error e => (net, .over (.done (.error e)))
      | .ok (.adopt outcome) => net.adopt index follower candidate outcome
      | .ok (.prove old) => (net, .call (.proof old candidate))
  | .proof old candidate =>
    match net.endCall follower call.met (.consistency old.treeSize candidate.treeSize) with
    | .crash => (net, .over .crashed)
    | .answer (.error e) _ => (net, .over (.done (.error (.api e))))
    | .answer (.ok proof) _ =>
      match HeadCache.checkLink old candidate proof with
      | .error e => (net, .over (.done (.error e)))
      | .ok outcome => net.adopt index follower candidate outcome

/-! ## Loops -/

/-- Whether a loop's refresh holds a cache. -/
def isRefreshing (net : Network) (index : Nat) : Bool :=
  net.loops.toList.any fun (_, loop) =>
    loop.follower == index && match loop.state with
      | .refreshing _ => true
      | _ => false

def isHeld (net : Network) (index : Nat) : Bool := net.held == some index || net.isRefreshing index

/-- When a loop goes on, if it can. -/
def readyAt (net : Network) (loop : RefreshLoop) : Option Nat :=
  match loop.state with
  | .idle => some (if loop.triggered then net.now else max net.now loop.due)
  | .blocked => if net.isHeld loop.follower then none else some net.now
  | .refreshing call => some call.ends
  | .dead => none

/-- Begins the refresh of a loop, or waits for its cache. -/
def beginRefresh (net : Network) (name : String) (loop : RefreshLoop) : Network :=
  if net.isHeld loop.follower then
    { net with loops := net.loops.insert name { loop with state := .blocked } }
  else match net.followers[loop.follower]? with
    | none => { net with loops := net.loops.insert name { loop with state := .dead } }
    | some follower =>
      let (net, call) := net.beginCall follower .head
      { net with loops := net.loops.insert name { loop with state := .refreshing call } }

/-- A loop goes on. -/
def fire (net : Network) (name : String) (loop : RefreshLoop) : Network :=
  match loop.state with
  | .idle => net.beginRefresh name (loop.woken net.now)
  | .blocked => net.beginRefresh name loop
  | .dead => net
  | .refreshing call =>
    match net.followers[loop.follower]? with
    | none => net
    | some follower =>
      match net.proceed loop.follower follower call with
      | (net, .call stage) =>
        let (net, call) := net.beginCall follower stage
        { net with loops := net.loops.insert name { loop with state := .refreshing call } }
      | (net, .over .crashed) =>
        { net with loops := net.loops.insert name { loop with state := .dead } }
      | (net, .over (.done _)) =>
        { net with loops := net.loops.insert name { loop with state := .idle } }

/-! ## Time -/

/-- The loop that goes on first, of those that go on by some time. -/
def firstReady (net : Network) (last : Nat) : Option (Nat × String × RefreshLoop) :=
  net.loops.toList.foldl (fun best (name, loop) =>
    match net.readyAt loop with
    | none => best
    | some time =>
      if last < time then best
      else match best with
        | none => some (time, name, loop)
        | some (earlier, _, _) => if time < earlier then some (time, name, loop) else best) none

/-- Lets loops go on for as long as one is ready by some time, for so many steps at most. -/
def runSteps : Nat → Nat → Network → Network
  | 0, _, net => net
  | steps + 1, last, net =>
    match net.firstReady last with
    | none => net
    | some (time, name, loop) =>
      runSteps steps last (({ net with now := max net.now time } : Network).fire name loop)

/-- No loop takes more steps than this up to some time. -/
def stepBound (net : Network) (last : Nat) : Nat :=
  8 * (net.loops.size + 1) * (last - net.now + 2)

/-- Lets loops go on for as long as one is ready by some time. -/
def runThrough (net : Network) (last : Nat) : Network := runSteps (net.stepBound last) last net

/-- Lets loops go on that are ready now. -/
def settle (net : Network) : Network := net.runThrough net.now

/-- Lets time pass up to some moment; what is ready only then is left for later. -/
def advanceTo (net : Network) (time : Nat) : Network :=
  let net := if net.now < time then net.runThrough (time - 1) else net
  { net with now := max net.now time }

/-- Lets so many milliseconds pass. -/
def sleep (net : Network) (duration : Nat) : Network := net.advanceTo (net.now + duration)

/-! ## What a caller does -/

/-- Begins to follow a log under a name, from the head stored for that name. Another follower of
the name is replaced. -/
def follow (net : Network) (name peerName : String) (peer : Peer) (timeout : Nat) :
    Except CacheError HeadCache × Network :=
  match HeadCache.restore name peer.verifier net.store with
  | .error e => (.error e, net)
  | .ok cache =>
    (.ok cache, { net with
      names := net.names.insert name net.followers.size
      followers := net.followers.push ⟨cache, peerName, timeout⟩ })

/-- The follower of a name, with its number. -/
def follower? (net : Network) (name : String) : Option (Nat × Follower) := do
  let index ← net.names[name]?
  return (index, ← net.followers[index]?)

/-- The names followed, in order. -/
def logNames (net : Network) : List String := net.names.toList.map Prod.fst

def head? (net : Network) (name : String) : Option TreeHead :=
  (net.follower? name).bind fun (_, follower) => follower.cache.head?

/-- Waits until no loop holds a cache; a refresh has two calls at most. -/
def awaitCache : Nat → Nat → Network → Network
  | 0, _, net => net
  | calls + 1, index, net =>
    let endings := net.loops.toList.filterMap fun (_, loop) =>
      match loop.state with
      | .refreshing call => if loop.follower = index then some call.ends else none
      | _ => none
    match endings with
    | [] => net
    | time :: _ => awaitCache calls index (net.runThrough time)

/-- Works through the calls of a caller's refresh. -/
def runCalls : Nat → Nat → Stage → Network → RefreshEnd × Network
  | 0, _, _, net => (.crashed, net)
  | calls + 1, index, stage, net =>
    match net.followers[index]? with
    | none => (.crashed, net)
    | some follower =>
      let (net, call) := net.beginCall follower stage
      let net := net.advanceTo call.ends
      match net.proceed index follower call with
      | (net, .call stage) => runCalls calls index stage net
      | (net, .over ending) => (ending, net)

/-- Refreshes a name's head now and waits until that is over. -/
def refresh (net : Network) (index : Nat) : RefreshEnd × Network :=
  let net := awaitCache 4 index { net with held := some index }
  let (ending, net) := runCalls 2 index .head net
  (ending, ({ net with held := none } : Network).settle)

/-- The query of a follower, and how long it takes. -/
def queryOf (net : Network) (key : Bytes) (number : Nat) (follower : Follower) : Query × Nat :=
  match follower.cache.head?, net.peers[follower.peer]? with
  | none, _ => (⟨number, follower.cache, some fun _ => .error .task⟩, 0)
  | some _, none => (⟨number, follower.cache, none⟩, 0)
  | some head, some peer =>
    let ask := match net.endCall follower peer.behaviour (.mapValue key head.mapRoot) with
      | .crash => none
      | .answer found _ => some fun _ => found
    (⟨number, follower.cache, ask⟩, peer.behaviour.duration follower.timeout)

/-- The network once a query has reached a follower's peer. -/
def countQuery (net : Network) (follower : Follower) : Network :=
  match follower.cache.head?, net.peers[follower.peer]? with
  | some _, some peer => { net with peers := net.peers.insert follower.peer peer.called }
  | _, _ => net

/-- Asks every followed log for a key and waits for all of them. The queries end in the order in which
the logs answer. -/
def survey (net : Network) (key : Bytes) : Survey × Network :=
  let asked := net.names.toList.filterMap fun (_, index) => net.followers[index]?
  let queries := asked.mapIdx fun number follower => net.queryOf key number follower
  let inTime := queries.mergeSort fun a b => decide (a.2 ≤ b.2)
  let longest := (queries.map Prod.snd).foldl max 0
  let net := asked.foldl (fun net follower => net.countQuery follower) net
  (Survey.gather (Query.names (queries.map Prod.fst)) (inTime.map fun (query, _) => query.ended key),
    (net.advanceTo (net.now + longest)).settle)

/-- Begins a loop for every followed log that has none. -/
def start (net : Network) (every : Nat) : Network :=
  { net with loops := net.names.toList.foldl (fun loops (name, index) =>
      if loops.contains name then loops
      else loops.insert name { follower := index, every, due := net.now }) net.loops }

/-- Asks a name's loop for an early refresh; says whether there is one. -/
def trigger (net : Network) (name : String) : Bool × Network :=
  match net.loops[name]? with
  | none => (false, net)
  | some loop => (true, { net with loops := net.loops.insert name { loop with triggered := true } })

def stopAll (net : Network) : Network := { net with loops := ∅ }

end Network

end TransparencyLog
