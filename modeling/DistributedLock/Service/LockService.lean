import DistributedLock.Raft.Events
import DistributedLock.Table.LockTable

/-! `LockServiceImpl`: the threads that serve `AcquireGuard` and `ReleaseGuard`. A
thread is a program counter between two points where another thread can come in:
each step is one critical section of the Raft node or of the lock table, or one
reading of the clock. What Qdrant answers, when a wait times out and what the clock
shows are choices of the environment. -/

namespace DistributedLock.Service

open Library Raft Table

/-! ### Requests and responses -/

/-- `AcquireRequest::OperationType`, an open enumeration. -/
inductive OperationType where
  | unspecified | write | read
  | unrecognized (value : ℤ)
  deriving DecidableEq

/-- `normalize_operation_type`. -/
def normalizeOperationType : OperationType → OperationType
  | .write => .write
  | .read => .read
  | _ => .write

structure AcquireRequest (F : Type*) where
  agentId : String
  embedding : List F
  operationType : OperationType := .unspecified

/-- Fields not set keep the protobuf default. -/
structure AcquireResponse (F : Type*) where
  granted : Bool := false
  message : String := ""
  serverReceivedUnixMs : ℤ := 0
  lockAcquiredUnixMs : ℤ := 0
  qdrantWriteCompleteUnixMs : ℤ := 0
  lockReleasedUnixMs : ℤ := 0
  lockWaitMs : ℤ := 0
  blockingSimilarityScore : F
  blockingAgentId : String := ""
  leaderRedirect : String := ""
  servingNodeId : String := ""
  waitPosition : ℕ := 0
  wakeCount : ℕ := 0
  queueHops : ℕ := 0
  activeLockCount : ℕ := 0

inductive StatusCode where
  | ok | failedPrecondition | unavailable
  deriving DecidableEq

/-- `grpc::Status`. -/
structure Status where
  code : StatusCode
  message : String := ""
  deriving DecidableEq

def Status.ok : Status := { code := .ok }

/-- The constructor arguments of `LockServiceImpl` that the handlers read. -/
structure ServiceConfig (ι F : Type*) where
  node : NodeConfig ι
  theta : F

/-- What the environment decides at a step. -/
structure Choice where
  layout : Layout String := .newest
  timedOut : Bool := false
  now : ℤ := 0
  qdrantOk : Bool := true

/-! ### What a thread does with the Raft node -/

section

variable {ι F : Type*}

/-- The first critical section of `Propose`: the index of the appended entry, or
nothing when the node does not lead. -/
def beginPropose (cfg : NodeConfig ι) (p : Process ι F) (entry : LogEntry F) :
    Process ι F × Option ℕ :=
  match p.append cfg entry with
  | some p' => (p', some (p'.node.log.length - 1))
  | none => (p, none)

/-- `AppendLocalEntry`. -/
def appendLocalEntry (cfg : NodeConfig ι) (p : Process ι F) (entry : LogEntry F) : Process ι F :=
  (p.append cfg entry).getD p

/-- A look at `commit_index_` in the loop of `Propose`, or after its deadline: the
value returned, if it returns. -/
def pollCommit (p : Process ι F) (index : ℕ) (timedOut : Bool) : Option Bool :=
  if index ≤ p.node.commitIndex then some true
  else if timedOut ∨ p.node.state ≠ .leader then some false
  else none

/-- `WaitUntilApplied`: the value returned, if it returns. -/
def pollApplied (p : Process ι F) (index : ℕ) (timedOut : Bool) : Option Bool :=
  if p.node.waitUntilApplied index then some true
  else if timedOut then some false
  else none

end

/-! ### AcquireGuard -/

/-- Why `commit_release_once` is called: on the regular path, by the scope guard after
Qdrant has failed, or by the scope guard after the regular call has failed. -/
inductive Attempt where
  | regular | qdrantFailed | second
  deriving DecidableEq

inductive AcquirePc (F : Type*) where
  | checkLeader
  | redirect
  | admission (a : Admission F)
  | proposeAcquire
  | awaitAcquireCommit (index : ℕ)
  | removePending
  | compensate (message : String)
  | awaitAcquireApplied (index : ℕ)
  | qdrant
  | proposeRelease (attempt : Attempt)
  | awaitReleaseCommit (attempt : Attempt) (index : ℕ)
  | awaitReleaseApplied (attempt : Attempt) (index : ℕ)
  | released (attempt : Attempt)
  | returned (status : Status)

/-- A call of `AcquireGuard` with its locals. -/
structure AcquireCall (F : Type*) where
  request : AcquireRequest F
  serverReceivedUnixMs : ℤ
  response : AcquireResponse F
  trailingMetadata : List (String × String) := []
  pc : AcquirePc F := .checkLeader

namespace AcquireCall

variable {ι F : Type*}

section

variable (c : AcquireCall F)

def agentId : String := c.request.agentId

def embedding : List F := c.request.embedding

def operationType : OperationType := normalizeOperationType c.request.operationType

def demand (theta : F) : Demand F :=
  { agentId := c.agentId, embedding := c.embedding, threshold := theta }

/-- `set_granted(false)`, `set_message` and `return`. -/
def refuse (message : String) (status : Status) : AcquireCall F :=
  { c with
    response := { c.response with granted := false, message := message }
    pc := .returned status }

end

/-- The code of `AcquireGuard` before `IsLeader`. -/
def arrive [Zero F] (cfg : ServiceConfig ι F) (request : AcquireRequest F) (now : ℤ) :
    AcquireCall F :=
  let c : AcquireCall F :=
    { request := request, serverReceivedUnixMs := now
      response := { blockingSimilarityScore := 0, servingNodeId := cfg.node.nodeId } }
  if request.agentId = "" then c.refuse "agent_id is required" .ok
  else if request.embedding = [] then c.refuse "embedding is required" .ok
  else c

/-- The answer of a node that does not lead. -/
def redirectTo (c : AcquireCall F) (leaderRedirect : String) : AcquireCall F :=
  let c := c.refuse "NOT_LEADER" { code := .failedPrecondition, message := "NOT_LEADER" }
  if leaderRedirect = "" then c
  else { c with
    response := { c.response with leaderRedirect := leaderRedirect }
    trailingMetadata := c.trailingMetadata ++ [("leader-address", leaderRedirect)] }

/-- The response after admission. -/
def recordAdmission (c : AcquireCall F) (trace : AcquireTrace F) (activeCount : ℕ) (now : ℤ) :
    AcquireCall F :=
  { c with
    response := { c.response with
      lockAcquiredUnixMs := now
      lockWaitMs := now - c.serverReceivedUnixMs
      blockingSimilarityScore := trace.blockingSimilarityScore
      blockingAgentId :=
        if trace.blockingAgentId = "" then c.response.blockingAgentId else trace.blockingAgentId
      waitPosition := trace.waitPosition
      wakeCount := trace.wakeCount
      queueHops := trace.queueHops
      activeLockCount := activeCount }
    pc := .proposeAcquire }

/-- The return with status `UNAVAILABLE` and the message also in the response. -/
def unavailable (c : AcquireCall F) (message : String) : AcquireCall F :=
  c.refuse message { code := .unavailable, message := message }

/-- The Qdrant operation returns. -/
def qdrantReturned (c : AcquireCall F) (ok : Bool) (now : ℤ) : AcquireCall F :=
  if ok then
    { c with
      response := { c.response with qdrantWriteCompleteUnixMs := now }
      pc := .proposeRelease .regular }
  else
    let message :=
      if c.operationType = .read then "qdrant read failed" else "qdrant write failed"
    { c with
      response := { c.response with granted := false, message := message }
      pc := .proposeRelease .qdrantFailed }

/-- The status with which the scope guard lets the call return. -/
def statusAfter : Attempt → Status
  | .second => { code := .unavailable, message := "Raft quorum not reached for RELEASE" }
  | _ => .ok

/-- `commit_release_once` has returned false. Only the regular call is followed by
another, that of the scope guard. -/
def releaseFailed (c : AcquireCall F) (attempt : Attempt) : AcquireCall F :=
  match attempt with
  | .regular =>
    { c with
      response := { c.response with
        granted := false, message := "Raft quorum not reached for RELEASE" }
      pc := .proposeRelease .second }
  | attempt => { c with pc := .returned (statusAfter attempt) }

/-- `commit_release_once` reads the clock and returns true. -/
def releaseDone (c : AcquireCall F) (attempt : Attempt) (now : ℤ) : AcquireCall F :=
  let response := { c.response with lockReleasedUnixMs := now }
  match attempt with
  | .regular =>
    let message := if c.operationType = .read then "read granted and committed"
      else "write granted and committed"
    { c with
      response := { response with granted := true, message := message }
      pc := .returned .ok }
  | attempt => { c with response := response, pc := .returned (statusAfter attempt) }

variable [Arithmetic F]

def acquireEntry (cfg : ServiceConfig ι F) (c : AcquireCall F) : LogEntry F :=
  .acquire c.agentId c.embedding cfg.theta

/-- The next step of the thread. -/
def step (cfg : ServiceConfig ι F) (p : Process ι F) (t : LockTable F) (c : AcquireCall F)
    (x : Choice) : Option (Process ι F × LockTable F × AcquireCall F) :=
  match c.pc with
  | .checkLeader =>
    if p.node.state = .leader then
      let response := { c.response with serverReceivedUnixMs := c.serverReceivedUnixMs }
      some (p, t, { c with response := response, pc := .admission .gate })
    else some (p, t, { c with pc := .redirect })
  | .redirect => some (p, t, c.redirectTo (p.node.leaderAddress cfg.node))
  | .admission (.returned trace) =>
    some (p, t, c.recordAdmission trace t.active.keys.length x.now)
  | .admission a =>
    (t.waitForAdmission x.layout (c.demand cfg.theta) a).map fun (t, a) =>
      (p, t, { c with pc := .admission a })
  | .proposeAcquire =>
    match beginPropose cfg.node p (c.acquireEntry cfg) with
    | (p, some index) => some (p, t, { c with pc := .awaitAcquireCommit index })
    | (p, none) => some (p, t, { c with pc := .removePending })
  | .awaitAcquireCommit index =>
    (pollCommit p index x.timedOut).map fun ok =>
      (p, t, { c with pc := if ok then .awaitAcquireApplied index else .removePending })
  | .removePending =>
    let message := "Raft quorum not reached for ACQUIRE"
    some (p, (t.removePending x.layout c.agentId).1, { c with pc := .compensate message })
  | .compensate message =>
    some (appendLocalEntry cfg.node p (.release c.agentId), t, c.unavailable message)
  | .awaitAcquireApplied index =>
    let message := "Raft apply timed out for ACQUIRE"
    (pollApplied p index x.timedOut).map fun ok =>
      (p, t, { c with pc := if ok then .qdrant else .compensate message })
  | .qdrant => some (p, t, c.qdrantReturned x.qdrantOk x.now)
  | .proposeRelease attempt =>
    match beginPropose cfg.node p (.release c.agentId) with
    | (p, some index) => some (p, t, { c with pc := .awaitReleaseCommit attempt index })
    | (p, none) => some (p, t, c.releaseFailed attempt)
  | .awaitReleaseCommit attempt index =>
    (pollCommit p index x.timedOut).map fun ok =>
      (p, t, if ok then { c with pc := .awaitReleaseApplied attempt index }
        else c.releaseFailed attempt)
  | .awaitReleaseApplied attempt index =>
    (pollApplied p index x.timedOut).map fun ok =>
      (p, t, if ok then { c with pc := .released attempt } else c.releaseFailed attempt)
  | .released attempt => some (p, t, c.releaseDone attempt x.now)
  | .returned _ => none

end AcquireCall

/-! ### ReleaseGuard -/

inductive ReleasePc where
  | checkLeader
  | redirect
  | propose
  | awaitCommit (index : ℕ)
  | awaitApplied (index : ℕ)
  | returned (status : Status)

/-- A call of `ReleaseGuard`; `success` is its response. -/
structure ReleaseCall where
  agentId : String
  success : Bool := false
  trailingMetadata : List (String × String) := []
  pc : ReleasePc := .checkLeader

namespace ReleaseCall

variable {ι F : Type*}

/-- The code of `ReleaseGuard` before `IsLeader`. -/
def arrive (agentId : String) : ReleaseCall :=
  if agentId = "" then { agentId, pc := .returned .ok } else { agentId }

def redirectTo (c : ReleaseCall) (leaderRedirect : String) : ReleaseCall :=
  let status : Status := { code := .failedPrecondition, message := "NOT_LEADER" }
  let metadata := if leaderRedirect = "" then [] else [("leader-address", leaderRedirect)]
  { c with
    success := false, pc := .returned status, trailingMetadata := c.trailingMetadata ++ metadata }

/-- `Propose` has returned false. -/
def unavailable (c : ReleaseCall) : ReleaseCall :=
  let status : Status :=
    { code := .unavailable, message := "Raft quorum not reached for RELEASE" }
  { c with success := false, pc := .returned status }

/-- The next step of the thread; what `WaitUntilApplied` returns is ignored. -/
def step [Zero F] (cfg : NodeConfig ι) (p : Process ι F) (c : ReleaseCall) (x : Choice) :
    Option (Process ι F × ReleaseCall) :=
  match c.pc with
  | .checkLeader =>
    some (p, { c with pc := if p.node.state = .leader then .propose else .redirect })
  | .redirect => some (p, c.redirectTo (p.node.leaderAddress cfg))
  | .propose =>
    match beginPropose cfg p (.release c.agentId) with
    | (p, some index) => some (p, { c with pc := .awaitCommit index })
    | (p, none) => some (p, c.unavailable)
  | .awaitCommit index =>
    (pollCommit p index x.timedOut).map fun ok =>
      (p, if ok then { c with pc := .awaitApplied index } else c.unavailable)
  | .awaitApplied index =>
    (pollApplied p index x.timedOut).map fun _ =>
      (p, { c with success := true, pc := .returned .ok })
  | .returned _ => none

end ReleaseCall

end DistributedLock.Service
