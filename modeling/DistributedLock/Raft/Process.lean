import DistributedLock.Raft.Node

/-! A running `RaftNode` with its threads: the election thread inside
`StartElection` and the apply thread inside `ApplyLoop`, each with its locals.
Replication threads keep no state between their critical sections. The steps are
the critical sections of `Node.lean` and the points where a thread blocks; a step
that would read `log_` out of range halts the process. -/

namespace DistributedLock.Raft

/-- The locals of `StartElection` after its first critical section. `waiting` is
the number of the vote RPC in progress. -/
structure Election (ι : Type*) where
  request : VoteRequest
  votes : ℕ
  remaining : List ι
  waiting : Option ℕ

/-- Where `ApplyLoop` stands: waiting on `apply_cv_`, inside `on_commit_` for one
entry, or before the critical section that notifies. -/
inductive ApplyPhase (F : Type*) where
  | idle
  | calling (index : ℕ) (entry : LogEntry F)
  | returned

/-- `applied` records the calls of `on_commit_` that have returned. -/
structure Process (ι F : Type*) where
  node : RaftNode ι F
  election : Option (Election ι) := none
  phase : ApplyPhase F := .idle
  applied : List (ℕ × LogEntry F) := []
  halted : Bool := false

namespace Process

variable {ι F : Type*}

def start [Zero F] (cfg : NodeConfig ι) : Process ι F := { node := RaftNode.start cfg }

/-- All calls of `on_commit_`, the one in progress included. -/
def calls (p : Process ι F) : List (ℕ × LogEntry F) :=
  match p.phase with
  | .calling index entry => p.applied ++ [(index, entry)]
  | _ => p.applied

/-! ### The election thread -/

/-- `StartElection` up to its loop over the peers. The election timer thread
runs one election at a time. -/
def startElection (cfg : NodeConfig ι) (p : Process ι F) : Option (Process ι F) :=
  if p.halted ∨ p.election.isSome ∨ p.node.state = .leader then none
  else
    let (node, request) := p.node.startElection cfg
    some { p with
      node := node
      election := some
        { request := request, votes := 1, remaining := cfg.peerAddresses, waiting := none } }

/-- The next turn of the loop: send the request to the next peer. -/
def sendVoteRequest (p : Process ι F) (call : ℕ) : Option (Process ι F × ι × VoteRequest) :=
  match p.election with
  | some { request, votes, remaining := peer :: rest, waiting := none } =>
    if p.halted then none
    else
      let election := { request, votes, remaining := rest, waiting := some call }
      some ({ p with election := some election }, peer, request)
  | _ => none

/-- The critical section of the loop body. The early returns end the election
thread's call; winning leaves the loop. -/
def countVote (cfg : NodeConfig ι) (p : Process ι F) (e : Election ι) (response : VoteResponse) :
    Process ι F :=
  if p.node.currentTerm < response.term then
    { p with node := p.node.becomeFollower response.term "" "", election := none }
  else if p.node.state ≠ .candidate ∨ p.node.currentTerm ≠ e.request.term then
    { p with election := none }
  else if response.voteGranted then
    if cfg.quorumSize ≤ e.votes + 1 then
      { p with
        node := p.node.becomeLeader cfg
        election := some { e with votes := e.votes + 1, remaining := [], waiting := none } }
    else { p with election := some { e with votes := e.votes + 1, waiting := none } }
  else { p with election := some { e with waiting := none } }

/-- The vote RPC failed or timed out: `continue`. -/
def voteRequestFailed (p : Process ι F) : Option (Process ι F) :=
  match p.election with
  | some { request, votes, remaining, waiting := some _ } =>
    if p.halted then none
    else some { p with election := some { request, votes, remaining, waiting := none } }
  | _ => none

/-- The end of `StartElection`, where `FireLeaderCallbackIfNeeded` is called. -/
def finishElection (p : Process ι F) : Option (Process ι F) :=
  match p.election with
  | some { remaining := [], waiting := none, .. } =>
    if p.halted then none else some { p with election := none }
  | _ => none

/-! ### Requests of other nodes -/

def handleRequestVote (p : Process ι F) (request : VoteRequest) :
    Option (Process ι F × VoteResponse) :=
  if p.halted then none
  else
    let (node, response) := p.node.handleRequestVote request
    some ({ p with node := node }, response)

def handleAppendEntries (p : Process ι F) (request : AppendRequest F) :
    Option (Process ι F × AppendResponse) :=
  if p.halted then none
  else
    let (node, response) := p.node.handleAppendEntries request
    some ({ p with node := node }, response)

/-! ### Replication threads -/

/-- One turn of the loop of `ReplicateToFollower` up to its RPC. -/
def replicate [DecidableEq ι] (cfg : NodeConfig ι) (p : Process ι F) (peer : ι) :
    Option (Process ι F × Option (AppendRequest F)) :=
  if p.halted ∨ p.node.state ≠ .leader ∨ peer ∉ cfg.peerAddresses then none
  else
    match p.node.buildAppendRequest cfg peer with
    | some (node, request) => some ({ p with node := node }, some request)
    | none => some ({ p with halted := true }, none)

def receiveAppend [DecidableEq ι] (cfg : NodeConfig ι) (p : Process ι F) (peer : ι)
    (sentTerm : ℕ) (response : AppendResponse) : Option (Process ι F) :=
  if p.halted then none
  else some { p with node := p.node.handleAppendResponse cfg peer sentTerm response }

/-! ### Proposers -/

/-- The critical section of `Propose` and `AppendLocalEntry` that appends. -/
def append (cfg : NodeConfig ι) (p : Process ι F) (entry : LogEntry F) : Option (Process ι F) :=
  if p.halted ∨ p.node.state ≠ .leader then none
  else some { p with node := p.node.appendStamped cfg entry }

/-! ### The apply thread -/

/-- The critical section that takes the next index. -/
def applyTake (p : Process ι F) : Option (Process ι F) :=
  match p.phase with
  | .idle =>
    if p.halted ∨ p.node.commitIndex ≤ p.node.lastApplied then none
    else
      let node := { p.node with lastApplied := p.node.lastApplied + 1 }
      match node.log[node.lastApplied]? with
      | some entry => some { p with node := node, phase := .calling node.lastApplied entry }
      | none => some { p with node := node, halted := true }
  | _ => none

/-- `on_commit_` runs and returns, outside `mu_`. -/
def applyReturn (p : Process ι F) : Option (Process ι F) :=
  match p.phase with
  | .calling index entry =>
    if p.halted then none
    else some { p with phase := .returned, applied := p.applied ++ [(index, entry)] }
  | _ => none

/-- The critical section that notifies `apply_cv_`. -/
def applyNotify (p : Process ι F) : Option (Process ι F) :=
  match p.phase with
  | .returned => if p.halted then none else some { p with phase := .idle }
  | _ => none

end Process

end DistributedLock.Raft
