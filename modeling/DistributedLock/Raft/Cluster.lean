import DistributedLock.Library.System
import DistributedLock.Raft.Process

/-! The cluster: the processes, the RPCs ever sent, and the `Propose` calls. A
request reaches its callee at most once and at any later time or never; its
response reaches the caller at most once, at any later time or never. An action
names one critical section and every choice of the scheduler and the network. -/

namespace DistributedLock.Raft

open Library

/-- A `RequestVote` RPC; the response is set when the callee has handled it. -/
structure VoteCall (ι : Type*) where
  caller : ι
  callee : ι
  request : VoteRequest
  response : Option VoteResponse := none

/-- An `AppendEntries` RPC; `consumed` once the caller has processed the response. -/
structure AppendCall (ι F : Type*) where
  caller : ι
  callee : ι
  request : AppendRequest F
  response : Option AppendResponse := none
  consumed : Bool := false

/-- A `Propose` call that appended its entry: the stamped entry, its index, and
the value returned, when it has returned. -/
structure Proposal (ι F : Type*) where
  proposer : ι
  entry : LogEntry F
  index : ℕ
  result : Option Bool := none

structure Cluster (ι F : Type*) where
  procs : ι → Process ι F
  voteCalls : List (VoteCall ι) := []
  appendCalls : List (AppendCall ι F) := []
  proposals : List (Proposal ι F) := []

inductive Action (ι F : Type*) where
  | startElection (i : ι)
  | sendVoteRequest (i : ι)
  | handleRequestVote (call : ℕ)
  | receiveVote (i : ι)
  | voteRequestFailed (i : ι)
  | finishElection (i : ι)
  | replicate (i peer : ι)
  | handleAppendEntries (call : ℕ)
  | receiveAppend (call : ℕ)
  | propose (i : ι) (entry : LogEntry F)
  | checkProposal (proposal : ℕ) (timedOut : Bool)
  | appendLocalEntry (i : ι) (entry : LogEntry F)
  | applyTake (i : ι)
  | applyReturn (i : ι)
  | applyNotify (i : ι)

namespace Cluster

variable {ι F : Type*} [DecidableEq ι]

abbrev node (s : Cluster ι F) (i : ι) : RaftNode ι F := (s.procs i).node

def setProc (s : Cluster ι F) (i : ι) (p : Process ι F) : Cluster ι F :=
  { s with procs := Function.update s.procs i p }

@[simp] theorem setProc_procs (s : Cluster ι F) (i : ι) (p : Process ι F) :
    (s.setProc i p).procs = Function.update s.procs i p := rfl

@[simp] theorem setProc_voteCalls (s : Cluster ι F) (i : ι) (p : Process ι F) :
    (s.setProc i p).voteCalls = s.voteCalls := rfl

@[simp] theorem setProc_appendCalls (s : Cluster ι F) (i : ι) (p : Process ι F) :
    (s.setProc i p).appendCalls = s.appendCalls := rfl

@[simp] theorem setProc_proposals (s : Cluster ι F) (i : ι) (p : Process ι F) :
    (s.setProc i p).proposals = s.proposals := rfl

def start [Zero F] (c : ClusterConfig ι) : Cluster ι F :=
  { procs := fun i => Process.start (c.node i) }

omit [DecidableEq ι] in
@[simp] theorem start_node [Zero F] (c : ClusterConfig ι) (i : ι) :
    (start c : Cluster ι F).node i = RaftNode.start (c.node i) := rfl

/-! ### The steps that involve a call -/

def sendVoteRequest (s : Cluster ι F) (i : ι) : Option (Cluster ι F) :=
  ((s.procs i).sendVoteRequest s.voteCalls.length).map fun (p, peer, request) =>
    { s.setProc i p with
      voteCalls := s.voteCalls ++ [{ caller := i, callee := peer, request := request }] }

def handleRequestVote (s : Cluster ι F) (k : ℕ) : Option (Cluster ι F) :=
  match s.voteCalls[k]? with
  | some call =>
    if call.response.isSome then none
    else
      ((s.procs call.callee).handleRequestVote call.request).map fun (p, response) =>
        { s.setProc call.callee p with
          voteCalls := s.voteCalls.set k { call with response := some response } }
  | none => none

/-- The election thread gets the response it waits for. -/
def receiveVote (c : ClusterConfig ι) (s : Cluster ι F) (i : ι) : Option (Cluster ι F) :=
  match (s.procs i).election with
  | some e =>
    match (e.waiting.bind (s.voteCalls[·]?)).bind VoteCall.response with
    | some response =>
      if (s.procs i).halted then none
      else some (s.setProc i ((s.procs i).countVote (c.node i) e response))
    | none => none
  | none => none

def replicate (c : ClusterConfig ι) (s : Cluster ι F) (i peer : ι) : Option (Cluster ι F) :=
  ((s.procs i).replicate (c.node i) peer).map fun (p, request) =>
    { s.setProc i p with
      appendCalls := s.appendCalls ++
        (request.map fun r => { caller := i, callee := peer, request := r }).toList }

def handleAppendEntries (s : Cluster ι F) (k : ℕ) : Option (Cluster ι F) :=
  match s.appendCalls[k]? with
  | some call =>
    if call.response.isSome then none
    else
      ((s.procs call.callee).handleAppendEntries call.request).map fun (p, response) =>
        { s.setProc call.callee p with
          appendCalls := s.appendCalls.set k { call with response := some response } }
  | none => none

def receiveAppend (c : ClusterConfig ι) (s : Cluster ι F) (k : ℕ) : Option (Cluster ι F) :=
  match s.appendCalls[k]? with
  | some call =>
    match call.response with
    | some response =>
      if call.consumed then none
      else
        ((s.procs call.caller).receiveAppend (c.node call.caller) call.callee call.request.term
          response).map fun p =>
          { s.setProc call.caller p with
            appendCalls := s.appendCalls.set k { call with consumed := true } }
    | none => none
  | none => none

def propose (c : ClusterConfig ι) (s : Cluster ι F) (i : ι) (entry : LogEntry F) :
    Option (Cluster ι F) :=
  ((s.procs i).append (c.node i) entry).map fun p =>
    { s.setProc i p with
      proposals := s.proposals ++
        [{ proposer := i, entry := { entry with term := (s.node i).currentTerm },
           index := p.node.log.length - 1 }] }

/-- The two places where `Propose` looks at `commit_index_`: in its loop, and once
more after the deadline. -/
def checkProposal (s : Cluster ι F) (k : ℕ) (timedOut : Bool) : Option (Cluster ι F) :=
  match s.proposals[k]? with
  | some call =>
    if call.result.isSome ∨ (s.procs call.proposer).halted then none
    else if call.index ≤ (s.node call.proposer).commitIndex then
      some { s with proposals := s.proposals.set k { call with result := some true } }
    else if timedOut ∨ (s.node call.proposer).state ≠ .leader then
      some { s with proposals := s.proposals.set k { call with result := some false } }
    else some s
  | none => none

def step (c : ClusterConfig ι) (s : Cluster ι F) : Action ι F → Option (Cluster ι F)
  | .startElection i => ((s.procs i).startElection (c.node i)).map (s.setProc i)
  | .sendVoteRequest i => s.sendVoteRequest i
  | .handleRequestVote k => s.handleRequestVote k
  | .receiveVote i => s.receiveVote c i
  | .voteRequestFailed i => (s.procs i).voteRequestFailed.map (s.setProc i)
  | .finishElection i => (s.procs i).finishElection.map (s.setProc i)
  | .replicate i peer => s.replicate c i peer
  | .handleAppendEntries k => s.handleAppendEntries k
  | .receiveAppend k => s.receiveAppend c k
  | .propose i entry => s.propose c i entry
  | .checkProposal k timedOut => s.checkProposal k timedOut
  | .appendLocalEntry i entry => ((s.procs i).append (c.node i) entry).map (s.setProc i)
  | .applyTake i => (s.procs i).applyTake.map (s.setProc i)
  | .applyReturn i => (s.procs i).applyReturn.map (s.setProc i)
  | .applyNotify i => (s.procs i).applyNotify.map (s.setProc i)

/-- All runs of a cluster from its start, without restarts. -/
def system [Zero F] (c : ClusterConfig ι) : System (Cluster ι F) (Action ι F) where
  init := start c
  step := step c

end Cluster

end DistributedLock.Raft
