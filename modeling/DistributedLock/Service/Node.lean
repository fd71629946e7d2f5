import DistributedLock.Service.LockService

/-! The program `dscc-node`: one Raft process, one lock table, the callbacks with which
`main` connects them, and the threads that serve calls. A node that wins an election
starts a detached thread that releases what it takes for orphans. -/

namespace DistributedLock.Service

open Library Raft Table

/-! ### The leader-change callback -/

/-- Where a sweep thread stands: in the wait of `FireLeaderCallbackIfNeeded`, in the
loop of the callback over the agents still ahead, or at its end. -/
inductive SweepPc where
  | waiting (commitIndex : ℕ)
  | begin
  | checkLeader (orphans : List String)
  | propose (agentId : String) (orphans : List String)
  | awaitCommit (index : ℕ) (orphans : List String)
  | awaitApplied (index : ℕ) (orphans : List String)
  | finish
  | done
  deriving DecidableEq

/-- A sweep thread; `proposed` records the entries it has appended, with their
indices. -/
structure Sweep (F : Type*) where
  pc : SweepPc
  proposed : List (ℕ × LogEntry F) := []
  deriving DecidableEq

namespace Sweep

variable {ι F : Type*} [Arithmetic F]

/-- The next step of the thread. The results of `Propose` and `WaitUntilApplied` are
only logged. -/
def step (cfg : NodeConfig ι) (p : Process ι F) (t : LockTable F) (w : Sweep F) (x : Choice) :
    Option (Process ι F × LockTable F × Sweep F) :=
  match w.pc with
  | .waiting commitIndex =>
    if commitIndex = 0 then some (p, t, { w with pc := .begin })
    else (pollApplied p commitIndex x.timedOut).map fun _ => (p, t, { w with pc := .begin })
  | .begin =>
    let (t, orphans) := t.beginLeaderSweep
    some (p, t, { w with pc := if orphans = [] then .finish else .checkLeader orphans })
  | .checkLeader [] => some (p, t, { w with pc := .finish })
  | .checkLeader (agentId :: orphans) =>
    if p.node.state = .leader then some (p, t, { w with pc := .propose agentId orphans })
    else some (p, t, { w with pc := .finish })
  | .propose agentId orphans =>
    match beginPropose cfg p (.release agentId) with
    | (p', some index) =>
      let entry := { LogEntry.release agentId with term := p.node.currentTerm }
      let proposed := w.proposed ++ [(index, entry)]
      some (p', t, { w with pc := .awaitCommit index orphans, proposed := proposed })
    | (p', none) => some (p', t, { w with pc := .checkLeader orphans })
  | .awaitCommit index orphans =>
    (pollCommit p index x.timedOut).map fun ok =>
      (p, t, { w with pc := if ok then .awaitApplied index orphans else .checkLeader orphans })
  | .awaitApplied index orphans =>
    (pollApplied p index x.timedOut).map fun _ => (p, t, { w with pc := .checkLeader orphans })
  | .finish => some (p, t.endLeaderSweep, { w with pc := .done })
  | .done => none

end Sweep

/-- `FireLeaderCallbackIfNeeded`: the thread it starts, if any. -/
def fireLeaderCallback {ι F : Type*} (p : Process ι F) : List (Sweep F) :=
  if p.node.state = .leader then [{ pc := .waiting p.node.commitIndex }] else []

/-! ### The node -/

structure DsccNode (ι F : Type*) where
  raft : Process ι F
  table : LockTable F
  acquires : List (AcquireCall F) := []
  releases : List ReleaseCall := []
  sweeps : List (Sweep F) := []

/-- `raftEvent` is what other nodes and the Raft threads do; `onCommit` is the apply
thread's call of the callback; the others are a new call, or the next step of the
thread with that number. -/
inductive Action (ι F : Type*) where
  | raftEvent (event : RaftEvent ι F)
  | finishElection
  | onCommit (layout : Layout String)
  | acquireGuard (request : AcquireRequest F) (now : ℤ)
  | releaseGuard (agentId : String)
  | acquire (call : ℕ) (choice : Choice)
  | release (call : ℕ) (choice : Choice)
  | sweep (thread : ℕ) (choice : Choice)

namespace DsccNode

variable {ι F : Type*} [DecidableEq ι] [Arithmetic F]

/-- The end of `StartElection`. -/
def finishElection (s : DsccNode ι F) : Option (DsccNode ι F) :=
  s.raft.finishElection.map fun p =>
    { s with raft := p, sweeps := s.sweeps ++ fireLeaderCallback p }

/-- `on_commit_` runs and returns. -/
def onCommit (s : DsccNode ι F) (layout : Layout String) : Option (DsccNode ι F) :=
  match s.raft.phase with
  | .calling _ entry =>
    s.raft.applyReturn.map fun p => { s with raft := p, table := s.table.onCommit layout entry }
  | _ => none

def acquire (cfg : ServiceConfig ι F) (s : DsccNode ι F) (k : ℕ) (x : Choice) :
    Option (DsccNode ι F) :=
  match s.acquires[k]? with
  | some c =>
    (c.step cfg s.raft s.table x).map fun (p, t, c) =>
      { s with raft := p, table := t, acquires := s.acquires.set k c }
  | none => none

def release (cfg : ServiceConfig ι F) (s : DsccNode ι F) (k : ℕ) (x : Choice) :
    Option (DsccNode ι F) :=
  match s.releases[k]? with
  | some c =>
    (c.step cfg.node s.raft x).map fun (p, c) =>
      { s with raft := p, releases := s.releases.set k c }
  | none => none

def sweep (cfg : ServiceConfig ι F) (s : DsccNode ι F) (k : ℕ) (x : Choice) :
    Option (DsccNode ι F) :=
  match s.sweeps[k]? with
  | some w =>
    (w.step cfg.node s.raft s.table x).map fun (p, t, w) =>
      { s with raft := p, table := t, sweeps := s.sweeps.set k w }
  | none => none

/-- A halted process takes no step. -/
def step (cfg : ServiceConfig ι F) (s : DsccNode ι F) (a : Action ι F) :
    Option (DsccNode ι F) :=
  if s.raft.halted then none
  else match a with
    | .raftEvent event => (s.raft.event cfg.node event).map fun p => { s with raft := p }
    | .finishElection => s.finishElection
    | .onCommit layout => s.onCommit layout
    | .acquireGuard request now =>
      some { s with acquires := s.acquires ++ [AcquireCall.arrive cfg request now] }
    | .releaseGuard agentId =>
      some { s with releases := s.releases ++ [ReleaseCall.arrive agentId] }
    | .acquire k x => s.acquire cfg k x
    | .release k x => s.release cfg k x
    | .sweep k x => s.sweep cfg k x

/-- `main` up to the point where the server starts. -/
def start (cfg : ServiceConfig ι F) : DsccNode ι F :=
  let raft := Process.start cfg.node
  { raft := raft, table := .empty, sweeps := fireLeaderCallback raft }

/-- All runs of one node. -/
def system (cfg : ServiceConfig ι F) : System (DsccNode ι F) (Action ι F) where
  init := start cfg
  step := step cfg

/-! ### A stable leader -/

/-- A node that has just won the election of term `T` with an empty log; the callback
is still to be fired. -/
def leaderStart (cfg : ServiceConfig ι F) (T : ℕ) : DsccNode ι F :=
  let node : RaftNode ι F :=
    { currentTerm := T, votedFor := cfg.node.nodeId, log := [.sentinel] }
  let request : VoteRequest :=
    { term := T, candidateId := cfg.node.nodeId, lastLogIndex := 0, lastLogTerm := 0 }
  let election : Election ι :=
    { request := request, votes := cfg.node.quorumSize, remaining := [], waiting := none }
  { raft := { node := node.becomeLeader cfg.node, election := some election }, table := .empty }

/-- The node leads and runs. -/
def leads (s : DsccNode ι F) : Bool := s.raft.node.state = .leader ∧ s.raft.halted = false

/-- The runs in which the node stays leader from an empty log on. -/
def stableSystem (cfg : ServiceConfig ι F) (T : ℕ) : System (DsccNode ι F) (Action ι F) where
  init := leaderStart cfg T
  step s a := (step cfg s a).filter leads

/-- The apply thread's three steps for one entry. -/
def applyNext : List (Action ι F) :=
  [.raftEvent .applyTake, .onCommit .newest, .raftEvent .applyNotify]

end DsccNode

/-- A node without peers, for vectors with whole components. -/
def ServiceConfig.alone : ServiceConfig Unit ℤ where
  node := { nodeId := "node-1", serviceAddress := "127.0.0.1:50051", peerAddresses := [] }
  theta := 1

end DistributedLock.Service
