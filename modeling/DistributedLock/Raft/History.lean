import DistributedLock.Raft.Steps

/-! The history of a run: who was elected in each term, with which log, how far
the leader of each term extended its log, and which log each node held at some
moment of each term. It is recorded beside the run and never read by a step. -/

namespace DistributedLock.Raft

variable {ι F : Type*}

/-- `termLog 0` is the log every node starts with. -/
structure History (ι F : Type*) where
  leaderOf : ℕ → Option ι
  electLog : ℕ → List (LogEntry F)
  termLog : ℕ → List (LogEntry F)
  held : ι → ℕ → List (LogEntry F) → Prop

namespace History

/-- Node `i` has just become leader. -/
def elect (h : History ι F) (i : ι) (n : RaftNode ι F) : History ι F :=
  { h with
    leaderOf := Function.update h.leaderOf n.currentTerm (some i)
    electLog := Function.update h.electLog n.currentTerm n.log
    termLog := Function.update h.termLog n.currentTerm n.log }

/-- A leader has just appended to its log. -/
def extend (h : History ι F) (n : RaftNode ι F) : History ι F :=
  { h with termLog := Function.update h.termLog n.currentTerm n.log }

variable [DecidableEq ι]

/-- Every node holds its log in its term. -/
def hold (h : History ι F) (s : Cluster ι F) : History ι F :=
  { h with held := fun j T l =>
      h.held j T l ∨ ((s.node j).currentTerm = T ∧ (s.node j).log = l) }

def record (s : Cluster ι F) (a : Action ι F) (s' : Cluster ι F) (h : History ι F) :
    History ι F :=
  hold (match a with
    | .receiveVote i =>
      if (s.node i).state ≠ .leader ∧ (s'.node i).state = .leader then h.elect i (s'.node i) else h
    | .propose i _ => h.extend (s'.node i)
    | .appendLocalEntry i _ => h.extend (s'.node i)
    | _ => h) s'

open Classical in
/-- Before the first step only a node without peers leads, in term 1. -/
noncomputable def start [Zero F] (c : ClusterConfig ι) : History ι F where
  leaderOf T := if h : T = 1 ∧ ∃ i, c.peers i = [] then some h.2.choose else none
  electLog _ := [LogEntry.sentinel]
  termLog T := if T = 0 ∨ (T = 1 ∧ ∃ i, c.peers i = []) then [LogEntry.sentinel] else []
  held j T l := ((Cluster.start c).node j : RaftNode ι F).currentTerm = T ∧
    ((Cluster.start c).node j).log = l

end History

end DistributedLock.Raft
