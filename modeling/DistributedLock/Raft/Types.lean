import Mathlib.Algebra.GroupWithZero.Nat
import Mathlib.Data.Fintype.Card

/-! The data of the Raft layer: log entries, the messages of `dscc_raft.proto`,
the state of one `RaftNode`, and the configuration of a cluster. Scalars of
embeddings are a parameter `F` (the C++ `float`); peers are named by the node
that answers at their address. Terms and indices are `int64_t` in the source and
never negative, so they are natural numbers here. -/

namespace DistributedLock.Raft

inductive OpType where
  | acquire | release
  deriving DecidableEq, Repr

/-- `dscc_raft::LogEntry`. -/
structure LogEntry (F : Type*) where
  term : ℕ
  opType : OpType
  agentId : String
  embedding : List F
  theta : F
  deriving DecidableEq

/-- The default-constructed entry of term 0 that sits at index 0 of every log. -/
def LogEntry.sentinel {F : Type*} [Zero F] : LogEntry F :=
  { term := 0, opType := .acquire, agentId := "", embedding := [], theta := 0 }

/-- An entry as a caller of `Propose` fills it in. -/
def LogEntry.acquire {F : Type*} (agentId : String) (embedding : List F) (theta : F) :
    LogEntry F :=
  { term := 0, opType := .acquire, agentId := agentId, embedding := embedding, theta := theta }

def LogEntry.release {F : Type*} [Zero F] (agentId : String) : LogEntry F :=
  { term := 0, opType := .release, agentId := agentId, embedding := [], theta := 0 }

structure VoteRequest where
  term : ℕ
  candidateId : String
  lastLogIndex : ℕ
  lastLogTerm : ℕ
  deriving DecidableEq

structure VoteResponse where
  term : ℕ
  voteGranted : Bool
  deriving DecidableEq

structure AppendRequest (F : Type*) where
  term : ℕ
  leaderId : String
  leaderServiceAddress : String
  prevLogIndex : ℕ
  prevLogTerm : ℕ
  entries : List (LogEntry F)
  leaderCommit : ℕ

/-- Fields a handler does not set keep the protobuf default. -/
structure AppendResponse where
  term : ℕ
  success : Bool
  matchIndex : ℕ := 0
  conflictTerm : ℕ := 0
  conflictIndex : ℕ := 0
  deriving DecidableEq

/-- The answer to `GetLeader`. -/
structure LeaderInfo where
  leaderId : String
  leaderAddress : String
  currentTerm : ℕ
  isLeader : Bool
  deriving DecidableEq

inductive RaftState where
  | follower | candidate | leader
  deriving DecidableEq, Repr

/-- The constructor arguments of a `RaftNode`. -/
structure NodeConfig (ι : Type*) where
  nodeId : String
  serviceAddress : String
  peerAddresses : List ι

/-- The fields of a `RaftNode` that its mutex guards. `nextIndex` and `matchIndex`
are total: `operator[]` yields 0 for an absent key, and `BecomeLeaderLocked`
stores a value for every peer. -/
structure RaftNode (ι F : Type*) where
  currentTerm : ℕ := 0
  votedFor : String := ""
  log : List (LogEntry F)
  commitIndex : ℕ := 0
  lastApplied : ℕ := 0
  state : RaftState := .follower
  currentLeaderId : String := ""
  currentLeaderAddress : String := ""
  nextIndex : ι → ℕ := fun _ => 0
  matchIndex : ι → ℕ := fun _ => 0

/-- The nodes of a cluster: distinct non-empty ids, and every peer list names
exactly the other nodes. -/
structure ClusterConfig (ι : Type*) where
  node : ι → NodeConfig ι
  nodeId_injective : Function.Injective fun i => (node i).nodeId
  nodeId_ne_empty : ∀ i, (node i).nodeId ≠ ""
  peers_nodup : ∀ i, (node i).peerAddresses.Nodup
  mem_peers : ∀ i j, j ∈ (node i).peerAddresses ↔ j ≠ i

namespace ClusterConfig

variable {ι : Type*} (c : ClusterConfig ι)

def nodeId (i : ι) : String := (c.node i).nodeId

def peers (i : ι) : List ι := (c.node i).peerAddresses

theorem nodeId_eq_iff {i j : ι} : c.nodeId i = c.nodeId j ↔ i = j :=
  c.nodeId_injective.eq_iff

theorem mem_peers_iff {i j : ι} : j ∈ c.peers i ↔ j ≠ i := c.mem_peers i j

theorem peers_length [Fintype ι] [DecidableEq ι] (i : ι) :
    (c.peers i).length + 1 = Fintype.card ι := by
  have hset : insert i (c.peers i).toFinset = Finset.univ := by
    ext j
    simp only [Finset.mem_insert, List.mem_toFinset, c.mem_peers_iff, Finset.mem_univ, iff_true]
    exact eq_or_ne j i
  have hnodup : (c.peers i).Nodup := c.peers_nodup i
  have hcard := congrArg Finset.card hset
  rwa [Finset.card_insert_of_notMem (by simp [c.mem_peers_iff]),
    List.toFinset_card_of_nodup hnodup, Finset.card_univ] at hcard

/-- Three nodes are numbered from 0 on. -/
instance : NeZero 3 := ⟨by decide⟩

/-- The three nodes of `raft_test.cpp`. -/
def testNodes : ClusterConfig (Fin 3) where
  node i :=
    { nodeId := ["node-1", "node-2", "node-3"][i]
      serviceAddress := ["127.0.0.1:37100", "127.0.0.1:37101", "127.0.0.1:37102"][i]
      peerAddresses := [[1, 2], [0, 2], [0, 1]][i] }
  nodeId_injective := by decide
  nodeId_ne_empty := by decide
  peers_nodup := by decide
  mem_peers := by decide

end ClusterConfig

end DistributedLock.Raft
