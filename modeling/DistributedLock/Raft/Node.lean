import DistributedLock.Raft.Types
import Mathlib.Logic.Function.Basic

/-! The critical sections of `RaftNode`, each the code between one acquisition
of `mu_` and its release, as a function of the guarded fields. The clock and the
random election deadline are left out: a timeout may happen at any time. -/

namespace DistributedLock.Raft

namespace RaftNode

variable {ι F : Type*}

/-! ### Small helpers of the class -/

def lastLogIndex (n : RaftNode ι F) : ℕ := n.log.length - 1

def lastLogTerm (n : RaftNode ι F) : ℕ := (n.log.getLast?.map LogEntry.term).getD 0

/-- `log_[index].term()`, when the index is in range. -/
def termAt (log : List (LogEntry F)) (index : ℕ) : Option ℕ := log[index]?.map LogEntry.term

/-- `IsLogUpToDateLocked`. -/
def isLogUpToDate (n : RaftNode ι F) (candidateLastLogIndex candidateLastLogTerm : ℕ) : Bool :=
  if candidateLastLogTerm ≠ n.lastLogTerm then n.lastLogTerm < candidateLastLogTerm
  else n.lastLogIndex ≤ candidateLastLogIndex

/-- `BecomeFollowerLocked`: the vote is cleared also when the term stays. -/
def becomeFollower (n : RaftNode ι F) (term : ℕ) (leaderId leaderAddress : String) :
    RaftNode ι F :=
  { n with
    state := .follower
    currentTerm := max n.currentTerm term
    votedFor := ""
    currentLeaderId := leaderId
    currentLeaderAddress := leaderAddress }

/-- `BecomeLeaderLocked`. -/
def becomeLeader (cfg : NodeConfig ι) (n : RaftNode ι F) : RaftNode ι F :=
  { n with
    state := .leader
    currentLeaderId := cfg.nodeId
    currentLeaderAddress := cfg.serviceAddress
    nextIndex := fun _ => n.log.length
    matchIndex := fun _ => 0 }

/-- The constructor and `Start`: a node without peers leads term 1 at once. -/
def start [Zero F] (cfg : NodeConfig ι) : RaftNode ι F :=
  let n : RaftNode ι F := { log := [LogEntry.sentinel] }
  if cfg.peerAddresses = [] then
    becomeLeader cfg { n with currentTerm := max 1 n.currentTerm, votedFor := cfg.nodeId }
  else n

/-- `LeaderAddress`. -/
def leaderAddress (cfg : NodeConfig ι) (n : RaftNode ι F) : String :=
  if n.state = .leader then cfg.serviceAddress else n.currentLeaderAddress

/-- `HandleGetLeader`. -/
def handleGetLeader (cfg : NodeConfig ι) (n : RaftNode ι F) : LeaderInfo :=
  { leaderId := if n.state = .leader then cfg.nodeId else n.currentLeaderId
    leaderAddress := if n.state = .leader then cfg.serviceAddress else n.currentLeaderAddress
    currentTerm := n.currentTerm
    isLeader := n.state = .leader }

end RaftNode

/-- `QuorumSize`. -/
def NodeConfig.quorumSize {ι : Type*} (cfg : NodeConfig ι) : ℕ :=
  (cfg.peerAddresses.length + 1) / 2 + 1

namespace RaftNode

variable {ι F : Type*}

/-! ### Elections -/

/-- The first critical section of `StartElection`, with the request it prepares. -/
def startElection (cfg : NodeConfig ι) (n : RaftNode ι F) : RaftNode ι F × VoteRequest :=
  let n := { n with
    state := .candidate
    currentTerm := n.currentTerm + 1
    votedFor := cfg.nodeId
    currentLeaderId := ""
    currentLeaderAddress := "" }
  (n, { term := n.currentTerm, candidateId := cfg.nodeId,
        lastLogIndex := n.lastLogIndex, lastLogTerm := n.lastLogTerm })

/-- The role change of `HandleRequestVote`. -/
def observeTerm (n : RaftNode ι F) (term : ℕ) : RaftNode ι F :=
  if n.currentTerm < term then n.becomeFollower term "" "" else n

/-- The vote itself, in the term of the request. -/
def castVote (n : RaftNode ι F) (request : VoteRequest) : RaftNode ι F × VoteResponse :=
  if (n.votedFor = "" ∨ n.votedFor = request.candidateId) ∧
      n.isLogUpToDate request.lastLogIndex request.lastLogTerm then
    ({ n with votedFor := request.candidateId }, { term := n.currentTerm, voteGranted := true })
  else (n, { term := n.currentTerm, voteGranted := false })

/-- `HandleRequestVote`. -/
def handleRequestVote (n : RaftNode ι F) (request : VoteRequest) : RaftNode ι F × VoteResponse :=
  if request.term < n.currentTerm then
    (n, { term := n.currentTerm, voteGranted := false })
  else (n.observeTerm request.term).castVote request

/-! ### Log replication, follower side -/

/-- The consistency check on `prev_log_index` and `prev_log_term`. -/
def prevLogMatches (log : List (LogEntry F)) (request : AppendRequest F) : Bool :=
  request.prevLogIndex = 0 ∨
    (request.prevLogIndex < log.length ∧
      termAt log request.prevLogIndex = some request.prevLogTerm)

/-- The backward scan for the first index of the conflicting term. -/
def conflictIndex (log : List (LogEntry F)) (conflictTerm : ℕ) : ℕ → ℕ
  | 0 => 0
  | index + 1 =>
    if 0 < index ∧ termAt log index = some conflictTerm then conflictIndex log conflictTerm index
    else index + 1

/-- The answer to a request that fails the consistency check. -/
def rejectAppend (n : RaftNode ι F) (prevIndex : ℕ) : AppendResponse :=
  match termAt n.log prevIndex with
  | some conflictTerm =>
    { term := n.currentTerm, success := false, conflictTerm := conflictTerm,
      conflictIndex := conflictIndex n.log conflictTerm prevIndex }
  | none => { term := n.currentTerm, success := false, conflictIndex := n.log.length }

/-- The skip, truncate and append loop over the entries of a request. -/
def appendLoop (log : List (LogEntry F)) : ℕ → List (LogEntry F) → List (LogEntry F)
  | _, [] => log
  | index, incoming :: rest =>
    match log[index]? with
    | some old =>
      if old.term ≠ incoming.term then
        appendLoop (log.take index ++ [incoming]) (index + 1) rest
      else appendLoop log (index + 1) rest
    | none => appendLoop (log ++ [incoming]) (index + 1) rest

/-- What `HandleAppendEntries` does to the role before it looks at the log. -/
def acceptLeader (n : RaftNode ι F) (request : AppendRequest F) : RaftNode ι F :=
  if n.currentTerm < request.term ∨ n.state ≠ .follower then
    n.becomeFollower request.term request.leaderId request.leaderServiceAddress
  else { n with
    currentLeaderId := request.leaderId
    currentLeaderAddress := request.leaderServiceAddress }

/-- The commit rule of a follower: bounded by the end of its own log. -/
def followCommit (n : RaftNode ι F) (leaderCommit : ℕ) : RaftNode ι F :=
  if n.commitIndex < leaderCommit then
    { n with commitIndex := min leaderCommit (n.log.length - 1) }
  else n

/-- `HandleAppendEntries`. The reported match index is the end of the whole log. -/
def handleAppendEntries (n : RaftNode ι F) (request : AppendRequest F) :
    RaftNode ι F × AppendResponse :=
  if request.term < n.currentTerm then
    (n, { term := n.currentTerm, success := false })
  else
    let n := n.acceptLeader request
    if prevLogMatches n.log request then
      let n := { n with log := appendLoop n.log (request.prevLogIndex + 1) request.entries }
      let n := n.followCommit request.leaderCommit
      (n, { term := n.currentTerm, success := true, matchIndex := n.log.length - 1 })
    else (n, n.rejectAppend request.prevLogIndex)

/-! ### Log replication, leader side -/

/-- The inner loop of `AdvanceCommitIndexLocked`: the leader and the counted peers. -/
def replicated (cfg : NodeConfig ι) (n : RaftNode ι F) (index : ℕ) : ℕ :=
  1 + (cfg.peerAddresses.filter fun peer => index ≤ n.matchIndex peer).length

/-- The loop of `AdvanceCommitIndexLocked`, from `index` down to `commit_index_ + 1`. -/
def advanceCommitLoop (cfg : NodeConfig ι) (n : RaftNode ι F) : ℕ → RaftNode ι F
  | 0 => n
  | index + 1 =>
    if index + 1 ≤ n.commitIndex then n
    else if termAt n.log (index + 1) = some n.currentTerm ∧
        cfg.quorumSize ≤ n.replicated cfg (index + 1) then
      { n with commitIndex := index + 1 }
    else advanceCommitLoop cfg n index

/-- `AdvanceCommitIndexLocked`. -/
def advanceCommitIndex (cfg : NodeConfig ι) (n : RaftNode ι F) : RaftNode ι F :=
  if n.state ≠ .leader then n else n.advanceCommitLoop cfg (n.log.length - 1)

variable [DecidableEq ι]

/-- The first critical section of `ReplicateToFollower`, run by a leader. Reading
`log_` at `next_index - 1` out of range is `none`. -/
def buildAppendRequest (cfg : NodeConfig ι) (n : RaftNode ι F) (peer : ι) :
    Option (RaftNode ι F × AppendRequest F) :=
  let nextIndex := max 1 (n.nextIndex peer)
  (termAt n.log (nextIndex - 1)).map fun prevLogTerm =>
    ({ n with nextIndex := Function.update n.nextIndex peer nextIndex },
      { term := n.currentTerm, leaderId := cfg.nodeId,
        leaderServiceAddress := cfg.serviceAddress,
        prevLogIndex := nextIndex - 1, prevLogTerm := prevLogTerm,
        entries := n.log.drop nextIndex, leaderCommit := n.commitIndex })

/-- The second critical section of `ReplicateToFollower`. -/
def handleAppendResponse (cfg : NodeConfig ι) (n : RaftNode ι F) (peer : ι) (sentTerm : ℕ)
    (response : AppendResponse) : RaftNode ι F :=
  if n.currentTerm < response.term then n.becomeFollower response.term "" ""
  else if n.state ≠ .leader ∨ n.currentTerm ≠ sentTerm then n
  else if response.success then
    let matched := max (n.matchIndex peer) response.matchIndex
    advanceCommitIndex cfg { n with
      matchIndex := Function.update n.matchIndex peer matched
      nextIndex := Function.update n.nextIndex peer (matched + 1) }
  else
    let retryIndex :=
      if 0 < response.conflictIndex then response.conflictIndex else n.nextIndex peer - 1
    { n with nextIndex := Function.update n.nextIndex peer (max 1 retryIndex) }

/-! ### Proposals and application -/

/-- The append of `Propose` and of `AppendLocalEntry`, by a leader: the entry is
stamped with the current term, and a node without peers commits it at once. -/
def appendStamped (cfg : NodeConfig ι) (n : RaftNode ι F) (entry : LogEntry F) : RaftNode ι F :=
  let n := { n with log := n.log ++ [{ entry with term := n.currentTerm }] }
  if cfg.peerAddresses = [] then { n with commitIndex := n.log.length - 1 } else n

/-- The predicate of `WaitUntilApplied` on a running node. -/
def waitUntilApplied (n : RaftNode ι F) (index : ℕ) : Bool := index ≤ n.lastApplied

end RaftNode

end DistributedLock.Raft
