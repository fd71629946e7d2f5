import DistributedLock.Raft.Cluster
import Mathlib.Tactic.SplitIfs

/-! What each critical section of a node can do, said once: the role (term, vote
and state), the log, and the commit index before and after. Later proofs cite
these and do not unfold the handlers. -/

namespace DistributedLock.Raft

namespace RaftNode

variable {ι F : Type*} (n : RaftNode ι F)

@[simp] theorem becomeFollower_state (T : ℕ) (l a : String) :
    (n.becomeFollower T l a).state = .follower := rfl

@[simp] theorem becomeFollower_currentTerm (T : ℕ) (l a : String) :
    (n.becomeFollower T l a).currentTerm = max n.currentTerm T := rfl

@[simp] theorem becomeFollower_log (T : ℕ) (l a : String) :
    (n.becomeFollower T l a).log = n.log := rfl

@[simp] theorem becomeFollower_commitIndex (T : ℕ) (l a : String) :
    (n.becomeFollower T l a).commitIndex = n.commitIndex := rfl

@[simp] theorem becomeFollower_lastApplied (T : ℕ) (l a : String) :
    (n.becomeFollower T l a).lastApplied = n.lastApplied := rfl

@[simp] theorem becomeFollower_matchIndex (T : ℕ) (l a : String) :
    (n.becomeFollower T l a).matchIndex = n.matchIndex := rfl

theorem start_alone [Zero F] {cfg : NodeConfig ι} (h : cfg.peerAddresses = []) :
    (start cfg : RaftNode ι F) =
      becomeLeader cfg { currentTerm := 1, votedFor := cfg.nodeId, log := [.sentinel] } := by
  unfold start
  rw [if_pos h]
  rfl

theorem start_peers [Zero F] {cfg : NodeConfig ι} (h : cfg.peerAddresses ≠ []) :
    (start cfg : RaftNode ι F) = { log := [.sentinel] } := by
  unfold start
  rw [if_neg h]

theorem start_frame [Zero F] (cfg : NodeConfig ι) :
    (start cfg : RaftNode ι F).log = [.sentinel] ∧ (start cfg : RaftNode ι F).commitIndex = 0 ∧
      (start cfg : RaftNode ι F).lastApplied = 0 ∧
      (start cfg : RaftNode ι F).matchIndex = fun _ => 0 := by
  unfold start
  split_ifs <;> exact ⟨rfl, rfl, rfl, rfl⟩

/-! ### Votes -/

theorem observeTerm_cases (T : ℕ) :
    (n.currentTerm < T ∧ n.observeTerm T = n.becomeFollower T "" "") ∨
      (T ≤ n.currentTerm ∧ n.observeTerm T = n) := by
  unfold observeTerm
  split_ifs with h
  · exact Or.inl ⟨h, rfl⟩
  · exact Or.inr ⟨not_lt.mp h, rfl⟩

theorem castVote_cases (r : VoteRequest) :
    (n.castVote r = (n, { term := n.currentTerm, voteGranted := false })) ∨
      ((n.votedFor = "" ∨ n.votedFor = r.candidateId) ∧
        n.isLogUpToDate r.lastLogIndex r.lastLogTerm = true ∧
        n.castVote r = ({ n with votedFor := r.candidateId },
          { term := n.currentTerm, voteGranted := true })) := by
  unfold castVote
  split_ifs with h
  · exact Or.inr ⟨h.1, h.2, rfl⟩
  · exact Or.inl rfl

theorem handleRequestVote_role (r : VoteRequest) :
    (n.currentTerm < r.term ∧ (n.handleRequestVote r).1.currentTerm = r.term ∧
        (n.handleRequestVote r).1.state = .follower) ∨
      (r.term ≤ n.currentTerm ∧ (n.handleRequestVote r).1.currentTerm = n.currentTerm ∧
        (n.handleRequestVote r).1.state = n.state ∧
        ((n.handleRequestVote r).1.votedFor = n.votedFor ∨ n.votedFor = "")) := by
  unfold handleRequestVote
  split_ifs with h0
  · exact Or.inr ⟨h0.le, rfl, rfl, Or.inl rfl⟩
  rcases n.observeTerm_cases r.term with ⟨hlt, he⟩ | ⟨hle, he⟩ <;> rw [he]
  · left
    rcases (n.becomeFollower r.term "" "").castVote_cases r with hc | ⟨-, -, hc⟩ <;> rw [hc] <;>
      simp [hlt, hlt.le]
  · right
    rcases n.castVote_cases r with hc | ⟨hv, -, hc⟩ <;> rw [hc]
    · exact ⟨hle, rfl, rfl, Or.inl rfl⟩
    · exact ⟨hle, rfl, rfl, hv.symm.imp_left Eq.symm⟩

theorem handleRequestVote_frame (r : VoteRequest) :
    (n.handleRequestVote r).1.log = n.log ∧
      (n.handleRequestVote r).1.commitIndex = n.commitIndex ∧
      (n.handleRequestVote r).1.lastApplied = n.lastApplied ∧
      (n.handleRequestVote r).1.matchIndex = n.matchIndex := by
  unfold handleRequestVote
  split_ifs with h0
  · simp
  rcases n.observeTerm_cases r.term with ⟨-, he⟩ | ⟨-, he⟩ <;> rw [he]
  · rcases (n.becomeFollower r.term "" "").castVote_cases r with hc | ⟨-, -, hc⟩ <;> rw [hc] <;> simp
  · rcases n.castVote_cases r with hc | ⟨-, -, hc⟩ <;> rw [hc] <;> simp

theorem handleRequestVote_granted {r : VoteRequest}
    (h : (n.handleRequestVote r).2.voteGranted = true) :
    (n.handleRequestVote r).1.currentTerm = r.term ∧
      (n.handleRequestVote r).1.votedFor = r.candidateId ∧
      n.isLogUpToDate r.lastLogIndex r.lastLogTerm = true ∧
      (n.currentTerm < r.term ∨
        n.currentTerm = r.term ∧ (n.votedFor = "" ∨ n.votedFor = r.candidateId)) := by
  unfold handleRequestVote at h ⊢
  split_ifs at h ⊢ with h0
  rcases n.observeTerm_cases r.term with ⟨hlt, he⟩ | ⟨hle, he⟩ <;> rw [he] at h ⊢
  · rcases (n.becomeFollower r.term "" "").castVote_cases r with hc | ⟨-, hu, hc⟩ <;> rw [hc] at h ⊢
    · simp at h
    · exact ⟨max_eq_right hlt.le, rfl, hu, Or.inl hlt⟩
  · have ht : n.currentTerm = r.term := by omega
    rcases n.castVote_cases r with hc | ⟨hv, hu, hc⟩ <;> rw [hc] at h ⊢
    · simp at h
    · exact ⟨ht, rfl, hu, Or.inr ⟨ht, hv⟩⟩

/-! ### AppendEntries -/

/-- The request passes the term check and the consistency check. -/
def Accepts (n : RaftNode ι F) (r : AppendRequest F) : Prop :=
  n.currentTerm ≤ r.term ∧ prevLogMatches n.log r = true

instance (r : AppendRequest F) : Decidable (n.Accepts r) :=
  inferInstanceAs (Decidable (_ ∧ _))

theorem acceptLeader_frame (r : AppendRequest F) :
    (n.acceptLeader r).log = n.log ∧ (n.acceptLeader r).commitIndex = n.commitIndex ∧
      (n.acceptLeader r).lastApplied = n.lastApplied ∧
      (n.acceptLeader r).state = .follower := by
  unfold acceptLeader
  split_ifs with h
  · simp
  · simp only [not_or, not_not] at h
    simp [h.2]

theorem acceptLeader_term {r : AppendRequest F} (h : n.currentTerm ≤ r.term) :
    (n.acceptLeader r).currentTerm = r.term := by
  unfold acceptLeader
  split_ifs with h'
  · simp [h]
  · simp only [not_or, not_lt] at h'
    exact le_antisymm h h'.1

theorem acceptLeader_votedFor (r : AppendRequest F) :
    (n.acceptLeader r).votedFor = n.votedFor ∨ n.currentTerm < r.term ∨ n.state ≠ .follower := by
  unfold acceptLeader
  split_ifs with h
  · exact Or.inr h
  · exact Or.inl rfl

theorem followCommit_eq (m : ℕ) :
    n.followCommit m = { n with commitIndex := (n.followCommit m).commitIndex } := by
  unfold followCommit
  split_ifs <;> rfl

theorem handleAppendEntries_role (r : AppendRequest F) :
    (r.term < n.currentTerm ∧ (n.handleAppendEntries r).1 = n) ∨
      (n.currentTerm ≤ r.term ∧ (n.handleAppendEntries r).1.currentTerm = r.term ∧
        (n.handleAppendEntries r).1.state = .follower ∧
        ((n.handleAppendEntries r).1.votedFor = n.votedFor ∨ n.currentTerm < r.term ∨
          n.state ≠ .follower)) := by
  unfold handleAppendEntries
  by_cases h : r.term < n.currentTerm
  · left; rw [if_pos h]; exact ⟨h, rfl⟩
  · right
    rw [if_neg h]
    have ht := n.acceptLeader_term (not_lt.mp h)
    have hs := (n.acceptLeader_frame r).2.2.2
    have hv := n.acceptLeader_votedFor r
    dsimp only
    split_ifs with h2
    · rw [followCommit_eq]
      exact ⟨not_lt.mp h, ht, hs, hv⟩
    · exact ⟨not_lt.mp h, ht, hs, hv⟩

theorem handleAppendEntries_accepts {r : AppendRequest F} (h : n.Accepts r) :
    (n.handleAppendEntries r).1.log = appendLoop n.log (r.prevLogIndex + 1) r.entries ∧
      (n.handleAppendEntries r).2 =
        { term := r.term, success := true,
          matchIndex := (appendLoop n.log (r.prevLogIndex + 1) r.entries).length - 1 } ∧
      (n.handleAppendEntries r).1.commitIndex =
        if n.commitIndex < r.leaderCommit then
          min r.leaderCommit ((appendLoop n.log (r.prevLogIndex + 1) r.entries).length - 1)
        else n.commitIndex := by
  obtain ⟨hlog, hcommit, -, -⟩ := n.acceptLeader_frame r
  have hm : prevLogMatches (n.acceptLeader r).log r = true := by rw [hlog]; exact h.2
  unfold handleAppendEntries
  rw [if_neg (by have := h.1; omega)]
  dsimp only
  rw [if_pos hm, followCommit_eq]
  refine ⟨by rw [hlog], ?_, ?_⟩
  · simp [hlog, n.acceptLeader_term h.1]
  · simp only [followCommit, hlog, hcommit]
    split_ifs <;> rfl

theorem handleAppendEntries_term {r : AppendRequest F} (h : n.Accepts r) :
    (n.handleAppendEntries r).1.currentTerm = r.term := by
  rcases n.handleAppendEntries_role r with ⟨hlt, -⟩ | ⟨-, ht, -⟩
  · exact absurd h.1 (by omega)
  · exact ht

theorem handleAppendEntries_rejects {r : AppendRequest F} (h : ¬ n.Accepts r) :
    (n.handleAppendEntries r).1.log = n.log ∧ (n.handleAppendEntries r).2.success = false ∧
      (n.handleAppendEntries r).1.commitIndex = n.commitIndex := by
  obtain ⟨hlog, hcommit, -, -⟩ := n.acceptLeader_frame r
  unfold handleAppendEntries
  split_ifs with h1
  · simp
  · have hm : ¬ prevLogMatches (n.acceptLeader r).log r = true := by
      rw [hlog]; exact fun hm => h ⟨not_lt.mp h1, hm⟩
    dsimp only
    rw [if_neg hm]
    refine ⟨hlog, ?_, hcommit⟩
    unfold rejectAppend
    split <;> rfl

theorem handleAppendEntries_lastApplied (r : AppendRequest F) :
    (n.handleAppendEntries r).1.lastApplied = n.lastApplied := by
  have h := (n.acceptLeader_frame r).2.2.1
  unfold handleAppendEntries
  split_ifs with h1
  · rfl
  · dsimp only
    split_ifs with h2
    · rw [followCommit_eq]; exact h
    · exact h

/-! ### The leader's answer handler -/

theorem advanceCommitLoop_cases (cfg : NodeConfig ι) (k : ℕ) :
    n.advanceCommitLoop cfg k = n ∨
      ∃ m, n.commitIndex < m ∧ m ≤ k ∧ termAt n.log m = some n.currentTerm ∧
        cfg.quorumSize ≤ n.replicated cfg m ∧
        n.advanceCommitLoop cfg k = { n with commitIndex := m } := by
  induction k with
  | zero => exact Or.inl rfl
  | succ k ih =>
    unfold advanceCommitLoop
    split_ifs with h1 h2
    · exact Or.inl rfl
    · exact Or.inr ⟨k + 1, by omega, le_rfl, h2.1, h2.2, rfl⟩
    · rcases ih with ih | ⟨m, hm, hk, hr⟩
      · exact Or.inl ih
      · exact Or.inr ⟨m, hm, by omega, hr⟩

theorem advanceCommitIndex_cases (cfg : NodeConfig ι) :
    n.advanceCommitIndex cfg = n ∨
      ∃ m, n.state = .leader ∧ n.commitIndex < m ∧ termAt n.log m = some n.currentTerm ∧
        cfg.quorumSize ≤ n.replicated cfg m ∧
        n.advanceCommitIndex cfg = { n with commitIndex := m } := by
  unfold advanceCommitIndex
  split_ifs with h
  · exact Or.inl rfl
  · rcases n.advanceCommitLoop_cases cfg (n.log.length - 1) with h' | ⟨m, hm, -, ht, hq, he⟩
    · exact Or.inl h'
    · exact Or.inr ⟨m, not_not.mp h, hm, ht, hq, he⟩

/-- The node after a success response is counted, before the commit index moves. -/
def withMatch [DecidableEq ι] (n : RaftNode ι F) (peer : ι) (matched : ℕ) : RaftNode ι F :=
  { n with
    matchIndex := Function.update n.matchIndex peer (max (n.matchIndex peer) matched)
    nextIndex := Function.update n.nextIndex peer (max (n.matchIndex peer) matched + 1) }

theorem handleAppendResponse_cases [DecidableEq ι] (cfg : NodeConfig ι) (peer : ι) (T : ℕ)
    (r : AppendResponse) :
    (n.currentTerm < r.term ∧
        n.handleAppendResponse cfg peer T r = n.becomeFollower r.term "" "") ∨
      (∃ f, n.handleAppendResponse cfg peer T r = { n with nextIndex := f }) ∨
      (n.state = .leader ∧ n.currentTerm = T ∧ r.success = true ∧
        n.handleAppendResponse cfg peer T r =
          (n.withMatch peer r.matchIndex).advanceCommitIndex cfg) := by
  unfold handleAppendResponse
  split_ifs with h1 h2 h3
  · exact Or.inl ⟨h1, rfl⟩
  · exact Or.inr (Or.inl ⟨n.nextIndex, rfl⟩)
  · simp only [not_or, not_not] at h2
    exact Or.inr (Or.inr ⟨h2.1, h2.2, h3, rfl⟩)
  all_goals exact Or.inr (Or.inl ⟨_, rfl⟩)

theorem handleAppendResponse_role [DecidableEq ι] (cfg : NodeConfig ι) (peer : ι) (T : ℕ)
    (r : AppendResponse) :
    (n.currentTerm < r.term ∧
        n.handleAppendResponse cfg peer T r = n.becomeFollower r.term "" "") ∨
      ((n.handleAppendResponse cfg peer T r).currentTerm = n.currentTerm ∧
        (n.handleAppendResponse cfg peer T r).votedFor = n.votedFor ∧
        (n.handleAppendResponse cfg peer T r).state = n.state) := by
  rcases n.handleAppendResponse_cases cfg peer T r with h | ⟨f, h⟩ | ⟨-, -, -, h⟩
  · exact Or.inl h
  · rw [h]; exact Or.inr ⟨rfl, rfl, rfl⟩
  · rw [h]
    rcases (n.withMatch peer r.matchIndex).advanceCommitIndex_cases cfg with h' | ⟨m, -, -, -, -, h'⟩
      <;> rw [h'] <;> exact Or.inr ⟨rfl, rfl, rfl⟩

theorem handleAppendResponse_log [DecidableEq ι] (cfg : NodeConfig ι) (peer : ι) (T : ℕ)
    (r : AppendResponse) :
    (n.handleAppendResponse cfg peer T r).log = n.log ∧
      (n.handleAppendResponse cfg peer T r).lastApplied = n.lastApplied := by
  rcases n.handleAppendResponse_cases cfg peer T r with ⟨-, h⟩ | ⟨f, h⟩ | ⟨-, -, -, h⟩
  · rw [h]; exact ⟨rfl, rfl⟩
  · rw [h]; exact ⟨rfl, rfl⟩
  · rw [h]
    rcases (n.withMatch peer r.matchIndex).advanceCommitIndex_cases cfg with h' | ⟨m, -, -, -, -, h'⟩
      <;> rw [h'] <;> exact ⟨rfl, rfl⟩

/-- A request covers the log from `m + 1` to its end; `m` is in range. -/
theorem buildAppendRequest_cases [DecidableEq ι] {cfg : NodeConfig ι} {peer : ι}
    {n' : RaftNode ι F} {r : AppendRequest F}
    (h : n.buildAppendRequest cfg peer = some (n', r)) :
    ∃ m t, termAt n.log m = some t ∧
      n' = { n with nextIndex := Function.update n.nextIndex peer (m + 1) } ∧
      r = { term := n.currentTerm, leaderId := cfg.nodeId,
            leaderServiceAddress := cfg.serviceAddress, prevLogIndex := m, prevLogTerm := t,
            entries := n.log.drop (m + 1), leaderCommit := n.commitIndex } := by
  simp only [buildAppendRequest, Option.map_eq_some_iff, Prod.mk.injEq] at h
  obtain ⟨t, ht, rfl, rfl⟩ := h
  have hk : max 1 (n.nextIndex peer) - 1 + 1 = max 1 (n.nextIndex peer) := by omega
  exact ⟨_, t, ht, by rw [hk], by rw [hk]⟩

theorem appendStamped_frame (cfg : NodeConfig ι) (e : LogEntry F) :
    (n.appendStamped cfg e).log = n.log ++ [{ e with term := n.currentTerm }] ∧
      (n.appendStamped cfg e).currentTerm = n.currentTerm ∧
      (n.appendStamped cfg e).votedFor = n.votedFor ∧
      (n.appendStamped cfg e).state = n.state ∧
      (n.appendStamped cfg e).matchIndex = n.matchIndex ∧
      (n.appendStamped cfg e).lastApplied = n.lastApplied ∧
      (n.appendStamped cfg e).commitIndex =
        if cfg.peerAddresses = [] then n.log.length else n.commitIndex := by
  unfold appendStamped
  dsimp only
  split_ifs with h <;> simp

end RaftNode

theorem Process.countVote_cases {ι F : Type*} (cfg : NodeConfig ι) (p : Process ι F)
    (e : Election ι) (r : VoteResponse) :
    (p.node.currentTerm < r.term ∧ p.countVote cfg e r =
        { p with node := p.node.becomeFollower r.term "" "", election := none }) ∨
      p.countVote cfg e r = { p with election := none } ∨
      (p.node.state = .candidate ∧ p.node.currentTerm = e.request.term ∧ r.voteGranted = true ∧
        cfg.quorumSize ≤ e.votes + 1 ∧ p.countVote cfg e r = { p with
          node := p.node.becomeLeader cfg
          election := some { e with votes := e.votes + 1, remaining := [], waiting := none } }) ∨
      ∃ v, (v = e.votes ∨ (v = e.votes + 1 ∧ r.voteGranted = true)) ∧
        p.countVote cfg e r =
          { p with election := some { e with votes := v, waiting := none } } := by
  unfold Process.countVote
  split_ifs with h1 h2 h3 h4
  · exact Or.inl ⟨h1, rfl⟩
  · exact Or.inr (Or.inl rfl)
  · simp only [not_or, not_not] at h2
    exact Or.inr (Or.inr (Or.inl ⟨h2.1, h2.2, h3, h4, rfl⟩))
  · exact Or.inr (Or.inr (Or.inr ⟨_, Or.inr ⟨rfl, h3⟩, rfl⟩))
  · exact Or.inr (Or.inr (Or.inr ⟨_, Or.inl rfl, rfl⟩))

end DistributedLock.Raft
