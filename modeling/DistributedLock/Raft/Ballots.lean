import DistributedLock.Raft.Effects

/-! The votes a run gives away, written down beside it: the vote a candidate gives
itself and every granted answer. `BecomeFollowerLocked` clears `voted_for_` also when
the term stays, so a node can forget a vote inside its term. In the runs in which no
node is asked again for a vote it has forgotten, nobody votes for two candidates in
one term; a run of three nodes in which a beaten candidate is asked shows that the
condition is needed. -/

namespace DistributedLock.Raft

open Library

variable {ι F : Type*}

structure Ballot (ι : Type*) where
  voter : ι
  term : ℕ
  candidateId : String
  deriving DecidableEq

/-- The votes that a step gives. -/
def Cluster.ballots (c : ClusterConfig ι) (s : Cluster ι F) : Action ι F → List (Ballot ι)
  | .startElection i =>
    let (node, request) := (s.node i).startElection (c.node i)
    [{ voter := i, term := request.term, candidateId := node.votedFor }]
  | .handleRequestVote k =>
    match s.voteCalls[k]? with
    | some call =>
      if ((s.node call.callee).handleRequestVote call.request).2.voteGranted then
        [{ voter := call.callee, term := call.request.term,
           candidateId := call.request.candidateId }]
      else []
    | none => []
  | _ => []

/-! ### What a step does to the vote of a node -/

namespace RaftNode

/-- Terms never fall, and inside a term a vote can only be cleared. -/
def VoteStays (n n' : RaftNode ι F) : Prop :=
  n.currentTerm ≤ n'.currentTerm ∧
    (n'.currentTerm = n.currentTerm → n'.votedFor = n.votedFor ∨ n'.votedFor = "")

theorem VoteStays.of_eq {n n' : RaftNode ι F} (ht : n'.currentTerm = n.currentTerm)
    (hv : n'.votedFor = n.votedFor) : VoteStays n n' :=
  ⟨ht.ge, fun _ => Or.inl hv⟩

theorem VoteStays.of_lt {n n' : RaftNode ι F} (h : n.currentTerm < n'.currentTerm) :
    VoteStays n n' :=
  ⟨h.le, fun he => absurd he h.ne'⟩

theorem voteStays_handleAppendEntries (n : RaftNode ι F) (r : AppendRequest F) :
    VoteStays n (n.handleAppendEntries r).1 := by
  have hvote : (n.acceptLeader r).votedFor = n.votedFor ∨ (n.acceptLeader r).votedFor = "" := by
    unfold acceptLeader
    split_ifs
    · exact Or.inr rfl
    · exact Or.inl rfl
  rcases n.handleAppendEntries_role r with ⟨-, he⟩ | ⟨hle, ht, -⟩
  · rw [he]
    exact .of_eq rfl rfl
  · refine ⟨hle.trans ht.ge, fun _ => ?_⟩
    unfold handleAppendEntries
    rw [if_neg (not_lt.mpr hle)]
    dsimp only
    split_ifs
    · rw [followCommit_eq]
      exact hvote
    · exact hvote

theorem voteStays_handleAppendResponse [DecidableEq ι] (n : RaftNode ι F) (cfg : NodeConfig ι)
    (peer : ι) (T : ℕ) (r : AppendResponse) : VoteStays n (n.handleAppendResponse cfg peer T r) := by
  rcases n.handleAppendResponse_role cfg peer T r with ⟨hlt, he⟩ | ⟨ht, hv, -⟩
  · rw [he]
    exact .of_lt (lt_max_of_lt_right hlt)
  · exact .of_eq ht hv

/-- A request that is turned down leaves the vote alone. -/
theorem voteStays_handleRequestVote (n : RaftNode ι F) (r : VoteRequest)
    (h : (n.handleRequestVote r).2.voteGranted = false) : VoteStays n (n.handleRequestVote r).1 := by
  unfold handleRequestVote at h ⊢
  split_ifs at h ⊢
  · exact .of_eq rfl rfl
  rcases n.observeTerm_cases r.term with ⟨hlt, he⟩ | ⟨-, he⟩ <;> rw [he] at h ⊢
  · rcases (n.becomeFollower r.term "" "").castVote_cases r with hc | ⟨-, -, hc⟩ <;> rw [hc] at h ⊢
    · exact .of_lt (lt_max_of_lt_right hlt)
    · cases h
  · rcases n.castVote_cases r with hc | ⟨-, -, hc⟩ <;> rw [hc] at h ⊢
    · exact .of_eq rfl rfl
    · cases h

end RaftNode

namespace Cluster

variable [DecidableEq ι] {c : ClusterConfig ι} {s s' : Cluster ι F} {a : Action ι F}

theorem voteStays_setProc {i : ι} {p : Process ι F} (h : (s.node i).VoteStays p.node) (j : ι) :
    (s.node j).VoteStays ((s.setProc i p).node j) := by
  rcases eq_or_ne j i with rfl | hj
  · rwa [node_setProc_self]
  · rw [node_setProc_of_ne s p hj]
    exact .of_eq rfl rfl

/-- A step that gives no vote at most takes one back. -/
theorem step_voteStays (hstep : s.step c a = some s') (hnone : s.ballots c a = []) (j : ι) :
    (s.node j).VoteStays (s'.node j) := by
  cases a with
  | startElection i => cases hnone
  | handleRequestVote k =>
    obtain ⟨call, hk, -, rfl⟩ := handleRequestVote_cases hstep
    simp only [ballots, hk] at hnone
    refine voteStays_setProc (RaftNode.voteStays_handleRequestVote _ _ ?_) j
    by_contra hgranted
    rw [Bool.not_eq_false] at hgranted
    rw [if_pos hgranted] at hnone
    cases hnone
  | sendVoteRequest i =>
    obtain ⟨e, peer, rest, -, -, -, rfl⟩ := sendVoteRequest_cases hstep
    refine voteStays_setProc ?_ j
    exact .of_eq rfl rfl
  | receiveVote i =>
    obtain ⟨e, k, call, r, -, -, -, -, rfl⟩ := receiveVote_cases hstep
    refine voteStays_setProc ?_ j
    rcases Process.countVote_cases (c.node i) (s.procs i) e r with
      ⟨hlt, hcv⟩ | hcv | ⟨-, -, -, -, hcv⟩ | ⟨v, -, hcv⟩ <;> rw [hcv]
    · exact .of_lt (lt_max_of_lt_right hlt)
    · exact .of_eq rfl rfl
    · exact .of_eq rfl rfl
    · exact .of_eq rfl rfl
  | voteRequestFailed i =>
    obtain ⟨e, -, rfl⟩ := voteRequestFailed_cases hstep
    refine voteStays_setProc ?_ j
    exact .of_eq rfl rfl
  | finishElection i =>
    obtain rfl := finishElection_cases hstep
    refine voteStays_setProc ?_ j
    exact .of_eq rfl rfl
  | replicate i peer =>
    obtain ⟨-, -, ⟨m, t, -, rfl⟩ | rfl⟩ := replicate_cases hstep
    · refine voteStays_setProc ?_ j
      exact .of_eq rfl rfl
    · refine voteStays_setProc ?_ j
      exact .of_eq rfl rfl
  | handleAppendEntries k =>
    obtain ⟨call, -, -, rfl⟩ := handleAppendEntries_cases hstep
    refine voteStays_setProc ?_ j
    exact RaftNode.voteStays_handleAppendEntries _ _
  | receiveAppend k =>
    obtain ⟨call, r, -, -, rfl⟩ := receiveAppend_cases hstep
    refine voteStays_setProc ?_ j
    exact RaftNode.voteStays_handleAppendResponse _ _ _ _ _
  | propose i e =>
    obtain ⟨-, rfl⟩ := propose_cases hstep
    obtain ⟨-, ht, hv, -⟩ := (s.node i).appendStamped_frame (c.node i) e
    refine voteStays_setProc ?_ j
    exact .of_eq ht hv
  | checkProposal k timedOut =>
    obtain ⟨call, -, -, ⟨-, rfl⟩ | rfl | rfl⟩ := checkProposal_cases hstep <;> exact .of_eq rfl rfl
  | appendLocalEntry i e =>
    obtain ⟨-, rfl⟩ := appendLocalEntry_cases hstep
    obtain ⟨-, ht, hv, -⟩ := (s.node i).appendStamped_frame (c.node i) e
    refine voteStays_setProc ?_ j
    exact .of_eq ht hv
  | applyTake i =>
    obtain ⟨-, -, -, ⟨e, -, rfl⟩ | ⟨-, rfl⟩⟩ := applyTake_cases hstep
    · refine voteStays_setProc ?_ j
      exact .of_eq rfl rfl
    · refine voteStays_setProc ?_ j
      exact .of_eq rfl rfl
  | applyReturn i =>
    obtain ⟨m, e, -, rfl⟩ := applyReturn_cases hstep
    refine voteStays_setProc ?_ j
    exact .of_eq rfl rfl
  | applyNotify i =>
    obtain ⟨-, rfl⟩ := applyNotify_cases hstep
    refine voteStays_setProc ?_ j
    exact .of_eq rfl rfl

/-- A step that gives a vote gives one: a candidate to itself in a new term, or a node
that has no vote for anybody else in the term. -/
theorem step_ballot (hstep : s.step c a = some s') {b : Ballot ι} (hb : b ∈ s.ballots c a) :
    s.ballots c a = [b] ∧ (s'.node b.voter).currentTerm = b.term ∧
      (s'.node b.voter).votedFor = b.candidateId ∧ (∀ j, j ≠ b.voter → s'.node j = s.node j) ∧
      ((s.node b.voter).currentTerm < b.term ∨
        (s.node b.voter).currentTerm = b.term ∧ ∃ k call, a = .handleRequestVote k ∧
          s.voteCalls[k]? = some call ∧ call.callee = b.voter ∧ call.request.term = b.term ∧
          ((s.node b.voter).votedFor = "" ∨ (s.node b.voter).votedFor = b.candidateId) ∧
          (s.node b.voter).isLogUpToDate call.request.lastLogIndex call.request.lastLogTerm =
            true) := by
  cases a with
  | startElection i =>
    obtain ⟨-, -, rfl⟩ := startElection_cases hstep
    obtain rfl := List.mem_singleton.mp hb
    refine ⟨rfl, ?_, ?_, fun j hj => node_setProc_of_ne s _ hj, Or.inl ?_⟩
    · rw [node_setProc_self]
      rfl
    · rw [node_setProc_self]
      rfl
    · exact Nat.lt_succ_self _
  | handleRequestVote k =>
    obtain ⟨call, hk, -, rfl⟩ := handleRequestVote_cases hstep
    simp only [ballots, hk] at hb ⊢
    split_ifs at hb ⊢ with hgranted
    · obtain rfl := List.mem_singleton.mp hb
      obtain ⟨ht, hv, hup, hcan⟩ := RaftNode.handleRequestVote_granted _ hgranted
      refine ⟨rfl, ?_, ?_, fun j hj => node_setProc_of_ne s _ hj, ?_⟩
      · exact (congrArg RaftNode.currentTerm (node_setProc_self s _ _)).trans ht
      · exact (congrArg RaftNode.votedFor (node_setProc_self s _ _)).trans hv
      · exact hcan.imp_right fun ⟨hterm, hfree⟩ => ⟨hterm, k, call, rfl, hk, rfl, rfl, hfree, hup⟩
    · cases hb
  | _ => cases hb

/-- The vote request that a step answers. -/
def asked (s : Cluster ι F) : Action ι F → Option (VoteCall ι)
  | .handleRequestVote k => s.voteCalls[k]?
  | _ => none

end Cluster

/-! ### One vote per term -/

/-- The step does not ask a node for a vote it has given in its term and forgotten. -/
def RemembersVotes [DecidableEq ι] (s : Cluster ι F × List (Ballot ι)) (a : Action ι F) : Prop :=
  ∀ call ∈ s.1.asked a,
    ¬ (call.request.term = (s.1.node call.callee).currentTerm ∧
      (s.1.node call.callee).votedFor = "" ∧
      (s.1.node call.callee).isLogUpToDate call.request.lastLogIndex call.request.lastLogTerm =
        true ∧
      ∃ b ∈ s.2, b.voter = call.callee ∧ b.term = call.request.term)

instance [DecidableEq ι] (s : Cluster ι F × List (Ballot ι)) (a : Action ι F) :
    Decidable (RemembersVotes s a) :=
  inferInstanceAs (Decidable (∀ call ∈ s.1.asked a, _))

/-- The votes of a term already past are settled; a vote of the current term is still
in `voted_for_`, unless it has been cleared. -/
structure BallotInv (s : Cluster ι F × List (Ballot ι)) : Prop where
  bound : ∀ b ∈ s.2, b.term ≤ (s.1.node b.voter).currentTerm ∧
    (b.term = (s.1.node b.voter).currentTerm →
      (s.1.node b.voter).votedFor = b.candidateId ∨ (s.1.node b.voter).votedFor = "")
  unique : ∀ b ∈ s.2, ∀ b' ∈ s.2, b.voter = b'.voter → b.term = b'.term →
    b.candidateId = b'.candidateId

namespace BallotInv

variable [DecidableEq ι] {c : ClusterConfig ι} {s s' : Cluster ι F × List (Ballot ι)}
  {a : Action ι F}

omit [DecidableEq ι] in
theorem bound_of_voteStays {s : Cluster ι F} {n : RaftNode ι F} {b : Ballot ι}
    (h : b.term ≤ (s.node b.voter).currentTerm ∧ (b.term = (s.node b.voter).currentTerm →
      (s.node b.voter).votedFor = b.candidateId ∨ (s.node b.voter).votedFor = ""))
    (hn : (s.node b.voter).VoteStays n) :
    b.term ≤ n.currentTerm ∧
      (b.term = n.currentTerm → n.votedFor = b.candidateId ∨ n.votedFor = "") := by
  refine ⟨h.1.trans hn.1, fun he => ?_⟩
  have ht : n.currentTerm = (s.node b.voter).currentTerm := le_antisymm (he ▸ h.1) hn.1
  rcases hn.2 ht with hv | hv
  · rw [hv]
    exact h.2 (he.trans ht)
  · exact Or.inr hv

theorem step (h : BallotInv s) (hremembers : RemembersVotes s a)
    (hstep : s.1.step c a = some s'.1) (hlog : s'.2 = s.2 ++ s.1.ballots c a) : BallotInv s' := by
  rcases List.eq_nil_or_concat (s.1.ballots c a) with hnone | ⟨l, b, hb⟩
  · rw [hnone, List.append_nil] at hlog
    refine ⟨fun b hmem => ?_, hlog ▸ h.unique⟩
    exact bound_of_voteStays (h.bound b (hlog ▸ hmem)) (Cluster.step_voteStays hstep hnone b.voter)
  · obtain ⟨hone, hterm, hvote, hother, hfree⟩ := Cluster.step_ballot (b := b) hstep (by simp [hb])
    rw [hone] at hlog
    have hmem : ∀ b' ∈ s'.2, b' ∈ s.2 ∨ b' = b := by simp [hlog]
    -- an earlier vote of this node in this term went to the same candidate
    have hsame : ∀ b' ∈ s.2, b'.voter = b.voter → b'.term = b.term →
        b'.candidateId = b.candidateId := by
      intro b' hb' hvoter hbterm
      obtain ⟨hle, hbound⟩ := h.bound b' hb'
      rw [hvoter, hbterm] at hle hbound
      rcases hfree with hlt | ⟨ht, k, call, rfl, hk, hcallee, hreq, hcan, hup⟩
      · exact absurd hlt (not_lt.mpr hle)
      have hkept : (s.1.node b.voter).votedFor ≠ "" := by
        rintro hempty
        rw [← hcallee] at ht hempty hup
        exact hremembers call hk ⟨hreq.trans ht.symm, hempty, hup, b', hb', hvoter.trans hcallee.symm,
          hbterm.trans hreq.symm⟩
      exact ((hbound ht.symm).resolve_right hkept).symm.trans (hcan.resolve_left hkept)
    refine ⟨fun b' hb' => ?_, fun b₁ h₁ b₂ h₂ hvoter hbterm => ?_⟩
    · rcases hmem b' hb' with hold | rfl
      · rcases eq_or_ne b'.voter b.voter with hvoter | hne
        · have hle := (h.bound b' hold).1
          have hmono : (s.1.node b.voter).currentTerm ≤ b.term := by
            rcases hfree with hlt | ⟨ht, -⟩ <;> omega
          rw [hvoter] at hle ⊢
          rw [hterm, hvote]
          exact ⟨hle.trans hmono, fun he => Or.inl (hsame b' hold hvoter he).symm⟩
        · rw [hother b'.voter hne]
          exact h.bound b' hold
      · exact ⟨hterm.ge, fun _ => Or.inl hvote⟩
    · rcases hmem b₁ h₁ with h₁ | rfl <;> rcases hmem b₂ h₂ with h₂ | rfl
      · exact h.unique b₁ h₁ b₂ h₂ hvoter hbterm
      · exact hsame b₁ h₁ hvoter hbterm
      · exact (hsame b₂ h₂ hvoter.symm hbterm.symm).symm
      · rfl

end BallotInv

namespace Cluster

variable [DecidableEq ι] [Zero F]

/-- One vote per term: in a run in which no node is asked for a vote it has forgotten,
no node votes for two candidates in one term. -/
theorem one_vote_per_term (c : ClusterConfig ι) (as : List (Action ι F))
    (s : Cluster ι F × List (Ballot ι))
    (h : (((system c).logging (ballots c)).guard RemembersVotes).exec as = some s) :
    ∀ b ∈ s.2, ∀ b' ∈ s.2, b.voter = b'.voter → b.term = b'.term →
      b.candidateId = b'.candidateId := by
  refine (System.invariant _ (P := BallotInv) ⟨?_, ?_⟩ (fun s a s' hs hstep => ?_) h).unique
  · rintro b ⟨⟩
  · rintro b ⟨⟩
  · obtain ⟨hremembers, hstep⟩ := System.guard_step.mp hstep
    obtain ⟨hstep, hlog⟩ := System.logging_step.mp hstep
    exact hs.step hremembers hstep hlog

/-- Nodes 1 and 2 are candidates of term 1. Node 1 wins with the vote of node 3, and its
heartbeat makes node 2 a follower. -/
def beatenRun : List (Action (Fin 3) ℕ) :=
  [.startElection 0, .sendVoteRequest 0, .startElection 1, .voteRequestFailed 0,
    .sendVoteRequest 0, .handleRequestVote 1, .receiveVote 0, .replicate 0 1,
    .handleAppendEntries 0]

theorem one_vote_per_term_beaten :
    ∃ s : Cluster (Fin 3) ℕ × List (Ballot (Fin 3)),
      ((system .testNodes).logging (ballots .testNodes)).exec beatenRun = some s ∧
      s.2.length = 3 ∧ ∀ b ∈ s.2, ∀ b' ∈ s.2, b.voter = b'.voter → b.term = b'.term →
        b.candidateId = b'.candidateId := by
  obtain ⟨s, hs, hlen⟩ := System.exists_exec
    (((system .testNodes).logging (ballots .testNodes)).guard RemembersVotes) beatenRun
    (fun s => s.2.length = 3) (by decide +kernel)
  exact ⟨s, System.exec_of_guard hs, hlen, one_vote_per_term .testNodes beatenRun s hs⟩

/-- The vote request of node 1 reaches node 2 late: node 2 has voted for itself in term 1
and votes for node 1. -/
theorem two_votes_in_one_term :
    ∃ s : Cluster (Fin 3) ℕ × List (Ballot (Fin 3)),
      ((system .testNodes).logging (ballots .testNodes)).exec
        (beatenRun ++ [.handleRequestVote 0]) = some s ∧
      ∃ b ∈ s.2, ∃ b' ∈ s.2, b.voter = b'.voter ∧ b.term = b'.term ∧
        b.candidateId ≠ b'.candidateId :=
  System.exists_exec _ _ _ (by decide +kernel)

end Cluster

end DistributedLock.Raft
