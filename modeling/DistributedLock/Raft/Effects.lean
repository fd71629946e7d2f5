import DistributedLock.Raft.History

/-! What a step can do to one node, to the calls and to the history, whatever
the action was. The invariants about single nodes go by cases on these. -/

namespace DistributedLock.Raft

variable {ι F : Type*}

/-- The ways in which a step of `s` can change node `j`, whose state is `n`. -/
inductive NodeChange [DecidableEq ι] (c : ClusterConfig ι) (s : Cluster ι F) (j : ι)
    (n : RaftNode ι F) : RaftNode ι F → Prop
  | same : NodeChange c s j n n
  | startElection (h : n.state ≠ .leader) : NodeChange c s j n (n.startElection (c.node j)).1
  | requestVote (call : VoteCall ι) (hmem : call ∈ s.voteCalls) (hj : call.callee = j) :
    NodeChange c s j n (n.handleRequestVote call.request).1
  | stepDown (T : ℕ) (h : n.currentTerm < T) : NodeChange c s j n (n.becomeFollower T "" "")
  | elect (h : n.state = .candidate) : NodeChange c s j n (n.becomeLeader (c.node j))
  | replicate (f : ι → ℕ) : NodeChange c s j n { n with nextIndex := f }
  | appendEntries (call : AppendCall ι F) (hmem : call ∈ s.appendCalls) (hj : call.callee = j) :
    NodeChange c s j n (n.handleAppendEntries call.request).1
  | appendResponse (call : AppendCall ι F) (hmem : call ∈ s.appendCalls) (hj : call.caller = j)
    (r : AppendResponse) (hr : call.response = some r) :
    NodeChange c s j n (n.handleAppendResponse (c.node j) call.callee call.request.term r)
  | stamp (e : LogEntry F) (h : n.state = .leader) :
    NodeChange c s j n (n.appendStamped (c.node j) e)
  | take (h : n.lastApplied < n.commitIndex) :
    NodeChange c s j n { n with lastApplied := n.lastApplied + 1 }

namespace Cluster

variable [DecidableEq ι] {c : ClusterConfig ι} {s s' : Cluster ι F}

theorem nodeChange_setProc {i : ι} {p : Process ι F}
    (h : NodeChange c s i (s.node i) p.node) (j : ι) :
    NodeChange c s j (s.node j) ((s.setProc i p).node j) := by
  rcases eq_or_ne j i with rfl | hj
  · rwa [node_setProc_self]
  · rw [node_setProc_of_ne s p hj]
    exact .same

theorem step_node {a : Action ι F} (hstep : s.step c a = some s') (j : ι) :
    NodeChange c s j (s.node j) (s'.node j) := by
  cases a with
  | startElection i =>
    obtain ⟨hs, -, rfl⟩ := startElection_cases hstep
    refine nodeChange_setProc ?_ j
    exact .startElection hs
  | sendVoteRequest i =>
    obtain ⟨e, peer, rest, -, -, -, rfl⟩ := sendVoteRequest_cases hstep
    refine nodeChange_setProc ?_ j
    exact .same
  | handleRequestVote k =>
    obtain ⟨call, hk, -, rfl⟩ := handleRequestVote_cases hstep
    refine nodeChange_setProc ?_ j
    exact .requestVote call (List.mem_of_getElem? hk) rfl
  | receiveVote i =>
    obtain ⟨e, k, call, r, -, -, -, -, rfl⟩ := receiveVote_cases hstep
    refine nodeChange_setProc ?_ j
    rcases Process.countVote_cases (c.node i) (s.procs i) e r with
      ⟨hlt, hcv⟩ | hcv | ⟨hs, -, -, -, hcv⟩ | ⟨v, -, hcv⟩ <;> rw [hcv]
    · exact .stepDown r.term hlt
    · exact .same
    · exact .elect hs
    · exact .same
  | voteRequestFailed i =>
    obtain ⟨e, -, rfl⟩ := voteRequestFailed_cases hstep
    refine nodeChange_setProc ?_ j
    exact .same
  | finishElection i =>
    obtain rfl := finishElection_cases hstep
    refine nodeChange_setProc ?_ j
    exact .same
  | replicate i peer =>
    obtain ⟨-, -, ⟨m, t, -, rfl⟩ | rfl⟩ := replicate_cases hstep <;>
      refine nodeChange_setProc ?_ j
    · exact .replicate _
    · exact .same
  | handleAppendEntries k =>
    obtain ⟨call, hk, -, rfl⟩ := handleAppendEntries_cases hstep
    refine nodeChange_setProc ?_ j
    exact .appendEntries call (List.mem_of_getElem? hk) rfl
  | receiveAppend k =>
    obtain ⟨call, r, hk, hr, rfl⟩ := receiveAppend_cases hstep
    refine nodeChange_setProc ?_ j
    exact .appendResponse call (List.mem_of_getElem? hk) rfl r hr
  | propose i e =>
    obtain ⟨hs, rfl⟩ := propose_cases hstep
    refine nodeChange_setProc ?_ j
    exact .stamp e hs
  | checkProposal k timedOut =>
    obtain ⟨call, -, -, ⟨-, rfl⟩ | rfl | rfl⟩ := checkProposal_cases hstep <;> exact .same
  | appendLocalEntry i e =>
    obtain ⟨hs, rfl⟩ := appendLocalEntry_cases hstep
    refine nodeChange_setProc ?_ j
    exact .stamp e hs
  | applyTake i =>
    obtain ⟨-, -, hlt, ⟨e, -, rfl⟩ | ⟨-, rfl⟩⟩ := applyTake_cases hstep <;>
      refine nodeChange_setProc ?_ j
    · exact .take hlt
    · exact .take hlt
  | applyReturn i =>
    obtain ⟨m, e, -, rfl⟩ := applyReturn_cases hstep
    refine nodeChange_setProc ?_ j
    exact .same
  | applyNotify i =>
    obtain ⟨-, rfl⟩ := applyNotify_cases hstep
    refine nodeChange_setProc ?_ j
    exact .same

end Cluster

/-! ### Terms, logs and commit indices -/

namespace NodeChange

variable [DecidableEq ι] {c : ClusterConfig ι} {s : Cluster ι F} {j : ι} {n n' : RaftNode ι F}

/-- A log grows by an entry its leader stamps, or takes over what an accepted
request brings; terms never fall. -/
theorem log_cases (h : NodeChange c s j n n') :
    n.currentTerm ≤ n'.currentTerm ∧
      (n'.log = n.log ∨
        (∃ x, n.state = .leader ∧ n'.currentTerm = n.currentTerm ∧ x.term = n.currentTerm ∧
          n'.log = n.log ++ [x]) ∨
        ∃ call ∈ s.appendCalls, call.callee = j ∧ n.Accepts call.request ∧
          n' = (n.handleAppendEntries call.request).1) := by
  cases h with
  | same => exact ⟨le_rfl, Or.inl rfl⟩
  | startElection h => exact ⟨by simp [RaftNode.startElection], Or.inl rfl⟩
  | requestVote call hmem hj =>
    refine ⟨?_, Or.inl (n.handleRequestVote_frame _).1⟩
    rcases n.handleRequestVote_role call.request with ⟨hlt, ht, -⟩ | ⟨-, ht, -⟩ <;> omega
  | stepDown T h => exact ⟨by simp, Or.inl rfl⟩
  | elect h => exact ⟨le_rfl, Or.inl rfl⟩
  | replicate f => exact ⟨le_rfl, Or.inl rfl⟩
  | appendEntries call hmem hj =>
    refine ⟨?_, ?_⟩
    · rcases n.handleAppendEntries_role call.request with ⟨-, he⟩ | ⟨hle, ht, -⟩
      · rw [he]
      · omega
    · by_cases ha : n.Accepts call.request
      · exact Or.inr (Or.inr ⟨call, hmem, hj, ha, rfl⟩)
      · exact Or.inl (n.handleAppendEntries_rejects ha).1
  | appendResponse call hmem hj r hr =>
    refine ⟨?_, Or.inl (n.handleAppendResponse_log _ _ _ r).1⟩
    rcases n.handleAppendResponse_role (c.node j) call.callee call.request.term r with
      ⟨-, he⟩ | ⟨ht, -, -⟩
    · simp [he]
    · exact ht.ge
  | stamp e h =>
    obtain ⟨hl, ht, -⟩ := n.appendStamped_frame (c.node j) e
    exact ⟨ht.ge, Or.inr (Or.inl ⟨_, h, ht, rfl, hl⟩)⟩
  | take h => exact ⟨le_rfl, Or.inl rfl⟩

/-- A candidate has just started its election, or has kept its term and its log. -/
theorem candidate_cases (h : NodeChange c s j n n') (hs : n'.state = .candidate) :
    n' = (n.startElection (c.node j)).1 ∨
      (n.state = .candidate ∧ n'.currentTerm = n.currentTerm ∧ n'.log = n.log) := by
  cases h with
  | same => exact Or.inr ⟨hs, rfl, rfl⟩
  | startElection h => exact Or.inl rfl
  | requestVote call hmem hj =>
    rcases n.handleRequestVote_role call.request with ⟨-, -, hf⟩ | ⟨-, ht, hst, -⟩
    · exact absurd (hf.symm.trans hs) (by simp)
    · exact Or.inr ⟨hst ▸ hs, ht, (n.handleRequestVote_frame _).1⟩
  | stepDown T h => simp at hs
  | elect h => simp [RaftNode.becomeLeader] at hs
  | replicate f => exact Or.inr ⟨hs, rfl, rfl⟩
  | appendEntries call hmem hj =>
    rcases n.handleAppendEntries_role call.request with ⟨-, he⟩ | ⟨-, -, hf, -⟩
    · rw [he] at hs ⊢
      exact Or.inr ⟨hs, rfl, rfl⟩
    · exact absurd (hf.symm.trans hs) (by simp)
  | appendResponse call hmem hj r hr =>
    rcases n.handleAppendResponse_role (c.node j) call.callee call.request.term r with
      ⟨-, he⟩ | ⟨ht, -, hst⟩
    · simp [he] at hs
    · exact Or.inr ⟨hst ▸ hs, ht, (n.handleAppendResponse_log _ _ _ r).1⟩
  | stamp e h =>
    obtain ⟨-, -, -, hst, -⟩ := n.appendStamped_frame (c.node j) e
    exact absurd ((h.symm.trans hst.symm).trans hs) (by simp)
  | take h => exact Or.inr ⟨hs, rfl, rfl⟩

/-- A leader has just been elected, or counts one more answer at most. -/
theorem leader_cases (h : NodeChange c s j n n') (hs : n'.state = .leader) :
    (n.state = .candidate ∧ n' = n.becomeLeader (c.node j)) ∨
      (n.state = .leader ∧ n'.currentTerm = n.currentTerm ∧ n.log <+: n'.log ∧
        (n'.matchIndex = n.matchIndex ∨
          ∃ call ∈ s.appendCalls, call.caller = j ∧ call.request.term = n.currentTerm ∧
            ∃ r, call.response = some r ∧ r.success = true ∧
              n'.matchIndex = Function.update n.matchIndex call.callee
                (max (n.matchIndex call.callee) r.matchIndex))) := by
  cases h with
  | same => exact Or.inr ⟨hs, rfl, List.prefix_refl _, Or.inl rfl⟩
  | startElection h => simp [RaftNode.startElection] at hs
  | requestVote call hmem hj =>
    rcases n.handleRequestVote_role call.request with ⟨-, -, hf⟩ | ⟨-, ht, hst, -⟩
    · exact absurd (hf.symm.trans hs) (by simp)
    · obtain ⟨hl, -, -, hm⟩ := n.handleRequestVote_frame call.request
      exact Or.inr ⟨hst ▸ hs, ht, by rw [hl], Or.inl hm⟩
  | stepDown T h => simp at hs
  | elect h => exact Or.inl ⟨h, rfl⟩
  | replicate f => exact Or.inr ⟨hs, rfl, List.prefix_refl _, Or.inl rfl⟩
  | appendEntries call hmem hj =>
    rcases n.handleAppendEntries_role call.request with ⟨-, he⟩ | ⟨-, -, hf, -⟩
    · rw [he] at hs ⊢
      exact Or.inr ⟨hs, rfl, List.prefix_refl _, Or.inl rfl⟩
    · exact absurd (hf.symm.trans hs) (by simp)
  | appendResponse call hmem hj r hr =>
    right
    rcases n.handleAppendResponse_cases (c.node j) call.callee call.request.term r with
      ⟨-, he⟩ | ⟨f, he⟩ | ⟨hst, ht, hsucc, he⟩
    · simp [he] at hs
    · rw [he] at hs ⊢
      exact ⟨hs, rfl, List.prefix_refl _, Or.inl rfl⟩
    · rw [he]
      rcases (n.withMatch call.callee r.matchIndex).advanceCommitIndex_cases (c.node j) with
        h' | ⟨m, -, -, -, -, h'⟩ <;> rw [h'] <;>
        exact ⟨hst, rfl, List.prefix_refl _, Or.inr ⟨call, hmem, hj, ht.symm, r, hr, hsucc, rfl⟩⟩
  | stamp e h =>
    obtain ⟨hl, ht, -, -, hm, -⟩ := n.appendStamped_frame (c.node j) e
    exact Or.inr ⟨h, ht, hl ▸ List.prefix_append _ _, Or.inl hm⟩
  | take h => exact Or.inr ⟨hs, rfl, List.prefix_refl _, Or.inl rfl⟩

/-- The commit index moves with an accepted request, with a counted majority, or
with the append of a node that is alone. -/
theorem commit_cases (h : NodeChange c s j n n') :
    (n'.commitIndex = n.commitIndex) ∨
      (∃ call ∈ s.appendCalls, call.callee = j ∧ n.Accepts call.request ∧
        n' = (n.handleAppendEntries call.request).1) ∨
      (n'.state = .leader ∧ n'.log = n.log ∧ n.commitIndex < n'.commitIndex ∧
        RaftNode.termAt n'.log n'.commitIndex = some n'.currentTerm ∧
        (c.node j).quorumSize ≤ n'.replicated (c.node j) n'.commitIndex) ∨
      (c.peers j = [] ∧ n.state = .leader ∧ ∃ e, n' = n.appendStamped (c.node j) e) := by
  cases h with
  | same => exact Or.inl rfl
  | startElection h => exact Or.inl rfl
  | requestVote call hmem hj => exact Or.inl (n.handleRequestVote_frame _).2.1
  | stepDown T h => exact Or.inl rfl
  | elect h => exact Or.inl rfl
  | replicate f => exact Or.inl rfl
  | appendEntries call hmem hj =>
    by_cases ha : n.Accepts call.request
    · exact Or.inr (Or.inl ⟨call, hmem, hj, ha, rfl⟩)
    · exact Or.inl (n.handleAppendEntries_rejects ha).2.2
  | appendResponse call hmem hj r hr =>
    rcases n.handleAppendResponse_cases (c.node j) call.callee call.request.term r with
      ⟨-, he⟩ | ⟨f, he⟩ | ⟨-, -, -, he⟩
    · rw [he]; exact Or.inl rfl
    · rw [he]; exact Or.inl rfl
    · rw [he]
      rcases (n.withMatch call.callee r.matchIndex).advanceCommitIndex_cases (c.node j) with
        h' | ⟨m, hst, hlt, ht, hq, h'⟩ <;> rw [h']
      · exact Or.inl rfl
      · exact Or.inr (Or.inr (Or.inl ⟨hst, rfl, hlt, ht, hq⟩))
  | stamp e h =>
    obtain ⟨-, -, -, -, -, -, hc⟩ := n.appendStamped_frame (c.node j) e
    by_cases hp : c.peers j = []
    · exact Or.inr (Or.inr (Or.inr ⟨hp, h, e, rfl⟩))
    · exact Or.inl (hc.trans (if_neg hp))
  | take h => exact Or.inl rfl

end NodeChange

namespace Cluster

variable [DecidableEq ι] {c : ClusterConfig ι} {s s' : Cluster ι F} {a : Action ι F}

/-! ### Calls and threads -/

theorem election_setProc {i j : ι} {p : Process ι F} {e : Election ι}
    (h : ((s.setProc i p).procs j).election = some e) :
    (j = i ∧ p.election = some e) ∨ (s.procs j).election = some e := by
  rcases eq_or_ne j i with rfl | hj
  · exact Or.inl ⟨rfl, by simpa using h⟩
  · exact Or.inr (by simpa [hj] using h)

/-- The request of an election is fixed when the election starts. -/
theorem election_cases (hstep : s.step c a = some s') {j : ι} {e' : Election ι}
    (he : (s'.procs j).election = some e') :
    (∃ e, (s.procs j).election = some e ∧ e'.request = e.request) ∨
      (e'.request = ((s.node j).startElection (c.node j)).2 ∧
        s'.node j = ((s.node j).startElection (c.node j)).1) := by
  have hkeep : (s.procs j).election = some e' →
      ∃ e, (s.procs j).election = some e ∧ e'.request = e.request := fun h => ⟨e', h, rfl⟩
  cases a with
  | startElection i =>
    obtain ⟨-, -, rfl⟩ := startElection_cases hstep
    rcases election_setProc he with ⟨rfl, h⟩ | h
    · obtain rfl := Option.some.inj h
      exact Or.inr ⟨rfl, by simp⟩
    · exact Or.inl (hkeep h)
  | sendVoteRequest i =>
    obtain ⟨e, peer, rest, hel, -, -, rfl⟩ := sendVoteRequest_cases hstep
    rcases election_setProc he with ⟨rfl, h⟩ | h
    · obtain rfl := Option.some.inj h
      exact Or.inl ⟨e, hel, rfl⟩
    · exact Or.inl (hkeep h)
  | handleRequestVote k =>
    obtain ⟨call, -, -, rfl⟩ := handleRequestVote_cases hstep
    rcases election_setProc he with ⟨rfl, h⟩ | h <;> exact Or.inl (hkeep h)
  | receiveVote i =>
    obtain ⟨e, k, call, r, hel, -, -, -, rfl⟩ := receiveVote_cases hstep
    rcases election_setProc he with ⟨rfl, h⟩ | h
    · rcases Process.countVote_cases (c.node j) (s.procs j) e r with
        ⟨-, hcv⟩ | hcv | ⟨-, -, -, -, hcv⟩ | ⟨v, -, hcv⟩ <;> rw [hcv] at h
      · cases h
      · cases h
      · obtain rfl := Option.some.inj h
        exact Or.inl ⟨e, hel, rfl⟩
      · obtain rfl := Option.some.inj h
        exact Or.inl ⟨e, hel, rfl⟩
    · exact Or.inl (hkeep h)
  | voteRequestFailed i =>
    obtain ⟨e, hel, rfl⟩ := voteRequestFailed_cases hstep
    rcases election_setProc he with ⟨rfl, h⟩ | h
    · obtain rfl := Option.some.inj h
      exact Or.inl ⟨e, hel, rfl⟩
    · exact Or.inl (hkeep h)
  | finishElection i =>
    obtain rfl := finishElection_cases hstep
    rcases election_setProc he with ⟨rfl, h⟩ | h
    · cases h
    · exact Or.inl (hkeep h)
  | replicate i peer =>
    obtain ⟨-, -, ⟨m, t, -, rfl⟩ | rfl⟩ := replicate_cases hstep <;>
      rcases election_setProc he with ⟨rfl, h⟩ | h <;> exact Or.inl (hkeep h)
  | handleAppendEntries k =>
    obtain ⟨call, -, -, rfl⟩ := handleAppendEntries_cases hstep
    rcases election_setProc he with ⟨rfl, h⟩ | h <;> exact Or.inl (hkeep h)
  | receiveAppend k =>
    obtain ⟨call, r, -, -, rfl⟩ := receiveAppend_cases hstep
    rcases election_setProc he with ⟨rfl, h⟩ | h <;> exact Or.inl (hkeep h)
  | propose i e =>
    obtain ⟨-, rfl⟩ := propose_cases hstep
    rcases election_setProc he with ⟨rfl, h⟩ | h <;> exact Or.inl (hkeep h)
  | checkProposal k timedOut =>
    obtain ⟨call, -, -, ⟨-, rfl⟩ | rfl | rfl⟩ := checkProposal_cases hstep <;>
      exact Or.inl (hkeep he)
  | appendLocalEntry i e =>
    obtain ⟨-, rfl⟩ := appendLocalEntry_cases hstep
    rcases election_setProc he with ⟨rfl, h⟩ | h <;> exact Or.inl (hkeep h)
  | applyTake i =>
    obtain ⟨-, -, -, ⟨e, -, rfl⟩ | ⟨-, rfl⟩⟩ := applyTake_cases hstep <;>
      rcases election_setProc he with ⟨rfl, h⟩ | h <;> exact Or.inl (hkeep h)
  | applyReturn i =>
    obtain ⟨m, e, -, rfl⟩ := applyReturn_cases hstep
    rcases election_setProc he with ⟨rfl, h⟩ | h <;> exact Or.inl (hkeep h)
  | applyNotify i =>
    obtain ⟨-, rfl⟩ := applyNotify_cases hstep
    rcases election_setProc he with ⟨rfl, h⟩ | h <;> exact Or.inl (hkeep h)

/-- Only these seven actions touch a list of calls. -/
theorem calls_eq (hstep : s.step c a = some s') :
    (s'.voteCalls = s.voteCalls ∨ (∃ i, a = .sendVoteRequest i) ∨
        ∃ k, a = .handleRequestVote k) ∧
      (s'.appendCalls = s.appendCalls ∨ (∃ i peer, a = .replicate i peer) ∨
        (∃ k, a = .handleAppendEntries k) ∨ ∃ k, a = .receiveAppend k) ∧
      (s'.proposals = s.proposals ∨ (∃ i e, a = .propose i e) ∨
        ∃ k timedOut, a = .checkProposal k timedOut) := by
  cases a with
  | startElection i =>
    obtain ⟨-, -, rfl⟩ := startElection_cases hstep
    exact ⟨Or.inl rfl, Or.inl rfl, Or.inl rfl⟩
  | sendVoteRequest i =>
    obtain ⟨e, peer, rest, -, -, -, rfl⟩ := sendVoteRequest_cases hstep
    exact ⟨Or.inr (Or.inl ⟨i, rfl⟩), Or.inl rfl, Or.inl rfl⟩
  | handleRequestVote k =>
    obtain ⟨call, -, -, rfl⟩ := handleRequestVote_cases hstep
    exact ⟨Or.inr (Or.inr ⟨k, rfl⟩), Or.inl rfl, Or.inl rfl⟩
  | receiveVote i =>
    obtain ⟨e, k, call, r, -, -, -, -, rfl⟩ := receiveVote_cases hstep
    exact ⟨Or.inl rfl, Or.inl rfl, Or.inl rfl⟩
  | voteRequestFailed i =>
    obtain ⟨e, -, rfl⟩ := voteRequestFailed_cases hstep
    exact ⟨Or.inl rfl, Or.inl rfl, Or.inl rfl⟩
  | finishElection i =>
    obtain rfl := finishElection_cases hstep
    exact ⟨Or.inl rfl, Or.inl rfl, Or.inl rfl⟩
  | replicate i peer =>
    obtain ⟨-, -, ⟨m, t, -, rfl⟩ | rfl⟩ := replicate_cases hstep <;>
      exact ⟨Or.inl rfl, Or.inr (Or.inl ⟨i, peer, rfl⟩), Or.inl rfl⟩
  | handleAppendEntries k =>
    obtain ⟨call, -, -, rfl⟩ := handleAppendEntries_cases hstep
    exact ⟨Or.inl rfl, Or.inr (Or.inr (Or.inl ⟨k, rfl⟩)), Or.inl rfl⟩
  | receiveAppend k =>
    obtain ⟨call, r, -, -, rfl⟩ := receiveAppend_cases hstep
    exact ⟨Or.inl rfl, Or.inr (Or.inr (Or.inr ⟨k, rfl⟩)), Or.inl rfl⟩
  | propose i e =>
    obtain ⟨-, rfl⟩ := propose_cases hstep
    exact ⟨Or.inl rfl, Or.inl rfl, Or.inr (Or.inl ⟨i, e, rfl⟩)⟩
  | checkProposal k timedOut =>
    obtain ⟨call, -, -, ⟨-, rfl⟩ | rfl | rfl⟩ := checkProposal_cases hstep <;>
      exact ⟨Or.inl rfl, Or.inl rfl, Or.inr (Or.inr ⟨k, timedOut, rfl⟩)⟩
  | appendLocalEntry i e =>
    obtain ⟨-, rfl⟩ := appendLocalEntry_cases hstep
    exact ⟨Or.inl rfl, Or.inl rfl, Or.inl rfl⟩
  | applyTake i =>
    obtain ⟨-, -, -, ⟨e, -, rfl⟩ | ⟨-, rfl⟩⟩ := applyTake_cases hstep <;>
      exact ⟨Or.inl rfl, Or.inl rfl, Or.inl rfl⟩
  | applyReturn i =>
    obtain ⟨m, e, -, rfl⟩ := applyReturn_cases hstep
    exact ⟨Or.inl rfl, Or.inl rfl, Or.inl rfl⟩
  | applyNotify i =>
    obtain ⟨-, rfl⟩ := applyNotify_cases hstep
    exact ⟨Or.inl rfl, Or.inl rfl, Or.inl rfl⟩

/-- A vote call is an old one, possibly answered just now, or has just been sent. -/
theorem voteCalls_cases (hstep : s.step c a = some s') {call' : VoteCall ι}
    (hmem : call' ∈ s'.voteCalls) :
    (∃ call ∈ s.voteCalls, call'.caller = call.caller ∧ call'.callee = call.callee ∧
        call'.request = call.request ∧ (call'.response = call.response ∨
          (s'.node call.callee = ((s.node call.callee).handleRequestVote call.request).1 ∧
            call'.response = some ((s.node call.callee).handleRequestVote call.request).2))) ∨
      (∃ e, (s.procs call'.caller).election = some e ∧ call'.request = e.request ∧
        call'.response = none) := by
  rcases (calls_eq hstep).1 with heq | ⟨i, rfl⟩ | ⟨k, rfl⟩
  · exact Or.inl ⟨call', heq ▸ hmem, rfl, rfl, rfl, Or.inl rfl⟩
  · obtain ⟨e, peer, rest, he, -, -, rfl⟩ := sendVoteRequest_cases hstep
    rcases List.mem_append.mp hmem with hmem | hmem
    · exact Or.inl ⟨call', hmem, rfl, rfl, rfl, Or.inl rfl⟩
    · obtain rfl := List.mem_singleton.mp hmem
      exact Or.inr ⟨e, he, rfl, rfl⟩
  · obtain ⟨call, hk, -, rfl⟩ := handleRequestVote_cases hstep
    rcases List.mem_or_eq_of_mem_set hmem with hmem | rfl
    · exact Or.inl ⟨call', hmem, rfl, rfl, rfl, Or.inl rfl⟩
    · exact Or.inl ⟨call, List.mem_of_getElem? hk, rfl, rfl, rfl, Or.inr ⟨by simp [node], rfl⟩⟩

theorem appendCalls_cases (hstep : s.step c a = some s') {call' : AppendCall ι F}
    (hmem : call' ∈ s'.appendCalls) :
    (∃ call ∈ s.appendCalls, call'.caller = call.caller ∧ call'.callee = call.callee ∧
        call'.request = call.request ∧ (call'.response = call.response ∨
          ((∃ k, a = .handleAppendEntries k ∧ s.appendCalls[k]? = some call) ∧
            s'.node call.callee = ((s.node call.callee).handleAppendEntries call.request).1 ∧
            call'.response = some ((s.node call.callee).handleAppendEntries call.request).2))) ∨
      ((s.node call'.caller).state = .leader ∧ call'.response = none ∧
        call'.request.term = (s.node call'.caller).currentTerm ∧
        call'.request.leaderCommit = (s.node call'.caller).commitIndex ∧
        call'.request.prevLogIndex < (s.node call'.caller).log.length ∧
        call'.request.entries =
          (s.node call'.caller).log.drop (call'.request.prevLogIndex + 1)) := by
  rcases (calls_eq hstep).2.1 with heq | ⟨i, peer, rfl⟩ | ⟨k, rfl⟩ | ⟨k, rfl⟩
  · exact Or.inl ⟨call', heq ▸ hmem, rfl, rfl, rfl, Or.inl rfl⟩
  · obtain ⟨hs, -, ⟨m, t, ht, rfl⟩ | rfl⟩ := replicate_cases hstep
    · rcases List.mem_append.mp hmem with hmem | hmem
      · exact Or.inl ⟨call', hmem, rfl, rfl, rfl, Or.inl rfl⟩
      · obtain rfl := List.mem_singleton.mp hmem
        obtain ⟨e, hm, -⟩ := Option.map_eq_some_iff.mp ht
        exact Or.inr ⟨hs, rfl, rfl, rfl, (List.getElem?_eq_some_iff.mp hm).1, rfl⟩
    · exact Or.inl ⟨call', hmem, rfl, rfl, rfl, Or.inl rfl⟩
  · obtain ⟨call, hk, -, rfl⟩ := handleAppendEntries_cases hstep
    rcases List.mem_or_eq_of_mem_set hmem with hmem | rfl
    · exact Or.inl ⟨call', hmem, rfl, rfl, rfl, Or.inl rfl⟩
    · exact Or.inl ⟨call, List.mem_of_getElem? hk, rfl, rfl, rfl,
        Or.inr ⟨⟨k, rfl, hk⟩, by simp [node], rfl⟩⟩
  · obtain ⟨call, r, hk, -, rfl⟩ := receiveAppend_cases hstep
    rcases List.mem_or_eq_of_mem_set hmem with hmem | rfl
    · exact Or.inl ⟨call', hmem, rfl, rfl, rfl, Or.inl rfl⟩
    · exact Or.inl ⟨call, List.mem_of_getElem? hk, rfl, rfl, rfl, Or.inl rfl⟩

/-- A proposal is an old one, possibly answered just now, or has just been appended. -/
theorem proposals_cases (hstep : s.step c a = some s') {k : ℕ} {call' : Proposal ι F}
    (hk : s'.proposals[k]? = some call') :
    (∃ call, s.proposals[k]? = some call ∧ call'.proposer = call.proposer ∧
        call'.entry = call.entry ∧ call'.index = call.index ∧
        (call'.result = some true → call.result = some true ∨
          ((∃ timedOut, a = .checkProposal k timedOut) ∧
            call.index ≤ (s.node call.proposer).commitIndex))) ∨
      (k = s.proposals.length ∧ (s.node call'.proposer).state = .leader ∧
        call'.entry.term = (s.node call'.proposer).currentTerm ∧
        call'.index = (s.node call'.proposer).log.length ∧ call'.result = none ∧
        (s'.node call'.proposer).state = .leader ∧
        (s'.node call'.proposer).currentTerm = (s.node call'.proposer).currentTerm ∧
        (s'.node call'.proposer).log = (s.node call'.proposer).log ++ [call'.entry]) := by
  rcases (calls_eq hstep).2.2 with heq | ⟨i, e, rfl⟩ | ⟨k', timedOut, rfl⟩
  · exact Or.inl ⟨call', heq ▸ hk, rfl, rfl, rfl, Or.inl⟩
  · obtain ⟨hs, rfl⟩ := propose_cases hstep
    rcases lt_trichotomy k s.proposals.length with hlt | rfl | hlt
    · simp only [List.getElem?_append_left hlt] at hk
      exact Or.inl ⟨call', hk, rfl, rfl, rfl, Or.inl⟩
    · obtain rfl : _ = call' := by simpa using hk
      obtain ⟨hl, ht, -, hs', -⟩ := (s.node i).appendStamped_frame (c.node i) e
      exact Or.inr ⟨rfl, hs, rfl, rfl, rfl, by simpa [node] using hs'.trans hs,
        by simpa [node] using ht, by simpa [node] using hl⟩
    · rw [List.getElem?_eq_none (by simp; omega)] at hk
      cases hk
  · left
    obtain ⟨call, hcall, -, ⟨hle, rfl⟩ | rfl | rfl⟩ := checkProposal_cases hstep
    · rcases eq_or_ne k' k with rfl | hne
      · have hlt := (List.getElem?_eq_some_iff.mp hcall).1
        obtain rfl : _ = call' := by simpa [hlt] using hk
        exact ⟨call, hcall, rfl, rfl, rfl, fun _ => Or.inr ⟨⟨timedOut, rfl⟩, hle⟩⟩
      · exact ⟨call', by simpa [hne] using hk, rfl, rfl, rfl, Or.inl⟩
    · rcases eq_or_ne k' k with rfl | hne
      · have hlt := (List.getElem?_eq_some_iff.mp hcall).1
        obtain rfl : _ = call' := by simpa [hlt] using hk
        exact ⟨call, hcall, rfl, rfl, rfl, fun h => by cases h⟩
      · exact ⟨call', by simpa [hne] using hk, rfl, rfl, rfl, Or.inl⟩
    · exact ⟨call', hk, rfl, rfl, rfl, Or.inl⟩

/-- `AdvanceCommitIndexLocked` moves the commit index of a leader that counts a quorum. -/
theorem receiveAppend_commit {k : ℕ} (hstep : s.step c (.receiveAppend k) = some s') {i : ι}
    (hlt : (s.node i).commitIndex < (s'.node i).commitIndex) :
    (s'.node i).state = .leader ∧
      (c.node i).quorumSize ≤ (s'.node i).replicated (c.node i) (s'.node i).commitIndex := by
  obtain ⟨call, r, -, -, rfl⟩ := receiveAppend_cases hstep
  rcases eq_or_ne i call.caller with rfl | hi
  · simp only [node, setProc_procs, Function.update_self] at hlt ⊢
    rcases (s.node call.caller).handleAppendResponse_cases (c.node call.caller) call.callee
      call.request.term r with ⟨-, he⟩ | ⟨f, he⟩ | ⟨-, -, -, he⟩ <;> rw [he] at hlt ⊢
    · simp at hlt
    · simp at hlt
    · rcases ((s.node call.caller).withMatch call.callee r.matchIndex).advanceCommitIndex_cases
        (c.node call.caller) with h' | ⟨m, hs, -, -, hq, h'⟩ <;> rw [h'] at hlt ⊢
      · simp [RaftNode.withMatch] at hlt
      · exact ⟨hs, hq⟩
  · simp [node, hi] at hlt

/-! ### The history -/

omit [DecidableEq ι] in
theorem held_iff {g : History ι F} {j : ι} {T : ℕ} {l : List (LogEntry F)} :
    (History.record s a s' g).held j T l ↔
      g.held j T l ∨ ((s'.node j).currentTerm = T ∧ (s'.node j).log = l) := by
  cases a with
  | receiveVote i =>
    simp only [History.record, History.hold]
    split_ifs <;> rfl
  | _ => rfl

/-- The leaders on record change only when a candidate counts its last vote. -/
theorem leaderOf_cases (g : History ι F) (hstep : s.step c a = some s') :
    ((History.record s a s' g).leaderOf = g.leaderOf ∧
        (History.record s a s' g).electLog = g.electLog) ∨
      ∃ i, a = .receiveVote i ∧ (s.node i).state = .candidate ∧ (s'.node i).state = .leader ∧
        (s'.node i).currentTerm = (s.node i).currentTerm ∧ (s'.node i).log = (s.node i).log ∧
        (History.record s a s' g).leaderOf =
          Function.update g.leaderOf (s.node i).currentTerm (some i) ∧
        (History.record s a s' g).electLog =
          Function.update g.electLog (s.node i).currentTerm (s.node i).log := by
  cases a with
  | receiveVote i =>
    simp only [History.record, History.hold]
    split_ifs with hwon
    · right
      rcases (step_node hstep i).leader_cases hwon.2 with ⟨hs, hi⟩ | ⟨hs, -⟩
      · refine ⟨i, rfl, hs, hwon.2, ?_, ?_, ?_, ?_⟩ <;> rw [hi] <;> rfl
      · exact absurd hs hwon.1
    · exact Or.inl ⟨rfl, rfl⟩
  | _ => exact Or.inl ⟨rfl, rfl⟩

end Cluster

end DistributedLock.Raft
