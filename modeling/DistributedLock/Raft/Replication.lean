import DistributedLock.Raft.Repair
import DistributedLock.Raft.StateMachineSafety

/-! Where a leader reads its own log. `ReplicateToFollower` reads at the next index
of a peer without a check; that it is in range depends on what followers report. A
follower that answers over a stale tail reports the end of that tail, which may lie
past the end of the leader's log. In the runs without such an answer the read is
always in range. -/

namespace DistributedLock.Raft

open Library

variable {ι F : Type*}

/-! ### Next indices, one step at a time -/

namespace RaftNode

variable (n : RaftNode ι F)

theorem handleRequestVote_nextIndex (r : VoteRequest) :
    (n.handleRequestVote r).1.nextIndex = n.nextIndex := by
  unfold handleRequestVote observeTerm castVote
  split_ifs <;> rfl

theorem appendStamped_nextIndex (cfg : NodeConfig ι) (e : LogEntry F) :
    (n.appendStamped cfg e).nextIndex = n.nextIndex := by
  unfold appendStamped
  dsimp only
  split_ifs <;> rfl

theorem advanceCommitIndex_nextIndex (cfg : NodeConfig ι) :
    (n.advanceCommitIndex cfg).nextIndex = n.nextIndex := by
  rcases n.advanceCommitIndex_cases cfg with h | ⟨m, -, -, -, -, h⟩ <;> rw [h]

/-- Next indices stay within `B` while what an answer reports does. -/
theorem handleAppendResponse_nextIndex_le [DecidableEq ι] {B : ℕ} (hnext : ∀ p, n.nextIndex p ≤ B)
    (hmatch : ∀ p, n.matchIndex p < B) (cfg : NodeConfig ι) (peer : ι) (T : ℕ)
    (r : AppendResponse)
    (hr : n.state = .leader → n.currentTerm = T → r.matchIndex < B ∧ r.conflictIndex ≤ B) (p : ι) :
    (n.handleAppendResponse cfg peer T r).nextIndex p ≤ B := by
  have hset : ∀ k ≤ B, Function.update n.nextIndex peer k p ≤ B := by
    intro k hk
    rcases eq_or_ne p peer with rfl | hp
    · rwa [Function.update_self]
    · rw [Function.update_of_ne hp]
      exact hnext p
  have hpeer := hnext peer
  have hmatched := hmatch peer
  unfold handleAppendResponse
  split_ifs with h1 h2 h3 h4
  · exact hnext p
  · exact hnext p
  all_goals
    simp only [not_or, not_not] at h2
    obtain ⟨hr, hr'⟩ := hr h2.1 h2.2
  · rw [advanceCommitIndex_nextIndex]
    exact hset _ (by omega)
  · exact hset _ (by omega)
  · exact hset _ (by omega)

/-- A success that reports more than the leader knows of is taken at its word. -/
theorem handleAppendResponse_matched [DecidableEq ι] (cfg : NodeConfig ι) (peer : ι)
    {r : AppendResponse} (hs : n.state = .leader) (hterm : r.term = n.currentTerm)
    (hyes : r.success = true) :
    (n.handleAppendResponse cfg peer n.currentTerm r).state = .leader ∧
      (n.handleAppendResponse cfg peer n.currentTerm r).log = n.log ∧
      r.matchIndex ≤ (n.handleAppendResponse cfg peer n.currentTerm r).matchIndex peer := by
  unfold handleAppendResponse
  rw [if_neg (by omega), if_neg (by simp [hs]), if_pos hyes]
  dsimp only
  rcases advanceCommitIndex_cases { n with
      matchIndex := Function.update n.matchIndex peer (max (n.matchIndex peer) r.matchIndex)
      nextIndex := Function.update n.nextIndex peer
        (max (n.matchIndex peer) r.matchIndex + 1) } cfg with h | ⟨m, -, -, -, -, h⟩ <;> rw [h] <;>
    simp [hs]

/-- A log that holds every entry sent, term by term, is left alone. -/
theorem appendLoop_of_terms {log es : List (LogEntry F)} {start : ℕ}
    (h : es.map LogEntry.term <+: (log.drop start).map LogEntry.term) :
    appendLoop log start es = log := by
  induction es generalizing start with
  | nil => rfl
  | cons e es ih =>
    cases hold : log[start]? with
    | none =>
      rw [List.drop_eq_nil_of_le (List.getElem?_eq_none_iff.mp hold)] at h
      simp at h
    | some old =>
      obtain ⟨hlt, rfl⟩ := List.getElem?_eq_some_iff.mp hold
      rw [List.drop_eq_getElem_cons hlt, List.map_cons, List.map_cons, List.cons_prefix_cons] at h
      unfold appendLoop
      simp only [hold, h.1, ne_eq, not_true_eq_false, ↓reduceIte]
      exact ih h.2

/-- What a rejection reports lies within what was checked. -/
theorem handleAppendEntries_rejects_le {r : AppendRequest F}
    (h : ¬ n.Accepts r) (hlog : 0 < n.log.length) :
    (n.handleAppendEntries r).2.matchIndex = 0 ∧
      (n.handleAppendEntries r).2.conflictIndex ≤ r.prevLogIndex := by
  by_cases hterm : n.currentTerm ≤ r.term
  · have hm : prevLogMatches n.log r ≠ true := fun hm => h ⟨hterm, hm⟩
    obtain ⟨-, -, hmatch, -, hle⟩ := handleAppendEntries_conflict hterm hm hlog
    exact ⟨hmatch, hle⟩
  · unfold handleAppendEntries
    rw [if_pos (not_le.mp hterm)]
    exact ⟨rfl, Nat.zero_le _⟩

end RaftNode

section Steps

variable [DecidableEq ι] {c : ClusterConfig ι} {s s' : Cluster ι F} {a : Action ι F}

/-- Where the next indices of node `j` come from, if it leads after the step. -/
inductive NextIndexChange (c : ClusterConfig ι) (s : Cluster ι F) (j : ι) (n n' : RaftNode ι F) :
    Prop
  | same (h : n'.nextIndex = n.nextIndex)
  | elect (h : n' = n.becomeLeader (c.node j))
  | follow (h : n'.state ≠ .leader)
  | replicate (peer : ι) (m : ℕ) (hm : m < n.log.length)
    (h : n'.nextIndex = Function.update n.nextIndex peer (m + 1))
  | response (call : AppendCall ι F) (hmem : call ∈ s.appendCalls) (hj : call.caller = j)
    (r : AppendResponse) (hr : call.response = some r)
    (h : n' = n.handleAppendResponse (c.node j) call.callee call.request.term r)

namespace Cluster

theorem nextIndexChange_setProc {i : ι} {p : Process ι F}
    (h : NextIndexChange c s i (s.node i) p.node) (j : ι) :
    NextIndexChange c s j (s.node j) ((s.setProc i p).node j) := by
  rcases eq_or_ne j i with rfl | hj
  · rwa [node_setProc_self]
  · rw [node_setProc_of_ne s p hj]
    exact .same rfl

theorem step_nextIndex (hstep : s.step c a = some s') (j : ι) :
    NextIndexChange c s j (s.node j) (s'.node j) := by
  cases a with
  | startElection i =>
    obtain ⟨-, -, rfl⟩ := startElection_cases hstep
    refine nextIndexChange_setProc ?_ j
    exact .same rfl
  | sendVoteRequest i =>
    obtain ⟨e, peer, rest, -, -, -, rfl⟩ := sendVoteRequest_cases hstep
    refine nextIndexChange_setProc ?_ j
    exact .same rfl
  | handleRequestVote k =>
    obtain ⟨call, -, -, rfl⟩ := handleRequestVote_cases hstep
    refine nextIndexChange_setProc ?_ j
    exact .same (RaftNode.handleRequestVote_nextIndex _ call.request)
  | receiveVote i =>
    obtain ⟨e, k, call, r, -, -, -, -, rfl⟩ := receiveVote_cases hstep
    refine nextIndexChange_setProc ?_ j
    rcases Process.countVote_cases (c.node i) (s.procs i) e r with
      ⟨-, hcv⟩ | hcv | ⟨-, -, -, -, hcv⟩ | ⟨v, -, hcv⟩ <;> rw [hcv]
    · exact .same rfl
    · exact .same rfl
    · exact .elect rfl
    · exact .same rfl
  | voteRequestFailed i =>
    obtain ⟨e, -, rfl⟩ := voteRequestFailed_cases hstep
    refine nextIndexChange_setProc ?_ j
    exact .same rfl
  | finishElection i =>
    obtain rfl := finishElection_cases hstep
    refine nextIndexChange_setProc ?_ j
    exact .same rfl
  | replicate i peer =>
    obtain ⟨-, -, ⟨m, t, ht, rfl⟩ | rfl⟩ := replicate_cases hstep
    · obtain ⟨e, he, -⟩ := Option.map_eq_some_iff.mp ht
      refine nextIndexChange_setProc ?_ j
      exact .replicate peer m (List.getElem?_eq_some_iff.mp he).1 rfl
    · refine nextIndexChange_setProc ?_ j
      exact .same rfl
  | handleAppendEntries k =>
    obtain ⟨call, -, -, rfl⟩ := handleAppendEntries_cases hstep
    refine nextIndexChange_setProc ?_ j
    rcases (s.node call.callee).handleAppendEntries_role call.request with
      ⟨-, he⟩ | ⟨-, -, hf, -⟩
    · exact .same (by rw [he])
    · exact .follow (by rw [hf]; exact RaftState.noConfusion)
  | receiveAppend k =>
    obtain ⟨call, r, hk, hr, rfl⟩ := receiveAppend_cases hstep
    refine nextIndexChange_setProc ?_ j
    exact .response call (List.mem_of_getElem? hk) rfl r hr rfl
  | propose i e =>
    obtain ⟨-, rfl⟩ := propose_cases hstep
    refine nextIndexChange_setProc ?_ j
    exact .same (RaftNode.appendStamped_nextIndex _ _ e)
  | checkProposal k timedOut =>
    obtain ⟨call, -, -, ⟨-, rfl⟩ | rfl | rfl⟩ := checkProposal_cases hstep
    · exact .same rfl
    · exact .same rfl
    · exact .same rfl
  | appendLocalEntry i e =>
    obtain ⟨-, rfl⟩ := appendLocalEntry_cases hstep
    refine nextIndexChange_setProc ?_ j
    exact .same (RaftNode.appendStamped_nextIndex _ _ e)
  | applyTake i =>
    obtain ⟨-, -, -, ⟨e, -, rfl⟩ | ⟨-, rfl⟩⟩ := applyTake_cases hstep
    · refine nextIndexChange_setProc ?_ j
      exact .same rfl
    · refine nextIndexChange_setProc ?_ j
      exact .same rfl
  | applyReturn i =>
    obtain ⟨m, e, -, rfl⟩ := applyReturn_cases hstep
    refine nextIndexChange_setProc ?_ j
    exact .same rfl
  | applyNotify i =>
    obtain ⟨-, rfl⟩ := applyNotify_cases hstep
    refine nextIndexChange_setProc ?_ j
    exact .same rfl

end Cluster

end Steps

/-! ### Answers past the end of the leader's log -/

section Index

variable [DecidableEq ι] {c : ClusterConfig ι} {s s' : Cluster ι F} {a : Action ι F}
  {g : History ι F}

/-- The callee answers over a stale tail that ends past the log of the caller, which
still leads the term of its request. -/
def PastLeader (s : Cluster ι F) (call : AppendCall ι F) : Prop :=
  (s.node call.callee).StaleTail call.request ∧ (s.node call.caller).state = .leader ∧
    (s.node call.caller).currentTerm = call.request.term ∧
    (s.node call.caller).log.length < (s.node call.callee).log.length

instance (s : Cluster ι F) (call : AppendCall ι F) : Decidable (PastLeader s call) :=
  inferInstanceAs (Decidable (_ ∧ _ ∧ _ ∧ _))

/-- The step gives no such answer. -/
def ShortTail (s : Cluster ι F) (a : Action ι F) : Prop :=
  ∀ call ∈ s.delivered a, ¬ PastLeader s call

instance (s : Cluster ι F) (a : Action ι F) : Decidable (ShortTail s a) :=
  inferInstanceAs (Decidable (∀ call ∈ s.delivered a, _))

/-- What a leader knows of its peers lies within its log. -/
structure IndexInv (s : Cluster ι F) : Prop where
  next : ∀ i, (s.node i).state = .leader → ∀ p, (s.node i).nextIndex p ≤ (s.node i).log.length
  matched : ∀ i, (s.node i).state = .leader → ∀ p, (s.node i).matchIndex p < (s.node i).log.length
  answer : ∀ call ∈ s.appendCalls, ∀ r, call.response = some r →
    (s.node call.caller).state = .leader → (s.node call.caller).currentTerm = call.request.term →
      r.matchIndex < (s.node call.caller).log.length ∧
        r.conflictIndex ≤ (s.node call.caller).log.length

omit [DecidableEq ι] in
/-- What an answer reports lies within the log of the leader that asked. -/
theorem LogInv.answer_le [Zero F] (h : LogInv s g) {call : AppendCall ι F}
    (hmem : call ∈ s.appendCalls) (hshort : ¬ PastLeader s call)
    (hs : (s.node call.caller).state = .leader)
    (ht : (s.node call.caller).currentTerm = call.request.term) :
    ((s.node call.callee).handleAppendEntries call.request).2.matchIndex <
        (s.node call.caller).log.length ∧
      ((s.node call.callee).handleAppendEntries call.request).2.conflictIndex ≤
        (s.node call.caller).log.length := by
  have hown : g.termLog call.request.term = (s.node call.caller).log := ht ▸ h.leads _ hs
  obtain ⟨pre, hpre⟩ := h.append call hmem
  have hsent := hpre.made.length_le
  rw [hown, List.length_append, hpre.length] at hsent
  by_cases ha : (s.node call.callee).Accepts call.request
  · obtain ⟨hlog, hr, -⟩ := (s.node call.callee).handleAppendEntries_accepts ha
    rw [hr]
    refine ⟨?_, Nat.zero_le _⟩
    rw [← hlog]
    dsimp only
    by_cases hstale : (s.node call.callee).StaleTail call.request
    · have hle : (s.node call.callee).log.length ≤ (s.node call.caller).log.length :=
        not_lt.mp fun hlt => hshort ⟨hstale, hs, ht, hlt⟩
      obtain ⟨sent, hmade, -, -, ⟨hnew, -⟩ | ⟨hnew, -⟩⟩ := h.accepted hmem ha <;> rw [hnew]
      · omega
      · have := hmade.length_le
        rw [hown] at this
        omega
    · have hwhole := (h.prefix_of_fresh hmem ha hstale).length_le
      rw [hown] at hwhole
      omega
  · have hpos := (List.getElem?_eq_some_iff.mp (h.node call.callee).sentinel).1
    obtain ⟨hmatch, hconflict⟩ := RaftNode.handleAppendEntries_rejects_le _ ha hpos
    omega

variable [Fintype ι] [Zero F]

namespace IndexInv

omit [DecidableEq ι] [Fintype ι] in
theorem init (c : ClusterConfig ι) : IndexInv (Cluster.start c : Cluster ι F) := by
  refine ⟨fun i hs p => ?_, fun i hs p => ?_, by simp [Cluster.start]⟩
  · rw [Cluster.start_node] at hs ⊢
    by_cases hp : (c.node i).peerAddresses = []
    · rw [RaftNode.start_alone hp]
      rfl
    · rw [RaftNode.start_peers hp] at hs
      cases hs
  · obtain ⟨hlog, -, -, hmatch⟩ := RaftNode.start_frame (F := F) (c.node i)
    rw [Cluster.start_node, hlog, hmatch]
    exact Nat.one_pos

theorem matched_step (h : IndexInv s) (hk : RaftInv c s g) (hstep : s.step c a = some s') (i : ι)
    (hs : (s'.node i).state = .leader) (p : ι) :
    (s'.node i).matchIndex p < (s'.node i).log.length := by
  rcases (Cluster.step_node hstep i).leader_cases hs with ⟨-, hi⟩ | ⟨hs, ht, hp, hm⟩
  · rw [hi]
    exact (List.getElem?_eq_some_iff.mp (hk.log.node i).sentinel).1
  have hold := h.matched i hs
  have hgrow := hp.length_le
  rcases hm with hm | ⟨call, hmem, rfl, hterm, r, hr, -, hm⟩ <;> rw [hm]
  · exact (hold p).trans_le hgrow
  · obtain ⟨hlt, -⟩ := h.answer call hmem r hr hs hterm.symm
    rcases eq_or_ne p call.callee with rfl | hne
    · rw [Function.update_self]
      exact (max_lt (hold _) hlt).trans_le hgrow
    · rw [Function.update_of_ne hne]
      exact (hold p).trans_le hgrow

omit [Fintype ι] [Zero F] in
theorem next_step (h : IndexInv s) (hstep : s.step c a = some s') (i : ι)
    (hs : (s'.node i).state = .leader) (p : ι) :
    (s'.node i).nextIndex p ≤ (s'.node i).log.length := by
  rcases (Cluster.step_node hstep i).leader_cases hs with ⟨-, hi⟩ | ⟨hs', -, hp, -⟩
  · rw [hi]
    exact le_rfl
  have hold := h.next i hs'
  have hgrow := hp.length_le
  cases Cluster.step_nextIndex hstep i with
  | same hn =>
    rw [hn]
    exact (hold p).trans hgrow
  | elect hi =>
    rw [hi]
    exact le_rfl
  | follow hf => exact absurd hs hf
  | replicate peer m hm hn =>
    rw [hn]
    rcases eq_or_ne p peer with rfl | hne
    · rw [Function.update_self]
      omega
    · rw [Function.update_of_ne hne]
      exact (hold p).trans hgrow
  | response call hmem hj r hr hi =>
    subst hj
    have hanswer := h.answer call hmem r hr
    rw [hi] at hgrow ⊢
    exact (RaftNode.handleAppendResponse_nextIndex_le _ hold (h.matched _ hs') _ _ _ _
      hanswer p).trans hgrow

theorem answer_step (h : IndexInv s) (hk : RaftInv c s g) (hstep : s.step c a = some s')
    (hshort : ShortTail s a) : ∀ call ∈ s'.appendCalls, ∀ r, call.response = some r →
      (s'.node call.caller).state = .leader →
      (s'.node call.caller).currentTerm = call.request.term →
        r.matchIndex < (s'.node call.caller).log.length ∧
          r.conflictIndex ≤ (s'.node call.caller).log.length := by
  intro call' hmem' r hr hs' ht'
  rcases Cluster.appendCalls_cases hstep hmem' with
    ⟨call, hmem, h1, -, h3, hresp⟩ | ⟨-, hnone, -⟩
  · rw [h1] at hs' ht' ⊢
    rw [h3] at ht'
    -- a node is elected only once in a term, so the caller has been leading it
    rcases (Cluster.step_node hstep call.caller).leader_cases hs' with
      ⟨hcand, hi⟩ | ⟨hs, ht, hp, -⟩
    · rw [hi] at ht'
      have hstays := (hk.election.role call.caller).stays _ (hk.election.append call hmem).1
      have hleads := hstays.2 ht'.symm
      rw [hcand] at hleads
      cases hleads
    have hgrow := hp.length_le
    rw [ht] at ht'
    rcases hresp with hresp | ⟨⟨k, rfl, hcall⟩, -, hresp⟩
    · obtain ⟨hlt, hle⟩ := h.answer call hmem r (hresp ▸ hr) hs ht'
      exact ⟨hlt.trans_le hgrow, hle.trans hgrow⟩
    · rw [hr, Option.some.injEq] at hresp
      subst hresp
      obtain ⟨hlt, hle⟩ := hk.log.answer_le hmem (hshort call hcall) hs ht'
      exact ⟨hlt.trans_le hgrow, hle.trans hgrow⟩
  · rw [hnone] at hr
    cases hr

theorem step (h : IndexInv s) (hk : RaftInv c s g) (hstep : s.step c a = some s')
    (hshort : ShortTail s a) : IndexInv s' :=
  ⟨h.next_step hstep, h.matched_step hk hstep, h.answer_step hk hstep hshort⟩

end IndexInv

end Index

namespace Cluster

variable [Fintype ι] [DecidableEq ι] [Zero F]

/-- Every leader reads its own log in range, for every peer. -/
def InRange (c : ClusterConfig ι) (s : Cluster ι F) : Prop :=
  ∀ i, (s.node i).state = .leader → ∀ peer ∈ c.peers i,
    1 ≤ max 1 ((s.node i).nextIndex peer) ∧
    max 1 ((s.node i).nextIndex peer) ≤ (s.node i).log.length ∧
    (s.node i).matchIndex peer ≤ (s.node i).log.length - 1 ∧
    ((s.node i).buildAppendRequest (c.node i) peer).isSome

theorem next_index_in_range (c : ClusterConfig ι) (as : List (Action ι F)) (s : Cluster ι F)
    (h : ((system c).guard ShortTail).exec as = some s) : InRange c s := by
  obtain ⟨g, hk, hindex⟩ := System.historyInvariant (g := History.start c) _
    (P := fun _ s g => RaftInv c s g ∧ IndexInv s) History.record ⟨.init c, .init c⟩
    (fun _ s a s' g ⟨hk, hindex⟩ hstep => by
      obtain ⟨hshort, hstep⟩ := System.guard_step.mp hstep
      exact ⟨hk.step hstep, hindex.step hk hstep hshort⟩) h
  intro i hs peer hpeer
  have hnext := hindex.next i hs peer
  have hmatch := hindex.matched i hs peer
  have hlt : max 1 ((s.node i).nextIndex peer) - 1 < (s.node i).log.length := by omega
  refine ⟨le_max_left _ _, by omega, by omega, ?_⟩
  simp [RaftNode.buildAppendRequest, RaftNode.termAt, hlt]

theorem next_index_in_range_healthy :
    ∃ s : Cluster (Fin 3) ℕ, (system .testNodes).exec healthyRun = some s ∧
      (s.node 0).state = .leader ∧ (s.node 0).matchIndex 1 = 1 ∧ InRange .testNodes s := by
  obtain ⟨s, hs, hlead, hmatch⟩ := System.exists_exec ((system .testNodes).guard ShortTail)
    healthyRun (fun s => (s.node 0).state = .leader ∧ (s.node 0).matchIndex 1 = 1)
    (by decide +kernel)
  exact ⟨s, System.exec_of_guard hs, hlead, hmatch, next_index_in_range .testNodes healthyRun s hs⟩

/-- The condition is sharp in this sense: such an answer breaks the leader if it is received
in the very next step. -/
theorem PastLeader.not_inRange {c : ClusterConfig ι} {as : List (Action ι F)}
    {s s' s'' : Cluster ι F} {k : ℕ} {call : AppendCall ι F} (h : (system c).exec as = some s)
    (hcall : s.appendCalls[k]? = some call) (hpast : PastLeader s call)
    (hhandle : s.step c (.handleAppendEntries k) = some s')
    (hreceive : s'.step c (.receiveAppend k) = some s'') : ¬ InRange c s'' := by
  obtain ⟨g, helection, hloginv⟩ := exists_logInv c h
  have hpos := (List.getElem?_eq_some_iff.mp (hloginv.node call.caller).sentinel).1
  have hne := (helection.append call (List.mem_of_getElem? hcall)).2
  obtain ⟨hstale, hs, hterm, hlen⟩ := hpast
  obtain ⟨-, hresp, -⟩ := (s.node call.callee).handleAppendEntries_accepts hstale.1
  rw [RaftNode.appendLoop_of_terms hstale.2.1] at hresp
  obtain ⟨call', hcall', -, rfl⟩ := handleAppendEntries_cases hhandle
  obtain rfl : call = call' := Option.some.inj (hcall.symm.trans hcall')
  obtain ⟨answered, r, hanswered, hr, rfl⟩ := receiveAppend_cases hreceive
  have hlt := (List.getElem?_eq_some_iff.mp hcall).1
  simp only [List.getElem?_set_self hlt, Option.some.injEq] at hanswered
  subst hanswered
  obtain rfl := Option.some.inj hr
  have hyes : ((s.node call.callee).handleAppendEntries call.request).2.success = true := by
    rw [hresp]
  obtain ⟨hlead, hlog, hmatch⟩ := RaftNode.handleAppendResponse_matched (s.node call.caller)
    (c.node call.caller) call.callee hs (by rw [hresp]; exact hterm.symm) hyes
  rw [hterm] at hlead hlog hmatch
  have hend : ((s.node call.callee).handleAppendEntries call.request).2.matchIndex =
      (s.node call.callee).log.length - 1 := by rw [hresp]
  intro hin
  have hle := hin call.caller (by simpa [node, hne.symm] using hlead) call.callee
    (c.mem_peers_iff.mpr hne)
  simp only [node, setProc_procs, Function.update_self, Function.update_of_ne hne.symm] at hle
  rw [hlog] at hle
  have hpast := hmatch.trans hle.2.2.1
  omega

/-- Node 2 wins term 2 with an empty log, and node 1 reports the end of its own. -/
theorem next_index_out_of_range :
    ∃ s s' : Cluster (Fin 3) ℕ,
      (system .testNodes).exec (staleRun.take 14 ++ [.receiveAppend 0]) = some s ∧
      ¬ InRange .testNodes s ∧ s.step .testNodes (.replicate 1 0) = some s' ∧
      (s'.procs 1).halted = true := by
  obtain ⟨s, hs, hlead, hmatch, hlen, hhalt⟩ := System.exists_exec (system .testNodes)
    (staleRun.take 14 ++ [.receiveAppend 0]) (fun s => (s.node 1).state = .leader ∧
      (s.node 1).matchIndex 0 = 1 ∧ (s.node 1).log.length = 1 ∧
      (s.step .testNodes (.replicate 1 0)).any fun s' => (s'.procs 1).halted) (by decide +kernel)
  obtain ⟨s', hs', hhalted⟩ := (Option.any_eq_true _ _).mp hhalt
  refine ⟨s, s', hs, fun hin => ?_, hs', hhalted⟩
  obtain ⟨-, -, hle, -⟩ := hin 1 hlead 0 (by decide)
  omega

end Cluster

end DistributedLock.Raft
