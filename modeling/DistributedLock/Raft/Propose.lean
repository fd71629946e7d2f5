import DistributedLock.Raft.StateMachineSafety

/-! What `Propose` promises when it returns true. It compares its index with the
commit index and never looks at the entry again, so it also answers for an entry
of another leader at that index. In the runs in which each check that answers
finds an entry of the call's own term the answer is the truth. -/

namespace DistributedLock.Raft

open Library

variable {ι F : Type*}

/-- The call a step answers with true. -/
def Cluster.answered (s : Cluster ι F) : Action ι F → Option (Proposal ι F)
  | .checkProposal k _ =>
    s.proposals[k]?.filter fun call => call.index ≤ (s.node call.proposer).commitIndex
  | _ => none

/-- An answer finds an entry of the term the call appended in. -/
def OwnTerm (s : Cluster ι F) (a : Action ι F) : Prop :=
  ∀ call ∈ s.answered a,
    RaftNode.termAt (s.node call.proposer).log call.index = some call.entry.term

instance (s : Cluster ι F) (a : Action ι F) : Decidable (OwnTerm s a) :=
  inferInstanceAs (Decidable (∀ call ∈ s.answered a, _))

variable [Fintype ι] [DecidableEq ι] [Zero F] {c : ClusterConfig ι} {s s' : Cluster ι F}
  {g : History ι F} {a : Action ι F}

structure ProposalInv (s : Cluster ι F) (g : History ι F) : Prop where
  made : ∀ (k : ℕ) call, s.proposals[k]? = some call →
    (g.termLog call.entry.term)[call.index]? = some call.entry
  distinct : ∀ (k k' : ℕ) call call', s.proposals[k]? = some call →
    s.proposals[k']? = some call' → k < k' → call.entry.term = call'.entry.term →
    call.index < call'.index
  told : ∀ (k : ℕ) call, s.proposals[k]? = some call → call.result = some true →
    call.index ≤ (s.node call.proposer).commitIndex ∧
      (s.node call.proposer).log[call.index]? = some call.entry

namespace ProposalInv

omit [DecidableEq ι] in
/-- An entry of the call's term at its index is the entry of the call. -/
theorem own_entry (h : ProposalInv s g) (hk : RaftInv c s g) {k : ℕ} {call : Proposal ι F}
    (hcall : s.proposals[k]? = some call) (hown : RaftNode.termAt (s.node call.proposer).log
      call.index = some call.entry.term) :
    (s.node call.proposer).log[call.index]? = some call.entry := by
  obtain ⟨e, he, hterm⟩ := Option.map_eq_some_iff.mp hown
  have hmade := h.made k call hcall
  have hne : g.termLog call.entry.term ≠ [] := by
    rintro hnil
    rw [hnil] at hmade
    simp at hmade
  have hleader := hk.log.leader _ hne
  rw [he, (hk.log.node call.proposer).coherent.eq_of_stamp_eq hleader.coherent he hmade hterm]

theorem step (h : ProposalInv s g) (hk : RaftInv c s g) (hc : CommitInv s g)
    (hstep : s.step c a = some s') (hown : OwnTerm s a) :
    ProposalInv s' (History.record s a s' g) := by
  have hk' := hk.step hstep
  have hgrow := hk.log.grows hk.election hstep
  have hmade : ∀ (k : ℕ) call, s.proposals[k]? = some call →
      ((History.record s a s' g).termLog call.entry.term)[call.index]? = some call.entry :=
    fun k call hcall => prefix_iff_forall_getElem?.mp (hgrow _) _ _ (h.made k call hcall)
  refine ⟨?_, ?_, ?_⟩
  · intro k call' hcall'
    rcases Cluster.proposals_cases hstep hcall' with
      ⟨call, hcall, -, he, hi, -⟩ | ⟨-, -, hterm, hidx, -, hs', ht', hlog'⟩
    · rw [he, hi]
      exact hmade k call hcall
    · have hleads := hk'.log.leads _ hs'
      rw [ht', ← hterm] at hleads
      rw [hleads, hlog', hidx]
      simp
  · intro k k' call₁ call₂ hcall₁ hcall₂ hlt hterm
    rcases Cluster.proposals_cases hstep hcall₁ with ⟨call, hcall, -, he, hi, -⟩ | ⟨rfl, -⟩
    · rcases Cluster.proposals_cases hstep hcall₂ with
        ⟨call', hcall', -, he', hi', -⟩ | ⟨-, hs, hterm', hidx, -⟩
      · rw [hi, hi']
        exact h.distinct k k' call call' hcall hcall' hlt (by rw [← he, ← he', hterm])
      · -- the leader's log ended below the new entry
        have hget := h.made k call hcall
        rw [← he, hterm, hterm', hk.log.leads _ hs] at hget
        rw [hi, hidx]
        exact (List.getElem?_eq_some_iff.mp hget).1
    · -- nothing follows the newest proposal
      rcases Cluster.proposals_cases hstep hcall₂ with ⟨call', hcall', -⟩ | ⟨rfl, -⟩
      · have := (List.getElem?_eq_some_iff.mp hcall').1
        omega
      · omega
  · intro k call' hcall' htrue
    rcases Cluster.proposals_cases hstep hcall' with
      ⟨call, hcall, hp, he, hi, hres⟩ | ⟨-, -, -, -, hnone, -⟩
    · have hbefore : call.index ≤ (s.node call.proposer).commitIndex ∧
          (s.node call.proposer).log[call.index]? = some call.entry := by
        rcases hres htrue with hold | ⟨⟨timedOut, rfl⟩, hle⟩
        · exact h.told k call hcall hold
        · exact ⟨hle, h.own_entry hk hcall (hown call (by
            simp [Cluster.answered, hcall, Option.filter, hle]))⟩
      rw [hp, he, hi]
      refine ⟨hbefore.1.trans (hc.commitIndex_le hk hstep _), ?_⟩
      refine prefix_iff_forall_getElem?.mp (hc.retained hk.log hk.vote hstep _) _ _ ?_
      rw [List.getElem?_take_of_lt (by have := hbefore.1; omega)]
      exact hbefore.2
    · rw [hnone] at htrue
      cases htrue

end ProposalInv

theorem Cluster.exists_proposalInv (c : ClusterConfig ι) {as : List (Action ι F)} {s : Cluster ι F}
    (h : ((system c).guard fun s a => FreshTail s a ∧ OwnTerm s a).exec as = some s) :
    ∃ g, RaftInv c s g ∧ CommitInv s g ∧ ProposalInv s g := by
  refine System.historyInvariant (g := History.start c) _
    (P := fun _ s (g : History ι F) => RaftInv c s g ∧ CommitInv s g ∧ ProposalInv s g)
    History.record ?_ ?_ h
  · have hnil : ∀ (k : ℕ) call, (start c : Cluster ι F).proposals[k]? ≠ some call := by
      simp [start]
    exact ⟨.init c, .init c, fun k call hcall => absurd hcall (hnil k call),
      fun k _ call _ hcall => absurd hcall (hnil k call),
      fun k call hcall => absurd hcall (hnil k call)⟩
  · rintro as s a s' g ⟨hk, hc, hp⟩ hstep
    obtain ⟨⟨hfresh, hown⟩, hstep⟩ := System.guard_step.mp hstep
    exact ⟨hk.step hstep, hc.step hk hstep hfresh, hp.step hk hc hstep hown⟩

namespace Cluster

/-- `Propose` tells the truth: when it has returned true the entry of the call is at
its index of the proposer's log, and no other call that has returned true has the
index. -/
theorem propose_truthful (c : ClusterConfig ι) (as : List (Action ι F)) (s : Cluster ι F)
    (h : ((system c).guard fun s a => FreshTail s a ∧ OwnTerm s a).exec as = some s) (k : ℕ)
    (call : Proposal ι F) (hk : s.proposals[k]? = some call) (htrue : call.result = some true) :
    (s.node call.proposer).log[call.index]? = some call.entry ∧
      ∀ (k' : ℕ) call', s.proposals[k']? = some call' → call'.result = some true → k' ≠ k →
        call'.index ≠ call.index := by
  obtain ⟨g, hr, hc, hp⟩ := exists_proposalInv c h
  obtain ⟨hle, hget⟩ := hp.told k call hk htrue
  refine ⟨hget, fun k' call' hk' htrue' hne heq => ?_⟩
  obtain ⟨hle', hget'⟩ := hp.told k' call' hk' htrue'
  rw [heq] at hle' hget'
  -- committed at one index, the two entries are one, and so are their terms
  have hentry := hc.agree hr hle hle' hget hget'
  have hterm := congrArg LogEntry.term hentry
  rcases Nat.lt_or_gt_of_ne hne with hlt | hlt
  · have := hp.distinct k' k call' call hk' hk hlt hterm.symm
    omega
  · have := hp.distinct k k' call call' hk hk' hlt hterm
    omega

/-- Node 1 proposes in term 1 and loses the lead; node 2 overwrites the entry with
its own proposal and commits that. -/
def overwritingRun : List (Action (Fin 3) ℕ) :=
  [.startElection 0, .sendVoteRequest 0, .handleRequestVote 0, .receiveVote 0, .finishElection 0,
    .propose 0 (.acquire "a" [1] 1), .startElection 1, .sendVoteRequest 1, .voteRequestFailed 1,
    .sendVoteRequest 1, .handleRequestVote 2, .receiveVote 1, .propose 1 (.acquire "b" [1] 1),
    .replicate 1 0, .handleAppendEntries 0, .receiveAppend 0, .checkProposal 1 false]

theorem propose_truthful_overwriting :
    ∃ s : Cluster (Fin 3) ℕ, (system .testNodes).exec overwritingRun = some s ∧
      (s.node 1).log[1]? = some { LogEntry.acquire "b" [1] 1 with term := 2 } := by
  have h : (((system .testNodes).guard fun s a => FreshTail s a ∧ OwnTerm s a).exec
    overwritingRun).isSome := rfl
  have hrun := (Option.some_get h).symm
  exact ⟨_, System.exec_of_guard hrun, (propose_truthful .testNodes _ _ hrun 1 _ rfl rfl).1⟩

/-- Node 1 learns the new commit index, and its call returns true as well. -/
theorem propose_untruthful :
    ∃ s : Cluster (Fin 3) ℕ, (system .testNodes).exec (overwritingRun ++
        [.replicate 1 0, .handleAppendEntries 1, .checkProposal 0 false]) = some s ∧
      ∃ call call', s.proposals[0]? = some call ∧ s.proposals[1]? = some call' ∧
        call.result = some true ∧ call'.result = some true ∧ call.index = call'.index ∧
        (s.node call.proposer).log[call.index]? ≠ some call.entry := by
  have h : ((system .testNodes).exec (overwritingRun ++
    [.replicate 1 0, .handleAppendEntries 1, .checkProposal 0 false])).isSome := rfl
  exact ⟨_, (Option.some_get h).symm, _, _, rfl, rfl, rfl, rfl, rfl, of_decide_eq_true rfl⟩

end Cluster

end DistributedLock.Raft
