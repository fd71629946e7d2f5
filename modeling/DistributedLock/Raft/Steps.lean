import DistributedLock.Raft.Handlers

/-! What each step of a cluster does, with its guards: one inversion lemma an
action. Every invariant of a run is derived from these. -/

namespace DistributedLock.Raft

namespace Cluster

variable {ι F : Type*} [DecidableEq ι] {c : ClusterConfig ι} {s s' : Cluster ι F}

@[simp] theorem node_setProc_self (s : Cluster ι F) (i : ι) (p : Process ι F) :
    (s.setProc i p).node i = p.node := by simp [node]

@[simp] theorem node_setProc_of_ne (s : Cluster ι F) {i j : ι} (p : Process ι F) (h : j ≠ i) :
    (s.setProc i p).node j = s.node j := by simp [node, h]

theorem startElection_cases {i : ι} (h : s.step c (.startElection i) = some s') :
    (s.node i).state ≠ .leader ∧ (s.procs i).election = none ∧
      s' = s.setProc i { s.procs i with
        node := ((s.node i).startElection (c.node i)).1
        election := some
          { request := ((s.node i).startElection (c.node i)).2, votes := 1,
            remaining := c.peers i, waiting := none } } := by
  simp only [step, Process.startElection, Option.map_eq_some_iff] at h
  obtain ⟨p, hp, rfl⟩ := h
  split_ifs at hp with hg
  simp only [not_or, Bool.not_eq_true, Option.isSome_eq_false_iff, Option.isNone_iff_eq_none] at hg
  rw [Option.some.injEq] at hp
  exact ⟨hg.2.2, hg.2.1, hp ▸ rfl⟩

theorem sendVoteRequest_cases {i : ι} (h : s.step c (.sendVoteRequest i) = some s') :
    ∃ e peer rest, (s.procs i).election = some e ∧ e.waiting = none ∧
      e.remaining = peer :: rest ∧
      s' = { s.setProc i { s.procs i with
          election := some { e with remaining := rest, waiting := some s.voteCalls.length } } with
        voteCalls := s.voteCalls ++ [{ caller := i, callee := peer, request := e.request }] } := by
  simp only [step, sendVoteRequest, Process.sendVoteRequest, Option.map_eq_some_iff] at h
  obtain ⟨⟨p, peer, request⟩, hp, rfl⟩ := h
  split at hp
  · rename_i request' votes peer' rest he
    split_ifs at hp
    simp only [Option.some.injEq, Prod.mk.injEq] at hp
    obtain ⟨rfl, rfl, rfl⟩ := hp
    exact ⟨_, _, _, he, rfl, rfl, rfl⟩
  · simp at hp

theorem handleRequestVote_cases {k : ℕ} (h : s.step c (.handleRequestVote k) = some s') :
    ∃ call, s.voteCalls[k]? = some call ∧ call.response = none ∧
      s' = { s.setProc call.callee { s.procs call.callee with
          node := ((s.node call.callee).handleRequestVote call.request).1 } with
        voteCalls := s.voteCalls.set k { call with
          response := some ((s.node call.callee).handleRequestVote call.request).2 } } := by
  simp only [step, handleRequestVote] at h
  split at h
  · rename_i call hcall
    split_ifs at h with hr
    simp only [Process.handleRequestVote, Option.map_eq_some_iff] at h
    obtain ⟨⟨p, r⟩, hp, rfl⟩ := h
    split_ifs at hp
    simp only [Option.some.injEq, Prod.mk.injEq] at hp
    obtain ⟨rfl, rfl⟩ := hp
    exact ⟨call, hcall, by simpa using hr, rfl⟩
  · simp at h

theorem receiveVote_cases {i : ι} (h : s.step c (.receiveVote i) = some s') :
    ∃ e k call r, (s.procs i).election = some e ∧ e.waiting = some k ∧
      s.voteCalls[k]? = some call ∧ call.response = some r ∧
      s' = s.setProc i ((s.procs i).countVote (c.node i) e r) := by
  simp only [step, receiveVote] at h
  split at h
  · rename_i e he
    split at h
    · rename_i r hr
      split_ifs at h
      simp only [Option.bind_eq_some_iff] at hr
      obtain ⟨call, ⟨k, hk, hcall⟩, hr⟩ := hr
      exact ⟨e, k, call, r, he, hk, hcall, hr, (Option.some.inj h).symm⟩
    · simp at h
  · simp at h

theorem voteRequestFailed_cases {i : ι} (h : s.step c (.voteRequestFailed i) = some s') :
    ∃ e, (s.procs i).election = some e ∧
      s' = s.setProc i { s.procs i with election := some { e with waiting := none } } := by
  simp only [step, Process.voteRequestFailed, Option.map_eq_some_iff] at h
  obtain ⟨p, hp, rfl⟩ := h
  split at hp
  · rename_i he
    split_ifs at hp
    rw [Option.some.injEq] at hp
    exact ⟨_, he, hp ▸ rfl⟩
  · simp at hp

theorem finishElection_cases {i : ι} (h : s.step c (.finishElection i) = some s') :
    s' = s.setProc i { s.procs i with election := none } := by
  simp only [step, Process.finishElection, Option.map_eq_some_iff] at h
  obtain ⟨p, hp, rfl⟩ := h
  split at hp
  · split_ifs at hp
    rw [Option.some.injEq] at hp
    rw [← hp]
  · simp at hp

/-- A leader sends the rest of its log from some index on, or halts on the
out-of-range read. -/
theorem replicate_cases {i peer : ι} (h : s.step c (.replicate i peer) = some s') :
    (s.node i).state = .leader ∧ peer ≠ i ∧
      ((∃ m t, RaftNode.termAt (s.node i).log m = some t ∧
        s' = { s.setProc i { s.procs i with
            node := { s.node i with
              nextIndex := Function.update (s.node i).nextIndex peer (m + 1) } } with
          appendCalls := s.appendCalls ++ [{ caller := i, callee := peer, request :=
            { term := (s.node i).currentTerm, leaderId := c.nodeId i,
              leaderServiceAddress := (c.node i).serviceAddress, prevLogIndex := m,
              prevLogTerm := t, entries := (s.node i).log.drop (m + 1),
              leaderCommit := (s.node i).commitIndex } }] }) ∨
        s' = s.setProc i { s.procs i with halted := true }) := by
  simp only [step, replicate, Process.replicate, Option.map_eq_some_iff] at h
  obtain ⟨⟨p, r⟩, hp, rfl⟩ := h
  split_ifs at hp with hg
  simp only [not_or, not_not] at hg
  refine ⟨hg.2.1, c.mem_peers_iff.mp hg.2.2, ?_⟩
  split at hp
  · rename_i n' r' hb
    simp only [Option.some.injEq, Prod.mk.injEq] at hp
    obtain ⟨rfl, rfl⟩ := hp
    obtain ⟨m, t, ht, rfl, rfl⟩ := RaftNode.buildAppendRequest_cases _ hb
    exact Or.inl ⟨m, t, ht, rfl⟩
  · simp only [Option.some.injEq, Prod.mk.injEq] at hp
    obtain ⟨rfl, rfl⟩ := hp
    right
    simp [setProc]

theorem handleAppendEntries_cases {k : ℕ} (h : s.step c (.handleAppendEntries k) = some s') :
    ∃ call, s.appendCalls[k]? = some call ∧ call.response = none ∧
      s' = { s.setProc call.callee { s.procs call.callee with
          node := ((s.node call.callee).handleAppendEntries call.request).1 } with
        appendCalls := s.appendCalls.set k { call with
          response := some ((s.node call.callee).handleAppendEntries call.request).2 } } := by
  simp only [step, handleAppendEntries] at h
  split at h
  · rename_i call hcall
    split_ifs at h with hr
    simp only [Process.handleAppendEntries, Option.map_eq_some_iff] at h
    obtain ⟨⟨p, r⟩, hp, rfl⟩ := h
    split_ifs at hp
    simp only [Option.some.injEq, Prod.mk.injEq] at hp
    obtain ⟨rfl, rfl⟩ := hp
    exact ⟨call, hcall, by simpa using hr, rfl⟩
  · simp at h

theorem receiveAppend_cases {k : ℕ} (h : s.step c (.receiveAppend k) = some s') :
    ∃ call r, s.appendCalls[k]? = some call ∧ call.response = some r ∧
      s' = { s.setProc call.caller { s.procs call.caller with
          node := (s.node call.caller).handleAppendResponse (c.node call.caller) call.callee
            call.request.term r } with
        appendCalls := s.appendCalls.set k { call with consumed := true } } := by
  simp only [step, receiveAppend] at h
  split at h
  · rename_i call hcall
    split at h
    · rename_i r hr
      split_ifs at h
      simp only [Process.receiveAppend, Option.map_eq_some_iff] at h
      obtain ⟨p, hp, rfl⟩ := h
      split_ifs at hp
      rw [Option.some.injEq] at hp
      exact ⟨call, r, hcall, hr, hp ▸ rfl⟩
    · simp at h
  · simp at h

omit [DecidableEq ι] in
theorem append_cases {i : ι} {e : LogEntry F} {p : Process ι F}
    (h : (s.procs i).append (c.node i) e = some p) :
    (s.node i).state = .leader ∧
      p = { s.procs i with node := (s.node i).appendStamped (c.node i) e } := by
  unfold Process.append at h
  split_ifs at h with hg
  simp only [not_or, not_not] at hg
  exact ⟨hg.2, (Option.some.inj h).symm⟩

theorem propose_cases {i : ι} {e : LogEntry F} (h : s.step c (.propose i e) = some s') :
    (s.node i).state = .leader ∧
      s' = { s.setProc i { s.procs i with node := (s.node i).appendStamped (c.node i) e } with
        proposals := s.proposals ++
          [{ proposer := i, entry := { e with term := (s.node i).currentTerm },
             index := (s.node i).log.length }] } := by
  simp only [step, propose, Option.map_eq_some_iff] at h
  obtain ⟨p, hp, rfl⟩ := h
  obtain ⟨hs, rfl⟩ := append_cases hp
  refine ⟨hs, ?_⟩
  simp [((s.node i).appendStamped_frame (c.node i) e).1]

theorem appendLocalEntry_cases {i : ι} {e : LogEntry F}
    (h : s.step c (.appendLocalEntry i e) = some s') :
    (s.node i).state = .leader ∧
      s' = s.setProc i { s.procs i with node := (s.node i).appendStamped (c.node i) e } := by
  simp only [step, Option.map_eq_some_iff] at h
  obtain ⟨p, hp, rfl⟩ := h
  obtain ⟨hs, rfl⟩ := append_cases hp
  exact ⟨hs, rfl⟩

theorem checkProposal_cases {k : ℕ} {timedOut : Bool}
    (h : s.step c (.checkProposal k timedOut) = some s') :
    ∃ call, s.proposals[k]? = some call ∧ call.result = none ∧
      ((call.index ≤ (s.node call.proposer).commitIndex ∧
          s' = { s with proposals := s.proposals.set k { call with result := some true } }) ∨
        s' = { s with proposals := s.proposals.set k { call with result := some false } } ∨
        s' = s) := by
  simp only [step, checkProposal] at h
  split at h
  · rename_i call hcall
    split_ifs at h with hg hc ht <;> rw [Option.some.injEq] at h <;>
      simp only [not_or, Bool.not_eq_true, Option.isSome_eq_false_iff,
        Option.isNone_iff_eq_none] at hg
    · exact ⟨call, hcall, hg.1, Or.inl ⟨hc, h.symm⟩⟩
    · exact ⟨call, hcall, hg.1, Or.inr (Or.inl h.symm)⟩
    · exact ⟨call, hcall, hg.1, Or.inr (Or.inr h.symm)⟩
  · simp at h

theorem applyTake_cases {i : ι} (h : s.step c (.applyTake i) = some s') :
    (s.procs i).halted = false ∧ (s.procs i).phase = .idle ∧
      (s.node i).lastApplied < (s.node i).commitIndex ∧
      ((∃ e, (s.node i).log[(s.node i).lastApplied + 1]? = some e ∧
        s' = s.setProc i { s.procs i with
          node := { s.node i with lastApplied := (s.node i).lastApplied + 1 }
          phase := .calling ((s.node i).lastApplied + 1) e }) ∨
        ((s.node i).log[(s.node i).lastApplied + 1]? = none ∧
        s' = s.setProc i { s.procs i with
          node := { s.node i with lastApplied := (s.node i).lastApplied + 1 }
          halted := true })) := by
  simp only [step, Process.applyTake, Option.map_eq_some_iff] at h
  obtain ⟨p, hp, rfl⟩ := h
  split at hp
  · rename_i hph
    split_ifs at hp with hg
    simp only [not_or, Bool.not_eq_true, not_le] at hg
    refine ⟨hg.1, hph, hg.2, ?_⟩
    split at hp
    · rename_i e he
      exact Or.inl ⟨e, he, by rw [← Option.some.inj hp]⟩
    · rename_i he
      exact Or.inr ⟨he, by rw [← Option.some.inj hp]⟩
  · simp at hp

theorem applyReturn_cases {i : ι} (h : s.step c (.applyReturn i) = some s') :
    ∃ m e, (s.procs i).phase = .calling m e ∧
      s' = s.setProc i { s.procs i with
        phase := .returned, applied := (s.procs i).applied ++ [(m, e)] } := by
  simp only [step, Process.applyReturn, Option.map_eq_some_iff] at h
  obtain ⟨p, hp, rfl⟩ := h
  split at hp
  · rename_i m e hph
    split_ifs at hp
    exact ⟨m, e, hph, by rw [← Option.some.inj hp]⟩
  · simp at hp

theorem applyNotify_cases {i : ι} (h : s.step c (.applyNotify i) = some s') :
    (s.procs i).phase = .returned ∧ s' = s.setProc i { s.procs i with phase := .idle } := by
  simp only [step, Process.applyNotify, Option.map_eq_some_iff] at h
  obtain ⟨p, hp, rfl⟩ := h
  split at hp
  · rename_i hph
    split_ifs at hp
    exact ⟨hph, by rw [← Option.some.inj hp]⟩
  · simp at hp

end Cluster

end DistributedLock.Raft
