import DistributedLock.Raft.Apply
import DistributedLock.Raft.Commit

/-! State machine safety, and what a majority has held when a leader commits, in
the runs in which no follower answers over a stale tail. One such answer is
enough to break both: a run of three nodes shows it. -/

namespace DistributedLock.Raft

open Library

variable {ι F : Type*}

/-! ### What has been applied -/

section Applied

variable [Fintype ι] [DecidableEq ι] [Zero F] {c : ClusterConfig ι} {s s' : Cluster ι F}
  {g : History ι F} {a : Action ι F}

/-- A commit index never falls. -/
theorem CommitInv.commitIndex_le (h : CommitInv s g) (hk : RaftInv c s g)
    (hstep : s.step c a = some s') (i : ι) : (s.node i).commitIndex ≤ (s'.node i).commitIndex := by
  rcases (Cluster.step_node hstep i).commit_cases with
    heq | ⟨call, hmem, rfl, ha, hn⟩ | ⟨-, -, hlt, -⟩ | ⟨hp, -, e, hn⟩
  · exact heq.ge
  · obtain ⟨hlog, -, hc⟩ := (s.node call.callee).handleAppendEntries_accepts ha
    rw [← hlog] at hc
    have hkeep := (h.retained hk.log hk.vote hstep call.callee).length_le
    have hlt := (h.commit call.callee).1
    rw [List.length_take, hn] at hkeep
    rw [hn, hc]
    split_ifs <;> omega
  · exact hlt.le
  · obtain ⟨-, -, -, -, -, -, hc⟩ := (s.node i).appendStamped_frame (c.node i) e
    rw [hn, hc.trans (if_pos hp)]
    exact (h.commit i).1.le

/-- What has been applied is in the log, up to the commit index. -/
def AppliedInLog (s : Cluster ι F) : Prop :=
  ∀ i, ∀ m e, (m, e) ∈ (s.procs i).calls → m ≤ (s.node i).commitIndex ∧ (s.node i).log[m]? = some e

theorem CommitInv.applied_step (h : CommitInv s g) (hk : RaftInv c s g)
    (hap : AppliedInLog s) (hstep : s.step c a = some s') : AppliedInLog s' := by
  intro i m e hmem
  have hle := h.commitIndex_le hk hstep i
  have hkeep := h.retained hk.log hk.vote hstep i
  have hold : m ≤ (s.node i).commitIndex → (s.node i).log[m]? = some e →
      m ≤ (s'.node i).commitIndex ∧ (s'.node i).log[m]? = some e := by
    intro hm he
    refine ⟨hm.trans hle, prefix_iff_forall_getElem?.mp hkeep m e ?_⟩
    rwa [List.getElem?_take_of_lt (by omega)]
  rcases (Cluster.step_apply hstep i).calls_cases with ⟨hcalls, -⟩ | ⟨-, hlt, -, e', he', hcalls⟩
  · rw [hcalls] at hmem
    exact (hap i m e hmem).elim hold
  · rw [hcalls] at hmem
    rcases List.mem_append.mp hmem with hmem | hmem
    · exact (hap i m e hmem).elim hold
    · simp only [List.mem_singleton, Prod.mk.injEq] at hmem
      obtain ⟨rfl, rfl⟩ := hmem
      exact hold hlt he'

/-- Chosen prefixes agree. -/
theorem Chosen.agree (hk : RaftInv c s g) {U U' m : ℕ} {l l' : List (LogEntry F)}
    (hc : Chosen g U l) (hc' : Chosen g U' l') (hU : U ≤ U') {e e' : LogEntry F}
    (he : l[m]? = some e) (he' : l'[m]? = some e') : e = e' := by
  have hget := prefix_iff_forall_getElem?.mp hc'.made m e' he'
  have hne : g.termLog U' ≠ [] := by
    rintro hnil
    rw [hnil] at hget
    simp at hget
  have hp := hc.prefix_termLog hk.log hk.vote hU hne
  rw [prefix_iff_forall_getElem?.mp hp m e he, Option.some.injEq] at hget
  exact hget

/-- Up to both commit indices two logs agree. -/
theorem CommitInv.agree (h : CommitInv s g) (hk : RaftInv c s g) {i j : ι} {m : ℕ} {e e' : LogEntry F}
    (hi : m ≤ (s.node i).commitIndex) (hj : m ≤ (s.node j).commitIndex)
    (he : (s.node i).log[m]? = some e) (he' : (s.node j).log[m]? = some e') : e = e' := by
  have hzero : m = 0 → e = e' := by
    rintro rfl
    rw [(hk.log.node i).sentinel, Option.some.injEq] at he
    rw [(hk.log.node j).sentinel, Option.some.injEq] at he'
    exact he.symm.trans he'
  obtain ⟨-, h0 | ⟨U, l, -, hc, hp⟩⟩ := h.commit i
  · exact hzero (by omega)
  obtain ⟨-, h0 | ⟨U', l', -, hc', hp'⟩⟩ := h.commit j
  · exact hzero (by omega)
  have hl : l[m]? = some e := prefix_iff_forall_getElem?.mp hp m e
    (by rwa [List.getElem?_take_of_lt (by omega)])
  have hl' : l'[m]? = some e' := prefix_iff_forall_getElem?.mp hp' m e'
    (by rwa [List.getElem?_take_of_lt (by omega)])
  rcases le_total U U' with hU | hU
  · exact hc.agree hk hc' hU hl hl'
  · exact (hc'.agree hk hc hU hl' hl).symm

end Applied

namespace Cluster

variable [Fintype ι] [DecidableEq ι] [Zero F]

/-- What is known of a run without answers over stale tails. -/
structure FreshRun (c : ClusterConfig ι) (as : List (Action ι F)) (s : Cluster ι F)
    (g : History ι F) : Prop where
  run : ((system c).guard FreshTail).exec as = some s
  known : RaftInv c s g
  commit : CommitInv s g
  applied : AppliedInLog s
  held : ∀ j T l, g.held j T l → ∃ u, (system c).Passes as u ∧ (u.node j).currentTerm = T ∧
    (u.node j).log = l

theorem exists_freshRun (c : ClusterConfig ι) {as : List (Action ι F)} {s : Cluster ι F}
    (h : ((system c).guard FreshTail).exec as = some s) : ∃ g, FreshRun c as s g := by
  refine System.historyInvariant (g := History.start c) _ (P := FreshRun c) History.record ?_ ?_ h
  · refine ⟨rfl, .init c, .init c, fun i m e hmem => (by cases hmem), ?_⟩
    rintro j T l ⟨rfl, rfl⟩
    exact ⟨_, .last rfl, rfl, rfl⟩
  · intro as s a s' g hrun hstep
    have hrun' := System.exec_concat _ |>.mpr ⟨s, hrun.run, hstep⟩
    obtain ⟨hfresh, hstep⟩ := System.guard_step.mp hstep
    refine ⟨hrun', hrun.known.step hstep, hrun.commit.step hrun.known hstep hfresh,
      hrun.commit.applied_step hrun.known hrun.applied hstep, fun j T l hheld => ?_⟩
    rcases held_iff.mp hheld with hold | ⟨rfl, rfl⟩
    · obtain ⟨u, hu, hterm, hlog⟩ := hrun.held j T l hold
      exact ⟨u, hu.append [a], hterm, hlog⟩
    · exact ⟨s', .last (System.exec_of_guard hrun'), rfl, rfl⟩

/-- State machine safety: the calls of `on_commit_` on two nodes are one a prefix of
the other, and the `k`-th call on a node carries the entry of log index `k`. -/
theorem state_machine_safety (c : ClusterConfig ι) (as : List (Action ι F)) (s : Cluster ι F)
    (h : ((system c).guard FreshTail).exec as = some s) :
    (∀ i j, (s.procs i).calls <+: (s.procs j).calls ∨ (s.procs j).calls <+: (s.procs i).calls) ∧
      ∀ i (k : ℕ) m e, (s.procs i).calls[k]? = some (m, e) →
        m = k + 1 ∧ (s.node i).log[m]? = some e := by
  obtain ⟨g, hrun⟩ := exists_freshRun c h
  have hok := applyOk c (System.exec_of_guard h)
  have hindex : ∀ i (k : ℕ) m e, (s.procs i).calls[k]? = some (m, e) → m = k + 1 ∧
      m ≤ (s.node i).commitIndex ∧ (s.node i).log[m]? = some e := fun i k m e hk =>
    ⟨(hok i).index k m e hk, hrun.applied i m e (List.mem_of_getElem? hk)⟩
  refine ⟨fun i j => ?_, fun i k m e hk => ⟨(hindex i k m e hk).1, (hindex i k m e hk).2.2⟩⟩
  -- the shorter sequence is the prefix
  have hshort : ∀ i j, (s.procs i).calls.length ≤ (s.procs j).calls.length →
      (s.procs i).calls <+: (s.procs j).calls := by
    intro i j hlen
    refine prefix_iff_forall_getElem?.mpr fun k x hx => ?_
    have hlt := (List.getElem?_eq_some_iff.mp hx).1
    have hy := List.getElem?_eq_getElem (hlt.trans_le hlen)
    obtain ⟨h1, h2, h3⟩ := hindex i k _ _ hx
    obtain ⟨h1', h2', h3'⟩ := hindex j k _ _ hy
    have hm := h1'.trans h1.symm
    rw [hm] at h2' h3'
    rw [hy, Option.some.injEq]
    exact Prod.ext hm (hrun.commit.agree hrun.known h2' h2 h3' h3)
  exact (le_total _ _).imp (hshort i j) (hshort j i)

/-- Node 1 commits an entry with node 2, and both apply it. -/
def healthyRun : List (Action (Fin 3) ℕ) :=
  [.startElection 0, .sendVoteRequest 0, .handleRequestVote 0, .receiveVote 0, .finishElection 0,
    .appendLocalEntry 0 (.acquire "agent" [1] 1), .replicate 0 1, .handleAppendEntries 0,
    .receiveAppend 0, .applyTake 0, .replicate 0 1, .handleAppendEntries 1, .applyTake 1]

theorem state_machine_safety_healthy :
    ∃ s : Cluster (Fin 3) ℕ, (system .testNodes).exec healthyRun = some s ∧
      (s.procs 0).calls.length = 1 ∧ ((s.procs 0).calls <+: (s.procs 1).calls ∨
        (s.procs 1).calls <+: (s.procs 0).calls) := by
  have h : (((system .testNodes).guard FreshTail).exec healthyRun).isSome := rfl
  have hrun := (Option.some_get h).symm
  exact ⟨_, System.exec_of_guard hrun, rfl, (state_machine_safety .testNodes _ _ hrun).1 0 1⟩

/-- Node 1 leads term 1 and appends an entry of agent "a" that reaches nobody. Node 2
wins term 2, and node 1 answers its heartbeat with the end of its own log. -/
def staleRun : List (Action (Fin 3) ℕ) :=
  [.startElection 0, .sendVoteRequest 0, .handleRequestVote 0, .receiveVote 0, .finishElection 0,
    .appendLocalEntry 0 (.acquire "a" [1] 1), .startElection 1, .sendVoteRequest 1,
    .voteRequestFailed 1, .sendVoteRequest 1, .handleRequestVote 2, .receiveVote 1,
    .replicate 1 0, .handleAppendEntries 0, .appendLocalEntry 1 (.acquire "b" [1] 1)]

/-- Node 2 counts the answer for its own entry and applies it; node 1 wins term 3 with
the vote of node 3 and commits its old entry. -/
def divergingRun : List (Action (Fin 3) ℕ) :=
  staleRun ++
    [.receiveAppend 0, .applyTake 1, .applyReturn 1, .startElection 0, .sendVoteRequest 0,
      .voteRequestFailed 0, .sendVoteRequest 0, .handleRequestVote 4, .receiveVote 0,
      .appendLocalEntry 0 (.acquire "b" [1] 1), .replicate 0 2, .handleAppendEntries 1,
      .receiveAppend 1, .replicate 0 2, .handleAppendEntries 2, .receiveAppend 2, .applyTake 0,
      .applyReturn 0]

theorem calls_diverge :
    ∃ s : Cluster (Fin 3) ℕ, (system .testNodes).exec divergingRun = some s ∧
      ¬ ((s.procs 0).calls.map Prod.snd <+: (s.procs 1).calls.map Prod.snd ∨
        (s.procs 1).calls.map Prod.snd <+: (s.procs 0).calls.map Prod.snd) := by
  have h : ((system .testNodes).exec divergingRun).isSome := rfl
  exact ⟨_, (Option.some_get h).symm, of_decide_eq_true rfl⟩

/-- A leader that counts a majority is right about it: every node counted has held,
at some moment of the term, the leader's entries up to the new commit index. -/
theorem commit_majority (c : ClusterConfig ι) (as : List (Action ι F)) (k : ℕ)
    (s s' : Cluster ι F)
    (h : ((system c).guard FreshTail).exec as = some s)
    (h' : ((system c).guard FreshTail).exec (as ++ [.receiveAppend k]) = some s') (i : ι)
    (hlt : (s.node i).commitIndex < (s'.node i).commitIndex) :
    Majority ((s'.node i).counted i (s'.node i).commitIndex) ∧
      ∀ j ∈ (s'.node i).counted i (s'.node i).commitIndex, ∃ u,
        (system c).Passes (as ++ [.receiveAppend k]) u ∧
        (u.node j).currentTerm = (s'.node i).currentTerm ∧
        (u.node j).log.take ((s'.node i).commitIndex + 1) =
          (s'.node i).log.take ((s'.node i).commitIndex + 1) := by
  obtain ⟨s₀, hs₀, hstep⟩ := (System.exec_concat _).mp h'
  obtain rfl : s = s₀ := Option.some.inj (h.symm.trans hs₀)
  obtain ⟨hs, hq⟩ := receiveAppend_commit (System.guard_step.mp hstep).2 hlt
  obtain ⟨g, hrun⟩ := exists_freshRun c h'
  refine ⟨CommitInv.counted_majority hq, fun j hj => ?_⟩
  obtain ⟨log, hheld, hp⟩ :=
    CommitInv.held_of_counted hrun.known (hrun.commit.matched i hs) (by omega) hj
  obtain ⟨u, hu, hterm, hlog⟩ := hrun.held j _ log hheld
  have hlen := (hrun.commit.commit i).1
  refine ⟨u, hu, hterm, ?_⟩
  rw [hlog, take_eq_of_isPrefix hp (by rw [List.length_take]; omega), List.take_take, min_self]

theorem commit_majority_healthy :
    ∃ s s' : Cluster (Fin 3) ℕ, (system .testNodes).exec (healthyRun.take 8) = some s ∧
      (system .testNodes).exec (healthyRun.take 8 ++ [.receiveAppend 0]) = some s' ∧
      (s'.node 0).commitIndex = 1 ∧ Majority ((s'.node 0).counted 0 1) := by
  have h : (((system .testNodes).guard FreshTail).exec (healthyRun.take 8)).isSome := rfl
  have h' : (((system .testNodes).guard FreshTail).exec
    (healthyRun.take 8 ++ [.receiveAppend 0])).isSome := rfl
  have hrun := (Option.some_get h).symm
  have hrun' := (Option.some_get h').symm
  exact ⟨_, _, System.exec_of_guard hrun, System.exec_of_guard hrun', rfl,
    (commit_majority .testNodes _ 0 _ _ hrun hrun' 0 (by exact Nat.zero_lt_one)).1⟩

/-- Node 2 commits its entry of term 2, which no other node has held in term 2. -/
theorem commit_without_majority :
    ∃ s s' : Cluster (Fin 3) ℕ, (system .testNodes).exec staleRun = some s ∧
      (system .testNodes).exec (staleRun ++ [.receiveAppend 0]) = some s' ∧
      (s'.node 1).state = .leader ∧ (s.node 1).commitIndex = 0 ∧ (s'.node 1).commitIndex = 1 ∧
      ¬ ∃ Q : Finset (Fin 3), Majority Q ∧ ∀ j ∈ Q, ∃ u,
        (system .testNodes).Passes (staleRun ++ [.receiveAppend 0]) u ∧
        (u.node j).currentTerm = (s'.node 1).currentTerm ∧
        (u.node j).log.take 2 = (s'.node 1).log.take 2 := by
  have h : ((system .testNodes).exec staleRun).isSome := rfl
  have h' : ((system .testNodes).exec (staleRun ++ [.receiveAppend 0])).isSome := rfl
  refine ⟨_, _, (Option.some_get h).symm, (Option.some_get h').symm, rfl, rfl, rfl, ?_⟩
  rintro ⟨Q, hQ, hall⟩
  have hone : Q ⊆ {1} := by
    intro j hj
    obtain ⟨u, hu, hterm, hlog⟩ := hall j hj
    by_contra hne
    rw [Finset.mem_singleton] at hne
    have hnone := hu.of_all (p := fun u => decide (∀ j : Fin 3, j ≠ 1 →
      (u.node j).currentTerm = ((Option.get _ h').node 1).currentTerm →
      (u.node j).log.take 2 ≠ ((Option.get _ h').node 1).log.take 2)) rfl
    exact of_decide_eq_true hnone j hne hterm hlog
  have hcard := Finset.card_le_card hone
  unfold Majority at hQ
  rw [Fintype.card_fin] at hQ
  rw [Finset.card_singleton] at hcard
  omega

end Cluster

end DistributedLock.Raft
