import DistributedLock.Raft.StateMachineSafety

/-! Where `HandleAppendEntries` cuts a log. The loop looks neither at `commit_index_`
nor at `last_applied_` before it resizes, so that it keeps committed entries is due to
the leaders alone. They do in the runs without answers over stale tails; after such an
answer a committed and applied entry can be cut off. -/

namespace DistributedLock.Raft

open Library

variable {ι F : Type*}

namespace RaftNode

/-- The arguments of `log_.resize` in the loop over the entries of a request. -/
def truncations (log : List (LogEntry F)) : ℕ → List (LogEntry F) → List ℕ
  | _, [] => []
  | index, incoming :: rest =>
    match log[index]? with
    | some old =>
      if old.term ≠ incoming.term then
        index :: truncations (log.take index ++ [incoming]) (index + 1) rest
      else truncations log (index + 1) rest
    | none => truncations (log ++ [incoming]) (index + 1) rest

/-- Where `HandleAppendEntries` cuts the log of a node. -/
def cuts (n : RaftNode ι F) (r : AppendRequest F) : List ℕ :=
  if n.Accepts r then truncations n.log (r.prevLogIndex + 1) r.entries else []

/-- Past the end of the log the loop only appends. -/
theorem truncations_end {log es : List (LogEntry F)} {start : ℕ} (h : log.length ≤ start) :
    truncations log start es = [] := by
  induction es generalizing log start with
  | nil => rfl
  | cons e es ih =>
    rw [truncations, List.getElem?_eq_none h]
    exact ih (by simp; omega)

/-- A log is cut where an entry of another term comes in. -/
theorem truncations_cases {log es : List (LogEntry F)} {start index : ℕ}
    (h : index ∈ truncations log start es) :
    ∃ k old incoming, index = start + k ∧ log[index]? = some old ∧ es[k]? = some incoming ∧
      old.term ≠ incoming.term := by
  induction es generalizing log start with
  | nil => cases h
  | cons e es ih =>
    have hrest : ∀ log', index ∈ truncations log' (start + 1) es →
        ∃ k old incoming, index = start + k ∧ log'[index]? = some old ∧
          (e :: es)[k]? = some incoming ∧ old.term ≠ incoming.term := by
      intro log' h
      obtain ⟨k, old, incoming, hk, hold, hin, hne⟩ := ih h
      exact ⟨k + 1, old, incoming, by omega, hold, hin, hne⟩
    rw [truncations] at h
    split at h
    · rename_i old hold
      split_ifs at h with hne
      · rcases List.mem_cons.mp h with rfl | h
        · exact ⟨0, old, e, rfl, hold, rfl, hne⟩
        · rw [truncations_end (by simp)] at h
          cases h
      · exact hrest log h
    · rename_i hnone
      have hlen := List.getElem?_eq_none_iff.mp hnone
      rw [truncations_end (by simp; omega)] at h
      cases h

end RaftNode

/-! ### Committed entries stay -/

section Retained

variable [Fintype ι] [DecidableEq ι] [Zero F] {c : ClusterConfig ι} {s s' : Cluster ι F}
  {g : History ι F} {a : Action ι F}

/-- A request of a leader cuts no log at or below its commit index. -/
theorem CommitInv.lt_cut (h : CommitInv s g) (hk : RaftInv c s g) {call : AppendCall ι F}
    (hmem : call ∈ s.appendCalls) {index : ℕ}
    (hcut : index ∈ (s.node call.callee).cuts call.request) :
    (s.node call.callee).commitIndex < index := by
  unfold RaftNode.cuts at hcut
  split_ifs at hcut with ha
  · obtain ⟨k, old, incoming, rfl, hold, hin, hne⟩ := RaftNode.truncations_cases hcut
    obtain ⟨sent, hsent, -, hdrop, -⟩ := hk.log.accepted hmem ha
    have hleader := (h.commit call.callee).prefix_termLog hk.log hk.vote (hk.log.node _) ha.1
      (hk.log.leaderLog hmem)
    by_contra hle
    -- the committed prefix is the leader's, and so is the entry that came in
    have hold' : (g.termLog call.request.term)[call.request.prevLogIndex + 1 + k]? = some old := by
      refine prefix_iff_forall_getElem?.mp hleader _ old ?_
      rwa [List.getElem?_take_of_lt (by omega)]
    have hin' : (g.termLog call.request.term)[call.request.prevLogIndex + 1 + k]? =
        some incoming := by
      refine prefix_iff_forall_getElem?.mp hsent _ incoming ?_
      rwa [← List.getElem?_drop, hdrop]
    rw [hold', Option.some.injEq] at hin'
    exact hne (congrArg LogEntry.term hin')
  · cases hcut

omit [Fintype ι] [Zero F] in
/-- The apply thread stays at or below the commit index. -/
theorem lastApplied_step (hcommit : ∀ i, (s.node i).commitIndex ≤ (s'.node i).commitIndex)
    (h : ∀ i, (s.node i).lastApplied ≤ (s.node i).commitIndex) (hstep : s.step c a = some s')
    (i : ι) : (s'.node i).lastApplied ≤ (s'.node i).commitIndex := by
  have hle := hcommit i
  have hlast := h i
  cases Cluster.step_apply hstep i with
  | same hphase happlied hsame hhalted => exact (hsame.trans_le hlast).trans hle
  | take e hidle hrun hlt he hp =>
    rw [Cluster.node, hp]
    exact hlt
  | fault hlt he hp =>
    rw [Cluster.node, hp]
    exact hlt
  | finish m e hcall hp =>
    rw [Cluster.node, hp]
    exact hlast
  | notify hret hp =>
    rw [Cluster.node, hp]
    exact hlast

end Retained

namespace Cluster

variable [Fintype ι] [DecidableEq ι] [Zero F]

/-- Committed entries are never cut off. -/
structure Retains (c : ClusterConfig ι) (as : List (Action ι F)) (s : Cluster ι F) : Prop where
  applied : ∀ i, (s.node i).lastApplied ≤ (s.node i).commitIndex
  inLog : ∀ i, (s.node i).commitIndex < (s.node i).log.length
  monotone : ∀ u, (system c).Passes as u → ∀ i, (u.node i).commitIndex ≤ (s.node i).commitIndex
  cut : ∀ bs a cs, as = bs ++ a :: cs → ∀ u, (system c).exec bs = some u →
    ∀ call ∈ u.delivered a, ∀ index ∈ (u.node call.callee).cuts call.request,
      (u.node call.callee).commitIndex < index
  read : ∀ i, (s.node i).lastApplied < (s.node i).commitIndex →
    ((s.node i).log[(s.node i).lastApplied + 1]?).isSome

/-- What one more step of such a run keeps. -/
theorem FreshRun.applied_monotone {c : ClusterConfig ι} {as : List (Action ι F)}
    {s : Cluster ι F} (h : ((system c).guard FreshTail).exec as = some s) :
    (∀ i, (s.node i).lastApplied ≤ (s.node i).commitIndex) ∧
      ∀ u, (system c).Passes as u → ∀ i, (u.node i).commitIndex ≤ (s.node i).commitIndex := by
  refine (System.runInvariant _ (P := fun as s => ((system c).guard FreshTail).exec as = some s ∧
    (∀ i, (s.node i).lastApplied ≤ (s.node i).commitIndex) ∧
      ∀ u, (system c).Passes as u → ∀ i, (u.node i).commitIndex ≤ (s.node i).commitIndex)
    ⟨rfl, fun i => ?_, fun u hu i => ?_⟩ ?_ h).2
  · obtain ⟨-, -, hlast, -⟩ := RaftNode.start_frame (F := F) (c.node i)
    exact hlast.le.trans (Nat.zero_le _)
  · rw [hu.of_nil]
    exact le_rfl
  · rintro as s a s' ⟨hrun, happlied, hmono⟩ hstep
    have hrun' := (System.exec_concat _).mpr ⟨s, hrun, hstep⟩
    have hcommit : ∀ i, (s.node i).commitIndex ≤ (s'.node i).commitIndex := by
      obtain ⟨g, hfresh⟩ := exists_freshRun c hrun
      exact hfresh.commit.commitIndex_le hfresh.known (System.guard_step.mp hstep).2
    refine ⟨hrun', lastApplied_step hcommit happlied (System.guard_step.mp hstep).2,
      fun u hu i => ?_⟩
    rcases hu.of_concat with hu | hu
    · exact (hmono u hu i).trans (hcommit i)
    · obtain rfl := Option.some.inj (hu.symm.trans (System.exec_of_guard hrun'))
      exact le_rfl

theorem committed_retained (c : ClusterConfig ι) (as : List (Action ι F)) (s : Cluster ι F)
    (h : ((system c).guard FreshTail).exec as = some s) : Retains c as s := by
  obtain ⟨happlied, hmono⟩ := FreshRun.applied_monotone h
  obtain ⟨g, hrun⟩ := exists_freshRun c h
  have hlog : ∀ i, (s.node i).commitIndex < (s.node i).log.length :=
    fun i => (hrun.commit.commit i).1
  refine ⟨happlied, hlog, hmono, ?_, fun i hlt => ?_⟩
  · rintro bs a cs rfl u hu call hcall index hcut
    -- the run up to this step meets the condition too
    rw [System.exec_append] at h
    obtain ⟨u', hbefore, -⟩ := Option.bind_eq_some_iff.mp h
    obtain rfl := Option.some.inj (hu.symm.trans (System.exec_of_guard hbefore))
    obtain ⟨g', hfresh⟩ := exists_freshRun c hbefore
    refine hfresh.commit.lt_cut hfresh.known ?_ hcut
    cases a with
    | handleAppendEntries k => exact List.mem_of_getElem? hcall
    | _ => cases hcall
  · rw [List.getElem?_eq_getElem (Nat.lt_of_le_of_lt hlt (hlog i))]
    rfl

theorem committed_retained_healthy :
    ∃ s : Cluster (Fin 3) ℕ, (system .testNodes).exec healthyRun = some s ∧
      (s.node 0).lastApplied = 1 ∧ Retains .testNodes healthyRun s := by
  obtain ⟨s, hs, hlast⟩ := System.exists_exec ((system .testNodes).guard FreshTail) healthyRun
    (fun s => (s.node 0).lastApplied = 1) (by decide +kernel)
  exact ⟨s, System.exec_of_guard hs, hlast, committed_retained .testNodes healthyRun s hs⟩

/-- After the diverging run node 1, which leads term 3, sends node 2 its log again. -/
def cuttingRun : List (Action (Fin 3) ℕ) :=
  divergingRun ++ [.replicate 0 1, .handleAppendEntries 3, .receiveAppend 3, .replicate 0 1]

/-- Node 2 cuts off the entry it has committed and applied. -/
theorem committed_cut_off :
    ∃ s : Cluster (Fin 3) ℕ,
      (system .testNodes).exec (cuttingRun ++ [.handleAppendEntries 4]) = some s ∧
      ¬ Retains .testNodes (cuttingRun ++ [.handleAppendEntries 4]) s := by
  obtain ⟨u, hu, hstep, call, hcall, hcut, hcommit⟩ := System.exists_exec (system .testNodes)
    cuttingRun (fun u => (u.step .testNodes (.handleAppendEntries 4)).isSome ∧
      ∃ call ∈ u.delivered (.handleAppendEntries 4),
        1 ∈ (u.node call.callee).cuts call.request ∧ (u.node call.callee).commitIndex = 1)
    (by decide +kernel)
  obtain ⟨s, hs⟩ := Option.isSome_iff_exists.mp hstep
  refine ⟨s, (System.exec_concat _).mpr ⟨u, hu, hs⟩, fun hretains => ?_⟩
  have hlt := hretains.cut cuttingRun _ [] rfl u hu call hcall 1 hcut
  rw [hcommit] at hlt
  exact absurd hlt (lt_irrefl 1)

end Cluster

end DistributedLock.Raft
