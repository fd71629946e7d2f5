import DistributedLock.Library.Stamped
import DistributedLock.Raft.Effects

/-! The apply thread. It raises `last_applied_` before it calls `on_commit_`, so
between these two steps `WaitUntilApplied` already answers for an entry whose
callback has not returned. -/

namespace DistributedLock.Raft

open Library

variable {ι F : Type*}

/-- What a step can do to what the apply thread owns. -/
inductive ApplyChange (p p' : Process ι F) : Prop
  | same (hphase : p'.phase = p.phase) (happlied : p'.applied = p.applied)
    (hlast : p'.node.lastApplied = p.node.lastApplied)
    (hhalted : p.halted = true → p'.halted = true)
  | take (e : LogEntry F) (hidle : p.phase = .idle) (hrun : p.halted = false)
    (hlt : p.node.lastApplied < p.node.commitIndex)
    (he : p.node.log[p.node.lastApplied + 1]? = some e)
    (h : p' = { p with
      node := { p.node with lastApplied := p.node.lastApplied + 1 }
      phase := .calling (p.node.lastApplied + 1) e })
  | fault (hlt : p.node.lastApplied < p.node.commitIndex)
    (he : p.node.log[p.node.lastApplied + 1]? = none)
    (h : p' = { p with
      node := { p.node with lastApplied := p.node.lastApplied + 1 }, halted := true })
  | finish (m : ℕ) (e : LogEntry F) (hcall : p.phase = .calling m e)
    (h : p' = { p with phase := .returned, applied := p.applied ++ [(m, e)] })
  | notify (hret : p.phase = .returned) (h : p' = { p with phase := .idle })

namespace Cluster

variable [DecidableEq ι] {c : ClusterConfig ι} {s s' : Cluster ι F} {a : Action ι F}

theorem applyChange_setProc {i : ι} {p : Process ι F} (h : ApplyChange (s.procs i) p) (j : ι) :
    ApplyChange (s.procs j) ((s.setProc i p).procs j) := by
  rcases eq_or_ne j i with rfl | hj
  · simpa using h
  · simp only [setProc_procs, Function.update_of_ne hj]
    exact .same rfl rfl rfl id

theorem step_apply (hstep : s.step c a = some s') (j : ι) :
    ApplyChange (s.procs j) (s'.procs j) := by
  cases a with
  | startElection i =>
    obtain ⟨-, -, rfl⟩ := startElection_cases hstep
    refine applyChange_setProc ?_ j
    exact .same rfl rfl rfl id
  | sendVoteRequest i =>
    obtain ⟨e, peer, rest, -, -, -, rfl⟩ := sendVoteRequest_cases hstep
    refine applyChange_setProc ?_ j
    exact .same rfl rfl rfl id
  | handleRequestVote k =>
    obtain ⟨call, -, -, rfl⟩ := handleRequestVote_cases hstep
    refine applyChange_setProc ?_ j
    exact .same rfl rfl (RaftNode.handleRequestVote_frame _ _).2.2.1 id
  | receiveVote i =>
    obtain ⟨e, k, call, r, -, -, -, -, rfl⟩ := receiveVote_cases hstep
    refine applyChange_setProc ?_ j
    rcases Process.countVote_cases (c.node i) (s.procs i) e r with
      ⟨-, hcv⟩ | hcv | ⟨-, -, -, -, hcv⟩ | ⟨v, -, hcv⟩ <;> rw [hcv] <;> exact .same rfl rfl rfl id
  | voteRequestFailed i =>
    obtain ⟨e, -, rfl⟩ := voteRequestFailed_cases hstep
    refine applyChange_setProc ?_ j
    exact .same rfl rfl rfl id
  | finishElection i =>
    obtain rfl := finishElection_cases hstep
    refine applyChange_setProc ?_ j
    exact .same rfl rfl rfl id
  | replicate i peer =>
    obtain ⟨-, -, ⟨m, t, -, rfl⟩ | rfl⟩ := replicate_cases hstep <;>
      refine applyChange_setProc ?_ j
    · exact .same rfl rfl rfl id
    · exact .same rfl rfl rfl fun _ => rfl
  | handleAppendEntries k =>
    obtain ⟨call, -, -, rfl⟩ := handleAppendEntries_cases hstep
    refine applyChange_setProc ?_ j
    exact .same rfl rfl (RaftNode.handleAppendEntries_lastApplied _ _) id
  | receiveAppend k =>
    obtain ⟨call, r, -, -, rfl⟩ := receiveAppend_cases hstep
    refine applyChange_setProc ?_ j
    exact .same rfl rfl (RaftNode.handleAppendResponse_log _ _ _ _ _).2 id
  | propose i e =>
    obtain ⟨-, rfl⟩ := propose_cases hstep
    refine applyChange_setProc ?_ j
    exact .same rfl rfl (RaftNode.appendStamped_frame _ _ _).2.2.2.2.2.1 id
  | checkProposal k timedOut =>
    obtain ⟨call, -, -, ⟨-, rfl⟩ | rfl | rfl⟩ := checkProposal_cases hstep <;>
      exact .same rfl rfl rfl id
  | appendLocalEntry i e =>
    obtain ⟨-, rfl⟩ := appendLocalEntry_cases hstep
    refine applyChange_setProc ?_ j
    exact .same rfl rfl (RaftNode.appendStamped_frame _ _ _).2.2.2.2.2.1 id
  | applyTake i =>
    obtain ⟨hrun, hidle, hlt, ⟨e, he, rfl⟩ | ⟨he, rfl⟩⟩ := applyTake_cases hstep <;>
      refine applyChange_setProc ?_ j
    · exact .take e hidle hrun hlt he rfl
    · exact .fault hlt he rfl
  | applyReturn i =>
    obtain ⟨m, e, hcall, rfl⟩ := applyReturn_cases hstep
    refine applyChange_setProc ?_ j
    exact .finish m e hcall rfl
  | applyNotify i =>
    obtain ⟨hret, rfl⟩ := applyNotify_cases hstep
    refine applyChange_setProc ?_ j
    exact .notify hret rfl

end Cluster

variable {p p' : Process ι F}

/-- The calls change only when the next one starts. -/
theorem ApplyChange.calls_cases (h : ApplyChange p p') :
    (p'.calls = p.calls ∧
        (p'.halted = false → p.halted = false ∧ p'.node.lastApplied = p.node.lastApplied)) ∨
      (p.halted = false ∧ p.node.lastApplied < p.node.commitIndex ∧
        p'.node = { p.node with lastApplied := p.node.lastApplied + 1 } ∧
        ∃ e, p.node.log[p.node.lastApplied + 1]? = some e ∧
          p'.calls = p.calls ++ [(p.node.lastApplied + 1, e)]) := by
  cases h with
  | same hphase happlied hlast hhalted =>
    refine Or.inl ⟨by simp only [Process.calls, hphase, happlied], fun h => ⟨?_, hlast⟩⟩
    cases hp : p.halted with
    | false => rfl
    | true => exact absurd (hhalted hp) (by simp [h])
  | take e hidle hrun hlt he h =>
    subst h
    exact Or.inr ⟨hrun, hlt, rfl, e, he, by simp [Process.calls, hidle]⟩
  | fault hlt he h =>
    subst h
    exact Or.inl ⟨rfl, fun h => by cases h⟩
  | finish m e hcall h =>
    subst h
    exact Or.inl ⟨by simp [Process.calls, hcall], fun h => ⟨h, rfl⟩⟩
  | notify hret h =>
    subst h
    exact Or.inl ⟨by simp [Process.calls, hret], fun h => ⟨h, rfl⟩⟩

/-- The calls of `on_commit_` go through the indices one by one, and a running
process has started them up to `last_applied_`. -/
structure ApplyOk (p : Process ι F) : Prop where
  index : ∀ (k : ℕ) m e, p.calls[k]? = some (m, e) → m = k + 1
  count : p.halted = false → p.calls.length = p.node.lastApplied

namespace ApplyOk

theorem start [Zero F] (cfg : NodeConfig ι) : ApplyOk (Process.start cfg : Process ι F) := by
  refine ⟨by simp [Process.calls, Process.start], fun _ => ?_⟩
  rw [Process.start, (RaftNode.start_frame cfg).2.2.1]
  rfl

theorem step (h : ApplyOk p) (hstep : ApplyChange p p') : ApplyOk p' := by
  rcases hstep.calls_cases with ⟨hcalls, hrun⟩ | ⟨hrun, -, hnode, e, -, hcalls⟩
  · refine ⟨by rw [hcalls]; exact h.index, fun hrun' => ?_⟩
    obtain ⟨h1, h2⟩ := hrun hrun'
    rw [hcalls, h2]
    exact h.count h1
  · have hcount := h.count hrun
    refine ⟨fun k m e' hk => ?_, fun _ => by simp [hcalls, hnode, hcount]⟩
    rw [hcalls] at hk
    rcases getElem?_of_concat hk with hold | ⟨rfl, heq⟩
    · exact h.index k m e' hold
    · obtain ⟨rfl, -⟩ := Prod.mk.inj heq
      omega

theorem applied_isPrefix (p : Process ι F) : p.applied <+: p.calls := by
  unfold Process.calls
  split
  · exact List.prefix_append _ _
  · exact List.prefix_refl _

theorem returned (h : ApplyOk p) {k : ℕ} :
    (∃ e, (k, e) ∈ p.applied) ↔ 1 ≤ k ∧ k ≤ p.applied.length := by
  have hcalls : ∀ j m e, p.applied[j]? = some (m, e) → m = j + 1 := fun j m e hj =>
    h.index j m e (prefix_iff_forall_getElem?.mp (applied_isPrefix p) j _ hj)
  constructor
  · rintro ⟨e, hmem⟩
    obtain ⟨j, hj⟩ := List.mem_iff_getElem?.mp hmem
    have hlt := (List.getElem?_eq_some_iff.mp hj).1
    have := hcalls j k e hj
    omega
  · rintro ⟨hpos, hle⟩
    have hj : p.applied[k - 1]? = some (p.applied[k - 1].1, p.applied[k - 1].2) :=
      List.getElem?_eq_getElem (by omega)
    have hk : p.applied[k - 1].1 = k := by
      have := hcalls _ _ _ hj
      omega
    exact ⟨_, hk ▸ List.mem_of_getElem? hj⟩

/-- The callback of every index up to `last_applied_` has returned, but for the one
in progress. -/
theorem returned_iff (h : ApplyOk p) (hrun : p.halted = false) {m : ℕ}
    (hm : m ≤ p.node.lastApplied) :
    (∀ k, 1 ≤ k → k ≤ m → ∃ e, (k, e) ∈ p.applied) ↔ ∀ e, p.phase ≠ .calling m e := by
  have hcount := h.count hrun
  have hiff : (∀ k, 1 ≤ k → k ≤ m → ∃ e, (k, e) ∈ p.applied) ↔ m ≤ p.applied.length := by
    constructor
    · intro hall
      rcases Nat.eq_zero_or_pos m with rfl | hpos
      · omega
      · exact (h.returned.mp (hall m hpos le_rfl)).2
    · exact fun hle k hpos hk => h.returned.mpr ⟨hpos, hk.trans hle⟩
  rw [hiff]
  cases hphase : p.phase with
  | calling m' e =>
    have hcalls : p.calls = p.applied ++ [(m', e)] := by simp [Process.calls, hphase]
    have hm' := h.index p.applied.length m' e (by simp [hcalls])
    rw [hcalls, List.length_append, List.length_singleton] at hcount
    constructor
    · rintro hle e' heq
      cases heq
      omega
    · intro hne
      have : m ≠ m' := fun heq => hne e (by rw [heq])
      omega
  | _ =>
    have hcalls : p.calls = p.applied := by simp [Process.calls, hphase]
    rw [hcalls] at hcount
    exact ⟨fun _ e he => (by cases he), fun _ => by omega⟩

end ApplyOk

namespace Cluster

variable [DecidableEq ι] [Zero F]

theorem applyOk (c : ClusterConfig ι) {as : List (Action ι F)} {s : Cluster ι F}
    (h : (system c).exec as = some s) (i : ι) : ApplyOk (s.procs i) :=
  (system c).invariant (P := fun s => ∀ i, ApplyOk (s.procs i)) (fun i => .start (c.node i))
    (fun _ _ _ hok hstep i => (hok i).step (step_apply hstep i)) h i

/-- When `WaitUntilApplied` finds the index applied on a running node, the callback
has returned for every index up to it unless it is at work on that very index. -/
theorem wait_until_applied (c : ClusterConfig ι) (as : List (Action ι F)) (s : Cluster ι F)
    (h : (system c).exec as = some s) (i : ι) (hrun : (s.procs i).halted = false) (index : ℕ)
    (hw : (s.node i).waitUntilApplied index = true) :
    (∀ k, 1 ≤ k → k ≤ index → ∃ e, (k, e) ∈ (s.procs i).applied) ↔
      ∀ e, (s.procs i).phase ≠ .calling index e :=
  (applyOk c h i).returned_iff hrun (of_decide_eq_true hw)

/-- Node 1 commits an entry with node 2, and its apply thread takes the index. -/
def applyRun : List (Action (Fin 3) ℕ) :=
  [.startElection 0, .sendVoteRequest 0, .handleRequestVote 0, .receiveVote 0, .finishElection 0,
    .appendLocalEntry 0 (.acquire "agent" [1] 1), .replicate 0 1, .handleAppendEntries 0,
    .receiveAppend 0, .applyTake 0]

/-- `WaitUntilApplied` answers before the callback has returned. -/
theorem wait_until_applied_early :
    ∃ s : Cluster (Fin 3) ℕ, (system .testNodes).exec applyRun = some s ∧
      (s.procs 0).halted = false ∧ (s.node 0).waitUntilApplied 1 = true ∧
      ¬ ∃ e, (1, e) ∈ (s.procs 0).applied := by
  have h : ((system .testNodes).exec applyRun).isSome := rfl
  exact ⟨_, (Option.some_get h).symm, rfl, rfl, fun ⟨e, he⟩ => List.not_mem_nil he⟩

theorem wait_until_applied_returned :
    ∃ s : Cluster (Fin 3) ℕ, (system .testNodes).exec (applyRun ++ [.applyReturn 0]) = some s ∧
      ∀ k, 1 ≤ k → k ≤ 1 → ∃ e, (k, e) ∈ (s.procs 0).applied := by
  have h : ((system .testNodes).exec (applyRun ++ [.applyReturn 0])).isSome := rfl
  refine ⟨_, (Option.some_get h).symm, (wait_until_applied .testNodes _ _
    (Option.some_get h).symm 0 rfl 1 rfl).mpr fun e he => ?_⟩
  cases he

end Cluster

end DistributedLock.Raft
