import DistributedLock.Raft.FreshRuns
import DistributedLock.Service.Deployment
import DistributedLock.Service.Refinement

/-! The lock tables of a deployment agree. Every node applies a prefix of one sequence of
entries, and its locks that are not pending are those that the entries prescribe, so a
node that is behind shows what the others showed before. -/

namespace DistributedLock.Service

open Library Raft Table

/-! ### The locks of one node -/

namespace DsccNode

variable {ι F : Type*} [Arithmetic F] [DecidableEq F]

/-- The entries whose callbacks have returned. -/
def entries (s : DsccNode ι F) : List (LogEntry F) := s.raft.applied.map Prod.snd

/-- The condition of the table's own runs, for the next step of a call. -/
def CallFits (theta : F) (t : LockTable F) (c : AcquireCall F) (layout : Layout String) : Prop :=
  match c.pc with
  | .admission a => Replica.CallFits t ⟨.waitForAdmission, c.demand theta, a⟩
  | .removePending => t.realLocks c.agentId = none → t.eraseFits layout c.agentId
  | _ => True

instance (theta : F) (t : LockTable F) (c : AcquireCall F) (layout : Layout String) :
    Decidable (CallFits theta t c layout) := by
  unfold CallFits
  split <;> infer_instance

/-- The condition for the entry that the callback is at work on. -/
def EntryFits (t : LockTable F) (phase : ApplyPhase F) (layout : Layout String) : Prop :=
  match phase with
  | .calling _ e => e.opType = .release → t.eraseFits layout e.agentId
  | _ => True

instance (t : LockTable F) (phase : ApplyPhase F) (layout : Layout String) :
    Decidable (EntryFits t phase layout) := by
  unfold EntryFits
  split <;> infer_instance

/-- No reservation of the step, by a call itself or by a hand-off, falls on a real lock of
the same agent with another vector or threshold. -/
def Fits (theta : F) (s : DsccNode ι F) : Action ι F → Prop
  | .onCommit layout => EntryFits s.table s.raft.phase layout
  | .acquire k x => ∀ c ∈ s.acquires[k]?, CallFits theta s.table c x.layout
  | _ => True

instance (theta : F) (s : DsccNode ι F) : (a : Action ι F) → Decidable (s.Fits theta a)
  | .onCommit layout => inferInstanceAs (Decidable (EntryFits _ _ layout))
  | .acquire k x => inferInstanceAs (Decidable (∀ c ∈ s.acquires[k]?, CallFits theta _ c x.layout))
  | .raftEvent _ | .finishElection | .acquireGuard _ _ | .releaseGuard _ => isTrue trivial
  | .release _ _ | .sweep _ _ => isTrue trivial

/-- The locks that are not pending are those that the applied entries prescribe. -/
def Replays (s : DsccNode ι F) : Prop := s.table.realLocks = Locks.ofLog s.entries

/-- `wait_for_admission` changes no real lock. -/
theorem realLocks_admission {layout : Layout String} {t t' : LockTable F} {d : Demand F}
    {a a' : Admission F} (hfits : Replica.CallFits t ⟨.waitForAdmission, d, a⟩)
    (h : t.waitForAdmission layout d a = some (t', a')) : t'.realLocks = t.realLocks := by
  let r : Replica F := { table := t, calls := [⟨.waitForAdmission, d, a⟩] }
  have hstep : r.advance 0 layout =
      some { table := t', calls := [⟨.waitForAdmission, d, a'⟩] } := by
    simp [r, Replica.advance, h]
  refine (Replica.realLocks_advance ?_ hstep).1
  intro call hcall
  obtain rfl := Option.some.inj hcall
  exact hfits

theorem Replays.step [DecidableEq ι] {cfg : ServiceConfig ι F} {s s' : DsccNode ι F}
    {a : Action ι F} (h : s.Replays) (hfits : s.Fits cfg.theta a) (hstep : NodeStep cfg s a s') :
    s'.Replays := by
  unfold Replays entries at h ⊢
  cases hstep with
  | raftEvent event p hchange => rw [h, hchange.frame.1]
  | onCommit layout m e hphase =>
    simp only [Fits, EntryFits, hphase] at hfits
    rw [LockTable.realLocks_onCommit hfits, h]
    simp [Locks.ofLog]
  | acquire k x c p t c' hk hopen hmove hcall =>
    have happlied : p.applied = s.raft.applied := by cases hmove <;> rfl
    have hfits : CallFits cfg.theta s.table c x.layout := hfits c hk
    unfold CallFits at hfits
    dsimp only
    rw [happlied, ← h]
    cases hmove with
    | wait layout a a' t' hpc hwait =>
      rw [hpc] at hfits
      exact realLocks_admission hfits hwait
    | removePending layout message hpc =>
      rw [hpc] at hfits
      simp only [AcquireCall.step, hpc, Option.some.injEq, Prod.mk.injEq] at hcall
      rw [← hcall.2.1]
      exact LockTable.realLocks_removePending hfits
    | _ => rfl
  | release k x p releases hp =>
    rcases hp with rfl | ⟨-, e, rfl⟩
    · exact h
    · exact h
  | sweep k x w p t w' hk hmove => cases hmove <;> exact h
  | _ => exact h

end DsccNode

/-! ### The tables of a deployment -/

namespace Deployment

variable {ι F : Type*} [DecidableEq ι] [Arithmetic F]

/-- The step answers no request over a stale tail. -/
def FreshAnswers (s : Deployment ι F) : DeploymentAction ι F → Prop
  | .network a => FreshTail s.cluster a
  | .node _ _ => True

omit [DecidableEq ι] in
instance (s : Deployment ι F) : (d : DeploymentAction ι F) → Decidable (s.FreshAnswers d)
  | .network a => inferInstanceAs (Decidable (FreshTail s.cluster a))
  | .node _ _ => isTrue trivial

variable {cfg : DeploymentConfig ι F} {s s' : Deployment ι F} {d : DeploymentAction ι F}

theorem cluster_cases (h : s.step cfg d = some s') (hfresh : s.FreshAnswers d) :
    s'.cluster = s.cluster ∨
      ∃ b, FreshTail s.cluster b ∧ s.cluster.step cfg.cluster b = some s'.cluster := by
  cases d with
  | network a => exact Or.inr ⟨a, hfresh, (network_cases h).2.1⟩
  | node i a =>
    refine (node_cluster h).imp_right fun ⟨b, hb, hstep⟩ => ⟨b, fun call hcall => ?_, hstep⟩
    cases b with
    | handleAppendEntries k => cases hb
    | _ => cases hcall

/-- The invariant of the Raft layers, over a history that goes on. -/
theorem fresh_step [Fintype ι] {g : History ι F} (h : FreshInv cfg.cluster s.cluster g)
    (hstep : s.step cfg d = some s') (hfresh : s.FreshAnswers d) :
    ∃ g', FreshInv cfg.cluster s'.cluster g' ∧ ∀ T, g.termLog T <+: g'.termLog T := by
  rcases cluster_cases hstep hfresh with hsame | ⟨b, hb, hcluster⟩
  · exact ⟨g, hsame ▸ h, fun T => List.prefix_refl _⟩
  · exact ⟨_, h.step hcluster hb, h.known.log.grows h.known.election hcluster⟩

theorem exists_freshInv [Fintype ι] {as : List (DeploymentAction ι F)}
    {C : Deployment ι F → DeploymentAction ι F → Prop} [∀ s d, Decidable (C s d)]
    (hC : ∀ s d, C s d → s.FreshAnswers d) (h : ((system cfg).guard C).exec as = some s) :
    ∃ g, FreshInv cfg.cluster s.cluster g := by
  refine ((system cfg).guard C).invariant (P := fun s => ∃ g, FreshInv cfg.cluster s.cluster g)
    ⟨_, .init cfg.cluster⟩ ?_ h
  rintro s d s' ⟨g, hg⟩ hstep
  obtain ⟨hd, hstep⟩ := System.guard_step.mp hstep
  obtain ⟨g', hg', -⟩ := fresh_step hg hstep (hC s d hd)
  exact ⟨g', hg'⟩

variable [DecidableEq F]

/-- The condition of each node for the step of its own threads. -/
def TablesFit (theta : ι → F) (s : Deployment ι F) : DeploymentAction ι F → Prop
  | .network _ => True
  | .node i a => (s.nodes i).Fits (theta i) a

omit [DecidableEq ι] in
instance (theta : ι → F) (s : Deployment ι F) :
    (d : DeploymentAction ι F) → Decidable (s.TablesFit theta d)
  | .network _ => isTrue trivial
  | .node i a => inferInstanceAs (Decidable ((s.nodes i).Fits (theta i) a))

theorem replays_step (h : ∀ i, (s.nodes i).Replays) (hstep : s.step cfg d = some s')
    (hfits : s.TablesFit cfg.theta d) (i : ι) : (s'.nodes i).Replays := by
  rcases node_step hstep i with hsame | ⟨a, ha, hd⟩
  · rw [hsame]
    exact h i
  · refine (h i).step ?_ (DsccNode.step_cases ha).2
    rcases hd with hservice | rfl
    · cases a with
      | raftEvent event => trivial
      | _ => cases hservice
    · exact hfits

/-- Of two nodes that have applied entries the one that is behind has applied a prefix of
what the other has, and the locks of the other are its locks with the further entries
applied to them. -/
theorem tables_agree [Fintype ι] (cfg : DeploymentConfig ι F) (as : List (DeploymentAction ι F))
    (s : Deployment ι F)
    (h : ((system cfg).guard fun s d => s.FreshAnswers d ∧ s.TablesFit cfg.theta d).exec as = some s)
    (i j : ι) (hle : (s.nodes i).entries.length ≤ (s.nodes j).entries.length) :
    ∃ es, (s.nodes j).entries = (s.nodes i).entries ++ es ∧
      (s.nodes j).table.realLocks = es.foldl Locks.apply (s.nodes i).table.realLocks := by
  obtain ⟨g, hg⟩ := exists_freshInv (fun _ _ hC => hC.1) h
  have hreplays : ∀ i, (s.nodes i).Replays := by
    refine System.invariant _ (P := fun s => ∀ i, (s.nodes i).Replays) (fun i => rfl) ?_ h
    intro s d s' hs hstep
    obtain ⟨⟨-, hfits⟩, hstep⟩ := System.guard_step.mp hstep
    exact replays_step hs hstep hfits
  have hle' : (s.cluster.procs i).applied.length ≤ (s.cluster.procs j).applied.length := by
    change (s.nodes i).raft.applied.length ≤ (s.nodes j).raft.applied.length
    simpa [DsccNode.entries] using hle
  obtain ⟨es, hes⟩ : (s.nodes i).entries <+: (s.nodes j).entries :=
    (hg.applied_isPrefix hle').map Prod.snd
  refine ⟨es, hes.symm, ?_⟩
  have hi := hreplays i
  have hj := hreplays j
  unfold DsccNode.Replays at hi hj
  rw [hj, ← hes, Locks.ofLog, List.foldl_append, ← Locks.ofLog, ← hi]

/-- Node 1 holds the lock of the session that node 2 has not heard of. -/
theorem tables_agree_session :
    ∃ s : Deployment (Fin 3) ℤ, (system .test).exec sessionRun = some s ∧
      (s.nodes 1).entries = [] ∧ ((s.nodes 0).table.realLocks "a").isSome = true ∧
      ∃ es, (s.nodes 0).entries = (s.nodes 1).entries ++ es ∧
        (s.nodes 0).table.realLocks = es.foldl Locks.apply (s.nodes 1).table.realLocks := by
  let C : Deployment (Fin 3) ℤ → DeploymentAction (Fin 3) ℤ → Prop :=
    fun s d => s.FreshAnswers d ∧ s.TablesFit DeploymentConfig.test.theta d
  obtain ⟨s, hs, hbehind, hheld⟩ := ((system .test).guard C).exists_exec sessionRun
    (fun s => (s.nodes 1).entries = [] ∧ ((s.nodes 0).table.realLocks "a").isSome = true)
    (by decide +kernel)
  have hle : (s.nodes 1).entries.length ≤ (s.nodes 0).entries.length := by simp [hbehind]
  exact ⟨s, System.exec_of_guard hs, hbehind, hheld, tables_agree .test sessionRun s hs 1 0 hle⟩

end Deployment

end DistributedLock.Service
