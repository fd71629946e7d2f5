import DistributedLock.Library.System
import DistributedLock.Table.Operations

/-! The table of one node, driven by the replicated log on one side and by the calls
of `wait_for_admission` and `remove_pending` on the other. The locks that are not
pending should be those the log prescribes. `insert_pending_locked` writes its
vector over a lock that is there, pending or not, so a second request of an agent
that holds a lock changes it on this node alone. -/

namespace DistributedLock.Table

open Library Raft

variable {F : Type*}

/-! ### The locks that the log prescribes -/

/-- Locks by agent: what each protects, and with which threshold. -/
abbrev Locks (F : Type*) := String → Option (List F × F)

def Locks.apply (m : Locks F) (entry : LogEntry F) : Locks F :=
  match entry.opType with
  | .acquire => Function.update m entry.agentId (some (entry.embedding, entry.theta))
  | .release => Function.update m entry.agentId none

def Locks.ofLog (entries : List (LogEntry F)) : Locks F :=
  entries.foldl Locks.apply fun _ => none

/-- What an active lock stands for in the log: nothing while it is pending. -/
def SemanticLock.real (lock : SemanticLock F) : Option (List F × F) :=
  if lock.pending then none else some (lock.centroid, lock.threshold)

def LockTable.realLocks (t : LockTable F) : Locks F := fun id =>
  (t.active.find id).bind SemanticLock.real

/-! ### The runs of one table -/

inductive CallKind where
  | waitForAdmission | acquire
  deriving DecidableEq

structure Call (F : Type*) where
  kind : CallKind
  demand : Demand F
  admission : Admission F := .gate

/-- A table, the blocking calls made on it, and the log entries applied to it. -/
structure Replica (F : Type*) where
  table : LockTable F
  calls : List (Call F) := []
  applied : List (LogEntry F) := []

namespace Replica

inductive Action (F : Type*) where
  | request (kind : CallKind) (demand : Demand F)
  | advance (call : ℕ) (layout : Layout String)
  | removePending (agentId : String) (layout : Layout String)
  | apply (entry : LogEntry F) (layout : Layout String)
  | beginLeaderSweep
  | endLeaderSweep

variable [Arithmetic F]

def advance (r : Replica F) (k : ℕ) (layout : Layout String) : Option (Replica F) :=
  match r.calls[k]? with
  | some call =>
    let next := match call.kind with
      | .waitForAdmission => r.table.waitForAdmission layout call.demand call.admission
      | .acquire => r.table.acquire layout call.demand call.admission
    next.map fun (table, admission) =>
      { r with table := table, calls := r.calls.set k { call with admission := admission } }
  | none => none

def step (r : Replica F) : Action F → Option (Replica F)
  | .request kind demand => some { r with calls := r.calls ++ [{ kind, demand }] }
  | .advance k layout => r.advance k layout
  | .removePending agentId layout =>
    some { r with table := (r.table.removePending layout agentId).1 }
  | .apply entry layout =>
    some { r with table := r.table.onCommit layout entry, applied := r.applied ++ [entry] }
  | .beginLeaderSweep => some { r with table := r.table.beginLeaderSweep.1 }
  | .endLeaderSweep => some { r with table := r.table.endLeaderSweep }

def system (F : Type*) [Arithmetic F] : System (Replica F) (Action F) where
  init := { table := .empty }
  step := step

end Replica

namespace LockTable

/-! ### What becomes of the real locks -/

section

variable (layout : Layout String) (t : LockTable F) (a : String) (e : List F) (theta : F)

/-- A reservation of agent `a` would find no real lock of another kind. -/
def Fits : Prop := ∀ v ∈ t.realLocks a, v = (e, theta)

instance [DecidableEq F] : Decidable (t.Fits a e theta) :=
  inferInstanceAs (Decidable (∀ v ∈ t.realLocks a, v = (e, theta)))

theorem realLocks_insertPending (h : t.Fits a e theta) :
    (t.insertPending layout a e theta).realLocks = t.realLocks := by
  obtain ⟨lock, hs, hcentroid, hthreshold, hpending⟩ := t.insertPending_stores layout a e theta
  funext id
  rcases eq_or_ne id a with rfl | hid
  · unfold Fits at h
    cases hfind : t.active.find id with
    | none =>
      rw [hfind, Option.map_none, Option.getD_none] at hpending
      simp [realLocks, hs.find_self, hfind, SemanticLock.real, hpending]
    | some old =>
      rw [hfind, Option.map_some, Option.getD_some] at hpending
      cases hold : old.pending with
      | true => simp [realLocks, hs.find_self, hfind, SemanticLock.real, hpending, hold]
      | false =>
        have hsame := h (old.centroid, old.threshold)
          (by simp [realLocks, hfind, SemanticLock.real, hold])
        simp [realLocks, hs.find_self, hfind, SemanticLock.real, hpending, hold, hcentroid,
          hthreshold, hsame]
  · simp [realLocks, hs.find_of_ne hid]

theorem realLocks_applyAcquire :
    (t.applyAcquire layout a e theta).realLocks =
      Function.update t.realLocks a (some (e, theta)) := by
  obtain ⟨lock, hs, rfl, rfl, hpending⟩ := t.applyAcquire_stores layout a e theta
  funext id
  rcases eq_or_ne id a with rfl | hid
  · simp [realLocks, hs.find_self, SemanticLock.real, hpending]
  · simp [realLocks, hs.find_of_ne hid, hid]

theorem realLocks_erase : (t.erase a).realLocks = Function.update t.realLocks a none := by
  funext id
  rcases eq_or_ne id a with rfl | hid
  · simp [realLocks, erase]
  · simp [realLocks, erase, UnorderedMap.find_erase_of_ne _ hid, hid]

theorem realLocks_enqueue (w : ℕ) : (t.enqueue a w).realLocks = t.realLocks := by
  funext id
  simp only [realLocks, find_enqueue, Option.bind_map]
  congr 1
  funext lock
  simp only [Function.comp_apply]
  split_ifs <;> rfl

theorem realLocks_setWaiter (w : ℕ) (entry : WaitQueueEntry F) :
    (t.setWaiter w entry).realLocks = t.realLocks := rfl

end

variable [Arithmetic F]

/-- No waiter that a rebalancing grants writes over a real lock of another kind. -/
def rebalanceFits [DecidableEq F] (layout : Layout String) (t : LockTable F) : List ℕ → Bool
  | [] => true
  | w :: waiters =>
    let entry := t.waiter w
    match t.findConflict entry.embedding entry.theta with
    | some (id, _) => rebalanceFits layout (t.requeue w id) waiters
    | none =>
      decide (t.Fits entry.waitingAgentId entry.embedding entry.theta) &&
        rebalanceFits layout (t.grant layout w) waiters

variable [DecidableEq F]

theorem realLocks_rebalance {layout : Layout String} {t : LockTable F} {granted ws : List ℕ}
    (h : rebalanceFits layout t ws = true) :
    (rebalance layout t granted ws).1.realLocks = t.realLocks := by
  refine (rebalance_induction
    (P := fun t' ws => rebalanceFits layout t' ws = true ∧ t'.realLocks = t.realLocks) layout
    ?_ ?_ ⟨h, rfl⟩).2
  · rintro t' w ws id s ⟨hfits, hreal⟩ hc
    simp only [rebalanceFits, hc] at hfits
    refine ⟨hfits, ?_⟩
    rw [requeue, realLocks_enqueue, realLocks_setWaiter, hreal]
  · rintro t' w ws ⟨hfits, hreal⟩ hc
    simp only [rebalanceFits, hc, Bool.and_eq_true, decide_eq_true_eq] at hfits
    refine ⟨hfits.2, ?_⟩
    rw [grant, realLocks_setWaiter, realLocks_insertPending _ _ _ _ _ hfits.1, hreal]

theorem realLocks_removeLock {layout : Layout String} {t : LockTable F} {a : String}
    {lock : SemanticLock F} (h : rebalanceFits layout (t.erase a) lock.waiters = true) :
    (t.removeLock layout a lock).1.realLocks = Function.update t.realLocks a none := by
  rw [removeLock, realLocks_rebalance h, realLocks_erase]

/-! ### What the callback and the rollback do -/

/-- The rebalancing that erasing the lock of `a` would start. -/
def eraseFits (layout : Layout String) (t : LockTable F) (a : String) : Prop :=
  ∀ lock ∈ t.active.find a, rebalanceFits layout (t.erase a) lock.waiters = true

instance (layout : Layout String) (t : LockTable F) (a : String) :
    Decidable (t.eraseFits layout a) :=
  inferInstanceAs (Decidable (∀ lock ∈ t.active.find a, _))

theorem realLocks_removePending {layout : Layout String} {t : LockTable F} {a : String}
    (h : t.realLocks a = none → t.eraseFits layout a) :
    (t.removePending layout a).1.realLocks = t.realLocks := by
  rcases t.removePending_cases layout a with he | ⟨lock, hfind, hpending, he⟩ <;> rw [he]
  have hnone : t.realLocks a = none := by simp [realLocks, hfind, SemanticLock.real, hpending]
  rw [realLocks_removeLock (h hnone lock hfind), ← hnone, Function.update_eq_self]

theorem realLocks_release {layout : Layout String} {t : LockTable F} {a : String}
    (h : t.eraseFits layout a) :
    (t.release layout a).1.realLocks = Function.update t.realLocks a none := by
  rcases t.release_cases layout a with ⟨hfind, he⟩ | ⟨lock, hfind, he⟩ <;> rw [he]
  · have hnone : t.realLocks a = none := by simp [realLocks, hfind]
    rw [← hnone, Function.update_eq_self]
  · exact realLocks_removeLock (h lock hfind)

/-- One entry of the log, on this table and on the locks the log prescribes. -/
theorem realLocks_onCommit {layout : Layout String} {t : LockTable F} {entry : LogEntry F}
    (h : entry.opType = .release → t.eraseFits layout entry.agentId) :
    (t.onCommit layout entry).realLocks = t.realLocks.apply entry := by
  unfold onCommit Locks.apply
  cases hop : entry.opType with
  | acquire => exact realLocks_applyAcquire layout t _ _ _
  | release => exact realLocks_release (h hop)

omit [DecidableEq F] in
/-- A turn of the waiting loop changes a real lock only by its reservation. -/
theorem realLocks_waitLoop {t : LockTable F} {d : Demand F} {layout : Layout String}
    (trace : AcquireTrace F)
    (h : t.findConflict d.embedding d.threshold = none →
      t.Fits d.agentId d.embedding d.threshold) :
    (t.waitLoop (reservePending layout d) d trace).1.realLocks = t.realLocks := by
  unfold waitLoop
  cases hc : t.findConflict d.embedding d.threshold with
  | none => exact realLocks_insertPending layout t _ _ _ (h hc)
  | some conflict => exact realLocks_enqueue _ _ _

end LockTable

/-! ### Agreement with the log -/

/-- The next step of the call goes through the waiting loop. -/
def Call.loops (t : LockTable F) (call : Call F) : Bool :=
  match call.admission with
  | .gate => true
  | .asleep w _ => !(t.waiter w).granted
  | .returned _ => false

namespace Replica

variable [Arithmetic F] [DecidableEq F]

/-- The call is one of `wait_for_admission`, and if its next step finds no conflict it
reserves nothing over a real lock of another kind. -/
def CallFits (t : LockTable F) (call : Call F) : Prop :=
  call.kind = .waitForAdmission ∧ (call.loops t = true →
    t.findConflict call.demand.embedding call.demand.threshold = none →
      t.Fits call.demand.agentId call.demand.embedding call.demand.threshold)

instance (t : LockTable F) (call : Call F) : Decidable (CallFits t call) :=
  inferInstanceAs (Decidable (_ ∧ (_ → _ → _)))

/-- No reservation of the step, by the call itself or by a hand-off, falls on a real
lock of the same agent with another vector or threshold. -/
def Fits (r : Replica F) : Action F → Prop
  | .advance k _ => ∀ call ∈ r.calls[k]?, CallFits r.table call
  | .removePending agentId layout =>
    r.table.realLocks agentId = none → r.table.eraseFits layout agentId
  | .apply entry layout => entry.opType = .release → r.table.eraseFits layout entry.agentId
  | _ => True

instance (r : Replica F) : (a : Action F) → Decidable (r.Fits a)
  | .advance k _ => inferInstanceAs (Decidable (∀ call ∈ r.calls[k]?, CallFits r.table call))
  | .removePending agentId layout =>
    inferInstanceAs (Decidable
      (r.table.realLocks agentId = none → r.table.eraseFits layout agentId))
  | .apply entry layout =>
    inferInstanceAs (Decidable (entry.opType = .release → r.table.eraseFits layout entry.agentId))
  | .request _ _ | .beginLeaderSweep | .endLeaderSweep => isTrue trivial

theorem realLocks_advance {r r' : Replica F} {k : ℕ} {layout : Layout String}
    (hfits : r.Fits (.advance k layout)) (hstep : r.advance k layout = some r') :
    r'.table.realLocks = r.table.realLocks ∧ r'.applied = r.applied := by
  unfold advance at hstep
  cases hk : r.calls[k]? with
  | none => simp [hk] at hstep
  | some call =>
    obtain ⟨hkind, hloop⟩ := hfits call hk
    simp only [hk, hkind, Option.map_eq_some_iff] at hstep
    obtain ⟨⟨t', admission⟩, hnext, rfl⟩ := hstep
    refine ⟨?_, rfl⟩
    unfold Call.loops at hloop
    cases hadm : call.admission with
    | gate =>
      simp only [hadm, LockTable.waitForAdmission] at hnext hloop
      split_ifs at hnext
      obtain rfl := congrArg Prod.fst (Option.some.inj hnext)
      exact LockTable.realLocks_waitLoop _ (hloop trivial)
    | asleep w trace =>
      simp only [hadm, LockTable.waitForAdmission, LockTable.wake] at hnext hloop
      split_ifs at hnext with hready hgranted
      · obtain rfl := congrArg Prod.fst (Option.some.inj hnext)
        exact LockTable.realLocks_setWaiter _ _ _
      · obtain rfl := congrArg Prod.fst (Option.some.inj hnext)
        exact LockTable.realLocks_waitLoop (t := r.table.setWaiter w _) _
          (hloop (by simp [hgranted]))
    | returned trace => simp [hadm, LockTable.waitForAdmission] at hnext

theorem realLocks_step {r r' : Replica F} {a : Action F} (hfits : r.Fits a)
    (hstep : r.step a = some r') (h : r.table.realLocks = Locks.ofLog r.applied) :
    r'.table.realLocks = Locks.ofLog r'.applied := by
  cases a with
  | request kind demand =>
    obtain rfl := Option.some.inj hstep
    exact h
  | advance k layout =>
    obtain ⟨hreal, happlied⟩ := realLocks_advance hfits hstep
    rw [hreal, happlied, h]
  | removePending agentId layout =>
    obtain rfl := Option.some.inj hstep
    rw [LockTable.realLocks_removePending hfits, h]
  | apply entry layout =>
    obtain rfl := Option.some.inj hstep
    rw [LockTable.realLocks_onCommit hfits, h]
    simp [Locks.ofLog]
  | beginLeaderSweep =>
    obtain rfl := Option.some.inj hstep
    exact h
  | endLeaderSweep =>
    obtain rfl := Option.some.inj hstep
    exact h

/-- On every node the locks that are not pending are those that the applied entries
prescribe, in the runs without a reservation over a real lock of another kind. -/
theorem replicas_agree (as : List (Action F)) (r : Replica F)
    (h : ((system F).guard Fits).exec as = some r) :
    r.table.realLocks = Locks.ofLog r.applied :=
  ((system F).guard Fits).invariant (P := fun r => r.table.realLocks = Locks.ofLog r.applied) rfl
    (fun _ _ _ hr hstep =>
      realLocks_step (System.guard_step.mp hstep).1 (System.guard_step.mp hstep).2 hr) h

/-- Agents "a" and "b" want the same vector: "b" waits, is handed the slot when the
lock of "a" is released, and cancels. -/
def handOffRun : List (Action ℤ) :=
  [.request .waitForAdmission ⟨"a", [1, 0], 1⟩, .advance 0 .newest,
    .request .waitForAdmission ⟨"b", [1, 0], 1⟩, .advance 1 .newest,
    .apply (.acquire "a" [1, 0] 1) .newest, .apply (.acquire "c" [0, 1] 1) .newest,
    .apply (.release "a") .newest, .advance 1 .newest, .removePending "b" .newest]

theorem replicas_agree_handOff :
    ∃ r : Replica ℤ, (system ℤ).exec handOffRun = some r ∧
      r.table.realLocks = Locks.ofLog r.applied := by
  have h : (((system ℤ).guard Fits).exec handOffRun).isSome := rfl
  have hrun := (Option.some_get h).symm
  exact ⟨_, System.exec_of_guard hrun, replicas_agree _ _ hrun⟩

/-- Agent "a" holds a lock and asks for another vector, which conflicts with nothing. -/
def overwritingRun : List (Action ℤ) :=
  [.apply (.acquire "a" [1, 0] 1) .newest, .request .waitForAdmission ⟨"a", [0, 1], 1⟩,
    .advance 0 .newest]

theorem replicas_disagree :
    ∃ r : Replica ℤ, (system ℤ).exec overwritingRun = some r ∧
      r.applied = [.acquire "a" [1, 0] 1] ∧
      r.table.realLocks "a" = some ([0, 1], 1) ∧
      Locks.ofLog r.applied "a" = some ([1, 0], 1) ∧
      r.table.realLocks ≠ Locks.ofLog r.applied := by
  have h : ((system ℤ).exec overwritingRun).isSome := rfl
  refine ⟨_, (Option.some_get h).symm, rfl, rfl, rfl, fun heq => ?_⟩
  have hlock : some (([0, 1] : List ℤ), (1 : ℤ)) = some ([1, 0], 1) := congrFun heq "a"
  cases hlock

end Replica

end DistributedLock.Table
