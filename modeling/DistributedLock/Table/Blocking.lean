import DistributedLock.Table.Calls

/-! Whether a waiter waits for a lock that blocks it. The queue is chosen for the
similarity, but `insert_pending_locked` and `apply_acquire_locked` write a new vector
into a lock that is there and leave its queue alone. In the runs in which no such write
lets a waiter of the lock off, every waiter sits with a lock that blocks it. -/

namespace DistributedLock.Table

open Library Raft

variable {F : Type*} [Arithmetic F]

namespace LockTable

/-- The waiter has to wait for a lock of this vector. -/
def Blocks (t : LockTable F) (w : ℕ) (centroid : List F) : Prop :=
  Arithmetic.le (t.waiter w).theta (cosineSimilarity (t.waiter w).embedding centroid) = true

/-- All that wait for the lock of `a` would have to wait for this vector too. -/
def StillBlocks (t : LockTable F) (a : String) (centroid : List F) : Prop :=
  ∀ w ∈ t.queue a, t.Blocks w centroid

instance (t : LockTable F) (w : ℕ) (centroid : List F) : Decidable (t.Blocks w centroid) :=
  inferInstanceAs (Decidable (_ = true))

instance (t : LockTable F) (a : String) (centroid : List F) :
    Decidable (t.StillBlocks a centroid) :=
  inferInstanceAs (Decidable (∀ w ∈ t.queue a, t.Blocks w centroid))

/-- The slot that a rebalancing hands to a waiter keeps its own queue blocked. -/
def handOffBlocks (t : LockTable F) (w : ℕ) : Bool :=
  (t.findConflict (t.waiter w).embedding (t.waiter w).theta).isSome ||
    decide (t.StillBlocks (t.waiter w).waitingAgentId (t.waiter w).embedding)

/-- Every queued waiter waits for a lock that blocks it. -/
def Tracked (t : LockTable F) : Prop :=
  ∀ id lock w, t.active.find id = some lock → w ∈ t.queue id → t.Blocks w lock.centroid

namespace Tracked

variable {t t' : LockTable F} {a id : String} {w : ℕ}

theorem of_stores {lock : SemanticLock F} (h : Tracked t) (hs : Stores t t' a lock)
    (hblocks : t.StillBlocks a lock.centroid) : Tracked t' := by
  intro id lock' w hfind hw
  rw [hs.queue] at hw
  rw [Blocks, hs.waiter]
  rcases eq_or_ne id a with rfl | hne
  · obtain rfl := Option.some.inj (hs.find_self.symm.trans hfind)
    exact hblocks w hw
  · rw [hs.find_of_ne hne] at hfind
    exact h id lock' w hfind hw

theorem erase (h : Tracked t) (a : String) : Tracked (t.erase a) := by
  intro id lock w hfind hw
  obtain ⟨hne, hw⟩ := mem_erase_queue.mp hw
  rw [LockTable.erase, UnorderedMap.find_erase_of_ne _ hne] at hfind
  exact h id lock w hfind hw

/-- Writing an entry that is in no queue, or its flags only. -/
theorem setWaiter (h : Tracked t) {entry : WaitQueueEntry F}
    (hentry : (∀ id, w ∉ t.queue id) ∨
      (entry.embedding = (t.waiter w).embedding ∧ entry.theta = (t.waiter w).theta)) :
    Tracked (t.setWaiter w entry) := by
  intro id lock v hfind hv
  rw [Blocks, setWaiter_waiter]
  rcases eq_or_ne v w with rfl | hne
  · rcases hentry with hnotin | ⟨hembedding, htheta⟩
    · exact absurd hv (hnotin id)
    · rw [Function.update_self, hembedding, htheta]
      exact h id lock v hfind hv
  · rw [Function.update_of_ne hne]
    exact h id lock v hfind hv

theorem enqueue (h : Tracked t) {lock : SemanticLock F} (hfind : t.active.find id = some lock)
    (hblocks : t.Blocks w lock.centroid) : Tracked (t.enqueue id w) := by
  intro j lock' v hj hv
  rw [find_enqueue, Option.map_eq_some_iff] at hj
  obtain ⟨old, hold, rfl⟩ := hj
  have hcentroid : (if j = id then { old with waiters := old.waiters ++ [w] } else old).centroid =
      old.centroid := by
    split_ifs <;> rfl
  rw [hcentroid]
  rcases (mem_enqueue_queue (Option.isSome_iff_exists.mpr ⟨lock, hfind⟩)).mp hv with
    hv | ⟨rfl, rfl⟩
  · exact h j old v hold hv
  · obtain rfl := Option.some.inj (hfind.symm.trans hold)
    exact hblocks

theorem requeue {s : F} (h : Tracked t)
    (hc : t.findConflict (t.waiter w).embedding (t.waiter w).theta = some (id, s)) :
    Tracked (t.requeue w id) := by
  obtain ⟨lock, hfind, rfl, hle⟩ := findConflict_eq_some hc
  unfold LockTable.requeue
  refine Tracked.enqueue (h.setWaiter (Or.inr ⟨rfl, rfl⟩)) hfind ?_
  rw [Blocks, setWaiter_waiter, Function.update_self]
  exact hle

theorem sleepOn {d : Demand F} {s : F} (h : Tracked t) (hnext : ∀ id, t.next ∉ t.queue id)
    (hc : t.findConflict d.embedding d.threshold = some (id, s)) : Tracked (t.sleepOn d id) := by
  obtain ⟨lock, hfind, rfl, hle⟩ := findConflict_eq_some hc
  have hset : Tracked { t.setWaiter t.next (newWaiter d) with next := t.next + 1 } :=
    h.setWaiter (Or.inl hnext)
  refine hset.enqueue hfind ?_
  rw [Blocks, setWaiter_waiter, Function.update_self]
  exact hle

theorem grant (h : Tracked t) (layout : Layout String)
    (hblocks : t.StillBlocks (t.waiter w).waitingAgentId (t.waiter w).embedding) :
    Tracked (t.grant layout w) := by
  obtain ⟨lock, hs, hcentroid, -⟩ := t.insertPending_stores layout (t.waiter w).waitingAgentId
    (t.waiter w).embedding (t.waiter w).theta
  refine (h.of_stores hs (hcentroid ▸ hblocks)).setWaiter (Or.inr ?_)
  rw [hs.waiter]
  exact ⟨rfl, rfl⟩

theorem removeLock {layout : Layout String} {lock : SemanticLock F} (h : Tracked t)
    (hcheck : rebalanceChecks handOffBlocks layout (t.erase a) lock.waiters = true) :
    Tracked (t.removeLock layout a lock).1 := by
  refine rebalance_checked_induction (P := fun t _ _ => Tracked t) layout ?_ ?_ hcheck (h.erase a)
  · exact fun t _ w _ id s _ h hc => h.requeue hc
  · intro t _ w _ hblocks h hc
    rw [handOffBlocks, hc] at hblocks
    exact h.grant layout (of_decide_eq_true hblocks)

end Tracked

end LockTable

/-! ### The runs in which every write keeps the queue blocked -/

namespace Replica

/-- What the call itself or the log writes into a lock keeps the queue blocked, and every
waiter that the step places passes a check at its turn. -/
def StepChecks (r : Replica F) (check : LockTable F → ℕ → Bool) : Action F → Prop
  | .advance k _ => ∀ call ∈ r.calls[k]?, call.loops r.table = true →
      r.table.findConflict call.demand.embedding call.demand.threshold = none →
        r.table.StillBlocks call.demand.agentId call.demand.embedding
  | .removePending agentId layout => ∀ lock ∈ r.table.active.find agentId, lock.pending = true →
      LockTable.rebalanceChecks check layout (r.table.erase agentId) lock.waiters = true
  | .apply entry layout =>
    (entry.opType = .acquire → r.table.StillBlocks entry.agentId entry.embedding) ∧
      (entry.opType = .release → ∀ lock ∈ r.table.active.find entry.agentId,
        LockTable.rebalanceChecks check layout (r.table.erase entry.agentId) lock.waiters = true)
  | _ => True

instance (check : LockTable F → ℕ → Bool) (r : Replica F) :
    (a : Action F) → Decidable (r.StepChecks check a)
  | .advance k _ => inferInstanceAs (Decidable (∀ call ∈ r.calls[k]?, _ → _ → _))
  | .removePending agentId _ =>
    inferInstanceAs (Decidable (∀ lock ∈ r.table.active.find agentId, _ → _))
  | .apply entry _ =>
    inferInstanceAs (Decidable ((_ → r.table.StillBlocks entry.agentId entry.embedding) ∧
      (_ → ∀ lock ∈ r.table.active.find entry.agentId, _)))
  | .request _ _ | .beginLeaderSweep | .endLeaderSweep => isTrue trivial

/-- No write of the step into a lock that is there lets a waiter of the lock off. -/
def KeepsBlocking (r : Replica F) (a : Action F) : Prop := r.StepChecks LockTable.handOffBlocks a

instance (r : Replica F) (a : Action F) : Decidable (r.KeepsBlocking a) :=
  inferInstanceAs (Decidable (r.StepChecks _ a))

variable {r r' : Replica F} {a : Action F}

theorem tracked_step (hw : WaitersOk r.table [] (sleepsOf r.calls)) (h : r.table.Tracked)
    (hkeeps : r.KeepsBlocking a) (hstep : r.step a = some r') : r'.table.Tracked := by
  cases a with
  | request kind demand =>
    obtain rfl := Option.some.inj hstep
    exact h
  | advance k layout =>
    obtain ⟨call, t', a', hk, hmove, rfl⟩ := advance_cases hw hstep
    have hblocks := hkeeps call hk
    unfold Call.loops at hblocks
    generalize call.admission = adm at hmove hblocks
    cases hmove with
    | reserve hfree =>
      obtain ⟨lock, hs, hcentroid, -⟩ := call.reserve_stores layout r.table
      exact h.of_stores hs (hcentroid ▸ hblocks rfl hfree)
    | sleep id s hconflict => exact h.sleepOn hw.next_notMem hconflict
    | wake w trace hgranted => exact h.setWaiter (Or.inr ⟨rfl, rfl⟩)
  | removePending agentId layout =>
    obtain rfl := Option.some.inj hstep
    rcases r.table.removePending_cases layout agentId with he | ⟨lock, hfind, hpending, he⟩ <;>
      dsimp only <;> rw [he]
    · exact h
    · exact h.removeLock (hkeeps lock hfind hpending)
  | apply entry layout =>
    obtain rfl := Option.some.inj hstep
    obtain ⟨hacquire, hrelease⟩ := hkeeps
    dsimp only [LockTable.onCommit]
    cases hop : entry.opType with
    | acquire =>
      obtain ⟨lock, hs, hcentroid, -⟩ := r.table.applyAcquire_stores layout entry.agentId
        entry.embedding entry.theta
      exact h.of_stores hs (hcentroid ▸ hacquire hop)
    | release =>
      rcases r.table.release_cases layout entry.agentId with ⟨-, he⟩ | ⟨lock, hfind, he⟩ <;>
        dsimp only <;> rw [he]
      · exact h
      · exact h.removeLock (hrelease hop lock hfind)
  | beginLeaderSweep =>
    obtain rfl := Option.some.inj hstep
    exact h
  | endLeaderSweep =>
    obtain rfl := Option.some.inj hstep
    exact h

/-- A request waits only for a lock that blocks it, in the runs in which no write into a
lock that is there lets a waiter of the lock off. -/
theorem waiters_blocked (as : List (Action F)) (r : Replica F)
    (h : ((system F).guard KeepsBlocking).exec as = some r) :
    ∀ (k : ℕ) (call : Call F) w trace, r.calls[k]? = some call →
      call.admission = .asleep w trace → (r.table.waiter w).granted = false →
      ∃ id lock, r.table.active.find id = some lock ∧ w ∈ lock.waiters ∧
        Arithmetic.le call.demand.threshold
          (cosineSimilarity call.demand.embedding lock.centroid) = true := by
  obtain ⟨hok, htracked⟩ := ((system F).guard KeepsBlocking).invariant
    (P := fun r => WaitersOk r.table [] (sleepsOf r.calls) ∧ r.table.Tracked)
    ⟨.empty fun _ => rfl, fun id lock w hfind => (by cases hfind)⟩
    (fun r a r' hr hstep => by
      obtain ⟨hkeeps, hstep⟩ := System.guard_step.mp hstep
      exact ⟨waitersOk_step hr.1 hstep, tracked_step hr.1 hr.2 hkeeps hstep⟩) h
  intro k call w trace hk hadm hgranted
  have hsleeps := sleepsOf_eq_some.mpr ⟨call, trace, hk, hadm, rfl⟩
  obtain ⟨id, hw⟩ := ((hok.queued w).mpr ⟨hgranted, k, _, hsleeps⟩).resolve_left (by simp)
  obtain ⟨lock, hfind⟩ := Option.isSome_iff_exists.mp (LockTable.isSome_of_mem_queue hw)
  obtain ⟨-, hembedding, htheta⟩ := hok.entry k w _ hsleeps
  refine ⟨id, lock, hfind, ?_, ?_⟩
  · rwa [LockTable.queue, hfind] at hw
  · rw [← hembedding, ← htheta]
    exact htracked id lock w hfind hw

/-- "b" waits behind "a" while "a" asks again for the same vector. -/
def sameVectorRun : List (Action ℤ) :=
  [.apply (.acquire "a" [1, 0] 1) .newest, .request .waitForAdmission ⟨"b", [1, 0], 1⟩,
    .advance 0 .newest, .apply (.acquire "a" [1, 0] 1) .newest]

theorem waiters_blocked_sameVector :
    ∃ r : Replica ℤ, (system ℤ).exec sameVectorRun = some r ∧
      ∃ id lock, r.table.active.find id = some lock ∧ 0 ∈ lock.waiters ∧
        Arithmetic.le 1 (cosineSimilarity [1, 0] lock.centroid) = true := by
  have h : (((system ℤ).guard KeepsBlocking).exec sameVectorRun).isSome := rfl
  have hrun := (Option.some_get h).symm
  exact ⟨_, System.exec_of_guard hrun,
    waiters_blocked sameVectorRun _ hrun 0 _ 0 _ rfl rfl rfl⟩

/-- "b" waits behind "a", and "a" acquires another vector, which would not block "b". -/
def movedLockRun : List (Action ℤ) :=
  [.apply (.acquire "a" [1, 0] 1) .newest, .request .waitForAdmission ⟨"b", [1, 0], 1⟩,
    .advance 0 .newest, .apply (.acquire "a" [0, 1] 1) .newest]

theorem waiter_not_blocked :
    ∃ r : Replica ℤ, (system ℤ).exec movedLockRun = some r ∧
      ¬ ∀ (k : ℕ) (call : Call ℤ) w trace, r.calls[k]? = some call →
        call.admission = .asleep w trace → (r.table.waiter w).granted = false →
        ∃ id lock, r.table.active.find id = some lock ∧ w ∈ lock.waiters ∧
          Arithmetic.le call.demand.threshold
            (cosineSimilarity call.demand.embedding lock.centroid) = true := by
  have h : ((system ℤ).exec movedLockRun).isSome := rfl
  refine ⟨_, (Option.some_get h).symm, fun hall => ?_⟩
  obtain ⟨id, lock, hfind, -, hle⟩ := hall 0 _ 0 _ rfl rfl rfl
  -- "a" is the only agent that holds a lock
  have hid : id ∈ ["a"] := (UnorderedMap.mem_keys _ id).mpr (by rw [hfind]; rfl)
  obtain rfl := List.mem_singleton.mp hid
  obtain rfl := Option.some.inj hfind
  cases hle

end Replica

end DistributedLock.Table
