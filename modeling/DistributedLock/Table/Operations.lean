import DistributedLock.Table.LockTable
import Mathlib.Tactic.SplitIfs

/-! What the operations of the lock table do to what later proofs look at: which
locks are there, their queues, and the wait queue entries. -/

namespace DistributedLock.Table

open Library

namespace LockTable

variable {F : Type*}

/-- The queue of a lock, empty when the lock is absent. -/
def queue (t : LockTable F) (id : String) : List ℕ :=
  ((t.active.find id).map SemanticLock.waiters).getD []

theorem isSome_of_mem_queue {t : LockTable F} {w : ℕ} {id : String} (h : w ∈ t.queue id) :
    (t.active.find id).isSome := by
  unfold queue at h
  cases hfind : t.active.find id with
  | none => simp [hfind] at h
  | some lock => rfl

/-- `t'` is `t` with `lock` stored under `a` and its queue kept. -/
structure Stores (t t' : LockTable F) (a : String) (lock : SemanticLock F) : Prop where
  find : ∀ id, t'.active.find id = if id = a then some lock else t.active.find id
  queue : t'.queue = t.queue
  waiter : t'.waiter = t.waiter
  next : t'.next = t.next
  sweep : t'.sweepInProgress = t.sweepInProgress

namespace Stores

variable {t t' : LockTable F} {a : String} {lock : SemanticLock F}

theorem find_self (h : Stores t t' a lock) : t'.active.find a = some lock := by
  rw [h.find, if_pos rfl]

theorem find_of_ne (h : Stores t t' a lock) {id : String} (hne : id ≠ a) :
    t'.active.find id = t.active.find id := by
  rw [h.find, if_neg hne]

theorem modify (f : SemanticLock F → SemanticLock F) (hlock : t.active.find a = some lock)
    (hf : (f lock).waiters = lock.waiters) :
    Stores t { t with active := t.active.modify a f } a (f lock) := by
  have hfind : ∀ id, (t.active.modify a f).find id =
      if id = a then some (f lock) else t.active.find id := by
    intro id
    rw [UnorderedMap.find_modify]
    split_ifs with hid
    · rw [hid, hlock, Option.map_some]
    · rfl
  refine ⟨hfind, ?_, rfl, rfl, rfl⟩
  funext id
  simp only [LockTable.queue, hfind]
  split_ifs with hid
  · rw [hid, hlock, Option.map_some, Option.map_some, hf]
  · rfl

theorem emplace (layout : Layout String) (habsent : t.active.find a = none)
    (hlock : lock.waiters = []) :
    Stores t { t with active := t.active.emplace layout a lock } a lock := by
  have hfind := UnorderedMap.find_emplace habsent layout lock
  refine ⟨hfind, ?_, rfl, rfl, rfl⟩
  funext id
  simp only [LockTable.queue, hfind]
  split_ifs with hid
  · rw [hid, habsent, Option.map_some, hlock]
    rfl
  · rfl

end Stores

/-- An entry that is there keeps its flag, a new one is pending. -/
theorem insertPending_stores (layout : Layout String) (t : LockTable F) (a : String)
    (e : List F) (theta : F) :
    ∃ lock, Stores t (t.insertPending layout a e theta) a lock ∧ lock.centroid = e ∧
      lock.threshold = theta ∧
      lock.pending = ((t.active.find a).map SemanticLock.pending).getD true := by
  unfold insertPending
  cases hfind : t.active.find a with
  | some old => exact ⟨_, .modify _ hfind rfl, rfl, rfl, rfl⟩
  | none => exact ⟨_, .emplace layout hfind rfl, rfl, rfl, rfl⟩

theorem reservePending_stores (layout : Layout String) (d : Demand F) (t : LockTable F) :
    ∃ lock, Stores t (reservePending layout d t) d.agentId lock ∧
      lock.centroid = d.embedding ∧ lock.threshold = d.threshold := by
  obtain ⟨lock, hs, hcentroid, hthreshold, -⟩ :=
    t.insertPending_stores layout d.agentId d.embedding d.threshold
  exact ⟨lock, hs, hcentroid, hthreshold⟩

theorem applyAcquire_stores (layout : Layout String) (t : LockTable F) (a : String)
    (e : List F) (theta : F) :
    ∃ lock, Stores t (t.applyAcquire layout a e theta) a lock ∧ lock.centroid = e ∧
      lock.threshold = theta ∧ lock.pending = false := by
  unfold applyAcquire
  cases hfind : t.active.find a with
  | some old => exact ⟨_, .modify _ hfind rfl, rfl, rfl, rfl⟩
  | none => exact ⟨_, .emplace layout hfind rfl, rfl, rfl, rfl⟩

/-! ### Queues -/

@[simp] theorem enqueue_waiter (t : LockTable F) (id : String) (w : ℕ) :
    (t.enqueue id w).waiter = t.waiter := rfl

@[simp] theorem enqueue_next (t : LockTable F) (id : String) (w : ℕ) :
    (t.enqueue id w).next = t.next := rfl

@[simp] theorem setWaiter_waiter (t : LockTable F) (w : ℕ) (entry : WaitQueueEntry F) :
    (t.setWaiter w entry).waiter = Function.update t.waiter w entry := rfl

@[simp] theorem setWaiter_active (t : LockTable F) (w : ℕ) (entry : WaitQueueEntry F) :
    (t.setWaiter w entry).active = t.active := rfl

@[simp] theorem setWaiter_next (t : LockTable F) (w : ℕ) (entry : WaitQueueEntry F) :
    (t.setWaiter w entry).next = t.next := rfl

@[simp] theorem setWaiter_queue (t : LockTable F) (w : ℕ) (entry : WaitQueueEntry F) :
    (t.setWaiter w entry).queue = t.queue := rfl

theorem enqueue_queue {t : LockTable F} {id : String} (h : (t.active.find id).isSome) (w : ℕ)
    (j : String) :
    (t.enqueue id w).queue j = if j = id then t.queue id ++ [w] else t.queue j := by
  obtain ⟨lock, hlock⟩ := Option.isSome_iff_exists.mp h
  simp only [queue, enqueue, UnorderedMap.find_modify]
  split_ifs with hj
  · simp [hj, hlock]
  · rfl

theorem mem_enqueue_queue {t : LockTable F} {id : String} (h : (t.active.find id).isSome)
    {w v : ℕ} {j : String} :
    v ∈ (t.enqueue id w).queue j ↔ v ∈ t.queue j ∨ (j = id ∧ v = w) := by
  rw [enqueue_queue h]
  split_ifs with hj <;> simp [hj]

/-- A queue entry moves no lock: each keeps its centroid, threshold and flag. -/
theorem find_enqueue {t : LockTable F} {id j : String} {w : ℕ} :
    (t.enqueue id w).active.find j =
      (t.active.find j).map fun lock =>
        if j = id then { lock with waiters := lock.waiters ++ [w] } else lock := by
  simp only [enqueue, UnorderedMap.find_modify]
  split_ifs with hj
  · simp
  · simp

theorem erase_queue (t : LockTable F) (a j : String) :
    (t.erase a).queue j = if j = a then [] else t.queue j := by
  simp only [queue, erase, UnorderedMap.find_erase]
  split_ifs <;> rfl

theorem mem_erase_queue {t : LockTable F} {a j : String} {w : ℕ} :
    w ∈ (t.erase a).queue j ↔ j ≠ a ∧ w ∈ t.queue j := by
  rw [erase_queue]
  split_ifs with hj <;> simp [hj]

/-! ### Conflicts -/

variable [Arithmetic F]

/-- The best candidate so far, if there is one, conflicts and is among the entries seen. -/
theorem foldl_findConflictStep_some (e : List F) (theta : F)
    {entries : List (String × SemanticLock F)} {best : Option (String × F)} {id : String} {s : F}
    (h : entries.foldl (findConflictStep e theta) best = some (id, s)) :
    best = some (id, s) ∨ ∃ lock, (id, lock) ∈ entries ∧ s = cosineSimilarity e lock.centroid ∧
      Arithmetic.le theta s = true := by
  induction entries generalizing best with
  | nil => exact Or.inl h
  | cons entry entries ih =>
    rcases ih h with hstep | ⟨lock, hmem, hs, hle⟩
    · unfold findConflictStep at hstep
      dsimp only at hstep
      split_ifs at hstep with hc
      · rw [Bool.and_eq_true] at hc
        simp only [Option.some.injEq, Prod.mk.injEq] at hstep
        obtain ⟨rfl, rfl⟩ := hstep
        exact Or.inr ⟨entry.2, by simp, rfl, hc.1⟩
      · exact Or.inl hstep
    · exact Or.inr ⟨lock, List.mem_cons_of_mem _ hmem, hs, hle⟩

theorem foldl_findConflictStep_isSome (e : List F) (theta : F)
    (entries : List (String × SemanticLock F)) {best : Option (String × F)} (h : best.isSome) :
    (entries.foldl (findConflictStep e theta) best).isSome := by
  induction entries generalizing best with
  | nil => exact h
  | cons entry entries ih =>
    refine ih ?_
    unfold findConflictStep
    dsimp only
    split_ifs
    · rfl
    · exact h

theorem foldl_findConflictStep_none (e : List F) (theta : F)
    (entries : List (String × SemanticLock F)) :
    entries.foldl (findConflictStep e theta) none = none ↔
      ∀ id lock, (id, lock) ∈ entries →
        Arithmetic.le theta (cosineSimilarity e lock.centroid) = false := by
  induction entries with
  | nil => simp
  | cons entry entries ih =>
    rw [List.foldl_cons]
    cases hle : Arithmetic.le theta (cosineSimilarity e entry.2.centroid) with
    | false =>
      have hstep : findConflictStep e theta none entry = none := by simp [findConflictStep, hle]
      rw [hstep, ih]
      constructor
      · intro hall id lock hmem
        rcases List.mem_cons.mp hmem with rfl | hmem
        · exact hle
        · exact hall id lock hmem
      · exact fun hall id lock hmem => hall id lock (List.mem_cons_of_mem _ hmem)
    | true =>
      have hstep : (findConflictStep e theta none entry).isSome := by
        simp [findConflictStep, hle]
      have hsome := foldl_findConflictStep_isSome e theta entries hstep
      constructor
      · intro hnone
        rw [hnone] at hsome
        cases hsome
      · intro hall
        rw [hall entry.1 entry.2 (by simp)] at hle
        cases hle

theorem findConflict_eq_none {t : LockTable F} {e : List F} {theta : F} :
    t.findConflict e theta = none ↔
      ∀ id lock, t.active.find id = some lock →
        Arithmetic.le theta (cosineSimilarity e lock.centroid) = false := by
  unfold findConflict
  rw [foldl_findConflictStep_none]
  simp only [UnorderedMap.mem_toList]

theorem findConflict_eq_some {t : LockTable F} {e : List F} {theta : F} {id : String} {s : F}
    (h : t.findConflict e theta = some (id, s)) :
    ∃ lock, t.active.find id = some lock ∧ s = cosineSimilarity e lock.centroid ∧
      Arithmetic.le theta s = true := by
  rcases foldl_findConflictStep_some e theta h with h | ⟨lock, hmem, hs⟩
  · cases h
  · exact ⟨lock, UnorderedMap.mem_toList.mp hmem, hs⟩

theorem isSome_of_findConflict {t : LockTable F} {e : List F} {theta : F} {id : String} {s : F}
    (h : t.findConflict e theta = some (id, s)) : (t.active.find id).isSome := by
  obtain ⟨lock, hlock, -⟩ := findConflict_eq_some h
  simp [hlock]

/-! ### Rebalancing -/

/-- What each waiter, moved or granted, preserves holds when all are placed. The second
argument of `P` are the waiters granted so far, the third those still to be placed. -/
theorem rebalance_granted_induction {P : LockTable F → List ℕ → List ℕ → Prop}
    (layout : Layout String)
    (hrequeue : ∀ t granted w ws id s, P t granted (w :: ws) →
      t.findConflict (t.waiter w).embedding (t.waiter w).theta = some (id, s) →
      P (t.requeue w id) granted ws)
    (hgrant : ∀ t granted w ws, P t granted (w :: ws) →
      t.findConflict (t.waiter w).embedding (t.waiter w).theta = none →
      P (t.grant layout w) (granted ++ [w]) ws)
    {t : LockTable F} {granted ws : List ℕ} (h : P t granted ws) :
    P (rebalance layout t granted ws).1 (rebalance layout t granted ws).2 [] := by
  induction ws generalizing t granted with
  | nil => exact h
  | cons w ws ih =>
    unfold rebalance
    cases hc : t.findConflict (t.waiter w).embedding (t.waiter w).theta with
    | some conflict => exact ih (hrequeue t granted w ws conflict.1 conflict.2 h hc)
    | none => exact ih (hgrant t granted w ws h hc)

theorem rebalance_induction {P : LockTable F → List ℕ → Prop} (layout : Layout String)
    (hrequeue : ∀ t w ws id s, P t (w :: ws) →
      t.findConflict (t.waiter w).embedding (t.waiter w).theta = some (id, s) →
      P (t.requeue w id) ws)
    (hgrant : ∀ t w ws, P t (w :: ws) →
      t.findConflict (t.waiter w).embedding (t.waiter w).theta = none → P (t.grant layout w) ws)
    {t : LockTable F} {ws granted : List ℕ} (h : P t ws) :
    P (rebalance layout t granted ws).1 [] :=
  rebalance_granted_induction (P := fun t _ ws => P t ws) layout
    (fun t _ => hrequeue t) (fun t _ => hgrant t) h

/-- Whether each waiter that a rebalancing places passes a check at its turn. -/
def rebalanceChecks (check : LockTable F → ℕ → Bool) (layout : Layout String) (t : LockTable F) :
    List ℕ → Bool
  | [] => true
  | w :: waiters => check t w &&
    match t.findConflict (t.waiter w).embedding (t.waiter w).theta with
    | some (id, _) => rebalanceChecks check layout (t.requeue w id) waiters
    | none => rebalanceChecks check layout (t.grant layout w) waiters

/-- The rule for a rebalancing all of whose waiters pass a check. -/
theorem rebalance_checked_induction {P : LockTable F → List ℕ → List ℕ → Prop}
    {check : LockTable F → ℕ → Bool} (layout : Layout String)
    (hrequeue : ∀ t granted w ws id s, check t w = true → P t granted (w :: ws) →
      t.findConflict (t.waiter w).embedding (t.waiter w).theta = some (id, s) →
      P (t.requeue w id) granted ws)
    (hgrant : ∀ t granted w ws, check t w = true → P t granted (w :: ws) →
      t.findConflict (t.waiter w).embedding (t.waiter w).theta = none →
      P (t.grant layout w) (granted ++ [w]) ws)
    {t : LockTable F} {granted ws : List ℕ} (hcheck : rebalanceChecks check layout t ws = true)
    (h : P t granted ws) :
    P (rebalance layout t granted ws).1 (rebalance layout t granted ws).2 [] := by
  refine (rebalance_granted_induction
    (P := fun t granted ws => rebalanceChecks check layout t ws = true ∧ P t granted ws) layout
    ?_ ?_ ⟨hcheck, h⟩).2
  · rintro t granted w ws id s ⟨hcheck, h⟩ hc
    simp only [rebalanceChecks, hc, Bool.and_eq_true] at hcheck
    exact ⟨hcheck.2, hrequeue t granted w ws id s hcheck.1 h hc⟩
  · rintro t granted w ws ⟨hcheck, h⟩ hc
    simp only [rebalanceChecks, hc, Bool.and_eq_true] at hcheck
    exact ⟨hcheck.2, hgrant t granted w ws hcheck.1 h hc⟩

/-- `remove_pending` does nothing, or takes a pending lock away. -/
theorem removePending_cases (layout : Layout String) (t : LockTable F) (a : String) :
    (t.removePending layout a).1 = t ∨
      ∃ lock, t.active.find a = some lock ∧ lock.pending = true ∧
        (t.removePending layout a).1 = (t.removeLock layout a lock).1 := by
  unfold removePending
  cases hfind : t.active.find a with
  | some lock =>
    cases hp : lock.pending with
    | true => exact Or.inr ⟨lock, rfl, hp, by simp [hp]⟩
    | false => exact Or.inl (by simp [hp])
  | none => exact Or.inl rfl

theorem release_cases (layout : Layout String) (t : LockTable F) (a : String) :
    (t.active.find a = none ∧ (t.release layout a).1 = t) ∨
      ∃ lock, t.active.find a = some lock ∧
        (t.release layout a).1 = (t.removeLock layout a lock).1 := by
  unfold release
  cases hfind : t.active.find a with
  | some lock => exact Or.inr ⟨lock, rfl, rfl⟩
  | none => exact Or.inl ⟨rfl, rfl⟩

/-! ### The gate of the sweep -/

theorem rebalance_sweep (layout : Layout String) (t : LockTable F) (granted ws : List ℕ) :
    (t.rebalance layout granted ws).1.sweepInProgress = t.sweepInProgress := by
  refine rebalance_induction (P := fun t' _ => t'.sweepInProgress = t.sweepInProgress) layout
    (fun _ _ _ _ _ h _ => h) (fun t' w _ h _ => ?_) rfl
  obtain ⟨lock, hst, -⟩ := t'.insertPending_stores layout (t'.waiter w).waitingAgentId
    (t'.waiter w).embedding (t'.waiter w).theta
  exact hst.sweep.trans h

theorem removePending_sweep (layout : Layout String) (t : LockTable F) (a : String) :
    (t.removePending layout a).1.sweepInProgress = t.sweepInProgress := by
  rcases t.removePending_cases layout a with h | ⟨lock, -, -, h⟩ <;> rw [h]
  exact rebalance_sweep layout _ [] lock.waiters

theorem onCommit_sweep (layout : Layout String) (t : LockTable F) (entry : Raft.LogEntry F) :
    (t.onCommit layout entry).sweepInProgress = t.sweepInProgress := by
  unfold onCommit
  split
  · obtain ⟨lock, hst, -⟩ := t.applyAcquire_stores layout entry.agentId entry.embedding entry.theta
    exact hst.sweep
  · rcases t.release_cases layout entry.agentId with ⟨-, h⟩ | ⟨lock, -, h⟩ <;> rw [h]
    exact rebalance_sweep layout _ [] lock.waiters

theorem waitLoop_sweep {layout : Layout String} {t t' : LockTable F} {d : Demand F}
    {trace : AcquireTrace F} {a' : Admission F}
    (h : t.waitLoop (reservePending layout d) d trace = (t', a')) :
    t'.sweepInProgress = t.sweepInProgress := by
  unfold waitLoop at h
  split at h
  · obtain ⟨rfl, -⟩ := Prod.mk.inj h
    obtain ⟨lock, hst, -⟩ := t.insertPending_stores layout d.agentId d.embedding d.threshold
    exact hst.sweep
  · obtain ⟨rfl, -⟩ := Prod.mk.inj h
    rfl

theorem waitForAdmission_sweep {layout : Layout String} {t t' : LockTable F} {d : Demand F}
    {a a' : Admission F} (h : t.waitForAdmission layout d a = some (t', a')) :
    t'.sweepInProgress = t.sweepInProgress := by
  cases a with
  | gate =>
    simp only [waitForAdmission] at h
    split_ifs at h
    exact waitLoop_sweep (Option.some.inj h)
  | asleep w trace =>
    simp only [waitForAdmission, wake] at h
    split_ifs at h
    · obtain ⟨rfl, -⟩ := Prod.mk.inj (Option.some.inj h)
      rfl
    · have hloop := waitLoop_sweep (Option.some.inj h)
      exact hloop
  | returned trace => cases h

end LockTable

end DistributedLock.Table
