import DistributedLock.Library.Lists
import DistributedLock.Table.Operations

/-! The bookkeeping of waiters. Each sleeping call has its own entry; the entries
not granted are exactly those in a queue, each in one queue and there once. In the
middle of a rebalancing the waiters still to be placed count as a queue of their
own. -/

namespace DistributedLock.Table

open Library

variable {F : Type*}

/-- The entry a call sleeps on, with what the call asks for. -/
def Admission.sleeping (d : Demand F) : Admission F → Option (ℕ × Demand F)
  | .asleep w _ => some (w, d)
  | _ => none

/-- `sleeps k` is what call `k` sleeps on; `moving` are the waiters being placed. -/
structure WaitersOk (t : LockTable F) (moving : List ℕ) (sleeps : ℕ → Option (ℕ × Demand F)) :
    Prop where
  entry : ∀ k w d, sleeps k = some (w, d) → (t.waiter w).waitingAgentId = d.agentId ∧
    (t.waiter w).embedding = d.embedding ∧ (t.waiter w).theta = d.threshold
  fresh : ∀ k w d, sleeps k = some (w, d) → w < t.next
  ready : ∀ k w d, sleeps k = some (w, d) → (t.waiter w).ready = (t.waiter w).granted
  unique : ∀ k k' w d d', sleeps k = some (w, d) → sleeps k' = some (w, d') → k = k'
  queued : ∀ w, (w ∈ moving ∨ ∃ id, w ∈ t.queue id) ↔
    (t.waiter w).granted = false ∧ ∃ k d, sleeps k = some (w, d)
  moving_nodup : moving.Nodup
  moving_apart : ∀ w ∈ moving, ∀ id, w ∉ t.queue id
  queue_nodup : ∀ id, (t.queue id).Nodup
  queue_apart : ∀ w id id', w ∈ t.queue id → w ∈ t.queue id' → id = id'

namespace WaitersOk

variable {t t' : LockTable F} {moving ws : List ℕ} {w : ℕ}
  {sleeps : ℕ → Option (ℕ × Demand F)}

theorem empty [Arithmetic F] (h : ∀ k, sleeps k = none) : WaitersOk .empty [] sleeps := by
  have hqueue : ∀ id, (LockTable.empty : LockTable F).queue id = [] := fun _ => rfl
  refine ⟨?_, ?_, ?_, ?_, ?_, List.nodup_nil, by simp, ?_, ?_⟩
  all_goals simp [h, hqueue]

theorem of_same (h : WaitersOk t moving sleeps) (hqueue : t'.queue = t.queue)
    (hwaiter : t'.waiter = t.waiter) (hnext : t'.next = t.next) :
    WaitersOk t' moving sleeps where
  entry := hwaiter ▸ h.entry
  fresh := hnext ▸ h.fresh
  ready := hwaiter ▸ h.ready
  unique := h.unique
  queued := by rw [hqueue, hwaiter]; exact h.queued
  moving_nodup := h.moving_nodup
  moving_apart := hqueue ▸ h.moving_apart
  queue_nodup := hqueue ▸ h.queue_nodup
  queue_apart := hqueue ▸ h.queue_apart

theorem of_stores {a : String} {lock : SemanticLock F} (h : WaitersOk t moving sleeps)
    (hs : LockTable.Stores t t' a lock) : WaitersOk t' moving sleeps :=
  h.of_same hs.queue hs.waiter hs.next

theorem insertPending (h : WaitersOk t moving sleeps) (layout : Layout String) (a : String)
    (e : List F) (theta : F) : WaitersOk (t.insertPending layout a e theta) moving sleeps := by
  obtain ⟨lock, hs, -⟩ := t.insertPending_stores layout a e theta
  exact h.of_stores hs

theorem applyAcquire (h : WaitersOk t moving sleeps) (layout : Layout String) (a : String)
    (e : List F) (theta : F) : WaitersOk (t.applyAcquire layout a e theta) moving sleeps := by
  obtain ⟨lock, hs, -⟩ := t.applyAcquire_stores layout a e theta
  exact h.of_stores hs

/-- The waiter at hand: not granted, in no queue, and some call sleeps on it. -/
theorem head (h : WaitersOk t (w :: ws) sleeps) :
    (t.waiter w).granted = false ∧ w ∉ ws ∧ (∀ id, w ∉ t.queue id) ∧
      ∃ k d, sleeps k = some (w, d) := by
  obtain ⟨hgranted, hsleep⟩ := (h.queued w).mp (Or.inl (by simp))
  exact ⟨hgranted, (List.nodup_cons.mp h.moving_nodup).1, h.moving_apart w (by simp), hsleep⟩

/-- Writing the entry of a waiter that is being placed, without granting it. -/
theorem setWaiter (h : WaitersOk t (w :: ws) sleeps) (entry : WaitQueueEntry F)
    (hentry : ∀ k d, sleeps k = some (w, d) → entry.waitingAgentId = d.agentId ∧
      entry.embedding = d.embedding ∧ entry.theta = d.threshold)
    (hready : entry.ready = false) (hgranted : entry.granted = false) :
    WaitersOk (t.setWaiter w entry) (w :: ws) sleeps := by
  obtain ⟨hold, -, -, -⟩ := h.head
  have hflag : ∀ v, ((t.setWaiter w entry).waiter v).granted = (t.waiter v).granted := by
    intro v
    rw [LockTable.setWaiter_waiter, Function.update_apply]
    split_ifs with hv
    · rw [hv, hold, hgranted]
    · rfl
  refine ⟨fun k v d hk => ?_, h.fresh, fun k v d hk => ?_, h.unique, fun v => ?_,
    h.moving_nodup, h.moving_apart, h.queue_nodup, h.queue_apart⟩
  · rw [LockTable.setWaiter_waiter, Function.update_apply]
    split_ifs with hv
    · exact hentry k d (hv ▸ hk)
    · exact h.entry k v d hk
  · rw [hflag v, LockTable.setWaiter_waiter, Function.update_apply]
    split_ifs with hv
    · rw [hv, hready, hold]
    · exact h.ready k v d hk
  · rw [hflag v]
    exact h.queued v

/-- A waiter is placed at the end of the queue of a lock. -/
theorem enqueue {id : String} (h : WaitersOk t (w :: ws) sleeps)
    (hid : (t.active.find id).isSome) : WaitersOk (t.enqueue id w) ws sleeps := by
  obtain ⟨-, hws, hqueue, -⟩ := h.head
  refine ⟨h.entry, h.fresh, h.ready, h.unique, fun v => ?_, h.moving_nodup.of_cons, ?_, ?_, ?_⟩
  · rw [LockTable.enqueue_waiter, ← h.queued v, List.mem_cons]
    simp only [LockTable.mem_enqueue_queue hid]
    constructor
    · rintro (hv | ⟨j, hj | ⟨-, rfl⟩⟩)
      · exact Or.inl (Or.inr hv)
      · exact Or.inr ⟨j, hj⟩
      · exact Or.inl (Or.inl rfl)
    · rintro ((rfl | hv) | ⟨j, hj⟩)
      · exact Or.inr ⟨id, Or.inr ⟨rfl, rfl⟩⟩
      · exact Or.inl hv
      · exact Or.inr ⟨j, Or.inl hj⟩
  · intro v hv j hj
    rcases (LockTable.mem_enqueue_queue hid).mp hj with hj | ⟨-, rfl⟩
    · exact h.moving_apart v (List.mem_cons_of_mem _ hv) j hj
    · exact hws hv
  · intro j
    rw [LockTable.enqueue_queue hid]
    split_ifs with hj
    · refine List.nodup_append.mpr ⟨h.queue_nodup id, List.nodup_singleton w, ?_⟩
      intro a ha b hb hab
      rw [hab, List.mem_singleton.mp hb] at ha
      exact hqueue id ha
    · exact h.queue_nodup j
  · intro v j j' hj hj'
    rcases (LockTable.mem_enqueue_queue hid).mp hj with hin | ⟨rfl, rfl⟩ <;>
      rcases (LockTable.mem_enqueue_queue hid).mp hj' with hin' | ⟨rfl, hv⟩
    · exact h.queue_apart v j j' hin hin'
    · exact absurd (hv ▸ hin) (hqueue j)
    · exact absurd hin' (hqueue j')
    · rfl

theorem requeue {id : String} (h : WaitersOk t (w :: ws) sleeps)
    (hid : (t.active.find id).isSome) : WaitersOk (t.requeue w id) ws sleeps :=
  (h.setWaiter
    { t.waiter w with
      ready := false, granted := false, queueHops := (t.waiter w).queueHops + 1 }
    (fun k d hk => h.entry k w d hk) rfl rfl).enqueue hid

/-- Moving a waiter that has not been granted changes no flag. -/
theorem requeue_granted (h : WaitersOk t (w :: ws) sleeps) (id : String) (v : ℕ) :
    ((t.requeue w id).waiter v).granted = (t.waiter v).granted := by
  rcases eq_or_ne v w with rfl | hv
  · simp [LockTable.requeue, h.head.1]
  · simp [LockTable.requeue, hv]

/-- The lock that a hand-off stores is what the sleeping call asks for. It is pending if the
agent has no lock. -/
theorem grant_stores (h : WaitersOk t (w :: ws) sleeps) (layout : Layout String) {k : ℕ}
    {d : Demand F} (hk : sleeps k = some (w, d)) : ∃ lock,
      LockTable.Stores t (t.insertPending layout (t.waiter w).waitingAgentId
        (t.waiter w).embedding (t.waiter w).theta) d.agentId lock ∧
      lock.centroid = d.embedding ∧
      (t.active.find d.agentId = none → lock.pending = true) := by
  obtain ⟨hagent, hembedding, -⟩ := h.entry k w d hk
  obtain ⟨lock, hs, hcentroid, -, hpending⟩ := t.insertPending_stores layout
    (t.waiter w).waitingAgentId (t.waiter w).embedding (t.waiter w).theta
  rw [hagent] at hs hpending
  refine ⟨lock, ?_, hcentroid.trans hembedding, fun hnone => ?_⟩
  · rw [hagent]
    exact hs
  · rw [hpending, hnone]
    rfl

theorem grant_waiter (layout : Layout String) (v : ℕ) :
    (t.grant layout w).waiter v =
      if v = w then { t.waiter w with granted := true, ready := true } else t.waiter v := by
  obtain ⟨lock, hs, -⟩ := t.insertPending_stores layout (t.waiter w).waitingAgentId
    (t.waiter w).embedding (t.waiter w).theta
  rw [LockTable.grant, LockTable.setWaiter_waiter, hs.waiter, Function.update_apply]

theorem grant (h : WaitersOk t (w :: ws) sleeps) (layout : Layout String) :
    WaitersOk (t.grant layout w) ws sleeps := by
  obtain ⟨hgranted, hws, hqueue, hsleep⟩ := h.head
  have h' := h.insertPending layout (t.waiter w).waitingAgentId (t.waiter w).embedding
    (t.waiter w).theta
  obtain ⟨lock, hs, -⟩ := t.insertPending_stores layout (t.waiter w).waitingAgentId
    (t.waiter w).embedding (t.waiter w).theta
  have hq : (t.grant layout w).queue = t.queue := hs.queue
  refine ⟨?_, h'.fresh, ?_, h.unique, ?_, h.moving_nodup.of_cons, ?_, hq ▸ h.queue_nodup,
    hq ▸ h.queue_apart⟩
  · intro k w' d hk
    rw [grant_waiter]
    split_ifs with hw
    · exact hw ▸ h.entry k w' d hk
    · exact h.entry k w' d hk
  · intro k w' d hk
    rw [grant_waiter]
    split_ifs with hw
    · rfl
    · exact h.ready k w' d hk
  · intro w'
    rw [grant_waiter, hq]
    rcases eq_or_ne w' w with rfl | hw
    · rw [if_pos rfl]
      constructor
      · rintro (hmem | ⟨id, hmem⟩)
        · exact absurd hmem hws
        · exact absurd hmem (hqueue id)
      · rintro ⟨hfalse, -⟩
        cases hfalse
    · rw [if_neg hw, ← h.queued w', List.mem_cons, or_iff_right hw]
  · intro w' hw'
    rw [hq]
    exact h.moving_apart w' (List.mem_cons_of_mem _ hw')

/-- Taking a lock away puts its queue on the move. -/
theorem erase (h : WaitersOk t [] sleeps) {a : String} {lock : SemanticLock F}
    (hfind : t.active.find a = some lock) : WaitersOk (t.erase a) lock.waiters sleeps := by
  have hlock : lock.waiters = t.queue a := by simp [LockTable.queue, hfind]
  rw [hlock]
  refine ⟨h.entry, h.fresh, h.ready, h.unique, fun v => ?_, h.queue_nodup a, ?_, fun j => ?_, ?_⟩
  · refine Iff.trans ?_ (h.queued v)
    simp only [LockTable.mem_erase_queue, List.not_mem_nil, false_or]
    constructor
    · rintro (hv | ⟨j, -, hv⟩)
      · exact ⟨a, hv⟩
      · exact ⟨j, hv⟩
    · rintro ⟨j, hv⟩
      rcases eq_or_ne j a with rfl | hj
      · exact Or.inl hv
      · exact Or.inr ⟨j, hj, hv⟩
  · intro v hv j hj
    obtain ⟨hne, hj⟩ := LockTable.mem_erase_queue.mp hj
    exact hne (h.queue_apart v j a hj hv)
  · rw [LockTable.erase_queue]
    split_ifs
    · exact List.nodup_nil
    · exact h.queue_nodup j
  · intro v j j' hj hj'
    exact h.queue_apart v j j' (LockTable.mem_erase_queue.mp hj).2
      (LockTable.mem_erase_queue.mp hj').2

variable [Arithmetic F]

/-- The rule for a rebalancing: the waiters stay in order, and what each waiter,
moved or granted, preserves holds in the end. -/
theorem rebalance {P : LockTable F → Prop} (layout : Layout String) (granted : List ℕ)
    (h : WaitersOk t ws sleeps) (hP : P t)
    (hrequeue : ∀ t w ws id s, WaitersOk t (w :: ws) sleeps → (t.active.find id).isSome →
      t.findConflict (t.waiter w).embedding (t.waiter w).theta = some (id, s) → P t →
      P (t.requeue w id))
    (hgrant : ∀ t w ws k d, WaitersOk t (w :: ws) sleeps → sleeps k = some (w, d) →
      t.findConflict d.embedding d.threshold = none → P t → P (t.grant layout w)) :
    WaitersOk (LockTable.rebalance layout t granted ws).1 [] sleeps ∧
      P (LockTable.rebalance layout t granted ws).1 := by
  refine LockTable.rebalance_induction (P := fun t ws => WaitersOk t ws sleeps ∧ P t) layout
    ?_ ?_ ⟨h, hP⟩
  · rintro t w ws id s ⟨h, hP⟩ hc
    have hid := LockTable.isSome_of_findConflict hc
    exact ⟨h.requeue hid, hrequeue t w ws id s h hid hc hP⟩
  · rintro t w ws ⟨h, hP⟩ hc
    obtain ⟨-, -, -, k, d, hk⟩ := h.head
    obtain ⟨-, he, ht⟩ := h.entry k w d hk
    exact ⟨h.grant layout, hgrant t w ws k d h hk (he ▸ ht ▸ hc) hP⟩

theorem removeLock (h : WaitersOk t [] sleeps) (layout : Layout String) {a : String}
    {lock : SemanticLock F} (hfind : t.active.find a = some lock) :
    WaitersOk (t.removeLock layout a lock).1 [] sleeps :=
  ((h.erase hfind).rebalance (P := fun _ => True) layout [] trivial
    (fun _ _ _ _ _ _ _ _ _ => trivial) fun _ _ _ _ _ _ _ _ _ => trivial).1

theorem removePending (h : WaitersOk t [] sleeps) (layout : Layout String) (a : String) :
    WaitersOk (t.removePending layout a).1 [] sleeps := by
  rcases t.removePending_cases layout a with he | ⟨lock, hfind, -, he⟩ <;> rw [he]
  · exact h
  · exact h.removeLock layout hfind

theorem release (h : WaitersOk t [] sleeps) (layout : Layout String) (a : String) :
    WaitersOk (t.release layout a).1 [] sleeps := by
  rcases t.release_cases layout a with ⟨-, he⟩ | ⟨lock, hfind, he⟩ <;> rw [he]
  · exact h
  · exact h.removeLock layout hfind

theorem onCommit (h : WaitersOk t [] sleeps) (layout : Layout String) (entry : Raft.LogEntry F) :
    WaitersOk (t.onCommit layout entry) [] sleeps := by
  unfold LockTable.onCommit
  cases entry.opType with
  | acquire => exact h.applyAcquire layout _ _ _
  | release => exact h.release layout _

/-! ### Calls that fall asleep and wake up -/

omit [Arithmetic F] in
/-- The next entry to be allocated is in no queue yet. -/
theorem next_notMem (h : WaitersOk t moving sleeps) (id : String) : t.next ∉ t.queue id := by
  intro hmem
  obtain ⟨-, k, d, hk⟩ := (h.queued t.next).mp (Or.inr ⟨id, hmem⟩)
  exact (h.fresh k _ d hk).ne rfl

omit [Arithmetic F] in
/-- A call that does not sleep makes a new entry to sleep on. -/
theorem newWaiter (h : WaitersOk t [] sleeps) {k : ℕ} (hk : sleeps k = none) (d : Demand F) :
    WaitersOk { t.setWaiter t.next (LockTable.newWaiter d) with next := t.next + 1 } [t.next]
      (Function.update sleeps k (some (t.next, d))) := by
  have hnotin := h.next_notMem
  have hsleeps : ∀ j v d', Function.update sleeps k (some (t.next, d)) j = some (v, d') →
      (j = k ∧ v = t.next ∧ d' = d) ∨ (v ≠ t.next ∧ sleeps j = some (v, d')) := by
    intro j v d' hj
    rcases of_update_some hj with ⟨hjk, heq⟩ | ⟨-, hj⟩
    · exact Or.inl ⟨hjk, Prod.mk.inj heq⟩
    · exact Or.inr ⟨(h.fresh j v d' hj).ne, hj⟩
  refine ⟨?_, ?_, ?_, ?_, fun v => ?_, List.nodup_singleton _, ?_, h.queue_nodup,
    h.queue_apart⟩
  · intro j v d' hj
    rcases hsleeps j v d' hj with ⟨-, rfl, rfl⟩ | ⟨hv, hj⟩
    · simp [LockTable.newWaiter]
    · simpa [hv] using h.entry j v d' hj
  · intro j v d' hj
    show v < t.next + 1
    rcases hsleeps j v d' hj with ⟨-, rfl, -⟩ | ⟨-, hj⟩
    · omega
    · have := h.fresh j v d' hj
      omega
  · intro j v d' hj
    rcases hsleeps j v d' hj with ⟨-, rfl, rfl⟩ | ⟨hv, hj⟩
    · simp [LockTable.newWaiter]
    · simpa [hv] using h.ready j v d' hj
  · intro j j' v d₁ d₂ hj hj'
    rcases hsleeps j v d₁ hj with ⟨rfl, rfl, -⟩ | ⟨hv, hj⟩ <;>
      rcases hsleeps j' _ d₂ hj' with ⟨rfl, hv', -⟩ | ⟨hv', hj'⟩
    · rfl
    · exact absurd rfl hv'
    · exact absurd hv' hv
    · exact h.unique j j' v d₁ d₂ hj hj'
  · rcases eq_or_ne v t.next with rfl | hv
    · simp only [List.mem_singleton, true_or, LockTable.setWaiter_waiter, Function.update_self,
        true_iff]
      exact ⟨rfl, k, d, Function.update_self _ _ _⟩
    · have hold := h.queued v
      simp only [List.not_mem_nil, false_or] at hold
      simp only [List.mem_singleton, hv, false_or, LockTable.setWaiter_waiter,
        Function.update_of_ne hv]
      refine hold.trans (and_congr_right fun _ => ⟨?_, ?_⟩)
      · rintro ⟨j, d', hj⟩
        exact ⟨j, d', update_of_some hk _ hj⟩
      · rintro ⟨j, d', hj⟩
        rcases hsleeps j v d' hj with ⟨-, hv', -⟩ | ⟨-, hj⟩
        · exact absurd hv' hv
        · exact ⟨j, d', hj⟩
  · intro v hv
    rw [List.mem_singleton.mp hv]
    exact hnotin

omit [Arithmetic F] in
/-- A granted call leaves its entry behind. -/
theorem leave (h : WaitersOk t [] sleeps) {k : ℕ} {d : Demand F} (hk : sleeps k = some (w, d))
    (hgranted : (t.waiter w).granted = true) {entry : WaitQueueEntry F}
    (hentry : entry.granted = true) :
    WaitersOk (t.setWaiter w entry) [] (Function.update sleeps k none) := by
  have hsleeps : ∀ j v d', Function.update sleeps k none j = some (v, d') →
      v ≠ w ∧ sleeps j = some (v, d') := by
    intro j v d' hj
    obtain ⟨hjk, hj⟩ := of_update_none hj
    refine ⟨?_, hj⟩
    rintro rfl
    exact hjk (h.unique j k v d' d hj hk)
  refine ⟨?_, ?_, ?_, ?_, fun v => ?_, List.nodup_nil, by simp, h.queue_nodup, h.queue_apart⟩
  · intro j v d' hj
    obtain ⟨hv, hj⟩ := hsleeps j v d' hj
    simpa [hv] using h.entry j v d' hj
  · exact fun j v d' hj => h.fresh j v d' (hsleeps j v d' hj).2
  · intro j v d' hj
    obtain ⟨hv, hj⟩ := hsleeps j v d' hj
    simpa [hv] using h.ready j v d' hj
  · exact fun j j' v d₁ d₂ hj hj' =>
      h.unique j j' v d₁ d₂ (hsleeps j v d₁ hj).2 (hsleeps j' v d₂ hj').2
  · refine (h.queued v).trans ?_
    rcases eq_or_ne v w with rfl | hv
    · simp [hgranted, hentry]
    · simp only [LockTable.setWaiter_waiter, Function.update_of_ne hv]
      refine and_congr_right fun _ => ⟨?_, ?_⟩
      · rintro ⟨j, d', hj⟩
        have hjk : j ≠ k := by
          rintro rfl
          rw [hk, Option.some.injEq, Prod.mk.injEq] at hj
          exact hv hj.1.symm
        exact ⟨j, d', by rwa [Function.update_of_ne hjk]⟩
      · rintro ⟨j, d', hj⟩
        exact ⟨j, d', (hsleeps j v d' hj).2⟩

/-! ### What the calls see -/

/-- A rebalancing takes no grant back. -/
theorem rebalance_granted (h : WaitersOk t ws sleeps) (layout : Layout String)
    (granted : List ℕ) {v : ℕ} (hv : (t.waiter v).granted = true) :
    ((LockTable.rebalance layout t granted ws).1.waiter v).granted = true := by
  refine (h.rebalance (P := fun t => (t.waiter v).granted = true) layout granted hv ?_ ?_).2
  · intro t w ws id s h _ _ hv
    have hw : v ≠ w := by
      rintro rfl
      rw [h.head.1] at hv
      cases hv
    simpa [LockTable.requeue, hw] using hv
  · intro t w ws k d h _ _ hv
    rw [grant_waiter]
    split_ifs
    · rfl
    · exact hv

/-- A lock after a rebalancing was there before, or belongs to a granted call. -/
theorem rebalance_locks (h : WaitersOk t ws sleeps) (layout : Layout String)
    (granted : List ℕ) {id : String}
    (hid : ((LockTable.rebalance layout t granted ws).1.active.find id).isSome) :
    (t.active.find id).isSome ∨ ∃ k w d, sleeps k = some (w, d) ∧ d.agentId = id ∧
      ((LockTable.rebalance layout t granted ws).1.waiter w).granted = true := by
  refine (h.rebalance (P := fun t' => (t'.active.find id).isSome → (t.active.find id).isSome ∨
    ∃ k w d, sleeps k = some (w, d) ∧ d.agentId = id ∧ (t'.waiter w).granted = true)
    layout granted Or.inl ?_ ?_).2 hid
  · intro t' w ws j s h _ _ hP hsome
    rw [LockTable.requeue, LockTable.find_enqueue, Option.isSome_map] at hsome
    refine (hP hsome).imp_right fun ⟨k, v, d, hk, hd, hv⟩ => ⟨k, v, d, hk, hd, ?_⟩
    have hw : v ≠ w := by
      rintro rfl
      rw [h.head.1] at hv
      cases hv
    simpa [LockTable.requeue, hw] using hv
  · intro t' w ws k d h hk _ hP hsome
    obtain ⟨lock, hs, -⟩ := h.grant_stores layout hk
    rcases eq_or_ne id d.agentId with rfl | hne
    · exact Or.inr ⟨k, w, d, hk, rfl, by rw [grant_waiter, if_pos rfl]⟩
    · rw [LockTable.grant, LockTable.setWaiter_active, hs.find_of_ne hne] at hsome
      refine (hP hsome).imp_right fun ⟨k', v, d', hk', hd', hv⟩ => ⟨k', v, d', hk', hd', ?_⟩
      rw [grant_waiter]
      split_ifs
      · rfl
      · exact hv

/-- What is left after the lock of `a` has been taken away: no grant is lost, and each
lock was there before or belongs to a granted call. -/
structure Frees (sleeps : ℕ → Option (ℕ × Demand F)) (t t' : LockTable F) (a : String) :
    Prop where
  granted : ∀ v, (t.waiter v).granted = true → (t'.waiter v).granted = true
  locks : ∀ id, (t'.active.find id).isSome → (id ≠ a ∧ (t.active.find id).isSome) ∨
    ∃ k w d, sleeps k = some (w, d) ∧ d.agentId = id ∧ (t'.waiter w).granted = true

theorem removeLock_frees (h : WaitersOk t [] sleeps) (layout : Layout String) {a : String}
    {lock : SemanticLock F} (hfind : t.active.find a = some lock) :
    Frees sleeps t (t.removeLock layout a lock).1 a := by
  have herase := h.erase hfind
  refine ⟨fun v hv => herase.rebalance_granted layout [] hv, fun id hid => ?_⟩
  refine (herase.rebalance_locks layout [] hid).imp_left fun hsome => ?_
  rw [LockTable.erase, UnorderedMap.find_erase] at hsome
  split_ifs at hsome with hne
  · cases hsome
  · exact ⟨hne, hsome⟩

theorem release_frees (h : WaitersOk t [] sleeps) (layout : Layout String) (a : String) :
    Frees sleeps t (t.release layout a).1 a := by
  rcases t.release_cases layout a with ⟨hnone, he⟩ | ⟨lock, hfind, he⟩ <;> rw [he]
  · refine ⟨fun v hv => hv, fun id hid => Or.inl ⟨?_, hid⟩⟩
    rintro rfl
    rw [hnone] at hid
    cases hid
  · exact h.removeLock_frees layout hfind

/-- `remove_pending` does nothing, or frees the slot of `a`. -/
theorem removePending_frees (h : WaitersOk t [] sleeps) (layout : Layout String) (a : String) :
    (t.removePending layout a).1 = t ∨ Frees sleeps t (t.removePending layout a).1 a := by
  rcases t.removePending_cases layout a with he | ⟨lock, hfind, -, he⟩
  · exact Or.inl he
  · rw [he]
    exact Or.inr (h.removeLock_frees layout hfind)

end WaitersOk

/-- The call makes a new entry and enters the queue of lock `id`. -/
def LockTable.sleepOn (t : LockTable F) (d : Demand F) (id : String) : LockTable F :=
  ({ t.setWaiter t.next (LockTable.newWaiter d) with next := t.next + 1 }).enqueue id t.next

/-! ### What a step of a call can do -/

/-- The steps of a call while the waiters are in order: it is admitted, falls asleep, or
returns with the slot handed over to it. -/
inductive CallMove [Arithmetic F] (reserve : LockTable F → LockTable F) (t : LockTable F)
    (d : Demand F) : Admission F → LockTable F → Admission F → Prop
  | reserve (hfree : t.findConflict d.embedding d.threshold = none) :
    CallMove reserve t d .gate (reserve t) (.returned { blockingSimilarityScore := 0 })
  | sleep (id : String) (s : F)
    (hconflict : t.findConflict d.embedding d.threshold = some (id, s)) :
    CallMove reserve t d .gate (t.sleepOn d id) (.asleep t.next
      (LockTable.traceConflict { blockingSimilarityScore := 0 }
        ((t.sleepOn d id).active.find id) s))
  | wake (w : ℕ) (trace : AcquireTrace F) (hgranted : (t.waiter w).granted = true) :
    CallMove reserve t d (.asleep w trace) (t.setWaiter w { t.waiter w with ready := false })
      (.returned { trace with
        wakeCount := trace.wakeCount + 1, queueHops := (t.waiter w).queueHops })

namespace LockTable

variable [Arithmetic F] {t t' : LockTable F} {reserve : LockTable F → LockTable F}
  {d : Demand F} {a' : Admission F}

/-- One turn of the loop, from the start of the call. -/
theorem waitLoop_move
    (h : t.waitLoop reserve d { blockingSimilarityScore := 0 } = (t', a')) :
    CallMove reserve t d .gate t' a' := by
  unfold waitLoop at h
  cases hc : t.findConflict d.embedding d.threshold with
  | none =>
    rw [hc] at h
    obtain ⟨rfl, rfl⟩ := Prod.mk.inj h
    exact .reserve hc
  | some conflict =>
    obtain ⟨id, s⟩ := conflict
    rw [hc] at h
    obtain ⟨rfl, rfl⟩ := Prod.mk.inj h
    exact .sleep id s hc

/-- A call that is ready has been granted, so it does not loop again. -/
theorem wake_move {w : ℕ} {trace : AcquireTrace F}
    (hready : (t.waiter w).ready = (t.waiter w).granted)
    (h : t.wake reserve d w trace = some (t', a')) :
    CallMove reserve t d (.asleep w trace) t' a' := by
  unfold wake at h
  dsimp only at h
  split_ifs at h with hr hgranted
  · obtain ⟨rfl, rfl⟩ := Option.some.inj h
    exact .wake w trace hgranted
  · rw [hready] at hr
    exact absurd hr hgranted

end LockTable

namespace WaitersOk

variable {t t' : LockTable F} {sleeps : ℕ → Option (ℕ × Demand F)} [Arithmetic F]
  {k : ℕ} {d : Demand F} {a a' : Admission F}

theorem admissionMove (h : WaitersOk t [] sleeps) (hk : sleeps k = a.sleeping d)
    {layout : Layout String} (hstep : t.waitForAdmission layout d a = some (t', a')) :
    CallMove (LockTable.reservePending layout d) t d a t' a' := by
  cases a with
  | gate =>
    simp only [LockTable.waitForAdmission] at hstep
    split_ifs at hstep
    exact LockTable.waitLoop_move (Option.some.inj hstep)
  | asleep w trace => exact LockTable.wake_move (h.ready k w d hk) hstep
  | returned trace => cases hstep

/-- A step of a call keeps the waiters in order, if what it reserves is a slot. -/
theorem move {reserve : LockTable F → LockTable F} (h : WaitersOk t [] sleeps)
    (hk : sleeps k = a.sleeping d) (hreserve : WaitersOk (reserve t) [] sleeps)
    (hmove : CallMove reserve t d a t' a') :
    WaitersOk t' [] (Function.update sleeps k (a'.sleeping d)) := by
  cases hmove with
  | reserve hfree =>
    have hsame : Function.update sleeps k none = sleeps := by
      rw [show (none : Option (ℕ × Demand F)) = sleeps k from hk.symm, Function.update_eq_self]
    exact hsame.symm ▸ hreserve
  | sleep id s hconflict =>
    exact (h.newWaiter hk d).enqueue (LockTable.isSome_of_findConflict hconflict)
  | wake w trace hgranted => exact h.leave hk hgranted hgranted

end WaitersOk

end DistributedLock.Table
