import DistributedLock.Table.Operations

/-! A reservation that is cancelled at once: `wait_for_admission` that finds no conflict,
and `remove_pending` of the same agent right after it, as when the proposal of a lock
fails. An agent has one slot, which a reservation writes over. -/

namespace DistributedLock.Table

open Library

namespace LockTable

variable {F : Type*}

/-- The same locks with the same queues, over the same wait queue entries; the order of
iteration may differ. -/
structure SameLocks (t t' : LockTable F) : Prop where
  find : ∀ id, t'.active.find id = t.active.find id
  waiter : t'.waiter = t.waiter
  next : t'.next = t.next
  sweep : t'.sweepInProgress = t.sweepInProgress

theorem SameLocks.refl (t : LockTable F) : SameLocks t t := ⟨fun _ => rfl, rfl, rfl, rfl⟩

variable [Arithmetic F]

/-- A call that is admitted at once has found no conflict, and leaves a reservation. -/
theorem waitForAdmission_returned {layout : Layout String} {t t' : LockTable F} {d : Demand F}
    {trace : AcquireTrace F} (h : t.waitForAdmission layout d .gate = some (t', .returned trace)) :
    t' = reservePending layout d t := by
  rw [waitForAdmission] at h
  split_ifs at h
  rw [waitLoop] at h
  split at h
  · simp only [Option.some.injEq, Prod.mk.injEq, Admission.returned.injEq] at h
    exact h.1.symm
  · simp at h

/-- A rebalancing that grants nobody brings no lock. -/
theorem find_rebalance_eq_none (layout : Layout String) {t : LockTable F} {a : String}
    (ha : t.active.find a = none) (ws : List ℕ)
    (h : (rebalance layout t [] ws).2 = []) :
    (rebalance layout t [] ws).1.active.find a = none := by
  refine rebalance_granted_induction
    (P := fun t granted _ => granted = [] → t.active.find a = none) layout ?_ ?_ (fun _ => ha) h
  · intro t granted w ws id s hP _ hgranted
    rw [requeue, find_enqueue, setWaiter_active, hP hgranted, Option.map_none]
  · intro t granted w ws _ _ hgranted
    simp at hgranted

/-- A reservation under a free id is taken back without a trace. -/
theorem removePending_reservePending_free (layout cancel : Layout String) {t : LockTable F}
    {d : Demand F} (h : t.active.find d.agentId = none) :
    SameLocks t ((reservePending layout d t).removePending cancel d.agentId).1 ∧
      ((reservePending layout d t).removePending cancel d.agentId).2 = [] := by
  let slot : SemanticLock F :=
    { agentId := d.agentId, centroid := d.embedding, threshold := d.threshold, pending := true }
  have hreserve : reservePending layout d t =
      { t with active := t.active.emplace layout d.agentId slot } := by
    rw [reservePending, insertPending, h]
  have hfind : ∀ id, (reservePending layout d t).active.find id =
      if id = d.agentId then some slot else t.active.find id := by
    intro id
    rw [hreserve]
    exact UnorderedMap.find_emplace h layout slot id
  have hremove : (reservePending layout d t).removePending cancel d.agentId =
      ((reservePending layout d t).erase d.agentId, []) := by
    rw [removePending, hfind, if_pos rfl]
    rfl
  rw [hremove]
  refine ⟨⟨?_, ?_, ?_, ?_⟩, rfl⟩
  · intro id
    rw [erase, UnorderedMap.find_erase, hfind]
    by_cases hid : id = d.agentId
    · rw [if_pos hid, hid, h]
    · rw [if_neg hid, if_neg hid]
  all_goals rw [hreserve]; rfl

/-- A real lock is written over, and `remove_pending` leaves it so. -/
theorem removePending_reservePending_real (layout cancel : Layout String) {t : LockTable F}
    {d : Demand F} {lock : SemanticLock F} (h : t.active.find d.agentId = some lock)
    (hreal : lock.pending = false) :
    (reservePending layout d t).removePending cancel d.agentId = (reservePending layout d t, []) ∧
      (SameLocks t (reservePending layout d t) ↔
        lock.centroid = d.embedding ∧ lock.threshold = d.threshold) := by
  let write (lock : SemanticLock F) : SemanticLock F :=
    { lock with centroid := d.embedding, threshold := d.threshold }
  have hreserve : reservePending layout d t =
      { t with active := t.active.modify d.agentId write } := by
    rw [reservePending, insertPending, h]
  have hfind : ∀ id, (reservePending layout d t).active.find id =
      if id = d.agentId then some (write lock) else t.active.find id := by
    intro id
    rw [hreserve, UnorderedMap.find_modify]
    by_cases hid : id = d.agentId
    · rw [if_pos hid, if_pos hid, hid, h, Option.map_some]
    · rw [if_neg hid, if_neg hid]
  constructor
  · have hflag : (write lock).pending = false := hreal
    rw [removePending, hfind, if_pos rfl]
    simp [hflag]
  · constructor
    · intro hsame
      have hlock := hsame.find d.agentId
      rw [hfind, if_pos rfl, h, Option.some.injEq] at hlock
      rw [← hlock]
      exact ⟨rfl, rfl⟩
    · rintro ⟨hcentroid, hthreshold⟩
      have hlock : write lock = lock := by simp only [write, ← hcentroid, ← hthreshold]
      refine ⟨?_, ?_, ?_, ?_⟩
      · intro id
        rw [hfind, hlock]
        by_cases hid : id = d.agentId
        · rw [if_pos hid, hid, h]
        · rw [if_neg hid]
      all_goals rw [hreserve]

/-- A pending slot keeps its flag, so that the cancellation takes it away, whoever it
belongs to: the slot is gone, or one of its waiters has been granted. -/
theorem removePending_reservePending_pending (layout cancel : Layout String) {t : LockTable F}
    {d : Demand F} {lock : SemanticLock F} (h : t.active.find d.agentId = some lock)
    (hpending : lock.pending = true) :
    ((reservePending layout d t).removePending cancel d.agentId).2 = [] →
      ((reservePending layout d t).removePending cancel d.agentId).1.active.find d.agentId =
        none := by
  obtain ⟨slot, hslot, -, -, hflag⟩ :=
    insertPending_stores layout t d.agentId d.embedding d.threshold
  rw [h, Option.map_some, Option.getD_some, hpending] at hflag
  have hremove : (reservePending layout d t).removePending cancel d.agentId =
      (reservePending layout d t).removeLock cancel d.agentId slot := by
    rw [reservePending, removePending, hslot.find_self]
    simp [hflag]
  rw [hremove]
  exact find_rebalance_eq_none cancel (UnorderedMap.find_erase_self _ _) _

/-- Reserving and cancelling leaves the table as it was, and grants nobody, exactly if the
agent had no slot, or a real lock of the embedding and threshold asked for. -/
theorem removePending_waitForAdmission_iff (layout cancel : Layout String) {t t' : LockTable F}
    {d : Demand F} {trace : AcquireTrace F}
    (h : t.waitForAdmission layout d .gate = some (t', .returned trace)) :
    (SameLocks t (t'.removePending cancel d.agentId).1 ∧
        (t'.removePending cancel d.agentId).2 = []) ↔
      ∀ lock, t.active.find d.agentId = some lock →
        lock.pending = false ∧ lock.centroid = d.embedding ∧ lock.threshold = d.threshold := by
  rw [waitForAdmission_returned h]
  cases hfind : t.active.find d.agentId with
  | none =>
    have hfree := removePending_reservePending_free layout cancel hfind
    constructor
    · intro _ lock hlock
      cases hlock
    · exact fun _ => hfree
  | some lock =>
    simp only [Option.some.injEq, forall_eq']
    cases hflag : lock.pending with
    | false =>
      obtain ⟨hremove, hsame⟩ := removePending_reservePending_real layout cancel hfind hflag
      rw [hremove]
      simp only [hsame, and_true, true_and]
    | true =>
      have hgone := removePending_reservePending_pending layout cancel hfind hflag
      constructor
      · rintro ⟨hsame, hgranted⟩
        have hlock := hsame.find d.agentId
        rw [hgone hgranted, hfind] at hlock
        cases hlock
      · rintro ⟨hcontra, -⟩
        cases hcontra

/-! ### An agent that holds a lock -/

def heldTable : LockTable ℤ := empty.applyAcquire .newest "agent" [1, 0] 1

def secondDemand : Demand ℤ := { agentId := "agent", embedding := [0, 1], threshold := 1 }

theorem waitForAdmission_heldTable :
    heldTable.waitForAdmission .newest secondDemand .gate =
      some (reservePending .newest secondDemand heldTable,
        .returned { blockingSimilarityScore := 0 }) := by
  have h : heldTable.findConflict secondDemand.embedding secondDemand.threshold = none := by
    decide +kernel
  rw [waitForAdmission, if_neg (by decide), waitLoop, h]

theorem removePending_waitForAdmission_iff_heldTable :
    (SameLocks heldTable
          ((reservePending .newest secondDemand heldTable).removePending .newest "agent").1 ∧
        ((reservePending .newest secondDemand heldTable).removePending .newest "agent").2 = []) ↔
      ∀ lock, heldTable.active.find "agent" = some lock →
        lock.pending = false ∧ lock.centroid = [0, 1] ∧ lock.threshold = 1 :=
  removePending_waitForAdmission_iff .newest .newest waitForAdmission_heldTable

/-- The real lock of the agent comes out of the cancelled reservation with the embedding
of the reservation. -/
theorem removePending_waitForAdmission_overwrites :
    ¬ ∀ (layout cancel : Layout String) (t t' : LockTable ℤ) (d : Demand ℤ)
      (trace : AcquireTrace ℤ),
      t.waitForAdmission layout d .gate = some (t', .returned trace) →
        SameLocks t (t'.removePending cancel d.agentId).1 ∧
          (t'.removePending cancel d.agentId).2 = [] := by
  intro h
  have hsame := (h .newest .newest heldTable _ secondDemand _ waitForAdmission_heldTable).1
  have hcentroid := congrArg (Option.map SemanticLock.centroid) (hsame.find "agent")
  exact absurd hcentroid (by decide +kernel)

end LockTable

end DistributedLock.Table
