import DistributedLock.Library.Lists
import DistributedLock.Table.Replica
import DistributedLock.Table.Waiters

/-! The blocking calls of a table. A call scans the locks once: it takes its slot, or
sleeps on an entry of its own in the queue of the lock that blocks it. Only the
removal of that lock moves or grants the entry, and a granted call returns without a
second scan. -/

namespace DistributedLock.Table

open Library Raft

variable {F : Type*}

/-- What the call does when it finds no conflict. -/
def Call.reserve (layout : Layout String) (call : Call F) : LockTable F → LockTable F :=
  match call.kind with
  | .waitForAdmission => LockTable.reservePending layout call.demand
  | .acquire => LockTable.reserveReal layout call.demand

theorem Call.reserve_stores (layout : Layout String) (call : Call F) (t : LockTable F) :
    ∃ lock, LockTable.Stores t (call.reserve layout t) call.demand.agentId lock ∧
      lock.centroid = call.demand.embedding ∧ lock.threshold = call.demand.threshold := by
  unfold Call.reserve
  cases call.kind with
  | waitForAdmission => exact LockTable.reservePending_stores layout call.demand t
  | acquire =>
    obtain ⟨lock, hs, hcentroid, hthreshold, -⟩ := t.applyAcquire_stores layout
      call.demand.agentId call.demand.embedding call.demand.threshold
    exact ⟨lock, hs, hcentroid, hthreshold⟩

/-! ### The calls of a replica -/

/-- What the calls sleep on. -/
def sleepsOf (calls : List (Call F)) (k : ℕ) : Option (ℕ × Demand F) :=
  calls[k]?.bind fun call => call.admission.sleeping call.demand

theorem sleepsOf_of_get {calls : List (Call F)} {k : ℕ} {call : Call F}
    (hk : calls[k]? = some call) : sleepsOf calls k = call.admission.sleeping call.demand := by
  simp [sleepsOf, hk]

theorem sleepsOf_eq_some {calls : List (Call F)} {k w : ℕ} {d : Demand F} :
    sleepsOf calls k = some (w, d) ↔
      ∃ call trace, calls[k]? = some call ∧ call.admission = .asleep w trace ∧ call.demand = d := by
  unfold sleepsOf
  rw [Option.bind_eq_some_iff]
  constructor
  · rintro ⟨call, hcall, h⟩
    cases hadm : call.admission with
    | asleep v trace =>
      rw [hadm] at h
      simp only [Admission.sleeping, Option.some.injEq, Prod.mk.injEq] at h
      exact ⟨call, trace, hcall, by rw [hadm, h.1], h.2⟩
    | gate =>
      rw [hadm] at h
      cases h
    | returned trace =>
      rw [hadm] at h
      cases h
  · rintro ⟨call, trace, hcall, hadm, rfl⟩
    exact ⟨call, hcall, by rw [hadm]; rfl⟩

theorem sleepsOf_set {calls : List (Call F)} {k : ℕ} {call : Call F}
    (hk : calls[k]? = some call) (a : Admission F) :
    sleepsOf (calls.set k { call with admission := a }) =
      Function.update (sleepsOf calls) k (a.sleeping call.demand) := by
  funext j
  exact bind_getElem?_set _ hk j

/-- A new call does not sleep yet. -/
theorem sleepsOf_request (calls : List (Call F)) (kind : CallKind) (demand : Demand F) :
    sleepsOf (calls ++ [({ kind, demand } : Call F)]) = sleepsOf calls := by
  funext j
  exact bind_getElem?_concat rfl j

namespace Replica

variable [Arithmetic F] {r r' : Replica F}

theorem advance_cases (h : WaitersOk r.table [] (sleepsOf r.calls)) {k : ℕ}
    {layout : Layout String} (hstep : r.step (.advance k layout) = some r') :
    ∃ call t' a', r.calls[k]? = some call ∧
      CallMove (call.reserve layout) r.table call.demand call.admission t' a' ∧
      r' = { r with table := t', calls := r.calls.set k { call with admission := a' } } := by
  simp only [step, advance] at hstep
  cases hk : r.calls[k]? with
  | none => simp [hk] at hstep
  | some call =>
    simp only [hk, Option.map_eq_some_iff] at hstep
    obtain ⟨⟨t', a'⟩, hnext, rfl⟩ := hstep
    refine ⟨call, t', a', rfl, ?_, rfl⟩
    have hsleeps := sleepsOf_of_get hk
    unfold Call.reserve
    cases hkind : call.kind with
    | waitForAdmission =>
      rw [hkind] at hnext
      exact h.admissionMove hsleeps hnext
    | acquire =>
      rw [hkind] at hnext
      generalize call.admission = a at hsleeps hnext ⊢
      cases a with
      | gate => exact LockTable.waitLoop_move (Option.some.inj hnext)
      | asleep w trace => exact LockTable.wake_move (h.ready k w call.demand hsleeps) hnext
      | returned trace => cases hnext

/-- What a step does to the calls. -/
theorem calls_step {a : Action F} (h : WaitersOk r.table [] (sleepsOf r.calls))
    (hstep : r.step a = some r') : r'.calls = r.calls ∨
      (∃ kind demand, a = .request kind demand ∧
        r'.calls = r.calls ++ [({ kind, demand } : Call F)]) ∨
      ∃ k layout call t' a', a = .advance k layout ∧ r.calls[k]? = some call ∧
        CallMove (call.reserve layout) r.table call.demand call.admission t' a' ∧
        r' = { r with table := t', calls := r.calls.set k { call with admission := a' } } := by
  cases a with
  | request kind demand =>
    obtain rfl := Option.some.inj hstep
    exact Or.inr (Or.inl ⟨kind, demand, rfl, rfl⟩)
  | advance k layout =>
    obtain ⟨call, t', a', hk, hmove, hr⟩ := advance_cases h hstep
    exact Or.inr (Or.inr ⟨k, layout, call, t', a', rfl, hk, hmove, hr⟩)
  | removePending agentId layout =>
    obtain rfl := Option.some.inj hstep
    exact Or.inl rfl
  | apply entry layout =>
    obtain rfl := Option.some.inj hstep
    exact Or.inl rfl
  | beginLeaderSweep =>
    obtain rfl := Option.some.inj hstep
    exact Or.inl rfl
  | endLeaderSweep =>
    obtain rfl := Option.some.inj hstep
    exact Or.inl rfl

/-- Only its own steps change a call. -/
theorem call_step {a : Action F} (h : WaitersOk r.table [] (sleepsOf r.calls))
    (hstep : r.step a = some r') {k : ℕ} {call : Call F} (hk : r.calls[k]? = some call) :
    r'.calls[k]? = some call ∨ ∃ layout t' a', a = .advance k layout ∧
      CallMove (call.reserve layout) r.table call.demand call.admission t' a' ∧
      r' = { r with table := t', calls := r.calls.set k { call with admission := a' } } := by
  rcases calls_step h hstep with
    hcalls | ⟨kind, demand, -, hcalls⟩ | ⟨j, layout, call', t', a', rfl, hj, hmove, rfl⟩
  · exact Or.inl (by rw [hcalls, hk])
  · have hlt := (List.getElem?_eq_some_iff.mp hk).1
    exact Or.inl (by rw [hcalls, List.getElem?_append_left hlt, hk])
  · rcases eq_or_ne j k with rfl | hne
    · obtain rfl := Option.some.inj (hj.symm.trans hk)
      exact Or.inr ⟨layout, t', a', rfl, hmove, rfl⟩
    · exact Or.inl (by rw [List.getElem?_set_ne hne, hk])

/-- A call that has returned takes no more steps. -/
theorem returned_step {a : Action F} (h : WaitersOk r.table [] (sleepsOf r.calls))
    (hstep : r.step a = some r') {k : ℕ}
    (hk : ∃ call trace, r.calls[k]? = some call ∧ call.admission = .returned trace) :
    ∃ call trace, r'.calls[k]? = some call ∧ call.admission = .returned trace := by
  obtain ⟨call, trace, hk, hadm⟩ := hk
  rcases call_step h hstep hk with hk' | ⟨layout, t', a', -, hmove, -⟩
  · exact ⟨call, trace, hk', hadm⟩
  · rw [hadm] at hmove
    cases hmove

theorem not_returned_of_advance (h : WaitersOk r.table [] (sleepsOf r.calls)) {k : ℕ}
    {layout : Layout String} (hstep : r.step (.advance k layout) = some r') :
    ¬ ∃ call trace, r.calls[k]? = some call ∧ call.admission = .returned trace := by
  rintro ⟨call, trace, hk, hadm⟩
  obtain ⟨call', t', a', hk', hmove, -⟩ := advance_cases h hstep
  obtain rfl := Option.some.inj (hk.symm.trans hk')
  rw [hadm] at hmove
  cases hmove

/-- A call after a step is an old one, a new one, or one that has taken the step. -/
theorem calls_cases {a : Action F} (h : WaitersOk r.table [] (sleepsOf r.calls))
    (hstep : r.step a = some r') {k : ℕ} {c : Call F} (hk : r'.calls[k]? = some c) :
    r.calls[k]? = some c ∨ (∃ kind demand, a = .request kind demand ∧ c = { kind, demand }) ∨
      ∃ call layout t' a', r.calls[k]? = some call ∧
        CallMove (call.reserve layout) r.table call.demand call.admission t' a' ∧
        c = { call with admission := a' } := by
  rcases calls_step h hstep with
    hcalls | ⟨kind, demand, ha, hcalls⟩ | ⟨j, layout, call, t', a', -, hj, hmove, rfl⟩
  · exact Or.inl (hcalls ▸ hk)
  · rw [hcalls] at hk
    rcases getElem?_of_concat hk with hk | ⟨-, rfl⟩
    · exact Or.inl hk
    · exact Or.inr (Or.inl ⟨kind, demand, ha, rfl⟩)
  · rcases getElem?_of_set hk with ⟨rfl, rfl⟩ | ⟨-, hk⟩
    · exact Or.inr (Or.inr ⟨call, layout, t', a', hj, hmove, rfl⟩)
    · exact Or.inl hk

/-- All calls are of one kind as long as the requests are. -/
theorem kind_step {a : Action F} (h : WaitersOk r.table [] (sleepsOf r.calls)) {kind : CallKind}
    (hkind : ∀ (k : ℕ) (call : Call F), r.calls[k]? = some call → call.kind = kind)
    (hstep : r.step a = some r') (hrequest : ∀ kind' demand, a = .request kind' demand →
      kind' = kind) (k : ℕ) (call : Call F) (hk : r'.calls[k]? = some call) :
    call.kind = kind := by
  rcases calls_cases h hstep hk with
    hold | ⟨kind', demand, ha, rfl⟩ | ⟨call, layout, t', a', hold, -, rfl⟩
  · exact hkind k call hold
  · exact hrequest kind' demand ha
  · exact hkind k call hold

theorem waitersOk_step {a : Action F} (h : WaitersOk r.table [] (sleepsOf r.calls))
    (hstep : r.step a = some r') : WaitersOk r'.table [] (sleepsOf r'.calls) := by
  cases a with
  | request kind demand =>
    obtain rfl := Option.some.inj hstep
    rw [sleepsOf_request]
    exact h
  | advance k layout =>
    obtain ⟨call, t', a', hk, hmove, rfl⟩ := advance_cases h hstep
    dsimp only
    rw [sleepsOf_set hk]
    obtain ⟨lock, hs, -⟩ := call.reserve_stores layout r.table
    exact h.move (sleepsOf_of_get hk) (h.of_stores hs) hmove
  | removePending agentId layout =>
    obtain rfl := Option.some.inj hstep
    exact h.removePending layout agentId
  | apply entry layout =>
    obtain rfl := Option.some.inj hstep
    exact h.onCommit layout entry
  | beginLeaderSweep =>
    obtain rfl := Option.some.inj hstep
    exact h.of_same rfl rfl rfl
  | endLeaderSweep =>
    obtain rfl := Option.some.inj hstep
    exact h.of_same rfl rfl rfl

theorem waitersOk {as : List (Action F)} (h : (system F).exec as = some r) :
    WaitersOk r.table [] (sleepsOf r.calls) := by
  exact (system F).invariant (P := fun r => WaitersOk r.table [] (sleepsOf r.calls))
    (.empty fun _ => rfl) (fun _ _ _ => waitersOk_step) h

end Replica

/-! ### The requests behind the calls -/

/-- What the calls ask for, unless their requests are closed. -/
def openOf (calls : List (Call F)) (closed : ℕ → Prop) [DecidablePred closed] (k : ℕ) :
    Option (Demand F) :=
  calls[k]?.bind fun call => if closed k then none else some call.demand

section

variable {calls : List (Call F)} {closed : ℕ → Prop} [DecidablePred closed] {k : ℕ} {call : Call F}
  {d : Demand F}

theorem openOf_eq_some : openOf calls closed k = some d ↔
    ∃ call, calls[k]? = some call ∧ call.demand = d ∧ ¬ closed k := by
  unfold openOf
  rw [Option.bind_eq_some_iff]
  refine exists_congr fun call => and_congr_right fun _ => ?_
  split_ifs with hk <;> simp [hk]

theorem openOf_set (hk : calls[k]? = some call) (a : Admission F) :
    openOf (calls.set k { call with admission := a }) closed = openOf calls closed := by
  funext j
  unfold openOf
  rw [bind_getElem?_set _ hk]
  rcases eq_or_ne j k with rfl | hj
  · rw [Function.update_self, hk]
    rfl
  · rw [Function.update_of_ne hj]

theorem openOf_request (kind : CallKind) (demand : Demand F) (hopen : ¬ closed calls.length) :
    openOf (calls ++ [({ kind, demand } : Call F)]) closed =
      Function.update (openOf calls closed) calls.length (some demand) := by
  funext j
  unfold openOf
  rcases lt_trichotomy j calls.length with hj | rfl | hj
  · rw [List.getElem?_append_left hj, Function.update_of_ne hj.ne]
  · simp [hopen]
  · rw [Function.update_of_ne hj.ne', List.getElem?_eq_none (by simp; omega),
      List.getElem?_eq_none hj.le]

theorem openOf_congr {closed' : ℕ → Prop} [DecidablePred closed']
    (hclosed : ∀ j, closed' j ↔ closed j) : openOf calls closed' = openOf calls closed := by
  funext j
  unfold openOf
  simp only [hclosed]

theorem openOf_close {closed' : ℕ → Prop} [DecidablePred closed']
    (hclosed : ∀ j, closed' j ↔ j = k ∨ closed j) :
    openOf calls closed' = Function.update (openOf calls closed) k none := by
  funext j
  unfold openOf
  rcases eq_or_ne j k with rfl | hj
  · simp [hclosed]
  · simp [hclosed, hj]

/-- A sleeping call has an open request, if requests are closed when their calls have
returned. -/
theorem openOf_of_sleeps {w : ℕ} (hclosed : ∀ j, closed j → ∃ call trace,
      calls[j]? = some call ∧ call.admission = .returned trace)
    (hk : sleepsOf calls k = some (w, d)) : openOf calls closed k = some d := by
  obtain ⟨call, trace, hcall, hadm, rfl⟩ := sleepsOf_eq_some.mp hk
  refine openOf_eq_some.mpr ⟨call, hcall, rfl, fun hdone => ?_⟩
  obtain ⟨call', trace', hcall', hadm'⟩ := hclosed k hdone
  obtain rfl := Option.some.inj (hcall.symm.trans hcall')
  rw [hadm] at hadm'
  cases hadm'

variable {asks : ℕ → Option (Demand F)}

/-- A new request, of an agent without an open one. -/
theorem distinct_request
    (h : ∀ k k' d d', asks k = some d → asks k' = some d' → d.agentId = d'.agentId → k = k')
    (hidle : ∀ j d', asks j = some d' → d'.agentId ≠ d.agentId) (j j' : ℕ) (d₁ d₂ : Demand F)
    (hj : Function.update asks k (some d) j = some d₁)
    (hj' : Function.update asks k (some d) j' = some d₂) (hagent : d₁.agentId = d₂.agentId) :
    j = j' := by
  rcases of_update_some hj with ⟨rfl, rfl⟩ | ⟨-, hold⟩ <;>
    rcases of_update_some hj' with ⟨rfl, rfl⟩ | ⟨-, hold'⟩
  · rfl
  · exact absurd hagent.symm (hidle j' d₂ hold')
  · exact absurd hagent (hidle j d₁ hold)
  · exact h j j' d₁ d₂ hold hold' hagent

/-- The calls still sleep for open requests when that of another call is closed. -/
theorem asks_close (hasleep : ∀ k w d, sleepsOf calls k = some (w, d) → asks k = some d)
    (hawake : sleepsOf calls k = none) (j w : ℕ) (d' : Demand F)
    (hj : sleepsOf calls j = some (w, d')) : Function.update asks k none j = some d' := by
  have hjk : j ≠ k := by
    rintro rfl
    rw [hawake] at hj
    cases hj
  rw [Function.update_of_ne hjk]
  exact hasleep j w d' hj

end

/-! ### Where a waiter sits -/

namespace WaitersOk

variable [Arithmetic F] {t : LockTable F} {sleeps : ℕ → Option (ℕ × Demand F)} {w : ℕ}
  {id a : String}

/-- Taking another lock away leaves a queued waiter where it is. -/
theorem removeLock_keeps (h : WaitersOk t [] sleeps) (layout : Layout String)
    {lock : SemanticLock F} (hfind : t.active.find a = some lock) (hne : id ≠ a)
    (hw : w ∈ t.queue id) :
    w ∈ (t.removeLock layout a lock).1.queue id ∧
      (t.removeLock layout a lock).1.waiter w = t.waiter w := by
  refine ((h.erase hfind).rebalance
    (P := fun t' => w ∈ t'.queue id ∧ t'.waiter w = t.waiter w) layout [] ?_ ?_ ?_).2
  · exact ⟨LockTable.mem_erase_queue.mpr ⟨hne, hw⟩, rfl⟩
  · rintro t' v ws j s h hj - ⟨hmem, hentry⟩
    have hv : w ≠ v := by
      rintro rfl
      exact h.head.2.2.1 id hmem
    refine ⟨(LockTable.mem_enqueue_queue hj).mpr (Or.inl hmem), ?_⟩
    simpa [LockTable.requeue, hv] using hentry
  · rintro t' v ws k d h - - ⟨hmem, hentry⟩
    have hv : w ≠ v := by
      rintro rfl
      exact h.head.2.2.1 id hmem
    obtain ⟨lock, hs, -⟩ := t'.insertPending_stores layout (t'.waiter v).waitingAgentId
      (t'.waiter v).embedding (t'.waiter v).theta
    refine ⟨?_, ?_⟩
    · rw [LockTable.grant, LockTable.setWaiter_queue, hs.queue]
      exact hmem
    · rw [grant_waiter, if_neg hv]
      exact hentry

theorem removePending_keeps (h : WaitersOk t [] sleeps) (layout : Layout String) (hne : id ≠ a)
    (hw : w ∈ t.queue id) :
    w ∈ (t.removePending layout a).1.queue id ∧
      (t.removePending layout a).1.waiter w = t.waiter w := by
  rcases t.removePending_cases layout a with he | ⟨lock, hfind, -, he⟩ <;> rw [he]
  · exact ⟨hw, rfl⟩
  · exact h.removeLock_keeps layout hfind hne hw

theorem release_keeps (h : WaitersOk t [] sleeps) (layout : Layout String) (hne : id ≠ a)
    (hw : w ∈ t.queue id) :
    w ∈ (t.release layout a).1.queue id ∧ (t.release layout a).1.waiter w = t.waiter w := by
  rcases t.release_cases layout a with ⟨-, he⟩ | ⟨lock, hfind, he⟩ <;> rw [he]
  · exact ⟨hw, rfl⟩
  · exact h.removeLock_keeps layout hfind hne hw

end WaitersOk

/-- The lock that a step takes away, if it is there. -/
def Replica.Action.removes : Replica.Action F → Option String
  | .removePending agentId _ => some agentId
  | .apply entry _ => if entry.opType = .release then some entry.agentId else none
  | _ => none

/-- `w` is in the queue of exactly one active lock, and there once. -/
def LockTable.QueuedOnce (t : LockTable F) (w : ℕ) : Prop :=
  ∃ id lock, t.active.find id = some lock ∧ lock.waiters.count w = 1 ∧
    ∀ id' lock', t.active.find id' = some lock' → w ∈ lock'.waiters → id' = id

namespace Replica

variable [Arithmetic F] {r r' : Replica F}

/-- Only the removal of the lock in whose queue a waiter sits moves it or writes to it. -/
theorem queue_step {a : Action F} (h : WaitersOk r.table [] (sleepsOf r.calls))
    (hstep : r.step a = some r') {id : String} {w : ℕ} (hw : w ∈ r.table.queue id) :
    a.removes = some id ∨
      (w ∈ r'.table.queue id ∧ r'.table.waiter w = r.table.waiter w) := by
  cases a with
  | request kind demand =>
    obtain rfl := Option.some.inj hstep
    exact Or.inr ⟨hw, rfl⟩
  | advance k layout =>
    right
    obtain ⟨call, t', a', hk, hmove, rfl⟩ := advance_cases h hstep
    obtain ⟨hgranted, k', d', hk'⟩ := (h.queued w).mp (Or.inr ⟨id, hw⟩)
    generalize call.admission = adm at hmove
    cases hmove with
    | reserve hfree =>
      obtain ⟨lock, hs, -⟩ := call.reserve_stores layout r.table
      exact ⟨hs.queue ▸ hw, by rw [hs.waiter]⟩
    | sleep j s hconflict =>
      have hid := LockTable.isSome_of_findConflict hconflict
      have hfresh : w ≠ r.table.next := (h.fresh k' w d' hk').ne
      refine ⟨(LockTable.mem_enqueue_queue hid).mpr (Or.inl hw), ?_⟩
      simp [LockTable.sleepOn, hfresh]
    | wake v trace hv =>
      refine ⟨hw, ?_⟩
      have hne : w ≠ v := by
        rintro rfl
        rw [hgranted] at hv
        cases hv
      simp [hne]
  | removePending agentId layout =>
    obtain rfl := Option.some.inj hstep
    rcases eq_or_ne id agentId with rfl | hne
    · exact Or.inl rfl
    · exact Or.inr (h.removePending_keeps layout hne hw)
  | apply entry layout =>
    obtain rfl := Option.some.inj hstep
    simp only [Action.removes, LockTable.onCommit]
    cases entry.opType with
    | acquire =>
      right
      obtain ⟨lock, hs, -⟩ := r.table.applyAcquire_stores layout entry.agentId entry.embedding
        entry.theta
      exact ⟨hs.queue ▸ hw, by rw [hs.waiter]⟩
    | release =>
      rcases eq_or_ne id entry.agentId with rfl | hne
      · exact Or.inl rfl
      · exact Or.inr (h.release_keeps layout hne hw)
  | beginLeaderSweep =>
    obtain rfl := Option.some.inj hstep
    exact Or.inr ⟨hw, rfl⟩
  | endLeaderSweep =>
    obtain rfl := Option.some.inj hstep
    exact Or.inr ⟨hw, rfl⟩

/-- A sleeping call stays asleep, or returns with the grant of its own entry, and no
lock is touched. -/
theorem asleep_step {a : Action F} (h : WaitersOk r.table [] (sleepsOf r.calls))
    (hstep : r.step a = some r') {k w : ℕ} {call : Call F} {trace : AcquireTrace F}
    (hk : r.calls[k]? = some call) (hadm : call.admission = .asleep w trace) :
    r'.calls[k]? = some call ∨
      ((∃ layout, a = .advance k layout) ∧ (r.table.waiter w).granted = true ∧
        r'.table.active = r.table.active ∧ r'.calls[k]? = some { call with
          admission := .returned { trace with
            wakeCount := trace.wakeCount + 1, queueHops := (r.table.waiter w).queueHops } }) := by
  have hlt := (List.getElem?_eq_some_iff.mp hk).1
  rcases call_step h hstep hk with hk' | ⟨layout, t', a', rfl, hmove, rfl⟩
  · exact Or.inl hk'
  · rw [hadm] at hmove
    cases hmove with
    | wake w trace hgranted =>
      exact Or.inr ⟨⟨layout, rfl⟩, hgranted, rfl, List.getElem?_set_self hlt⟩

/-! ### The traces of the calls -/

/-- A call has been woken once if it has waited and returned, and not before. -/
def TracesOk (r : Replica F) : Prop :=
  ∀ (k : ℕ) (call : Call F), r.calls[k]? = some call →
    (∀ w trace, call.admission = .asleep w trace → trace.waited = true ∧ trace.wakeCount = 0) ∧
      ∀ trace, call.admission = .returned trace →
        trace.wakeCount = if trace.waited then 1 else 0

theorem tracesOk_step {a : Action F} (h : WaitersOk r.table [] (sleepsOf r.calls))
    (ht : TracesOk r) (hstep : r.step a = some r') : TracesOk r' := by
  intro k c hk
  rcases calls_cases h hstep hk with
    hk | ⟨kind, demand, -, rfl⟩ | ⟨call, layout, t', a', hj, hmove, rfl⟩
  · exact ht k c hk
  · exact ⟨fun _ _ hadm => (by cases hadm), fun _ hadm => (by cases hadm)⟩
  · generalize hold : call.admission = adm at hmove
    cases hmove with
    | reserve hfree =>
      refine ⟨fun w trace hadm => (by cases hadm), fun trace hadm => ?_⟩
      obtain rfl := Admission.returned.inj hadm
      rfl
    | sleep id s hconflict =>
      refine ⟨fun w trace hadm => ?_, fun trace hadm => by cases hadm⟩
      obtain ⟨-, rfl⟩ := Admission.asleep.inj hadm
      exact ⟨rfl, rfl⟩
    | wake w trace hgranted =>
      obtain ⟨hwaited, hcount⟩ := (ht k call hj).1 w trace hold
      refine ⟨fun w trace hadm => (by cases hadm), fun trace' hadm => ?_⟩
      obtain rfl := Admission.returned.inj hadm
      rw [if_pos hwaited]
      exact congrArg (· + 1) hcount

theorem tracesOk {as : List (Action F)} (h : (system F).exec as = some r) : TracesOk r :=
  ((system F).invariant
    (P := fun r => WaitersOk r.table [] (sleepsOf r.calls) ∧ TracesOk r)
    ⟨.empty fun _ => rfl, fun k call hk => by cases hk⟩
    (fun _ _ _ hr hstep => ⟨waitersOk_step hr.1 hstep, tracesOk_step hr.1 hr.2 hstep⟩) h).2

/-! ### No waiter is lost -/

/-- What becomes of the entries that calls sleep on, in a state and in its next step. -/
structure NoWaiterLost (r : Replica F) : Prop where
  placed : ∀ (k : ℕ) (call : Call F) w trace, r.calls[k]? = some call →
    call.admission = .asleep w trace →
      (r.table.QueuedOnce w ∧ (r.table.waiter w).ready = false ∧
        (r.table.waiter w).granted = false) ∨
      ((∀ id lock, r.table.active.find id = some lock → w ∉ lock.waiters) ∧
        (r.table.waiter w).ready = true ∧ (r.table.waiter w).granted = true)
  apart : ∀ (k k' : ℕ) (call call' : Call F) w trace trace', r.calls[k]? = some call →
    r.calls[k']? = some call' → call.admission = .asleep w trace →
      call'.admission = .asleep w trace' → k = k'
  kept : ∀ a r', r.step a = some r' → ∀ id lock w, r.table.active.find id = some lock →
    w ∈ lock.waiters → a.removes = some id ∨ ∃ lock', r'.table.active.find id = some lock' ∧
      w ∈ lock'.waiters ∧ r'.table.waiter w = r.table.waiter w
  woken : ∀ a r', r.step a = some r' → ∀ (k : ℕ) (call : Call F) w trace,
    r.calls[k]? = some call → call.admission = .asleep w trace →
      r'.calls[k]? = some call ∨ ((∃ layout, a = .advance k layout) ∧
        (r.table.waiter w).granted = true ∧ r'.table.active = r.table.active ∧
        ∃ trace', r'.calls[k]? = some { call with admission := .returned trace' } ∧
          trace'.wakeCount = 1)
  counted : ∀ (k : ℕ) (call : Call F) trace, r.calls[k]? = some call →
    call.admission = .returned trace → trace.wakeCount = if trace.waited then 1 else 0

theorem no_waiter_lost (as : List (Action F)) (r : Replica F) (h : (system F).exec as = some r) :
    NoWaiterLost r := by
  have hok := waitersOk h
  have htraces := tracesOk h
  have hmem : ∀ {t : LockTable F} {id lock w}, t.active.find id = some lock →
      (w ∈ t.queue id ↔ w ∈ lock.waiters) := by
    intro t id lock w hfind
    simp [LockTable.queue, hfind]
  refine ⟨?_, ?_, ?_, ?_, ?_⟩
  · intro k call w trace hk hadm
    have hsleeps := sleepsOf_eq_some.mpr ⟨call, trace, hk, hadm, rfl⟩
    have hready := hok.ready k w _ hsleeps
    have hqueued := hok.queued w
    cases hgranted : (r.table.waiter w).granted with
    | true =>
      refine Or.inr ⟨fun id lock hfind hw => ?_, hready.trans hgranted, rfl⟩
      have := (hqueued.mp (Or.inr ⟨id, (hmem hfind).mpr hw⟩)).1
      rw [hgranted] at this
      cases this
    | false =>
      obtain ⟨id, hw⟩ := (hqueued.mpr ⟨hgranted, k, _, hsleeps⟩).resolve_left (by simp)
      obtain ⟨lock, hfind⟩ := Option.isSome_iff_exists.mp (LockTable.isSome_of_mem_queue hw)
      refine Or.inl ⟨⟨id, lock, hfind, ?_, fun id' lock' hfind' hw' => ?_⟩,
        hready.trans hgranted, rfl⟩
      · have hnodup := hok.queue_nodup id
        rw [LockTable.queue, hfind] at hnodup
        exact List.count_eq_one_of_mem hnodup ((hmem hfind).mp hw)
      · exact hok.queue_apart w id' id ((hmem hfind').mpr hw') hw
  · intro k k' call call' w trace trace' hk hk' hadm hadm'
    exact hok.unique k k' w _ _ (sleepsOf_eq_some.mpr ⟨call, trace, hk, hadm, rfl⟩)
      (sleepsOf_eq_some.mpr ⟨call', trace', hk', hadm', rfl⟩)
  · intro a r' hstep id lock w hfind hw
    rcases queue_step hok hstep ((hmem hfind).mpr hw) with hleft | ⟨hw', hentry⟩
    · exact Or.inl hleft
    · obtain ⟨lock', hfind'⟩ := Option.isSome_iff_exists.mp (LockTable.isSome_of_mem_queue hw')
      exact Or.inr ⟨lock', hfind', (hmem hfind').mp hw', hentry⟩
  · intro a r' hstep k call w trace hk hadm
    rcases asleep_step hok hstep hk hadm with hkeeps | ⟨ha, hgranted, hactive, hk'⟩
    · exact Or.inl hkeeps
    · exact Or.inr ⟨ha, hgranted, hactive, _, hk',
        congrArg (· + 1) ((htraces k call hk).1 w trace hadm).2⟩
  · exact fun k call trace hk hadm => (htraces k call hk).2 trace hadm

theorem no_waiter_lost_handOff :
    ∃ r : Replica ℤ, (system ℤ).exec handOffRun = some r ∧ r.calls.length = 2 ∧
      NoWaiterLost r := by
  obtain ⟨r, hr, hlen⟩ := System.exists_exec (system ℤ) handOffRun (fun r => r.calls.length = 2)
    (by decide +kernel)
  exact ⟨r, hr, hlen, no_waiter_lost handOffRun r hr⟩

end Replica

end DistributedLock.Table
