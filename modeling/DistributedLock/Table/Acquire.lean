import DistributedLock.Table.Sessions

/-! Agents that use the table without a log, by `acquire` and `release`, each with one
request at a time and with any thresholds. A call that finds no conflict takes a real
lock; a call that has waited is handed its slot by `rebalance_waiters_locked`, which makes
it pending, and `acquire` leaves it so. -/

namespace DistributedLock.Table

open Library Raft

variable {F : Type*}

/-- A table, and which requests have been released. -/
structure Acquirers (F : Type*) where
  replica : Replica F
  released : ℕ → Bool := fun _ => false

/-! ### The slots of the calls -/

/-- The flag of the slot that a call of `acquire` has, if it has one. -/
def Call.flag (t : LockTable F) (call : Call F) : Option Bool :=
  match call.admission with
  | .gate => none
  | .asleep w _ => if (t.waiter w).granted then some true else none
  | .returned trace => some trace.waited

def flagOf (calls : List (Call F)) (t : LockTable F) (k : ℕ) : Option Bool :=
  calls[k]?.bind (Call.flag t)

/-- The lock of each open request is the one its call has, and there are no others. -/
structure OwnSlots (t : LockTable F) (asks : ℕ → Option (Demand F)) (flag : ℕ → Option Bool) :
    Prop where
  single : ∀ k k' d d', asks k = some d → asks k' = some d' → d.agentId = d'.agentId → k = k'
  slot : ∀ k d, asks k = some d →
    (t.active.find d.agentId).map SemanticLock.slot = (flag k).map fun b => (d.embedding, b)
  owner : ∀ id, (t.active.find id).isSome → ∃ k d, asks k = some d ∧ d.agentId = id

namespace OwnSlots

variable {t t' : LockTable F} {asks : ℕ → Option (Demand F)} {flag : ℕ → Option Bool} {k : ℕ}
  {d : Demand F}

/-- Steps that write to queues only. -/
theorem of_slots (h : OwnSlots t asks flag)
    (hslot : ∀ id, (t'.active.find id).map SemanticLock.slot =
      (t.active.find id).map SemanticLock.slot) : OwnSlots t' asks flag where
  single := h.single
  slot k d hk := (hslot d.agentId).trans (h.slot k d hk)
  owner id hid := by
    rw [← Option.isSome_map (f := SemanticLock.slot), hslot, Option.isSome_map] at hid
    exact h.owner id hid

/-- A request without a slot gets one. -/
theorem store (h : OwnSlots t asks flag) (hk : asks k = some d) {lock : SemanticLock F}
    (hs : LockTable.Stores t t' d.agentId lock) (hcentroid : lock.centroid = d.embedding) :
    OwnSlots t' asks (Function.update flag k (some lock.pending)) where
  single := h.single
  slot j d' hj := by
    rcases eq_or_ne j k with rfl | hne
    · obtain rfl := Option.some.inj (hk.symm.trans hj)
      rw [hs.find_self, Function.update_self, Option.map_some, Option.map_some, ← hcentroid]
      rfl
    · have hagent : d'.agentId ≠ d.agentId := fun heq => hne (h.single j k d' d hj hk heq)
      rw [hs.find_of_ne hagent, Function.update_of_ne hne]
      exact h.slot j d' hj
  owner id hid := by
    rcases eq_or_ne id d.agentId with rfl | hne
    · exact ⟨k, d, hk, rfl⟩
    · rw [hs.find_of_ne hne] at hid
      exact h.owner id hid

/-- A new request, of an agent without an open one. -/
theorem request (h : OwnSlots t asks flag) (hnone : asks k = none) (hflag : flag k = none)
    (hidle : ∀ j d', asks j = some d' → d'.agentId ≠ d.agentId) :
    OwnSlots t (Function.update asks k (some d)) flag := by
  have hfree : t.active.find d.agentId = none := by
    rw [← Option.not_isSome_iff_eq_none]
    intro hsome
    obtain ⟨j, d', hj, hagent⟩ := h.owner d.agentId hsome
    exact hidle j d' hj hagent
  refine ⟨distinct_request h.single hidle, ?_, ?_⟩
  · intro j d' hj
    rcases of_update_some hj with ⟨rfl, rfl⟩ | ⟨-, hold⟩
    · rw [hfree, hflag]
      rfl
    · exact h.slot j d' hold
  · intro id hid
    obtain ⟨j, d', hj, hagent⟩ := h.owner id hid
    exact ⟨j, d', update_of_some hnone _ hj, hagent⟩

/-- A request is released, and its lock is taken away. -/
theorem close (h : OwnSlots t asks flag) (hk : asks k = some d) :
    OwnSlots (t.erase d.agentId) (Function.update asks k none) flag := by
  have hfind : ∀ id, (t.erase d.agentId).active.find id =
      if id = d.agentId then none else t.active.find id := UnorderedMap.find_erase _ _
  refine ⟨?_, ?_, ?_⟩
  · exact fun j j' d₁ d₂ hj hj' =>
      h.single j j' d₁ d₂ (of_update_none hj).2 (of_update_none hj').2
  · intro j d' hj
    obtain ⟨hjk, hj⟩ := of_update_none hj
    rw [hfind, if_neg fun heq => hjk (h.single j k d' d hj hk heq)]
    exact h.slot j d' hj
  · intro id hid
    rw [hfind] at hid
    split_ifs at hid with hne
    · cases hid
    · obtain ⟨j, d', hj, hagent⟩ := h.owner id hid
      have hjk : j ≠ k := by
        rintro rfl
        obtain rfl := Option.some.inj (hk.symm.trans hj)
        exact hne hagent.symm
      exact ⟨j, d', by rwa [Function.update_of_ne hjk], hagent⟩

end OwnSlots

section

variable {calls : List (Call F)} {t t' : LockTable F} {k w : ℕ}

/-- Only the flag of the entry a call sleeps on decides whether it has a slot. -/
theorem flagOf_eq (h : ∀ w d, sleepsOf calls k = some (w, d) →
    (t'.waiter w).granted = (t.waiter w).granted) : flagOf calls t' k = flagOf calls t k := by
  unfold flagOf
  cases hcall : calls[k]? with
  | none => rfl
  | some call =>
    rw [Option.bind_some, Option.bind_some, Call.flag, Call.flag]
    cases hadm : call.admission with
    | gate => rfl
    | asleep w trace =>
      dsimp only
      rw [h w _ (sleepsOf_eq_some.mpr ⟨call, trace, hcall, hadm, rfl⟩)]
    | returned trace => rfl

theorem flagOf_congr (h : ∀ w, (t'.waiter w).granted = (t.waiter w).granted) :
    flagOf calls t' = flagOf calls t :=
  funext fun _ => flagOf_eq fun w _ _ => h w

/-- A step of one call, which writes to no entry but its own. -/
theorem flagOf_set {call c : Call F} (hk : calls[k]? = some call)
    (hothers : ∀ j w d, j ≠ k → sleepsOf calls j = some (w, d) →
      (t'.waiter w).granted = (t.waiter w).granted) :
    flagOf (calls.set k c) t' = Function.update (flagOf calls t) k (c.flag t') := by
  funext j
  rw [flagOf, bind_getElem?_set _ hk]
  rcases eq_or_ne j k with rfl | hj
  · rw [Function.update_self, Function.update_self]
  · rw [Function.update_of_ne hj, Function.update_of_ne hj]
    exact flagOf_eq fun w d => hothers j w d hj

theorem flagOf_request (kind : CallKind) (demand : Demand F) :
    flagOf (calls ++ [({ kind, demand } : Call F)]) t = flagOf calls t := by
  funext j
  exact bind_getElem?_concat rfl j

theorem flagOf_sleeps {d : Demand F} (hk : sleepsOf calls k = some (w, d)) :
    flagOf calls t k = if (t.waiter w).granted then some true else none := by
  obtain ⟨call, trace, hcall, hadm, -⟩ := sleepsOf_eq_some.mp hk
  rw [flagOf, hcall, Option.bind_some, Call.flag, hadm]

/-- A grant gives a pending slot to the call that sleeps on the entry, and to no other. -/
theorem flagOf_grant {d : Demand F} (hk : sleepsOf calls k = some (w, d))
    (hunique : ∀ j d', sleepsOf calls j = some (w, d') → j = k) (layout : Layout String) :
    flagOf calls (t.grant layout w) = Function.update (flagOf calls t) k (some true) := by
  funext j
  rcases eq_or_ne j k with rfl | hj
  · rw [Function.update_self, flagOf_sleeps hk, WaitersOk.grant_waiter, if_pos rfl]
    rfl
  · rw [Function.update_of_ne hj]
    refine flagOf_eq fun v d' hsleep => ?_
    have hv : v ≠ w := by
      rintro rfl
      exact hj (hunique j d' hsleep)
    rw [WaitersOk.grant_waiter, if_neg hv]

end

/-- The slots are handed over to the waiters, pending. -/
theorem OwnSlots.removeLock [Arithmetic F] {t : LockTable F} {asks : ℕ → Option (Demand F)}
    {calls : List (Call F)} {k : ℕ} {d : Demand F} {lock : SemanticLock F}
    (layout : Layout String) (hw : WaitersOk t [] (sleepsOf calls))
    (h : OwnSlots t asks (flagOf calls t))
    (hasleep : ∀ k w d, sleepsOf calls k = some (w, d) → asks k = some d)
    (hk : asks k = some d) (hawake : sleepsOf calls k = none)
    (hfind : t.active.find d.agentId = some lock) :
    OwnSlots (t.removeLock layout d.agentId lock).1 (Function.update asks k none)
      (flagOf calls (t.removeLock layout d.agentId lock).1) := by
  have hasks := asks_close hasleep hawake
  refine ((hw.erase hfind).rebalance
    (P := fun t => OwnSlots t (Function.update asks k none) (flagOf calls t)) layout []
    (h.close hk) ?_ ?_).2
  · intro t w ws id s hw _ _ h
    rw [flagOf_congr (hw.requeue_granted id)]
    exact h.of_slots ((t.setWaiter w _).slot_enqueue id w)
  · intro t w ws j d' hw hj _ h
    have hflag : flagOf calls t j = none := by
      rw [flagOf_sleeps hj, hw.head.1]
      rfl
    have habsent : t.active.find d'.agentId = none := by
      have hslot := h.slot j d' (hasks j w d' hj)
      rw [hflag, Option.map_none, Option.map_eq_none_iff] at hslot
      exact hslot
    obtain ⟨slot, hs, hcentroid, hpending⟩ := hw.grant_stores layout hj
    rw [flagOf_grant hj (fun j' d'' hj' => hw.unique j' j w d'' d' hj' hj)]
    have hstored := h.store (hasks j w d' hj) hs hcentroid
    rw [hpending habsent] at hstored
    exact hstored.of_slots fun _ => rfl

namespace Acquirers

/-! ### The runs -/

inductive Action (F : Type*) where
  | request (demand : Demand F)
  | advance (k : ℕ) (layout : Layout String)
  | release (k : ℕ) (layout : Layout String)

/-- What the request behind call `k` asks for, until it is released. -/
def asks (s : Acquirers F) (k : ℕ) : Option (Demand F) :=
  s.replica.calls[k]?.bind fun call => if s.released k then none else some call.demand

/-- The same, if the call has returned. -/
def held (s : Acquirers F) (k : ℕ) : Option (Demand F) :=
  match s.replica.calls[k]? with
  | some { admission := .returned _, .. } => s.asks k
  | _ => none

def Idle (s : Acquirers F) (agentId : String) : Prop :=
  ∀ k < s.replica.calls.length, ∀ d ∈ s.asks k, d.agentId ≠ agentId

instance (s : Acquirers F) (agentId : String) : Decidable (s.Idle agentId) :=
  inferInstanceAs (Decidable (∀ k < s.replica.calls.length, ∀ d ∈ s.asks k, d.agentId ≠ agentId))

variable [Arithmetic F]

/-- A `release` is the one that `apply_release` delegates to. -/
def step (s : Acquirers F) : Action F → Option (Acquirers F)
  | .request demand =>
    if s.Idle demand.agentId then
      (s.replica.step (.request .acquire demand)).map fun r => { s with replica := r }
    else none
  | .advance k layout =>
    (s.replica.step (.advance k layout)).map fun r => { s with replica := r }
  | .release k layout =>
    (s.held k).bind fun d =>
      (s.replica.step (.apply (.release d.agentId) layout)).map fun r =>
        { replica := r, released := Function.update s.released k true }

def system (F : Type*) [Arithmetic F] : System (Acquirers F) (Action F) where
  init := { replica := (Replica.system F).init }
  step := step

/-! ### The invariant -/

variable {s s' : Acquirers F}

structure Ok (s : Acquirers F) : Prop where
  waiters : WaitersOk s.replica.table [] (sleepsOf s.replica.calls)
  traces : s.replica.TracesOk
  kind : ∀ (k : ℕ) (call : Call F), s.replica.calls[k]? = some call → call.kind = .acquire
  released : ∀ k, s.released k = true → ∃ call trace, s.replica.calls[k]? = some call ∧
    call.admission = .returned trace
  slots : OwnSlots s.replica.table s.asks (flagOf s.replica.calls s.replica.table)

omit [Arithmetic F] in
theorem asks_eq (s : Acquirers F) :
    s.asks = openOf s.replica.calls fun k => s.released k = true := rfl

omit [Arithmetic F] in
theorem asks_eq_some {k : ℕ} {d : Demand F} :
    s.asks k = some d ↔ ∃ call, s.replica.calls[k]? = some call ∧ call.demand = d ∧
      s.released k = false := by
  rw [asks_eq, openOf_eq_some]
  simp only [Bool.not_eq_true]

omit [Arithmetic F] in
theorem held_eq_some {k : ℕ} {d : Demand F} :
    s.held k = some d ↔ s.asks k = some d ∧ ∃ call trace, s.replica.calls[k]? = some call ∧
      call.admission = .returned trace := by
  unfold held
  cases hk : s.replica.calls[k]? with
  | none => simp
  | some call =>
    obtain ⟨kind, demand, admission⟩ := call
    cases admission with
    | returned trace => simp
    | gate => simp
    | asleep w trace => simp

omit [Arithmetic F] in
theorem asks_of_sleeps (h : s.Ok) (k w : ℕ) (d : Demand F)
    (hk : sleepsOf s.replica.calls k = some (w, d)) : s.asks k = some d := by
  rw [asks_eq]
  exact openOf_of_sleeps h.released hk

theorem ok_request {d : Demand F} {r : Replica F} (h : s.Ok) (hidle : s.Idle d.agentId)
    (hstep : s.replica.step (.request .acquire d) = some r) : Ok { s with replica := r } := by
  have hw := Replica.waitersOk_step h.waiters hstep
  have ht := Replica.tracesOk_step h.waiters h.traces hstep
  have hkind := Replica.kind_step h.waiters h.kind hstep (by rintro kind demand ⟨⟩; rfl)
  have hreturned := fun k hk => Replica.returned_step h.waiters hstep (h.released k hk)
  obtain rfl := Option.some.inj hstep
  have hfresh : s.replica.calls[s.replica.calls.length]? = none := List.getElem?_eq_none le_rfl
  have hopen : s.released s.replica.calls.length = false := by
    by_contra hreleased
    obtain ⟨call, trace, hcall, -⟩ := h.released _ (by simpa using hreleased)
    rw [hfresh] at hcall
    cases hcall
  refine ⟨hw, ht, hkind, hreturned, ?_⟩
  rw [asks_eq, flagOf_request, openOf_request _ _ (by simp [hopen]), ← asks_eq]
  refine h.slots.request ?_ ?_ fun j d' hj => ?_
  · rw [asks, hfresh]
    rfl
  · rw [flagOf, hfresh]
    rfl
  · obtain ⟨call, hcall, -⟩ := asks_eq_some.mp hj
    exact hidle j (List.getElem?_eq_some_iff.mp hcall).1 d' hj

theorem ok_advance {k : ℕ} {layout : Layout String} (h : s.Ok)
    (hstep : s.replica.step (.advance k layout) = some s'.replica)
    (hreleased : s'.released = s.released) : s'.Ok := by
  have hw := Replica.waitersOk_step h.waiters hstep
  have ht := Replica.tracesOk_step h.waiters h.traces hstep
  obtain ⟨call, t', a', hk, hmove, hr⟩ := Replica.advance_cases h.waiters hstep
  have hcalls : s'.replica.calls = s.replica.calls.set k { call with admission := a' } := by rw [hr]
  have htable : s'.replica.table = t' := by rw [hr]
  -- a call that has a step left has not returned
  have hopen : s.released k = false := by
    by_contra hreleased
    exact Replica.not_returned_of_advance h.waiters hstep (h.released k (by simpa using hreleased))
  refine ⟨hw, ht, Replica.kind_step h.waiters h.kind hstep fun _ _ ha => (by cases ha),
    fun j hj => Replica.returned_step h.waiters hstep (h.released j (hreleased ▸ hj)), ?_⟩
  · have hasks : s.asks k = some call.demand := asks_eq_some.mpr ⟨call, hk, rfl, hopen⟩
    have hflag : flagOf s.replica.calls s.replica.table k = call.flag s.replica.table := by
      rw [flagOf, hk, Option.bind_some]
    have hsleeps := sleepsOf_of_get hk
    have htrace := (h.traces k call hk).1
    have hkind := h.kind k call hk
    rw [asks_eq, hcalls, htable, hreleased, openOf_set hk, ← asks_eq]
    generalize hadm : call.admission = adm at hmove hsleeps htrace
    cases hmove with
    | reserve hfree =>
      have hreserve : call.reserve layout s.replica.table = s.replica.table.applyAcquire layout
          call.demand.agentId call.demand.embedding call.demand.threshold := by
        rw [Call.reserve, hkind]
        rfl
      obtain ⟨lock, hs, hcentroid, -, hpending⟩ := s.replica.table.applyAcquire_stores layout
        call.demand.agentId call.demand.embedding call.demand.threshold
      rw [hreserve, flagOf_set (t := s.replica.table) hk fun _ _ _ _ _ => by rw [hs.waiter]]
      have hstored := h.slots.store hasks hs hcentroid
      rw [hpending] at hstored
      exact hstored
    | sleep id score hconflict =>
      rw [flagOf_set (t := s.replica.table) hk]
      · have hsame : Function.update (flagOf s.replica.calls s.replica.table) k none =
            flagOf s.replica.calls s.replica.table := by
          rw [Function.update_eq_self_iff, hflag, Call.flag, hadm]
        have hnone : Call.flag (s.replica.table.sleepOn call.demand id) { call with
            admission := .asleep s.replica.table.next (LockTable.traceConflict
              { blockingSimilarityScore := 0 }
              ((s.replica.table.sleepOn call.demand id).active.find id) score) } = none := by
          simp [Call.flag, LockTable.sleepOn, LockTable.newWaiter]
        rw [hnone, hsame]
        exact h.slots.of_slots (s.replica.table.slot_enqueue id s.replica.table.next)
      · intro j w d _ hj
        have hw := (h.waiters.fresh j w d hj).ne
        simp [LockTable.sleepOn, hw]
    | wake w trace hgranted =>
      rw [flagOf_set (t := s.replica.table) hk]
      · have hsame : Function.update (flagOf s.replica.calls s.replica.table) k (some true) =
            flagOf s.replica.calls s.replica.table := by
          rw [Function.update_eq_self_iff, hflag, Call.flag, hadm]
          simp [hgranted]
        have hwaited := (htrace w trace rfl).1
        rw [Call.flag]
        dsimp only
        rw [hwaited, hsame]
        exact h.slots.of_slots fun _ => rfl
      · intro j v d hj hsleep
        have hne : v ≠ w := by
          rintro rfl
          exact hj (h.waiters.unique j k v d _ hsleep hsleeps)
        simp [hne]

theorem ok_release {k : ℕ} {layout : Layout String} {d : Demand F} (h : s.Ok)
    (hheld : s.held k = some d)
    (hstep : s.replica.step (.apply (.release d.agentId) layout) = some s'.replica)
    (hreleased : s'.released = Function.update s.released k true) : s'.Ok := by
  have hw := Replica.waitersOk_step h.waiters hstep
  have ht := Replica.tracesOk_step h.waiters h.traces hstep
  have hr := Option.some.inj hstep
  have hcalls : s'.replica.calls = s.replica.calls := by rw [← hr]
  obtain ⟨hasks, call, trace, hk, hadm⟩ := held_eq_some.mp hheld
  have hslot := h.slots.slot k d hasks
  rw [flagOf, hk, Option.bind_some, Call.flag, hadm, Option.map_some] at hslot
  obtain ⟨lock, hfind, -⟩ := Option.map_eq_some_iff.mp hslot
  have hremove : s'.replica.table = (s.replica.table.removeLock layout d.agentId lock).1 := by
    rw [← hr]
    simp [LockTable.onCommit, LogEntry.release, LockTable.release, hfind]
  refine ⟨hw, ht, hcalls ▸ h.kind, ?_, ?_⟩
  · intro j hj
    rw [hcalls]
    rcases eq_or_ne j k with rfl | hne
    · exact ⟨call, trace, hk, hadm⟩
    · rw [hreleased, Function.update_of_ne hne] at hj
      exact h.released j hj
  · have hupdate : s'.asks = Function.update s.asks k none := by
      rw [asks_eq, hcalls, hreleased]
      refine openOf_close fun j => ?_
      rcases eq_or_ne j k with rfl | hne
      · simp
      · simp [hne]
    rw [hupdate, hremove, hcalls]
    refine h.slots.removeLock layout h.waiters (asks_of_sleeps h) hasks ?_ hfind
    rw [sleepsOf_of_get hk, hadm]
    rfl

theorem ok_step {a : Action F} (h : s.Ok) (hstep : s.step a = some s') : s'.Ok := by
  cases a with
  | request demand =>
    simp only [step] at hstep
    split_ifs at hstep with hidle
    obtain ⟨r, hr, rfl⟩ := Option.map_eq_some_iff.mp hstep
    exact ok_request h hidle hr
  | advance k layout =>
    obtain ⟨r, hr, rfl⟩ := Option.map_eq_some_iff.mp hstep
    exact ok_advance h hr rfl
  | release k layout =>
    obtain ⟨d, hheld, hstep⟩ := Option.bind_eq_some_iff.mp hstep
    obtain ⟨r, hr, rfl⟩ := Option.map_eq_some_iff.mp hstep
    exact ok_release h hheld hr rfl

theorem ok {as : List (Action F)} (h : (system F).exec as = some s) : s.Ok := by
  refine (system F).invariant ?_ (fun _ _ _ => ok_step) h
  exact
    { waiters := .empty fun _ => rfl
      traces := fun k call hk => by cases hk
      kind := fun k call hk => by cases hk
      released := fun k hk => by cases hk
      slots :=
        { single := fun k k' d d' hk => by cases hk
          slot := fun k d hk => by cases hk
          owner := fun id hid => by cases hid } }

/-! ### Which calls take a real lock -/

/-- The call scans the table for the first time, and no lock conflicts. -/
def Admits (s : Acquirers F) (a : Action F) (k : ℕ) : Prop :=
  ∃ layout call, a = .advance k layout ∧ s.replica.calls[k]? = some call ∧
    call.admission = .gate ∧
    s.replica.table.findConflict call.demand.embedding call.demand.threshold = none

/-- The call has found no conflict at its scan. -/
def AdmittedAtOnce (as : List (Action F)) (k : ℕ) : Prop :=
  ∃ bs a cs s, as = bs ++ a :: cs ∧ (system F).exec bs = some s ∧ s.Admits a k

omit [Arithmetic F] in
/-- The call has returned without a wait. -/
def Direct (s : Acquirers F) (k : ℕ) : Prop :=
  ∃ call trace, s.replica.calls[k]? = some call ∧ call.admission = .returned trace ∧
    trace.waited = false

theorem direct_step {a : Action F} (h : s.Ok) (hstep : s.step a = some s') (k : ℕ) :
    s'.Direct k ↔ s.Direct k ∨ s.Admits a k := by
  cases a with
  | request demand =>
    simp only [step] at hstep
    split_ifs at hstep
    obtain ⟨r, hr, rfl⟩ := Option.map_eq_some_iff.mp hstep
    obtain rfl := Option.some.inj hr
    constructor
    · rintro ⟨call, trace, hcall, hadm, hwaited⟩
      rcases getElem?_of_concat hcall with hcall | ⟨-, rfl⟩
      · exact Or.inl ⟨call, trace, hcall, hadm, hwaited⟩
      · cases hadm
    · rintro (⟨call, trace, hcall, hadm, hwaited⟩ | ⟨layout, call, ha, -⟩)
      · have hlt := (List.getElem?_eq_some_iff.mp hcall).1
        exact ⟨call, trace, by rw [List.getElem?_append_left hlt, hcall], hadm, hwaited⟩
      · cases ha
  | advance j layout =>
    obtain ⟨r, hr, rfl⟩ := Option.map_eq_some_iff.mp hstep
    obtain ⟨call, t', a', hj, hmove, rfl⟩ := Replica.advance_cases h.waiters hr
    have hlt := (List.getElem?_eq_some_iff.mp hj).1
    have htrace := (h.traces j call hj).1
    unfold Direct Admits
    dsimp only
    rcases eq_or_ne k j with rfl | hne
    · rw [List.getElem?_set_self hlt, hj]
      generalize hold : call.admission = adm at hmove htrace
      cases hmove with
      | reserve hfree => simp [hold, hfree]
      | sleep id score hconflict => simp [hold, hconflict]
      | wake w trace hgranted => simp [hold, (htrace w trace rfl).1]
    · rw [List.getElem?_set_ne hne.symm]
      simp [hne.symm]
  | release j layout =>
    obtain ⟨d, hheld, hstep⟩ := Option.bind_eq_some_iff.mp hstep
    obtain ⟨r, hr, rfl⟩ := Option.map_eq_some_iff.mp hstep
    obtain rfl := Option.some.inj hr
    constructor
    · exact Or.inl
    · rintro (hdirect | ⟨layout, call, ha, -⟩)
      · exact hdirect
      · cases ha

theorem direct_iff {as : List (Action F)} (h : (system F).exec as = some s) (k : ℕ) :
    s.Direct k ↔ AdmittedAtOnce as k := by
  refine ((system F).runInvariant
    (P := fun as s => (system F).exec as = some s ∧ (s.Direct k ↔ AdmittedAtOnce as k))
    ⟨rfl, ?_⟩ ?_ h).2
  · constructor
    · rintro ⟨call, trace, hcall, -⟩
      cases hcall
    · rintro ⟨bs, a, cs, u, he, -⟩
      simp at he
  · rintro as u a u' ⟨hu, hdirect⟩ hstep
    refine ⟨(system F).exec_concat.mpr ⟨u, hu, hstep⟩, ?_⟩
    rw [direct_step (ok hu) hstep, hdirect]
    constructor
    · rintro (⟨bs, b, cs, v, rfl, hv, hadmits⟩ | hadmits)
      · exact ⟨bs, b, cs ++ [a], v, by simp, hv, hadmits⟩
      · exact ⟨as, a, [], u, rfl, hu, hadmits⟩
    · rintro ⟨bs, b, cs, v, he, hv, hadmits⟩
      rcases concat_eq_split he with ⟨rfl, rfl, -⟩ | ⟨cs', he, -⟩
      · obtain rfl := Option.some.inj (hu.symm.trans hv)
        exact Or.inr hadmits
      · exact Or.inl ⟨bs, b, cs', v, he, hv, hadmits⟩

/-- From its return to its release, a call of `acquire` has a lock of its own embedding; it
is a real one, which `remove_pending` leaves alone, exactly if the call was admitted at its
first scan. -/
theorem acquire_real_iff (as : List (Action F)) (s : Acquirers F)
    (h : (system F).exec as = some s) (k : ℕ) (d : Demand F) (hheld : s.held k = some d) :
    (∃ lock, s.replica.table.active.find d.agentId = some lock ∧ lock.centroid = d.embedding ∧
        lock.pending = false ∧ ∀ layout,
          s.replica.table.removePending layout d.agentId = (s.replica.table, [])) ↔
      AdmittedAtOnce as k := by
  obtain ⟨hasks, call, trace, hk, hadm⟩ := held_eq_some.mp hheld
  have hslot := (ok h).slots.slot k d hasks
  rw [flagOf, hk, Option.bind_some, Call.flag, hadm, Option.map_some] at hslot
  obtain ⟨lock, hfind, hlock⟩ := Option.map_eq_some_iff.mp hslot
  obtain ⟨hcentroid, hpending⟩ := Prod.mk.inj hlock
  rw [← direct_iff h k]
  constructor
  · rintro ⟨lock', hfind', -, hreal, -⟩
    obtain rfl := Option.some.inj (hfind.symm.trans hfind')
    exact ⟨call, trace, hk, hadm, hpending.symm.trans hreal⟩
  · rintro ⟨call', trace', hk', hadm', hwaited⟩
    obtain rfl := Option.some.inj (hk.symm.trans hk')
    obtain rfl := Admission.returned.inj (hadm.symm.trans hadm')
    have hreal := hpending.trans hwaited
    refine ⟨lock, hfind, hcentroid, hreal, fun layout => ?_⟩
    rw [LockTable.removePending, hfind]
    simp [hreal]

/-- "b" waits behind "a" for one vector, and is handed the slot when "a" releases. -/
def handedRun : List (Action ℤ) :=
  [.request ⟨"a", [1, 0], 1⟩, .advance 0 .newest, .request ⟨"b", [1, 0], 1⟩, .advance 1 .newest,
    .release 0 .newest, .advance 1 .newest]

theorem acquire_real_iff_handed :
    ∃ s : Acquirers ℤ, (system ℤ).exec handedRun = some s ∧
      ((∃ lock, s.replica.table.active.find "b" = some lock ∧ lock.centroid = [1, 0] ∧
        lock.pending = false ∧ ∀ layout,
          s.replica.table.removePending layout "b" = (s.replica.table, [])) ↔
        AdmittedAtOnce handedRun 1) := by
  obtain ⟨s, hs, hheld⟩ := System.exists_exec (system ℤ) handedRun
    (fun s => s.held 1 = some ⟨"b", [1, 0], 1⟩) (by decide +kernel)
  exact ⟨s, hs, acquire_real_iff handedRun s hs 1 _ hheld⟩

/-- The call of "b" has returned, and its lock is pending. -/
theorem acquire_pending :
    ¬ ∀ (as : List (Action ℤ)) (s : Acquirers ℤ), (system ℤ).exec as = some s →
      ∀ k d, s.held k = some d → ∃ lock, s.replica.table.active.find d.agentId = some lock ∧
        lock.centroid = d.embedding ∧ lock.pending = false := by
  intro h
  obtain ⟨s, hs, hheld, hpending⟩ := System.exists_exec (system ℤ) handedRun
    (fun s => s.held 1 = some ⟨"b", [1, 0], 1⟩ ∧
      (s.replica.table.active.find "b").map SemanticLock.pending = some true) (by decide +kernel)
  obtain ⟨lock, hfind, -, hreal⟩ := h handedRun s hs 1 _ hheld
  rw [hfind, Option.map_some, hreal] at hpending
  cases hpending

end Acquirers

end DistributedLock.Table
