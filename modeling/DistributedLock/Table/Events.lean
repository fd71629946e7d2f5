import DistributedLock.Library.Replay
import DistributedLock.Table.Calls

/-! What happens to the requests of a table, in order: who starts to wait, who is
admitted and how, which entries are applied and which slots are freed. Replaying these
events on one slot for each agent id gives the vectors of the active locks, and nobody is
admitted against a slot. So a request is protected by the slot of its agent until
another request of the agent writes into the slot or the id is freed. -/

namespace DistributedLock.Table

open Library Raft

variable {F : Type*}

inductive TableEvent (F : Type*) where
  | queued (w : ℕ) (d : Demand F)
  | reserved (d : Demand F)
  | granted (w : ℕ) (d : Demand F)
  | applied (d : Demand F)
  | freed (agentId : String)
  deriving DecidableEq

namespace TableEvent

/-- The request that the event admits, directly or by a hand-off. -/
def admits : TableEvent F → Option (Demand F)
  | .reserved d | .granted _ d => some d
  | _ => none

/-- The vector that the event writes into the slot of an agent. -/
def writes : TableEvent F → Option (String × List F)
  | .reserved d | .granted _ d | .applied d => some (d.agentId, d.embedding)
  | _ => none

end TableEvent

def WaitQueueEntry.demand (entry : WaitQueueEntry F) : Demand F :=
  { agentId := entry.waitingAgentId, embedding := entry.embedding, threshold := entry.theta }

/-- What the waiter at an address asks for. -/
def LockTable.demandOf (t : LockTable F) (w : ℕ) : Demand F := (t.waiter w).demand

/-- A slot is freed, and some of its waiters get theirs. -/
def LockTable.removalEvents (t : LockTable F) (agentId : String) (granted : List ℕ) :
    List (TableEvent F) :=
  .freed agentId :: granted.map fun w => .granted w (t.demandOf w)

/-- The events of a step. -/
def Replica.events [Arithmetic F] (r : Replica F) : Action F → List (TableEvent F)
  | .advance k _ =>
    match r.calls[k]? with
    | some call =>
      if call.loops r.table then
        match r.table.findConflict call.demand.embedding call.demand.threshold with
        | some _ => [.queued r.table.next call.demand]
        | none => [.reserved call.demand]
      else []
    | none => []
  | .removePending agentId layout =>
    if (r.table.active.find agentId).any SemanticLock.pending then
      r.table.removalEvents agentId (r.table.removePending layout agentId).2
    else []
  | .apply entry layout =>
    match entry.opType with
    | .acquire => [.applied ⟨entry.agentId, entry.embedding, entry.theta⟩]
    | .release =>
      if (r.table.active.find entry.agentId).isSome then
        r.table.removalEvents entry.agentId (r.table.release layout entry.agentId).2
      else []
  | .request _ _ | .beginLeaderSweep | .endLeaderSweep => []

/-! ### One slot for each agent id -/

abbrev Slots (F : Type*) := String → Option (List F)

def Slots.record (m : Slots F) : TableEvent F → Slots F
  | .reserved d | .granted _ d | .applied d => Function.update m d.agentId (some d.embedding)
  | .freed agentId => Function.update m agentId none
  | .queued _ _ => m

theorem Slots.record_writes (m : Slots F) {event : TableEvent F} {a : String} {x : List F}
    (h : event.writes = some (a, x)) : m.record event a = some x := by
  cases event with
  | reserved d | granted w d | applied d =>
    obtain ⟨rfl, rfl⟩ := Prod.mk.inj (Option.some.inj h)
    exact Function.update_self _ _ _
  | queued w d => cases h
  | freed a => cases h

/-- A slot changes when its id is freed or another vector is written. -/
theorem Slots.record_keeps {m : Slots F} {event : TableEvent F} {a : String} {x : List F}
    (hm : m a = some x) (hfreed : event ≠ .freed a)
    (hkept : ∀ y, event.writes = some (a, y) → y = x) : m.record event a = some x := by
  cases event with
  | reserved d | granted w d | applied d =>
    simp only [record, Function.update_apply]
    split_ifs with ha
    · rw [hkept d.embedding (by rw [ha]; rfl)]
    · exact hm
  | queued w d => exact hm
  | freed b =>
    have hne : a ≠ b := by
      rintro rfl
      exact hfreed rfl
    exact (Function.update_of_ne hne _ _).trans hm

/-- Nobody is admitted against a slot. -/
def Slots.Free [Arithmetic F] (m : Slots F) (event : TableEvent F) : Prop :=
  ∀ d ∈ event.admits, ∀ id x, m id = some x →
    Arithmetic.le d.threshold (cosineSimilarity d.embedding x) = false

def LockTable.slots (t : LockTable F) : Slots F := fun id =>
  (t.active.find id).map SemanticLock.centroid

namespace LockTable

variable {t t' : LockTable F} {a : String}

theorem Stores.slots {lock : SemanticLock F} (h : Stores t t' a lock) :
    t'.slots = Function.update t.slots a (some lock.centroid) := by
  funext id
  rcases eq_or_ne id a with rfl | hne
  · simp [LockTable.slots, h.find_self]
  · simp [LockTable.slots, h.find_of_ne hne, hne]

theorem slots_enqueue (t : LockTable F) (id : String) (w : ℕ) :
    (t.enqueue id w).slots = t.slots := by
  funext j
  simp only [slots, find_enqueue, Option.map_map]
  congr 1
  funext lock
  simp only [Function.comp_apply]
  split_ifs <;> rfl

theorem slots_erase (t : LockTable F) (a : String) :
    (t.erase a).slots = Function.update t.slots a none := by
  funext id
  rcases eq_or_ne id a with rfl | hne
  · simp [slots, erase]
  · simp [slots, erase, UnorderedMap.find_erase_of_ne _ hne, hne]

theorem requeue_slots (t : LockTable F) (w : ℕ) (id : String) : (t.requeue w id).slots = t.slots :=
  slots_enqueue _ id w

theorem grant_slots (layout : Layout String) (t : LockTable F) (w : ℕ) :
    (t.grant layout w).slots =
      Function.update t.slots (t.demandOf w).agentId (some (t.demandOf w).embedding) := by
  obtain ⟨lock, hs, hcentroid, -⟩ := t.insertPending_stores layout (t.waiter w).waitingAgentId
    (t.waiter w).embedding (t.waiter w).theta
  exact hs.slots.trans (by rw [hcentroid]; rfl)

theorem grant_demandOf (t : LockTable F) (layout : Layout String) (w : ℕ) :
    (t.grant layout w).demandOf = t.demandOf := by
  funext v
  rw [demandOf, WaitersOk.grant_waiter]
  split_ifs with hv
  · rw [hv]
    rfl
  · rfl

theorem requeue_demandOf (t : LockTable F) (w : ℕ) (id : String) :
    (t.requeue w id).demandOf = t.demandOf := by
  funext v
  rcases eq_or_ne v w with rfl | hv
  · simp [demandOf, requeue, WaitQueueEntry.demand]
  · simp [demandOf, requeue, hv]

variable [Arithmetic F]

/-- A request without a conflict finds every slot free of its vector. -/
theorem free_of_findConflict {d : Demand F} (h : t.findConflict d.embedding d.threshold = none)
    {event : TableEvent F} (hevent : event.admits = some d) : t.slots.Free event := by
  intro d' hd' id x hx
  obtain rfl := Option.some.inj (hevent.symm.trans hd')
  obtain ⟨lock, hfind, rfl⟩ := Option.map_eq_some_iff.mp hx
  exact findConflict_eq_none.mp h id lock hfind

/-- Every hand-off of a rebalancing is legal at its turn. -/
theorem rebalance_events (layout : Layout String) (t : LockTable F) (ws : List ℕ) :
    (rebalance layout t [] ws).1.slots =
        ((rebalance layout t [] ws).2.map fun w => TableEvent.granted w (t.demandOf w)).foldl
          Slots.record t.slots ∧
      Legal Slots.record Slots.Free t.slots
        ((rebalance layout t [] ws).2.map fun w => TableEvent.granted w (t.demandOf w)) := by
  have hnil : Legal Slots.record Slots.Free t.slots
      (([] : List ℕ).map fun w => TableEvent.granted w (t.demandOf w)) := trivial
  refine (rebalance_granted_induction (P := fun t' granted _ => t'.demandOf = t.demandOf ∧
    t'.slots = (granted.map fun w => TableEvent.granted w (t.demandOf w)).foldl
      Slots.record t.slots ∧
    Legal Slots.record Slots.Free t.slots
      (granted.map fun w => TableEvent.granted w (t.demandOf w))) layout ?_ ?_
    ⟨rfl, rfl, hnil⟩).2
  · rintro t' granted w ws id s ⟨hdemand, hslots, hlegal⟩ -
    exact ⟨(t'.requeue_demandOf w id).trans hdemand, (t'.requeue_slots w id).trans hslots, hlegal⟩
  · rintro t' granted w ws ⟨hdemand, hslots, hlegal⟩ hc
    refine ⟨(t'.grant_demandOf layout w).trans hdemand, ?_, ?_⟩
    · rw [List.map_append, List.foldl_append, ← hslots, ← hdemand]
      exact grant_slots layout t' w
    · rw [List.map_append, legal_append, ← hslots]
      refine ⟨hlegal, free_of_findConflict (d := t'.demandOf w) hc ?_, trivial⟩
      rw [← hdemand]
      rfl

/-- Taking a lock away frees its slot and then hands slots over. -/
theorem removeLock_events (layout : Layout String) (t : LockTable F) {a : String}
    {lock : SemanticLock F} :
    (t.removeLock layout a lock).1.slots =
        (t.removalEvents a (t.removeLock layout a lock).2).foldl Slots.record t.slots ∧
      Legal Slots.record Slots.Free t.slots
        (t.removalEvents a (t.removeLock layout a lock).2) := by
  obtain ⟨hslots, hlegal⟩ := rebalance_events layout (t.erase a) lock.waiters
  rw [slots_erase] at hslots hlegal
  exact ⟨hslots, fun d hd => (by cases hd), hlegal⟩

end LockTable

/-! ### The replay of a run -/

namespace Replica

variable [Arithmetic F] {r r' : Replica F}

theorem events_of_advance (hok : WaitersOk r.table [] (sleepsOf r.calls)) {k : ℕ}
    {layout : Layout String} (hstep : r.step (.advance k layout) = some r') :
    r'.table.slots = (r.events (.advance k layout)).foldl Slots.record r.table.slots ∧
      Legal Slots.record Slots.Free r.table.slots (r.events (.advance k layout)) := by
  obtain ⟨call, t', a', hk, hmove, rfl⟩ := advance_cases hok hstep
  generalize hadm : call.admission = adm at hmove
  cases hmove with
  | reserve hfree =>
    obtain ⟨lock, hs, hcentroid, -⟩ := call.reserve_stores layout r.table
    simp only [events, hk, Call.loops, hadm, hfree, if_true]
    refine ⟨?_, LockTable.free_of_findConflict hfree rfl, trivial⟩
    rw [hs.slots, hcentroid]
    rfl
  | sleep id s hconflict =>
    simp only [events, hk, Call.loops, hadm, hconflict, if_true]
    exact ⟨LockTable.slots_enqueue _ _ _, fun d hd => (by cases hd), trivial⟩
  | wake w trace hgranted =>
    simp only [events, hk, Call.loops, hadm, hgranted, Bool.not_true, Bool.false_eq_true, if_false]
    exact ⟨rfl, trivial⟩

/-- A step changes the slots as its events say, and each event is legal at its turn. -/
theorem events_of_step {a : Action F} (hok : WaitersOk r.table [] (sleepsOf r.calls))
    (hstep : r.step a = some r') :
    r'.table.slots = (r.events a).foldl Slots.record r.table.slots ∧
      Legal Slots.record Slots.Free r.table.slots (r.events a) := by
  cases a with
  | request kind demand =>
    obtain rfl := Option.some.inj hstep
    exact ⟨rfl, trivial⟩
  | advance k layout => exact events_of_advance hok hstep
  | removePending agentId layout =>
    obtain rfl := Option.some.inj hstep
    simp only [events, LockTable.removePending]
    cases hfind : r.table.active.find agentId with
    | none => exact ⟨rfl, trivial⟩
    | some lock =>
      cases hpending : lock.pending with
      | true => simpa [hpending] using r.table.removeLock_events layout
      | false => simp [hpending, Legal]
  | apply entry layout =>
    obtain rfl := Option.some.inj hstep
    simp only [events, LockTable.onCommit]
    cases entry.opType with
    | acquire =>
      obtain ⟨lock, hs, hcentroid, -⟩ := r.table.applyAcquire_stores layout entry.agentId
        entry.embedding entry.theta
      refine ⟨?_, fun d hd => (by cases hd), trivial⟩
      rw [hs.slots, hcentroid]
      rfl
    | release =>
      simp only [LockTable.release]
      cases hfind : r.table.active.find entry.agentId with
      | none => exact ⟨rfl, trivial⟩
      | some lock => simpa using r.table.removeLock_events layout
  | beginLeaderSweep =>
    obtain rfl := Option.some.inj hstep
    exact ⟨rfl, trivial⟩
  | endLeaderSweep =>
    obtain rfl := Option.some.inj hstep
    exact ⟨rfl, trivial⟩

theorem events_replay {as : List (Action F)} {s : Replica F × List (TableEvent F)}
    (h : ((system F).logging events).exec as = some s) :
    s.1.table.slots = s.2.foldl Slots.record (fun _ => none) ∧
      Legal Slots.record Slots.Free (fun _ => none) s.2 :=
  System.exec_replays (fun r : Replica F => r.table.slots)
    (I := fun r => WaitersOk r.table [] (sleepsOf r.calls)) (.empty fun _ => rfl)
    (fun _ _ _ => waitersOk_step) (fun _ _ _ => events_of_step) h

/-! ### Several requests of one agent -/

/-- A request that has been admitted, or whose entry has been applied, protects its
vector as long as its slot is its own: nobody frees the id, and no request of the agent
writes another vector into the slot. -/
theorem slot_protects (as : List (Action F)) (s : Replica F × List (TableEvent F))
    (h : ((system F).logging events).exec as = some s) (l₁ l₂ l₃ : List (TableEvent F))
    (event event' : TableEvent F) (hlog : s.2 = l₁ ++ event :: (l₂ ++ event' :: l₃))
    (agentId : String) (x : List F) (hx : event.writes = some (agentId, x))
    (hfreed : .freed agentId ∉ l₂)
    (hkept : ∀ e ∈ l₂, ∀ y, e.writes = some (agentId, y) → y = x)
    (d : Demand F) (hd : event'.admits = some d) :
    Arithmetic.le d.threshold (cosineSimilarity d.embedding x) = false := by
  obtain ⟨-, hlegal⟩ := events_replay h
  rw [hlog, ← List.cons_append, ← List.append_assoc] at hlegal
  refine hlegal.of_mem d hd agentId x ?_
  rw [List.foldl_append, List.foldl_cons]
  refine foldl_keeps (P := fun m : Slots F => m agentId = some x) (Slots.record_writes _ hx)
    fun e he m hm => Slots.record_keeps hm ?_ (hkept e he)
  rintro rfl
  exact hfreed he

/-- Agent "a" is admitted for one vector and waits for its log entry, which is applied;
"b" has asked for the other vector in between. -/
def separateRun : List (Action ℤ) :=
  [.request .waitForAdmission ⟨"a", [1, 0], 1⟩, .advance 0 .newest,
    .request .waitForAdmission ⟨"b", [0, 1], 1⟩, .apply (.acquire "a" [1, 0] 1) .newest,
    .advance 1 .newest]

theorem slot_protects_separate :
    ∃ s : Replica ℤ × List (TableEvent ℤ), ((system ℤ).logging events).exec separateRun = some s ∧
      s.2.length = 3 ∧ Arithmetic.le 1 (cosineSimilarity [0, 1] [1, 0] : ℤ) = false := by
  obtain ⟨s, hs, hlog⟩ := System.exists_exec ((system ℤ).logging events) separateRun
    (fun s => s.2 = [.reserved ⟨"a", [1, 0], 1⟩, .applied ⟨"a", [1, 0], 1⟩,
      .reserved ⟨"b", [0, 1], 1⟩]) (by decide +kernel)
  refine ⟨s, hs, by rw [hlog]; rfl, ?_⟩
  refine slot_protects separateRun s hs [] [.applied ⟨"a", [1, 0], 1⟩] [] _ _ hlog "a" [1, 0] rfl
    (by decide) ?_ ⟨"b", [0, 1], 1⟩ rfl
  intro e he y hy
  obtain rfl := List.mem_singleton.mp he
  exact (Prod.mk.inj (Option.some.inj hy)).2.symm

/-- A second request of "a" does not conflict with its first and takes the slot over; so
"b" is admitted for the vector of the first. -/
def takenOverRun : List (Action ℤ) :=
  [.request .waitForAdmission ⟨"a", [1, 0], 1⟩, .advance 0 .newest,
    .request .waitForAdmission ⟨"a", [0, 1], 1⟩, .advance 1 .newest,
    .request .waitForAdmission ⟨"b", [1, 0], 1⟩, .advance 2 .newest]

/-- The first of two requests of "a" for one slot is cancelled, and "b" is admitted for the
vector of the second. -/
def cancelledRun : List (Action ℤ) :=
  [.request .waitForAdmission ⟨"a", [1, 0], 1⟩, .advance 0 .newest,
    .request .waitForAdmission ⟨"a", [0, 1], 1⟩, .advance 1 .newest, .removePending "a" .newest,
    .request .waitForAdmission ⟨"b", [0, 1], 1⟩, .advance 2 .newest]

theorem overlapping_requests_unprotected :
    (∃ s : Replica ℤ × List (TableEvent ℤ),
      ((system ℤ).logging events).exec takenOverRun = some s ∧
      s.2 = [.reserved ⟨"a", [1, 0], 1⟩, .reserved ⟨"a", [0, 1], 1⟩,
        .reserved ⟨"b", [1, 0], 1⟩] ∧
      Arithmetic.le 1 (cosineSimilarity [1, 0] [1, 0] : ℤ) = true) ∧
    ∃ s : Replica ℤ × List (TableEvent ℤ),
      ((system ℤ).logging events).exec cancelledRun = some s ∧
      s.2 = [.reserved ⟨"a", [1, 0], 1⟩, .reserved ⟨"a", [0, 1], 1⟩, .freed "a",
        .reserved ⟨"b", [0, 1], 1⟩] ∧
      Arithmetic.le 1 (cosineSimilarity [0, 1] [0, 1] : ℤ) = true := by
  refine ⟨?_, ?_⟩
  · obtain ⟨s, hs, hlog⟩ := System.exists_exec ((system ℤ).logging events) takenOverRun
      (fun s => s.2 = [.reserved ⟨"a", [1, 0], 1⟩, .reserved ⟨"a", [0, 1], 1⟩,
        .reserved ⟨"b", [1, 0], 1⟩]) (by decide +kernel)
    exact ⟨s, hs, hlog, rfl⟩
  · obtain ⟨s, hs, hlog⟩ := System.exists_exec ((system ℤ).logging events) cancelledRun
      (fun s => s.2 = [.reserved ⟨"a", [1, 0], 1⟩, .reserved ⟨"a", [0, 1], 1⟩, .freed "a",
        .reserved ⟨"b", [0, 1], 1⟩]) (by decide +kernel)
    exact ⟨s, hs, hlog, rfl⟩

end Replica

end DistributedLock.Table
