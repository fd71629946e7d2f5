import DistributedLock.Table.Calls

/-! Which locks are real. A request, a hand-off or a cancellation makes no lock real and
takes no real lock away, whatever it writes over; so an agent whose last applied entry is
an ACQUIRE has a lock. -/

namespace DistributedLock.Table

open Library Raft

variable {F : Type*}

/-! ### The last entry about an agent -/

/-- The last of the entries about the agent. -/
def lastEntry (entries : List (LogEntry F)) (agentId : String) : Option (LogEntry F) :=
  (entries.filter fun e => e.agentId = agentId).getLast?

theorem lastEntry_append (es es' : List (LogEntry F)) (id : String) :
    lastEntry (es ++ es') id = (lastEntry es' id).or (lastEntry es id) := by
  rw [lastEntry, List.filter_append, List.getLast?_append]
  rfl

theorem lastEntry_concat (es : List (LogEntry F)) (e : LogEntry F) (id : String) :
    lastEntry (es ++ [e]) id = if e.agentId = id then some e else lastEntry es id := by
  rw [lastEntry_append, lastEntry, List.filter_singleton]
  split_ifs with h <;> simp [h]

theorem mem_of_lastEntry {es : List (LogEntry F)} {id : String} {e : LogEntry F}
    (h : lastEntry es id = some e) : e ∈ es ∧ e.agentId = id := by
  have hmem := List.mem_filter.mp (List.mem_of_getLast? h)
  exact ⟨hmem.1, of_decide_eq_true hmem.2⟩

theorem exists_lastEntry {es : List (LogEntry F)} {e : LogEntry F} (h : e ∈ es) :
    ∃ e', lastEntry es e.agentId = some e' := by
  refine Option.isSome_iff_exists.mp (List.getLast?_isSome.mpr ?_)
  exact List.ne_nil_of_mem (List.mem_filter.mpr ⟨h, by simp⟩)

namespace LockTable

variable (layout : Layout String) (t : LockTable F) (a : String) (e : List F) (theta : F)

/-- The agent has a lock that is not pending. -/
def Real (id : String) : Prop := (t.realLocks id).isSome

variable {t}

theorem Real.insertPending {id : String} (h : t.Real id) :
    (t.insertPending layout a e theta).Real id := by
  obtain ⟨lock, hs, -, -, hpending⟩ := t.insertPending_stores layout a e theta
  obtain ⟨v, hv⟩ := Option.isSome_iff_exists.mp h
  obtain ⟨old, hold, hreal⟩ := Option.bind_eq_some_iff.mp hv
  rcases eq_or_ne id a with rfl | hne
  · have hflag : old.pending = false := by
      unfold SemanticLock.real at hreal
      split_ifs at hreal with hp
      simpa using hp
    rw [hold, Option.map_some, Option.getD_some, hflag] at hpending
    simp [Real, realLocks, hs.find_self, SemanticLock.real, hpending]
  · rw [Real, realLocks, hs.find_of_ne hne, hold, Option.bind_some, hreal]
    rfl

theorem Real.applyAcquire {id : String} (h : id = a ∨ t.Real id) :
    (t.applyAcquire layout a e theta).Real id := by
  rw [Real, realLocks_applyAcquire, Function.update_apply]
  split_ifs with hid
  · rfl
  · exact h.resolve_left hid

theorem Real.erase {id : String} (h : t.Real id) (hne : id ≠ a) : (t.erase a).Real id := by
  rwa [Real, realLocks_erase, Function.update_of_ne hne]

theorem Real.enqueue {id : String} (h : t.Real id) (j : String) (w : ℕ) :
    (t.enqueue j w).Real id := by
  rwa [Real, realLocks_enqueue]

variable [Arithmetic F]

theorem Real.removeLock {id : String} {lock : SemanticLock F} (h : t.Real id) (hne : id ≠ a) :
    (t.removeLock layout a lock).1.Real id := by
  refine rebalance_induction (P := fun t _ => t.Real id) layout ?_ ?_ (h.erase a hne)
  · exact fun t w ws j s h _ => Real.enqueue (t := t.setWaiter w _) h j w
  · exact fun t w ws h _ => h.insertPending layout _ _ _

theorem Real.removePending {id : String} (h : t.Real id) :
    (t.removePending layout a).1.Real id := by
  rcases t.removePending_cases layout a with he | ⟨lock, hfind, hpending, he⟩ <;> rw [he]
  · exact h
  · refine h.removeLock layout a ?_
    rintro rfl
    simp [Real, realLocks, hfind, SemanticLock.real, hpending] at h

theorem Real.release {id : String} (h : t.Real id) (hne : id ≠ a) :
    (t.release layout a).1.Real id := by
  rcases t.release_cases layout a with ⟨-, he⟩ | ⟨lock, -, he⟩ <;> rw [he]
  · exact h
  · exact h.removeLock layout a hne

/-- The steps of a call leave the real locks in place. -/
theorem Real.advance {id : String} {call : Call F} {t' : LockTable F} {adm adm' : Admission F}
    (h : t.Real id) (hmove : CallMove (call.reserve layout) t call.demand adm t' adm') :
    t'.Real id := by
  cases hmove with
  | reserve hfree =>
    unfold Call.reserve
    cases call.kind with
    | waitForAdmission => exact h.insertPending layout _ _ _
    | acquire => exact Real.applyAcquire layout _ _ _ (Or.inr h)
  | sleep j s hconflict =>
    exact Real.enqueue (t := { t.setWaiter t.next _ with next := t.next + 1 }) h j t.next
  | wake w trace hgranted => exact h

end LockTable

namespace Replica

variable [Arithmetic F] {r r' : Replica F}

/-- The last entry about an agent is an ACQUIRE only while the agent has a real lock. -/
def RealOk (r : Replica F) : Prop :=
  ∀ id e, lastEntry r.applied id = some e → e.opType = .acquire → r.table.Real id

theorem realOk_step {a : Action F} (hw : WaitersOk r.table [] (sleepsOf r.calls)) (h : r.RealOk)
    (hstep : r.step a = some r') : r'.RealOk := by
  intro id e hlast hop
  cases a with
  | request kind demand =>
    obtain rfl := Option.some.inj hstep
    exact h id e hlast hop
  | advance k layout =>
    obtain ⟨call, t', a', hk, hmove, rfl⟩ := advance_cases hw hstep
    exact (h id e hlast hop).advance layout hmove
  | removePending agentId layout =>
    obtain rfl := Option.some.inj hstep
    exact (h id e hlast hop).removePending layout agentId
  | apply entry layout =>
    obtain rfl := Option.some.inj hstep
    dsimp only at hlast ⊢
    rw [lastEntry_concat] at hlast
    unfold LockTable.onCommit
    cases hentry : entry.opType with
    | acquire =>
      refine LockTable.Real.applyAcquire layout _ _ _ ?_
      split_ifs at hlast with hid
      · exact Or.inl hid.symm
      · exact Or.inr (h id e hlast hop)
    | release =>
      split_ifs at hlast with hid
      · obtain rfl := Option.some.inj hlast
        rw [hentry] at hop
        cases hop
      · exact (h id e hlast hop).release layout entry.agentId (Ne.symm hid)
  | beginLeaderSweep =>
    obtain rfl := Option.some.inj hstep
    exact h id e hlast hop
  | endLeaderSweep =>
    obtain rfl := Option.some.inj hstep
    exact h id e hlast hop

theorem realOk {as : List (Action F)} (h : (system F).exec as = some r) : r.RealOk :=
  ((system F).invariant (P := fun r => WaitersOk r.table [] (sleepsOf r.calls) ∧ r.RealOk)
    ⟨.empty fun _ => rfl, fun id e hlast => by cases hlast⟩
    (fun _ _ _ hr hstep => ⟨waitersOk_step hr.1 hstep, realOk_step hr.1 hr.2 hstep⟩) h).2

end Replica

end DistributedLock.Table
