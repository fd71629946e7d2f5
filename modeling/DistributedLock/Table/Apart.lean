import DistributedLock.Table.Events

/-! The slots of a table in which each agent asks for one vector only. Any two slots are
apart as long as an ACQUIRE entry finds the slot of its agent in place: where the slot is
gone, the entry admits the agent without a look for conflicts. -/

namespace DistributedLock.Table

open Library Raft

variable {F : Type*} [Arithmetic F]

/-- `asked` are the vectors that the agents ask for, `es` the entries still to be
applied. -/
structure Apart (theta : F) (asked : String → List F → Prop) (es : List (LogEntry F))
    (m : Slots F) : Prop where
  owner : ∀ id x, m id = some x → asked id x
  apart : ∀ id id' x y, id ≠ id' → m id = some x → m id' = some y →
    Arithmetic.le theta (cosineSimilarity x y) = false
  promoted : ∀ e ∈ es, e.opType = .acquire → m e.agentId = some e.embedding

namespace Apart

variable {theta : F} {asked asked' : String → List F → Prop} {es es' : List (LogEntry F)}
  {m : Slots F} {t t' : LockTable F} {sleeps : ℕ → Option (ℕ × Demand F)}

theorem empty : Apart theta asked [] fun _ => none := by
  refine ⟨?_, ?_, ?_⟩ <;> simp

/-- More is asked for, and fewer ACQUIRE entries are left. -/
theorem mono (h : Apart theta asked es m) (hasked : ∀ id x, asked id x → asked' id x)
    (hes : ∀ e ∈ es', e.opType = .acquire → e ∈ es) : Apart theta asked' es' m where
  owner id x hx := hasked id x (h.owner id x hx)
  apart := h.apart
  promoted e he hop := h.promoted e (hes e he hop) hop

/-- A RELEASE is written to the log, or the ACQUIRE of an agent with a slot. -/
theorem append (h : Apart theta asked es m) {e : LogEntry F}
    (he : e.opType = .acquire → m e.agentId = some e.embedding) :
    Apart theta asked (es ++ [e]) m where
  owner := h.owner
  apart := h.apart
  promoted e' he' hop := by
    rcases List.mem_append.mp he' with hold | hnew
    · exact h.promoted e' hold hop
    · rw [List.mem_singleton.mp hnew] at hop ⊢
      exact he hop

/-- An agent is admitted for the vector it asks for, which meets no conflict. -/
theorem occupy (h : Apart theta asked es m) (honce : ∀ id x y, asked id x → asked id y → x = y)
    {a : String} {x : List F} (hasked : asked a x)
    (hfree : ∀ id y, m id = some y → Arithmetic.le theta (cosineSimilarity x y) = false) :
    Apart theta asked es (Function.update m a (some x)) := by
  refine ⟨fun id y hy => ?_, fun id id' y z hne hy hz => ?_, fun e he hop => ?_⟩
  · rcases of_update_some hy with ⟨rfl, rfl⟩ | ⟨-, hy⟩
    · exact hasked
    · exact h.owner id y hy
  · rcases of_update_some hy with ⟨rfl, rfl⟩ | ⟨-, hold⟩ <;>
      rcases of_update_some hz with ⟨rfl, rfl⟩ | ⟨-, hold'⟩
    · exact absurd rfl hne
    · exact hfree id' z hold'
    · rw [cosineSimilarity_comm]
      exact hfree id y hold
    · exact h.apart id id' y z hne hold hold'
  · have hold := h.promoted e he hop
    by_cases ha : e.agentId = a
    · rw [ha, Function.update_self, honce a x e.embedding hasked (h.owner _ _ (ha ▸ hold))]
    · rwa [Function.update_of_ne ha]

/-- The slot of an agent is freed; no ACQUIRE entry of the agent is left. -/
theorem free (h : Apart theta asked es m) {a : String}
    (hnone : ∀ e ∈ es, e.opType = .acquire → e.agentId ≠ a) :
    Apart theta asked es (Function.update m a none) := by
  refine ⟨fun id x hx => h.owner id x (of_update_none hx).2, fun id id' x y hne hx hy => ?_,
    fun e he hop => ?_⟩
  · exact h.apart id id' x y hne (of_update_none hx).2 (of_update_none hy).2
  · rw [Function.update_of_ne (hnone e he hop)]
    exact h.promoted e he hop

/-! ### Operations of the table -/

variable (honce : ∀ id x y, asked id x → asked id y → x = y)
  (hsleeps : ∀ k w d, sleeps k = some (w, d) → asked d.agentId d.embedding ∧ d.threshold = theta)

include honce

theorem reserve (h : Apart theta asked es t.slots) {d : Demand F}
    (hasked : asked d.agentId d.embedding)
    (hfree : t.findConflict d.embedding theta = none) :
    Apart theta asked es (Function.update t.slots d.agentId (some d.embedding)) := by
  refine h.occupy honce hasked fun id y hy => ?_
  obtain ⟨lock, hlock, rfl⟩ := Option.map_eq_some_iff.mp hy
  exact LockTable.findConflict_eq_none.mp hfree id lock hlock

include hsleeps

theorem rebalance (h : Apart theta asked es t.slots) {ws : List ℕ} (hw : WaitersOk t ws sleeps)
    (layout : Layout String) :
    Apart theta asked es (LockTable.rebalance layout t [] ws).1.slots := by
  refine (hw.rebalance (P := fun t => Apart theta asked es t.slots) layout [] h ?_ ?_).2
  · intro t w ws id s _ _ _ ht
    rw [LockTable.requeue_slots]
    exact ht
  · intro t w ws k d hw hk hfree ht
    obtain ⟨hagent, hemb, -⟩ := hw.entry k w d hk
    obtain ⟨hasked, rfl⟩ := hsleeps k w d hk
    rw [LockTable.grant_slots]
    show Apart d.threshold asked es (Function.update t.slots (t.waiter w).waitingAgentId
      (some (t.waiter w).embedding))
    rw [hagent, hemb]
    exact ht.reserve honce hasked hfree

theorem release (h : Apart theta asked es t.slots) (hw : WaitersOk t [] sleeps)
    (layout : Layout String) {a : String}
    (hnone : ∀ e ∈ es, e.opType = .acquire → e.agentId ≠ a) :
    Apart theta asked es (t.release layout a).1.slots := by
  rcases t.release_cases layout a with ⟨-, he⟩ | ⟨lock, hfind, he⟩ <;> rw [he]
  · exact h
  · refine rebalance honce hsleeps ?_ (hw.erase hfind) layout
    rw [LockTable.slots_erase]
    exact h.free hnone

theorem onCommit {e : LogEntry F} (h : Apart theta asked (e :: es) t.slots)
    (hw : WaitersOk t [] sleeps) (layout : Layout String)
    (hnone : e.opType = .release → ∀ e' ∈ es, e'.opType = .acquire → e'.agentId ≠ e.agentId) :
    Apart theta asked es (t.onCommit layout e).slots := by
  have hrest : Apart theta asked es t.slots :=
    h.mono (fun _ _ hx => hx) fun e' he' _ => List.mem_cons_of_mem e he'
  unfold LockTable.onCommit
  cases hop : e.opType with
  | acquire =>
    obtain ⟨lock, hs, hcentroid, -⟩ := t.applyAcquire_stores layout e.agentId e.embedding e.theta
    show Apart theta asked es (t.applyAcquire layout e.agentId e.embedding e.theta).slots
    rw [hs.slots, hcentroid, ← h.promoted e List.mem_cons_self hop, Function.update_eq_self]
    exact hrest
  | release => exact hrest.release honce hsleeps hw layout (hnone hop)

omit hsleeps in
theorem admission (h : Apart theta asked es t.slots) {layout : Layout String} {d : Demand F}
    {a a' : Admission F} (hasked : asked d.agentId d.embedding) (htheta : d.threshold = theta)
    (hmove : CallMove (LockTable.reservePending layout d) t d a t' a') :
    Apart theta asked es t'.slots := by
  subst htheta
  cases hmove with
  | reserve hfree =>
    obtain ⟨lock, hs, hcentroid, -⟩ := LockTable.reservePending_stores layout d t
    rw [hs.slots, hcentroid]
    exact h.reserve honce hasked hfree
  | sleep id s hconflict =>
    rw [LockTable.sleepOn, LockTable.slots_enqueue]
    exact h
  | wake w trace hgranted => exact h

end Apart

end DistributedLock.Table
