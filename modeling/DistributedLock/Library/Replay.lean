import DistributedLock.Library.System

/-! Logs that can be replayed. An event changes an abstract state and may have a
condition on the state it happens in. A system replays a log when its abstract state
after every step is the replay of what the step put out, each event being legal at its
turn. -/

namespace DistributedLock.Library

variable {T E : Type*} (record : T → E → T) (ok : T → E → Prop)

/-- Each event is legal in the state that the events before it leave behind. -/
def Legal : T → List E → Prop
  | _, [] => True
  | t, e :: es => ok t e ∧ Legal (record t e) es

variable {record ok}

theorem legal_append {t : T} {l₁ l₂ : List E} :
    Legal record ok t (l₁ ++ l₂) ↔
      Legal record ok t l₁ ∧ Legal record ok (l₁.foldl record t) l₂ := by
  induction l₁ generalizing t with
  | nil => simp [Legal]
  | cons e l₁ ih => simp only [List.cons_append, Legal, List.foldl_cons, ih, and_assoc]

theorem Legal.of_mem {t : T} {l₁ l₂ : List E} {e : E} (h : Legal record ok t (l₁ ++ e :: l₂)) :
    ok (l₁.foldl record t) e :=
  (legal_append.mp h).2.1

/-- What no event of a list changes. -/
theorem foldl_keeps {P : T → Prop} {l : List E} {t : T} (h : P t)
    (hl : ∀ e ∈ l, ∀ t, P t → P (record t e)) : P (l.foldl record t) := by
  induction l generalizing t with
  | nil => exact h
  | cons e l ih =>
    exact ih (hl e List.mem_cons_self t h) fun e' he' => hl e' (List.mem_cons_of_mem _ he')

namespace System

variable {S A : Type*} {M : System S A} {out : S → A → List E}

/-- The log of a run replays to its state, and every event was legal at its turn. -/
theorem exec_replays (view : S → T) {I : S → Prop} (hinit : I M.init)
    (hinv : ∀ s a s', I s → M.step s a = some s' → I s')
    (hstep : ∀ s a s', I s → M.step s a = some s' →
      view s' = (out s a).foldl record (view s) ∧ Legal record ok (view s) (out s a))
    {as : List A} {s : S × List E} (h : (M.logging out).exec as = some s) :
    view s.1 = s.2.foldl record (view M.init) ∧ Legal record ok (view M.init) s.2 := by
  refine ((M.logging out).invariant (P := fun s => I s.1 ∧
    view s.1 = s.2.foldl record (view M.init) ∧ Legal record ok (view M.init) s.2)
    ⟨hinit, rfl, trivial⟩ ?_ h).2
  rintro s a s' ⟨hI, hview, hlegal⟩ ht
  obtain ⟨ht, hlog⟩ := logging_step.mp ht
  obtain ⟨hview', hlegal'⟩ := hstep s.1 a s'.1 hI ht
  refine ⟨hinv s.1 a s'.1 hI ht, ?_, ?_⟩
  · rw [hlog, List.foldl_append, ← hview, hview']
  · rw [hlog, legal_append, ← hview]
    exact ⟨hlegal, hlegal'⟩

end System

end DistributedLock.Library
