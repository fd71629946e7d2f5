import DistributedLock.Library.Lists

/-! Deterministic labelled transition systems. An action fixes every choice the
environment or the scheduler has, so that a run is a list of actions and can be
computed; a step the system refuses is `none`. The induction over a run is done
once here, for invariants of the state, for invariants that also read a history
variable and the run itself, and for the runs whose steps all meet a condition. -/

namespace DistributedLock.Library

structure System (S A : Type*) where
  init : S
  step : S → A → Option S

namespace System

variable {S A H : Type*} (M : System S A)

/-- Run a list of actions from a given state. -/
def execFrom (s : S) : List A → Option S
  | [] => some s
  | a :: as => (M.step s a).bind fun t => execFrom t as

def exec (as : List A) : Option S := M.execFrom M.init as

@[simp] theorem execFrom_nil (s : S) : M.execFrom s [] = some s := rfl

@[simp] theorem execFrom_cons (s : S) (a : A) (as : List A) :
    M.execFrom s (a :: as) = (M.step s a).bind fun t => M.execFrom t as := rfl

theorem execFrom_append (s : S) (as bs : List A) :
    M.execFrom s (as ++ bs) = (M.execFrom s as).bind fun t => M.execFrom t bs := by
  induction as generalizing s with
  | nil => simp
  | cons a as ih => simp [ih, Option.bind_assoc]

theorem exec_append (as bs : List A) :
    M.exec (as ++ bs) = (M.exec as).bind fun t => M.execFrom t bs :=
  M.execFrom_append M.init as bs

@[simp] theorem exec_nil : M.exec [] = some M.init := rfl

theorem exec_concat {as : List A} {a : A} {s' : S} :
    M.exec (as ++ [a]) = some s' ↔ ∃ s, M.exec as = some s ∧ M.step s a = some s' := by
  simp only [exec_append, Option.bind_eq_some_iff, execFrom_cons, execFrom_nil]
  constructor
  · rintro ⟨s, hs, t, ht, h⟩; exact ⟨s, hs, h ▸ ht⟩
  · rintro ⟨s, hs, ht⟩; exact ⟨s, hs, s', ht, rfl⟩

/-- A run that is computed, with a check of the state it ends in. -/
theorem exists_exec (as : List A) (P : S → Prop) [DecidablePred P]
    (h : ((M.exec as).any fun s => P s) = true) : ∃ s, M.exec as = some s ∧ P s := by
  obtain ⟨s, hs, hP⟩ := (Option.any_eq_true _ _).mp h
  exact ⟨s, hs, of_decide_eq_true hP⟩

/-- The same for a run and a further one. -/
theorem exists_exec_execFrom (as bs : List A) (P : S → S → Prop) [∀ s t, Decidable (P s t)]
    (h : ((M.exec as).any fun s => (M.execFrom s bs).any fun t => P s t) = true) :
    ∃ s t, M.exec as = some s ∧ M.execFrom s bs = some t ∧ P s t := by
  obtain ⟨s, hs, hrest⟩ := (Option.any_eq_true _ _).mp h
  obtain ⟨t, ht, hP⟩ := (Option.any_eq_true _ _).mp hrest
  exact ⟨s, t, hs, ht, of_decide_eq_true hP⟩

/-! ### Invariants -/

/-- What holds at the start and is kept by every step, the run so far included,
holds at the end of every run. -/
theorem runInvariant {P : List A → S → Prop} (h0 : P [] M.init)
    (hs : ∀ as s a s', P as s → M.step s a = some s' → P (as ++ [a]) s') :
    ∀ {as : List A} {s : S}, M.exec as = some s → P as s := by
  intro as
  induction as using List.reverseRecOn with
  | nil =>
    intro s h
    rw [exec_nil, Option.some.injEq] at h
    exact h ▸ h0
  | append_singleton as a ih =>
    intro s' h
    obtain ⟨s, hs1, hs2⟩ := M.exec_concat.mp h
    exact hs as s a s' (ih hs1) hs2

theorem invariant {P : S → Prop} (h0 : P M.init)
    (hs : ∀ s a s', P s → M.step s a = some s' → P s') {as : List A} {s : S}
    (h : M.exec as = some s) : P s :=
  M.runInvariant (P := fun _ s => P s) h0 (fun _ s a s' => hs s a s') h

/-- What holds in one state of a run and is kept by every step holds later on. -/
theorem execFrom_invariant {P : S → Prop} {s t : S} (h0 : P s)
    (hs : ∀ s a s', P s → M.step s a = some s' → P s') {as : List A}
    (h : M.execFrom s as = some t) : P t := by
  induction as generalizing s with
  | nil => exact Option.some.inj h ▸ h0
  | cons a as ih =>
    obtain ⟨u, hu, hrest⟩ := Option.bind_eq_some_iff.mp h
    exact ih (hs s a u h0 hu) hrest

/-- Invariants over a history variable, which records what the state forgets. -/
theorem historyInvariant {P : List A → S → H → Prop} {g : H} (record : S → A → S → H → H)
    (h0 : P [] M.init g)
    (hs : ∀ as s a s' g, P as s g → M.step s a = some s' → P (as ++ [a]) s' (record s a s' g))
    {as : List A} {s : S} (h : M.exec as = some s) : ∃ g, P as s g :=
  M.runInvariant (P := fun as s => ∃ g, P as s g) ⟨g, h0⟩
    (fun as s a s' ⟨g, hg⟩ ht => ⟨record s a s' g, hs as s a s' g hg ht⟩) h

/-! ### Moments of a run -/

/-- `u` is a state the run goes through. -/
def Passes (as : List A) (u : S) : Prop := ∃ n, M.exec (as.take n) = some u

variable {M}

theorem Passes.last {as : List A} {s : S} (h : M.exec as = some s) : M.Passes as s :=
  ⟨as.length, by rwa [List.take_length]⟩

theorem Passes.get {as : List A} (h : (M.exec as).isSome) : M.Passes as ((M.exec as).get h) :=
  .last (Option.some_get h).symm

/-- A check of every state of a run. -/
theorem Passes.of_all {as : List A} {u : S} (hu : M.Passes as u) {p : S → Bool}
    (h : ((List.range (as.length + 1)).all fun n => (M.exec (as.take n)).all p) = true) :
    p u = true := by
  obtain ⟨n, hn⟩ := hu
  have hmin : M.exec (as.take (min n as.length)) = some u := by
    rw [← List.take_eq_take_min]
    exact hn
  have hall := List.all_eq_true.mp h (min n as.length) (List.mem_range.mpr (by omega))
  rw [hmin] at hall
  simpa using hall

theorem Passes.append {as : List A} {u : S} (h : M.Passes as u) (bs : List A) :
    M.Passes (as ++ bs) u := by
  obtain ⟨n, hn⟩ := h
  refine ⟨min n as.length, ?_⟩
  rw [List.take_append_of_le_length (min_le_right _ _), List.take_eq_take_min] at *
  simpa using hn

theorem Passes.of_nil {u : S} (h : M.Passes [] u) : u = M.init := by
  obtain ⟨n, hn⟩ := h
  rw [List.take_nil, exec_nil, Option.some.injEq] at hn
  exact hn.symm

theorem Passes.of_concat {as : List A} {a : A} {u : S} (h : M.Passes (as ++ [a]) u) :
    M.Passes as u ∨ M.exec (as ++ [a]) = some u := by
  obtain ⟨n, hn⟩ := h
  by_cases hle : n ≤ as.length
  · exact Or.inl ⟨n, by rwa [List.take_append_of_le_length hle] at hn⟩
  · exact Or.inr (by rwa [List.take_of_length_le (by simp; omega)] at hn)

/-- Of two states of a run, the run passes through one on its way to the other. -/
theorem Passes.total {as : List A} {u v : S} (hu : M.Passes as u) (hv : M.Passes as v) :
    (∃ bs, M.exec bs = some v ∧ M.Passes bs u) ∨ (∃ bs, M.exec bs = some u ∧ M.Passes bs v) := by
  obtain ⟨n, hn⟩ := hu
  obtain ⟨m, hm⟩ := hv
  rcases le_total n m with h | h
  · exact Or.inl ⟨as.take m, hm, n, by rwa [List.take_take, min_eq_left h]⟩
  · exact Or.inr ⟨as.take n, hn, m, by rwa [List.take_take, min_eq_left h]⟩

/-! ### Runs whose steps meet a condition -/

variable (M)

/-- The system with every step refused that does not meet `C`. -/
def guard (C : S → A → Prop) [∀ s a, Decidable (C s a)] : System S A where
  init := M.init
  step s a := if C s a then M.step s a else none

variable {M} {C : S → A → Prop} [∀ s a, Decidable (C s a)]

theorem guard_step {s s' : S} {a : A} :
    (M.guard C).step s a = some s' ↔ C s a ∧ M.step s a = some s' := by
  simp [guard]

/-- The runs of the guarded system are the runs every step of which meets `C`. -/
theorem exec_guard_iff {as : List A} {s : S} :
    (M.guard C).exec as = some s ↔
      M.exec as = some s ∧ ∀ bs a cs, as = bs ++ a :: cs → ∀ u, M.exec bs = some u → C u a := by
  induction as using List.reverseRecOn generalizing s with
  | nil => simp [guard]
  | append_singleton as a ih =>
    rw [exec_concat, exec_concat]
    constructor
    · rintro ⟨t, ht, hstep⟩
      obtain ⟨hrun, hall⟩ := ih.mp ht
      obtain ⟨hC, hstep⟩ := guard_step.mp hstep
      refine ⟨⟨t, hrun, hstep⟩, ?_⟩
      intro bs b cs he u hu
      rcases concat_eq_split he with ⟨rfl, rfl, -⟩ | ⟨cs', he, -⟩
      · rw [hrun, Option.some.injEq] at hu
        exact hu ▸ hC
      · exact hall bs b cs' he u hu
    · rintro ⟨⟨t, hrun, hstep⟩, hall⟩
      refine ⟨t, ih.mpr ⟨hrun, ?_⟩, guard_step.mpr ⟨hall as a [] rfl t hrun, hstep⟩⟩
      intro bs b cs he u hu
      exact hall bs b (cs ++ [a]) (by rw [he]; simp) u hu

theorem exec_of_guard {as : List A} {s : S} (h : (M.guard C).exec as = some s) :
    M.exec as = some s :=
  (exec_guard_iff.mp h).1

theorem execFrom_of_guard {as : List A} {s t : S} (h : (M.guard C).execFrom s as = some t) :
    M.execFrom s as = some t := by
  induction as generalizing s with
  | nil => exact h
  | cons a as ih =>
    obtain ⟨u, hu, hrest⟩ := Option.bind_eq_some_iff.mp h
    exact Option.bind_eq_some_iff.mpr ⟨u, (guard_step.mp hu).2, ih hrest⟩

/-! ### Runs that keep a log -/

variable {B : Type*} (M)

/-- The system that also writes down what each step puts out. -/
def logging (out : S → A → List B) : System (S × List B) A where
  init := (M.init, [])
  step s a := (M.step s.1 a).map fun t => (t, s.2 ++ out s.1 a)

variable {M} {out : S → A → List B}

theorem logging_step {s s' : S × List B} {a : A} :
    (M.logging out).step s a = some s' ↔ M.step s.1 a = some s'.1 ∧ s'.2 = s.2 ++ out s.1 a := by
  simp only [logging, Option.map_eq_some_iff]
  constructor
  · rintro ⟨t, ht, rfl⟩; exact ⟨ht, rfl⟩
  · rintro ⟨ht, hl⟩; exact ⟨s'.1, ht, Prod.ext rfl hl.symm⟩

end System

end DistributedLock.Library
