import DistributedLock.Library.System

/-! Forward simulations. A step of the first system is matched by some actions of the
second, perhaps by none, so that every run of the first has one of the second whose
state is related to its own. What holds in every run of the second can then be read
off the states of the first. -/

namespace DistributedLock.Library

namespace System

variable {S T A B : Type*}

/-- `N` can follow every run of `M`, and the states stay related. -/
structure Simulates (N : System T B) (M : System S A) (R : S → T → Prop) : Prop where
  init : R M.init N.init
  step : ∀ s t a s', R s t → M.step s a = some s' →
    ∃ bs t', N.execFrom t bs = some t' ∧ R s' t'

namespace Simulates

variable {M : System S A} {N : System T B} {R : S → T → Prop}

theorem execFrom (h : Simulates N M R) {s s' : S} {t : T} {as : List A} (hR : R s t)
    (hs : M.execFrom s as = some s') : ∃ bs t', N.execFrom t bs = some t' ∧ R s' t' := by
  induction as generalizing s t with
  | nil =>
    rw [execFrom_nil, Option.some.injEq] at hs
    exact ⟨[], t, rfl, hs ▸ hR⟩
  | cons a as ih =>
    obtain ⟨s₁, hstep, hrest⟩ := Option.bind_eq_some_iff.mp hs
    obtain ⟨bs, t₁, hbs, hR₁⟩ := h.step s t a s₁ hR hstep
    obtain ⟨cs, t', hcs, hR'⟩ := ih hR₁ hrest
    refine ⟨bs ++ cs, t', ?_, hR'⟩
    rw [execFrom_append, hbs]
    exact hcs

theorem exec (h : Simulates N M R) {s : S} {as : List A} (hs : M.exec as = some s) :
    ∃ bs t, N.exec bs = some t ∧ R s t :=
  h.execFrom h.init hs

/-- Each step is matched by one action or by none. -/
theorem of_step (init : R M.init N.init)
    (step : ∀ s t a s', R s t → M.step s a = some s' →
      R s' t ∨ ∃ b t', N.step t b = some t' ∧ R s' t') : Simulates N M R where
  init := init
  step s t a s' hR hs := by
    rcases step s t a s' hR hs with hstay | ⟨b, t', hb, hR'⟩
    · exact ⟨[], t, rfl, hstay⟩
    · refine ⟨[b], t', ?_, hR'⟩
      rw [execFrom_cons, hb]
      rfl

end Simulates

end System

end DistributedLock.Library
