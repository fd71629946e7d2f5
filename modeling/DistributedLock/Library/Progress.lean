import DistributedLock.Library.System

/-! Runs that end. When every step of one kind makes some work smaller, steps of this
kind alone cannot go on for ever: they end in a state in which none of them is possible. -/

namespace DistributedLock.Library

namespace System

variable {S A W : Type*} (M : System S A) (kind : A → Prop)

/-- No action of the kind is possible. -/
def Stuck (s : S) : Prop := ∀ a, kind a → M.step s a = none

/-- In the states of `I` each step of the kind stays in `I` and makes `work` smaller. -/
def Drains (I : S → Prop) (work : S → W) (lt : W → W → Prop) : Prop :=
  ∀ s a s', I s → kind a → M.step s a = some s' → I s' ∧ lt (work s') (work s)

variable {M kind} {I : S → Prop} {work : S → W} {lt : W → W → Prop}

/-- Then no sequence of such steps goes on for ever. -/
theorem Drains.acc (h : M.Drains kind I work lt) (hwf : WellFounded lt) {s : S} (hs : I s) :
    Acc (fun t' t => ∃ a, kind a ∧ M.step t a = some t') s := by
  induction hw : work s using hwf.induction generalizing s with
  | _ w ih =>
    refine .intro s ?_
    rintro s' ⟨a, ha, hstep⟩
    obtain ⟨hI, hlt⟩ := h s a s' hs ha hstep
    exact ih _ (hw ▸ hlt) hI rfl

end System

end DistributedLock.Library
