import DistributedLock.Library.Lists

/-! Spans of time, one for each owner at most, that are opened and closed at readings
of a clock that never goes back. When nobody opens a span beside an open one it
conflicts with, any two spans that conflict lie one after the other. -/

namespace DistributedLock.Library

/-- A span of its owner's `value`; it is open while it has no end. -/
structure Span (α T : Type*) where
  value : α
  start : T
  stop : Option T

variable {α K T : Type*} [LE T]

/-- The span has been closed when the other one starts. -/
def Span.Before (x y : Span α T) : Prop := ∃ b, x.stop = some b ∧ b ≤ y.start

/-- The spans that conflict are in order, and all lie in the past of `now`. -/
structure InOrder (conflict : α → α → Prop) (span : K → Option (Span α T)) (now : T) : Prop where
  start_le : ∀ k x, span k = some x → x.start ≤ now
  stop_le : ∀ k x b, span k = some x → x.stop = some b → b ≤ now
  ordered : ∀ k k' x y, k ≠ k' → span k = some x → span k' = some y → conflict x.value y.value →
    x.Before y ∨ y.Before x

namespace InOrder

variable {conflict : α → α → Prop} {span : K → Option (Span α T)} {now now' : T}

theorem empty (h : ∀ k, span k = none) : InOrder conflict span now := by
  refine ⟨?_, ?_, ?_⟩ <;> simp [h]

variable [Std.IsPreorder T]

theorem tick (h : InOrder conflict span now) (hnow : now ≤ now') : InOrder conflict span now' :=
  ⟨fun k x hk => Std.le_trans (h.start_le k x hk) hnow,
    fun k x b hk hb => Std.le_trans (h.stop_le k x b hk hb) hnow, h.ordered⟩

variable [DecidableEq K]

/-- One span is written over, and stays in order with the others. -/
theorem set (h : InOrder conflict span now) (hnow : now ≤ now') {k : K} {x : Span α T}
    (hstart : x.start ≤ now') (hstop : ∀ b, x.stop = some b → b ≤ now')
    (hothers : ∀ j y, j ≠ k → span j = some y →
      conflict x.value y.value ∨ conflict y.value x.value → y.Before x ∨ x.Before y) :
    InOrder conflict (Function.update span k (some x)) now' := by
  refine ⟨fun j y hj => ?_, fun j y b hj hb => ?_, fun j j' y z hne hj hj' hc => ?_⟩
  · rcases of_update_some hj with ⟨-, rfl⟩ | ⟨-, hj⟩
    · exact hstart
    · exact Std.le_trans (h.start_le j y hj) hnow
  · rcases of_update_some hj with ⟨-, rfl⟩ | ⟨-, hj⟩
    · exact hstop b hb
    · exact Std.le_trans (h.stop_le j y b hj hb) hnow
  · rcases of_update_some hj with ⟨rfl, rfl⟩ | ⟨hjk, hold⟩ <;>
      rcases of_update_some hj' with ⟨rfl, rfl⟩ | ⟨hjk', hold'⟩
    · exact absurd rfl hne
    · exact (hothers j' z hjk' hold' (Or.inl hc)).symm
    · exact hothers j y hjk hold (Or.inr hc)
    · exact h.ordered j j' y z hne hold hold' hc

/-- A span is opened; all that conflict with it have been closed. -/
theorem start (h : InOrder conflict span now) (hsymm : ∀ a b, conflict a b → conflict b a)
    (hnow : now ≤ now') {k : K} (v : α)
    (hclosed : ∀ k' y, k' ≠ k → span k' = some y → conflict v y.value → y.stop ≠ none) :
    InOrder conflict (Function.update span k (some { value := v, start := now', stop := none }))
      now' := by
  refine h.set hnow (Std.le_refl now') (fun b hb => by cases hb) fun j y hj hy hc => Or.inl ?_
  have hc' : conflict v y.value := hc.elim id (hsymm _ _)
  obtain ⟨b, hb⟩ := Option.ne_none_iff_exists'.mp (hclosed j y hj hy hc')
  exact ⟨b, hb, Std.le_trans (h.stop_le j y b hy hb) hnow⟩

/-- An open span is closed; what was before it stays before it. -/
theorem stop (h : InOrder conflict span now) (hnow : now ≤ now') {k : K} {x : Span α T}
    (hk : span k = some x) (hopen : x.stop = none) :
    InOrder conflict (Function.update span k (some { x with stop := some now' })) now' := by
  have hnot : ∀ y : Span α T, ¬ x.Before y := by
    rintro y ⟨b, hb, -⟩
    rw [hopen] at hb
    cases hb
  refine h.set hnow (Std.le_trans (h.start_le k x hk) hnow) (fun b hb => ?_)
    fun j y hj hy hc => Or.inl ?_
  · rw [← Option.some.inj hb]
    exact Std.le_refl now'
  · rcases hc with hc | hc
    · exact (h.ordered k j x y hj.symm hk hy hc).resolve_left (hnot y)
    · exact (h.ordered j k y x hj hy hk hc).resolve_right (hnot y)

end InOrder

end DistributedLock.Library
