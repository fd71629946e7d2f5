import Mathlib.Data.Fintype.Card
import Mathlib.Data.Finset.Card

/-! Strict majorities of a finite set of voters, and why two of them meet. -/

namespace DistributedLock.Library

variable {ι : Type*} [Fintype ι]

/-- More than half of all voters. -/
def Majority (Q : Finset ι) : Prop := Fintype.card ι < 2 * Q.card

instance (Q : Finset ι) : Decidable (Majority Q) := inferInstanceAs (Decidable (_ < _))

theorem Majority.mono {P Q : Finset ι} (h : Majority P) (hs : P ⊆ Q) : Majority Q := by
  have := Finset.card_le_card hs
  unfold Majority at *
  omega

/-- Two majorities share a voter. -/
theorem Majority.meet [DecidableEq ι] {P Q : Finset ι} (hP : Majority P) (hQ : Majority Q) :
    ∃ j, j ∈ P ∧ j ∈ Q := by
  by_contra hno
  have hdis : Disjoint P Q := Finset.disjoint_left.mpr fun j hj hj' => hno ⟨j, hj, hj'⟩
  have hcard := Finset.card_le_univ (P ∪ Q)
  rw [Finset.card_union_of_disjoint hdis] at hcard
  unfold Majority at hP hQ
  omega

theorem Majority.nonempty {Q : Finset ι} (h : Majority Q) : Q.Nonempty := by
  rw [← Finset.card_pos]
  unfold Majority at h
  omega

end DistributedLock.Library
