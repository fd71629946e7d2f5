import Mathlib.Algebra.Group.Defs
import Mathlib.Data.List.Basic
import Mathlib.Data.Rat.Defs

/-! `ActiveLockTable::cosine_similarity`. The scalars are a parameter: `F` for
`float`, and the `double` in which the sums are taken, with the operations the
source applies to them. Of all laws of arithmetic only that a product does not
depend on the order of its factors is asked for, which holds of rounded products
as well; the comparisons are those of the machine, so no order is assumed. -/

namespace DistributedLock.Table

/-- `float` values and the `double` values computed from them. -/
class Arithmetic (F : Type*) extends Zero F where
  Double : Type
  le : F → F → Bool
  widen : F → Double
  narrow : Double → F
  ofInt : ℤ → Double
  add : Double → Double → Double
  mul : Double → Double → Double
  div : Double → Double → Double
  sqrt : Double → Double
  leDouble : Double → Double → Bool
  ltDouble : Double → Double → Bool
  mul_comm : ∀ x y, mul x y = mul y x

variable {F : Type*} [Arithmetic F]

open Arithmetic

/-- `std::min`. -/
def minDouble (x y : Double F) : Double F := if ltDouble y x then y else x

/-- `std::max`. -/
def maxDouble (x y : Double F) : Double F := if ltDouble x y then y else x

/-- `dot`, `norm_a` and `norm_b`. -/
structure Sums (F : Type*) [Arithmetic F] where
  dot : Double F
  normA : Double F
  normB : Double F

/-- The loop over the components of two vectors of one length. -/
def sums (s : Sums F) : List F → List F → Sums F
  | x :: a, y :: b =>
    sums { dot := add s.dot (mul (widen x) (widen y))
           normA := add s.normA (mul (widen x) (widen x))
           normB := add s.normB (mul (widen y) (widen y)) } a b
  | _, _ => s

def cosineSimilarity (a b : List F) : F :=
  if a = [] ∨ b = [] ∨ a.length ≠ b.length then 0
  else
    let s := sums { dot := ofInt 0, normA := ofInt 0, normB := ofInt 0 } a b
    if leDouble s.normA (ofInt 0) ∨ leDouble s.normB (ofInt 0) then 0
    else
      let similarity := div s.dot (mul (sqrt s.normA) (sqrt s.normB))
      narrow (maxDouble (ofInt (-1)) (minDouble (ofInt 1) similarity))

def Sums.swap (s : Sums F) : Sums F := { dot := s.dot, normA := s.normB, normB := s.normA }

theorem sums_swap (s : Sums F) (a b : List F) : sums s.swap b a = (sums s a b).swap := by
  induction a generalizing s b with
  | nil => cases b <;> rfl
  | cons x a ih =>
    cases b with
    | nil => rfl
    | cons y b =>
      simp only [sums]
      rw [← ih]
      simp [Sums.swap, Arithmetic.mul_comm]

theorem cosineSimilarity_comm (a b : List F) : cosineSimilarity a b = cosineSimilarity b a := by
  have hswap := sums_swap ({ dot := ofInt 0, normA := ofInt 0, normB := ofInt 0 } : Sums F) a b
  simp only [Sums.swap] at hswap
  simp only [cosineSimilarity, hswap]
  have hempty : (a = [] ∨ b = [] ∨ a.length ≠ b.length) ↔
      (b = [] ∨ a = [] ∨ b.length ≠ a.length) := by
    rw [or_left_comm, ne_comm]
  rw [if_congr hempty rfl (if_congr or_comm rfl _)]
  rw [Arithmetic.mul_comm]

/-- Vectors with whole components whose norms are whole, where nothing is rounded. -/
instance : Arithmetic ℤ where
  zero := 0
  Double := ℤ
  le x y := decide (x ≤ y)
  widen := id
  narrow := id
  ofInt := id
  add := (· + ·)
  mul := (· * ·)
  div := (· / ·)
  sqrt x := (((List.range (x.toNat + 1)).filter fun n => n * n ≤ x.toNat).getLast?.getD 0 : ℕ)
  leDouble x y := decide (x ≤ y)
  ltDouble x y := decide (x < y)
  mul_comm := Int.mul_comm

/-- Vectors of fractions whose norms are fractions, where nothing is rounded. -/
instance : Arithmetic ℚ where
  zero := 0
  Double := ℚ
  le x y := decide (x ≤ y)
  widen := id
  narrow := id
  ofInt n := n
  add := (· + ·)
  mul := (· * ·)
  div := (· / ·)
  sqrt x :=
    let root (m : ℕ) : ℕ := ((List.range (m + 1)).filter fun n => n * n ≤ m).getLast?.getD 0
    mkRat (root x.num.toNat) (root x.den)
  leDouble x y := decide (x ≤ y)
  ltDouble x y := decide (x < y)
  mul_comm := Rat.mul_comm

example : cosineSimilarity [3, 4] [3, 4] = (1 : ℤ) ∧ cosineSimilarity [1, 0] [0, 1] = (0 : ℤ) := by
  decide

end DistributedLock.Table
