import Mathlib.Analysis.InnerProductSpace.PiL2
import Mathlib.Geometry.Euclidean.Angle.Unoriented.Basic

/-! Lists of real numbers as vectors of a Euclidean space: the sums of products that a
loop over two lists takes are inner products. -/

namespace DistributedLock.Library

/-- The first `n` components of a list, zero where it has none. -/
noncomputable def vec (n : ℕ) (a : List ℝ) : EuclideanSpace ℝ (Fin n) :=
  WithLp.toLp 2 fun i => a.getD i 0

theorem inner_vec_sum (n : ℕ) (a b : List ℝ) :
    inner ℝ (vec n a) (vec n b) = ∑ i : Fin n, a.getD i 0 * b.getD i 0 := by
  rw [PiLp.inner_apply]
  refine Finset.sum_congr rfl fun i _ => ?_
  rw [real_inner_eq_re_inner]
  simp [vec, mul_comm]

theorem inner_vec_cons (n : ℕ) (x y : ℝ) (a b : List ℝ) :
    inner ℝ (vec (n + 1) (x :: a)) (vec (n + 1) (y :: b)) = x * y + inner ℝ (vec n a) (vec n b) := by
  rw [inner_vec_sum, inner_vec_sum, Fin.sum_univ_succ]
  rfl

theorem vec_map_mul (n : ℕ) (r : ℝ) (a : List ℝ) : vec n (a.map (r * ·)) = r • vec n a := by
  ext i
  simp only [vec, PiLp.smul_apply, smul_eq_mul, List.getD_eq_getElem?_getD, List.getElem?_map]
  cases a[(i : ℕ)]? with
  | none => simp
  | some x => rfl

/-- A list is the zero vector when all its components are zero. -/
theorem vec_eq_zero {a : List ℝ} : vec a.length a = 0 ↔ ∀ x ∈ a, x = 0 := by
  constructor
  · intro h x hx
    obtain ⟨i, hi, rfl⟩ := List.mem_iff_getElem.mp hx
    have hcoord := congrArg (fun v : EuclideanSpace ℝ (Fin a.length) => v ⟨i, hi⟩) h
    simpa [vec, hi] using hcoord
  · intro h
    ext i
    simpa [vec] using h _ (List.getElem_mem i.isLt)

end DistributedLock.Library
