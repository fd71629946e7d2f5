import DistributedLock.Library.Vectors
import DistributedLock.Table.Operations

/-! `cosine_similarity` over the real numbers, where nothing is rounded. On two vectors of
one length it is the cosine of the angle between them, with the angle to the zero vector
taken as a right one: the early returns and the clamp make no difference. -/

namespace DistributedLock.Table

open Library InnerProductGeometry

section

variable {F : Type*} [Arithmetic F]

open Arithmetic

def clamp (x : Double F) : Double F := maxDouble (ofInt (-1)) (minDouble (ofInt 1) x)

/-- The quotient that is clamped, unless there is an early return. -/
def unclamped (a b : List F) : Option (Double F) :=
  if a = [] ∨ b = [] ∨ a.length ≠ b.length then none
  else
    let s := sums { dot := ofInt 0, normA := ofInt 0, normB := ofInt 0 } a b
    if leDouble s.normA (ofInt 0) ∨ leDouble s.normB (ofInt 0) then none
    else some (div s.dot (mul (sqrt s.normA) (sqrt s.normB)))

theorem cosineSimilarity_eq (a b : List F) :
    cosineSimilarity a b = (unclamped a b).elim 0 fun x => narrow (clamp x) := by
  unfold cosineSimilarity unclamped
  dsimp only
  split_ifs <;> rfl

end

/-- Exact real arithmetic. -/
noncomputable instance : Arithmetic ℝ where
  zero := 0
  Double := ℝ
  le x y := decide (x ≤ y)
  widen := id
  narrow := id
  ofInt n := n
  add := (· + ·)
  mul := (· * ·)
  div := (· / ·)
  sqrt := Real.sqrt
  leDouble x y := decide (x ≤ y)
  ltDouble x y := decide (x < y)
  mul_comm x y := mul_comm (x : ℝ) y

/-- The loop takes the inner products of the vectors. -/
theorem sums_real (s : Sums ℝ) {n : ℕ} {a b : List ℝ} (ha : a.length = n) (hb : b.length = n) :
    sums s a b =
      { dot := Arithmetic.add s.dot (inner ℝ (vec n a) (vec n b) : ℝ)
        normA := Arithmetic.add s.normA (inner ℝ (vec n a) (vec n a) : ℝ)
        normB := Arithmetic.add s.normB (inner ℝ (vec n b) (vec n b) : ℝ) } := by
  have hzero : ∀ x : Arithmetic.Double ℝ, Arithmetic.add x (0 : ℝ) = x := add_zero (M := ℝ)
  have hassoc : ∀ (x : Arithmetic.Double ℝ) (y z : ℝ),
      Arithmetic.add (Arithmetic.add x y) z = Arithmetic.add x (y + z : ℝ) := add_assoc (G := ℝ)
  induction n generalizing s a b with
  | zero =>
    obtain rfl := List.length_eq_zero_iff.mp ha
    obtain rfl := List.length_eq_zero_iff.mp hb
    simp only [sums, inner_vec_sum, Finset.univ_eq_empty, Finset.sum_empty, hzero]
  | succ n ih =>
    cases a with
    | nil => cases ha
    | cons x a =>
      cases b with
      | nil => cases hb
      | cons y b =>
        rw [sums, ih _ (Nat.succ.inj ha) (Nat.succ.inj hb)]
        simp only [inner_vec_cons, ← hassoc]
        rfl

/-- The early returns are those for the zero vector. -/
theorem unclamped_real {n : ℕ} {a b : List ℝ} (ha : a.length = n) (hb : b.length = n) :
    unclamped a b = if vec n a = 0 ∨ vec n b = 0 then none
      else some (Real.cos (angle (vec n a) (vec n b)) : ℝ) := by
  rcases Nat.eq_zero_or_pos n with rfl | hn
  · rw [unclamped, if_pos (Or.inl (List.length_eq_zero_iff.mp ha)),
      if_pos (Or.inl (Subsingleton.elim _ _))]
  have hne : ¬ (a = [] ∨ b = [] ∨ a.length ≠ b.length) := by
    rintro (rfl | rfl | hlen)
    · exact hn.ne ha
    · exact hn.ne hb
    · exact hlen (ha.trans hb.symm)
  have hsum : ∀ x : ℝ, Arithmetic.add (F := ℝ) (Arithmetic.ofInt 0) x = x := fun x => by
    change ((0 : ℤ) : ℝ) + x = x
    rw [Int.cast_zero, zero_add]
  have hnorm : ∀ v : EuclideanSpace ℝ (Fin n),
      Arithmetic.leDouble (F := ℝ) (inner ℝ v v : ℝ) (Arithmetic.ofInt 0) = true ↔ v = 0 := by
    intro v
    change decide ((inner ℝ v v : ℝ) ≤ ((0 : ℤ) : ℝ)) = true ↔ v = 0
    rw [decide_eq_true_iff, Int.cast_zero, real_inner_self_nonpos]
  rw [unclamped, if_neg hne, sums_real _ ha hb]
  simp only [hsum, hnorm]
  refine if_congr Iff.rfl rfl (congrArg some ?_)
  rw [cos_angle, norm_eq_sqrt_real_inner, norm_eq_sqrt_real_inner]
  rfl

/-- The clamp changes nothing between -1 and 1. -/
theorem clamp_real {x : ℝ} (hlow : -1 ≤ x) (hhigh : x ≤ 1) : clamp (F := ℝ) x = x := by
  have hmin : minDouble (F := ℝ) (Arithmetic.ofInt 1) x = x := by
    change (if decide (x < ((1 : ℤ) : ℝ)) = true then x else ((1 : ℤ) : ℝ)) = x
    simp only [Int.cast_one, decide_eq_true_eq]
    split_ifs with hlt
    · rfl
    · exact le_antisymm (not_lt.mp hlt) hhigh
  rw [clamp, hmin]
  change (if decide (((-1 : ℤ) : ℝ) < x) = true then x else ((-1 : ℤ) : ℝ)) = x
  simp only [Int.cast_neg, Int.cast_one, decide_eq_true_eq]
  split_ifs with hlt
  · rfl
  · exact le_antisymm hlow (not_lt.mp hlt)

/-- `cosine_similarity` is the cosine of the angle between two vectors of one length. -/
theorem cosineSimilarity_eq_cos_angle {n : ℕ} {a b : List ℝ} (ha : a.length = n)
    (hb : b.length = n) : cosineSimilarity a b = Real.cos (angle (vec n a) (vec n b)) := by
  rw [cosineSimilarity_eq, unclamped_real ha hb]
  split_ifs with hzero
  · rcases hzero with hzero | hzero
    · rw [hzero, angle_zero_left, Real.cos_pi_div_two]
      rfl
    · rw [hzero, angle_zero_right, Real.cos_pi_div_two]
      rfl
  · exact clamp_real (Real.neg_one_le_cos _) (Real.cos_le_one _)

theorem unclamped_of_length_ne {F : Type*} [Arithmetic F] {a b : List F}
    (h : a.length ≠ b.length) : unclamped a b = none :=
  if_pos (Or.inr (Or.inr h))

theorem cosineSimilarity_of_length_ne {a b : List ℝ} (h : a.length ≠ b.length) :
    cosineSimilarity a b = 0 := by
  rw [cosineSimilarity_eq, unclamped_of_length_ne h]
  rfl

/-! ### Properties of the similarity -/

theorem clamp_of_unclamped {a b : List ℝ} {x : ℝ} (h : unclamped a b = some x) :
    clamp (F := ℝ) x = x := by
  by_cases hlen : a.length = b.length
  · rw [unclamped_real hlen rfl] at h
    split_ifs at h
    rw [← Option.some.inj h]
    exact clamp_real (Real.neg_one_le_cos _) (Real.cos_le_one _)
  · rw [unclamped_of_length_ne hlen] at h
    cases h

theorem cosineSimilarity_mem (a b : List ℝ) :
    -1 ≤ cosineSimilarity a b ∧ cosineSimilarity a b ≤ 1 := by
  by_cases hlen : a.length = b.length
  · rw [cosineSimilarity_eq_cos_angle hlen rfl]
    exact ⟨Real.neg_one_le_cos _, Real.cos_le_one _⟩
  · rw [cosineSimilarity_of_length_ne hlen]
    norm_num

theorem cosineSimilarity_map_mul {r : ℝ} (hr : 0 < r) (a b : List ℝ) :
    cosineSimilarity (a.map (r * ·)) b = cosineSimilarity a b := by
  by_cases hlen : a.length = b.length
  · have hmap : (a.map (r * ·)).length = b.length := by rwa [List.length_map]
    rw [cosineSimilarity_eq_cos_angle hmap rfl, cosineSimilarity_eq_cos_angle hlen rfl, vec_map_mul,
      angle_smul_left_of_pos _ _ hr]
  · rw [cosineSimilarity_of_length_ne hlen,
      cosineSimilarity_of_length_ne (by rwa [List.length_map])]

theorem cosineSimilarity_self {e : List ℝ} (h : ∃ x ∈ e, x ≠ 0) : cosineSimilarity e e = 1 := by
  obtain ⟨x, hx, hne⟩ := h
  have hvec : vec e.length e ≠ 0 := fun hzero => hne (vec_eq_zero.mp hzero x hx)
  rw [cosineSimilarity_eq_cos_angle rfl rfl, angle_self hvec, Real.cos_zero]

/-- The zero vector is similar to nothing, itself included. -/
theorem cosineSimilarity_zero {e : List ℝ} (h : ∀ x ∈ e, x = 0) (b : List ℝ) :
    cosineSimilarity e b = 0 := by
  by_cases hlen : e.length = b.length
  · rw [cosineSimilarity_eq_cos_angle rfl hlen.symm, vec_eq_zero.mpr h, angle_zero_left,
      Real.cos_pi_div_two]
  · exact cosineSimilarity_of_length_ne hlen

/-! ### Conflicts of equal embeddings -/

namespace LockTable

variable {t t' : LockTable ℝ} {id : String} {lock : SemanticLock ℝ} {theta : ℝ}

theorem isSome_findConflict (hfind : t.active.find id = some lock)
    (hne : ∃ x ∈ lock.centroid, x ≠ 0) (htheta : theta ≤ 1) :
    (t.findConflict lock.centroid theta).isSome := by
  by_contra hnone
  rw [Option.not_isSome_iff_eq_none, findConflict_eq_none] at hnone
  have hle := hnone id lock hfind
  rw [cosineSimilarity_self hne] at hle
  exact of_decide_eq_false hle htheta

/-- No lock conflicts with the zero vector. -/
theorem findConflict_zero (t : LockTable ℝ) {e : List ℝ} (h : ∀ x ∈ e, x = 0)
    (htheta : 0 < theta) : t.findConflict e theta = none := by
  refine findConflict_eq_none.mpr fun id lock _ => ?_
  rw [cosineSimilarity_zero h]
  exact decide_eq_false (not_le.mpr htheta)

/-- Beside a lock of the same embedding a request conflicts unless it is for the zero
vector. -/
theorem findConflict_same_iff (hfind : t.active.find id = some lock) (hpos : 0 < theta)
    (htheta : theta ≤ 1) :
    (t.findConflict lock.centroid theta).isSome ↔ ∃ x ∈ lock.centroid, x ≠ 0 := by
  refine ⟨fun hsome => ?_, fun hne => isSome_findConflict hfind hne htheta⟩
  by_contra hzero
  simp only [not_exists, not_and, not_not] at hzero
  rw [findConflict_zero t hzero hpos] at hsome
  cases hsome

end LockTable

end DistributedLock.Table
