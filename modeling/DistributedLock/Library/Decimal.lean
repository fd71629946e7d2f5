import Mathlib.Algebra.Order.Floor.Ring
import Mathlib.Data.Int.Log
import Mathlib.Data.List.DropRight
import Mathlib.Data.List.TakeWhile
import Mathlib.Data.Rat.Floor
import Mathlib.Tactic.IntervalCases
import Mathlib.Tactic.Linarith
import Mathlib.Tactic.Positivity
import Mathlib.Tactic.Ring

/-! Numbers as text: the number literals of JSON as rational numbers, and the writing of
`%g`, which keeps a given number of significant digits. What `%g` writes is such a literal,
and its value is off by half a unit of the last digit at most. -/

namespace DistributedLock.Library.Decimal

/-! ### Reading -/

/-- The number that a text of digits stands for. -/
def natural (text : List Char) : Option ℕ :=
  if text ≠ [] ∧ text.all Char.isDigit then some (Nat.ofDigitChars 10 text 0) else none

/-- The digits behind a decimal point, if there is one, and the text behind them. -/
def fraction : List Char → Option (List Char × List Char)
  | '.' :: text =>
    if text.takeWhile Char.isDigit = [] then none
    else some (text.takeWhile Char.isDigit, text.dropWhile Char.isDigit)
  | text => some ([], text)

/-- The power of ten at the end of a literal, if it is given. -/
def exponent : List Char → Option ℤ
  | [] => some 0
  | c :: text =>
    if c = 'e' ∨ c = 'E' then
      match text with
      | '-' :: digits => (natural digits).map fun n : ℕ => -(n : ℤ)
      | '+' :: digits => (natural digits).map fun n : ℕ => (n : ℤ)
      | digits => (natural digits).map fun n : ℕ => (n : ℤ)
    else none

def unsigned (text : List Char) : Option ℚ :=
  let whole := text.takeWhile Char.isDigit
  if whole = [] ∨ 1 < whole.length ∧ whole.head? = some '0' then none
  else
    (fraction (text.dropWhile Char.isDigit)).bind fun r =>
      (exponent r.2).map fun e : ℤ =>
        (Nat.ofDigitChars 10 (whole ++ r.1) 0 : ℚ) * 10 ^ (e - (r.1.length : ℤ))

/-- The value of a number literal. -/
def number : List Char → Option ℚ
  | '-' :: text => (unsigned text).map fun q => -q
  | text => unsigned text

example : number "-12.50e-1".toList = some (-5 / 4) := by decide +kernel

example : number "012".toList = none := by decide

/-! ### Writing -/

/-- The nearest integer, and of two nearest ones the even one. -/
def roundHalfEven (q : ℚ) : ℤ :=
  if q - ⌊q⌋ < 1 / 2 ∨ q - ⌊q⌋ = 1 / 2 ∧ Even ⌊q⌋ then ⌊q⌋ else ⌊q⌋ + 1

/-- A number moved so that `p` of its digits stand in front of the point. -/
def scaled (p : ℕ) (q : ℚ) : ℚ := q * 10 ^ ((p : ℤ) - 1 - Int.log 10 q)

/-- The first `p` digits of a positive number, rounded, and the power of ten that the
first of them stands for. -/
def significant (p : ℕ) (q : ℚ) : ℕ × ℤ :=
  let n := (roundHalfEven (scaled p q)).toNat
  if n < 10 ^ p then (n, Int.log 10 q) else (10 ^ (p - 1), Int.log 10 q + 1)

def dropZeros (digits : List Char) : List Char := digits.rdropWhile (· = '0')

/-- The digits behind the decimal point, which is left out with them. -/
def point (digits : List Char) : List Char :=
  if dropZeros digits = [] then [] else '.' :: dropZeros digits

/-- The power of ten, with two digits at least. -/
def power (x : ℤ) : List Char :=
  'e' :: (if x < 0 then '-' else '+') ::
    (if x.natAbs < 10 then '0' :: Nat.toDigits 10 x.natAbs else Nat.toDigits 10 x.natAbs)

/-- A positive number as `%.pg` writes it. -/
def general (p : ℕ) (q : ℚ) : List Char :=
  let x := (significant p q).2
  let digits := Nat.toDigits 10 (significant p q).1
  if x < -4 ∨ p ≤ x then digits.take 1 ++ point (digits.drop 1) ++ power x
  else if x < 0 then '0' :: point (List.replicate (-x - 1).toNat '0' ++ digits)
  else digits.take (x + 1).toNat ++ point (digits.drop (x + 1).toNat)

-- A tie goes to the even digit.
example : general 8 (8388609 / 4) = "2097152.2".toList := by decide +kernel

/-! ### What is written is read back -/

/-- Characters of one kind up to the first one of another. -/
theorem span_append {p : Char → Bool} {first text : List Char} (hfirst : ∀ c ∈ first, p c)
    (htext : ∀ c ∈ text.head?, ¬ p c) :
    (first ++ text).takeWhile p = first ∧ (first ++ text).dropWhile p = text := by
  have hstop : text.takeWhile p = [] ∧ text.dropWhile p = text := by
    cases text with
    | nil => exact ⟨rfl, rfl⟩
    | cons c text =>
      have hc := htext c rfl
      exact ⟨List.takeWhile_cons_of_neg hc, List.dropWhile_cons_of_neg hc⟩
  rw [List.takeWhile_append_of_pos hfirst, List.dropWhile_append_of_pos hfirst, hstop.1, hstop.2,
    List.append_nil]
  exact ⟨rfl, rfl⟩

theorem exists_dropZeros (digits : List Char) :
    ∃ k, digits = dropZeros digits ++ List.replicate k '0' := by
  have hzero : ∀ c ∈ digits.rtakeWhile (· = '0'), c = '0' := fun c hc => by
    simpa using List.mem_rtakeWhile_imp hc
  refine ⟨(digits.rtakeWhile (· = '0')).length, ?_⟩
  rw [← List.eq_replicate_of_mem hzero, dropZeros, List.rdropWhile_append_rtakeWhile]

theorem dropZeros_subset (digits : List Char) : dropZeros digits ⊆ digits :=
  (List.rdropWhile_prefix _ _).subset

/-- Zeros at the end of the digits behind the point add nothing. -/
theorem ofDigitChars_dropZeros (whole digits : List Char) :
    (Nat.ofDigitChars 10 (whole ++ dropZeros digits) 0 : ℚ) *
        (10 : ℚ) ^ (-((dropZeros digits).length : ℤ)) =
      Nat.ofDigitChars 10 (whole ++ digits) 0 * (10 : ℚ) ^ (-(digits.length : ℤ)) := by
  obtain ⟨k, hk⟩ := exists_dropZeros digits
  have hlength : (digits.length : ℤ) = (dropZeros digits).length + k := by
    have := congrArg List.length hk
    rw [List.length_append, List.length_replicate] at this
    exact_mod_cast this
  have hvalue : Nat.ofDigitChars 10 (whole ++ digits) 0 =
      10 ^ k * Nat.ofDigitChars 10 (whole ++ dropZeros digits) 0 := by
    conv_lhs => rw [hk, ← List.append_assoc, Nat.ofDigitChars_append,
      Nat.ofDigitChars_replicate_zero]
  rw [hvalue, hlength, neg_add, zpow_add₀ (by norm_num)]
  push_cast
  rw [zpow_neg _ (k : ℤ), zpow_natCast]
  field_simp

theorem fraction_point {digits text : List Char} (hdigits : ∀ c ∈ digits, c.isDigit)
    (htext : ∀ c ∈ text.head?, ¬ c.isDigit ∧ c ≠ '.') :
    fraction (point digits ++ text) = some (dropZeros digits, text) := by
  by_cases hnil : dropZeros digits = []
  · rw [point, if_pos hnil, hnil, List.nil_append]
    cases text with
    | nil => rfl
    | cons c text =>
      unfold fraction
      split
      · rename_i heq
        exact absurd (List.cons.inj heq).1 (htext c rfl).2
      · rfl
  · have hspan := span_append (fun c hc => hdigits c (dropZeros_subset digits hc))
      fun c hc => (htext c hc).1
    rw [point, if_neg hnil, List.cons_append, fraction, hspan.1, hspan.2, if_neg hnil]

/-- Digits, a decimal point with digits, and a power of ten: what they stand for. -/
theorem unsigned_text {whole digits text : List Char} {e : ℤ} (hne : whole ≠ [])
    (hwhole : ∀ c ∈ whole, c.isDigit) (hlead : 1 < whole.length → whole.head? ≠ some '0')
    (hdigits : ∀ c ∈ digits, c.isDigit) (htext : ∀ c ∈ text.head?, ¬ c.isDigit ∧ c ≠ '.')
    (he : exponent text = some e) :
    unsigned (whole ++ (point digits ++ text)) =
      some (Nat.ofDigitChars 10 (whole ++ digits) 0 * (10 : ℚ) ^ (e - (digits.length : ℤ))) := by
  have hstop : ∀ c ∈ (point digits ++ text).head?, ¬ c.isDigit := by
    intro c hc
    unfold point at hc
    split at hc
    · exact (htext c hc).1
    · cases hc
      decide
  have hspan := span_append hwhole hstop
  have hleading : ¬ (whole = [] ∨ 1 < whole.length ∧ whole.head? = some '0') := by
    rintro (h | ⟨h, hzero⟩)
    · exact hne h
    · exact hlead h hzero
  unfold unsigned
  simp only [hspan.1, hspan.2, if_neg hleading, fraction_point hdigits htext, Option.bind_some, he,
    Option.map_some]
  rw [sub_eq_add_neg, sub_eq_add_neg, zpow_add₀ (by norm_num), zpow_add₀ (by norm_num), mul_left_comm,
    ofDigitChars_dropZeros, mul_left_comm]

/-! ### Rounding -/

theorem floor_le_roundHalfEven (q : ℚ) : ⌊q⌋ ≤ roundHalfEven q ∧ roundHalfEven q ≤ ⌊q⌋ + 1 := by
  unfold roundHalfEven
  split <;> omega

theorem abs_roundHalfEven_sub_le (q : ℚ) : |(roundHalfEven q : ℚ) - q| ≤ 1 / 2 := by
  have hfloor := Int.floor_le q
  have hlt := Int.lt_floor_add_one q
  rw [abs_le]
  unfold roundHalfEven
  split
  · rename_i h
    have hle : q - ⌊q⌋ ≤ 1 / 2 := h.elim le_of_lt fun h => h.1.le
    constructor <;> linarith
  · rename_i h
    have hle : 1 / 2 ≤ q - ⌊q⌋ := not_lt.mp fun hlt => h (Or.inl hlt)
    push_cast
    constructor <;> linarith

theorem scaled_bounds {p : ℕ} (hp : 0 < p) {q : ℚ} (hq : 0 < q) :
    (10 : ℚ) ^ (p - 1) ≤ scaled p q ∧ scaled p q < (10 : ℚ) ^ p := by
  have hlow : (10 : ℚ) ^ Int.log 10 q ≤ q := by
    exact_mod_cast Int.zpow_log_le_self (b := 10) (by norm_num) hq
  have hhigh : q < (10 : ℚ) ^ (Int.log 10 q + 1) := by
    exact_mod_cast Int.lt_zpow_succ_log_self (b := 10) (by norm_num) q
  have hscale : (0 : ℚ) < 10 ^ ((p : ℤ) - 1 - Int.log 10 q) := zpow_pos (by norm_num) _
  have hsplit : ∀ x : ℤ, (10 : ℚ) ^ x * 10 ^ ((p : ℤ) - 1 - Int.log 10 q) =
      10 ^ (x + ((p : ℤ) - 1 - Int.log 10 q)) := fun x => (zpow_add₀ (by norm_num) _ _).symm
  constructor
  · calc (10 : ℚ) ^ (p - 1) = 10 ^ Int.log 10 q * 10 ^ ((p : ℤ) - 1 - Int.log 10 q) := by
          rw [hsplit, ← zpow_natCast]
          congr 1
          omega
      _ ≤ scaled p q := mul_le_mul_of_nonneg_right hlow hscale.le
  · calc scaled p q < 10 ^ (Int.log 10 q + 1) * 10 ^ ((p : ℤ) - 1 - Int.log 10 q) :=
          mul_lt_mul_of_pos_right hhigh hscale
      _ = (10 : ℚ) ^ p := by
          rw [hsplit, ← zpow_natCast]
          congr 1
          omega

theorem roundHalfEven_scaled {p : ℕ} (hp : 0 < p) {q : ℚ} (hq : 0 < q) :
    (10 : ℤ) ^ (p - 1) ≤ roundHalfEven (scaled p q) ∧
      roundHalfEven (scaled p q) ≤ (10 : ℤ) ^ p := by
  obtain ⟨hlow, hhigh⟩ := scaled_bounds hp hq
  obtain ⟨hfloor, hceil⟩ := floor_le_roundHalfEven (scaled p q)
  constructor
  · refine le_trans (Int.le_floor.mpr ?_) hfloor
    exact_mod_cast hlow
  · have h : ⌊scaled p q⌋ < (10 : ℤ) ^ p := by
      rw [Int.floor_lt]
      exact_mod_cast hhigh
    omega

theorem toNat_roundHalfEven_scaled {p : ℕ} (hp : 0 < p) {q : ℚ} (hq : 0 < q) :
    ((roundHalfEven (scaled p q)).toNat : ℤ) = roundHalfEven (scaled p q) :=
  Int.toNat_of_nonneg ((pow_nonneg (by norm_num) _).trans (roundHalfEven_scaled hp hq).1)

theorem significant_bounds {p : ℕ} (hp : 0 < p) {q : ℚ} (hq : 0 < q) :
    10 ^ (p - 1) ≤ (significant p q).1 ∧ (significant p q).1 < 10 ^ p := by
  have hcast := toNat_roundHalfEven_scaled hp hq
  have hlow := (roundHalfEven_scaled hp hq).1
  rw [← hcast] at hlow
  unfold significant
  dsimp only
  split
  · rename_i h
    exact ⟨by exact_mod_cast hlow, h⟩
  · exact ⟨le_rfl, Nat.pow_lt_pow_right (by norm_num) (by omega)⟩

/-- The value of the digits, whether or not the rounding has carried over. -/
theorem significant_value {p : ℕ} (hp : 0 < p) {q : ℚ} (hq : 0 < q) :
    ((significant p q).1 : ℚ) * 10 ^ ((significant p q).2 - ((p : ℤ) - 1)) =
      roundHalfEven (scaled p q) * 10 ^ (Int.log 10 q - ((p : ℤ) - 1)) := by
  have hcast := toNat_roundHalfEven_scaled hp hq
  have hhigh := (roundHalfEven_scaled hp hq).2
  unfold significant
  dsimp only
  split
  · rw [← hcast]
    push_cast
    rfl
  · rename_i h
    have hcarry : roundHalfEven (scaled p q) = (10 : ℤ) ^ p := by
      refine le_antisymm hhigh ?_
      rw [← hcast]
      exact_mod_cast not_lt.mp h
    rw [hcarry]
    push_cast
    rw [← zpow_natCast, ← zpow_natCast, ← zpow_add₀ (by norm_num), ← zpow_add₀ (by norm_num)]
    congr 1
    omega

/-- `p` significant digits are off by half a unit of the last one at most. -/
theorem abs_significant_sub_le {p : ℕ} (hp : 0 < p) {q : ℚ} (hq : 0 < q) :
    |((significant p q).1 : ℚ) * 10 ^ ((significant p q).2 - ((p : ℤ) - 1)) - q| ≤
      10 ^ (1 - (p : ℤ)) / 2 * q := by
  have hlow : (10 : ℚ) ^ Int.log 10 q ≤ q := by
    exact_mod_cast Int.zpow_log_le_self (b := 10) (by norm_num) hq
  have hunit : (0 : ℚ) < 10 ^ (Int.log 10 q - ((p : ℤ) - 1)) := zpow_pos (by norm_num) _
  have hfactor : (0 : ℚ) ≤ 10 ^ (1 - (p : ℤ)) / 2 :=
    div_nonneg (zpow_nonneg (by norm_num) _) (by norm_num)
  have hback : q = scaled p q * 10 ^ (Int.log 10 q - ((p : ℤ) - 1)) := by
    rw [scaled, mul_assoc, ← zpow_add₀ (by norm_num)]
    simp
  rw [significant_value hp hq]
  calc |(roundHalfEven (scaled p q) : ℚ) * 10 ^ (Int.log 10 q - ((p : ℤ) - 1)) - q|
      = |(roundHalfEven (scaled p q) : ℚ) - scaled p q| *
          10 ^ (Int.log 10 q - ((p : ℤ) - 1)) := by
        conv_lhs => rw [congrArg (HSub.hSub _) hback, ← sub_mul, abs_mul, abs_of_pos hunit]
    _ ≤ 1 / 2 * 10 ^ (Int.log 10 q - ((p : ℤ) - 1)) :=
        mul_le_mul_of_nonneg_right (abs_roundHalfEven_sub_le _) hunit.le
    _ = 10 ^ (1 - (p : ℤ)) / 2 * 10 ^ Int.log 10 q := by
        rw [show Int.log 10 q - ((p : ℤ) - 1) = (1 - (p : ℤ)) + Int.log 10 q by ring,
          zpow_add₀ (by norm_num)]
        ring
    _ ≤ 10 ^ (1 - (p : ℤ)) / 2 * q := mul_le_mul_of_nonneg_left hlow hfactor

/-! ### Written numbers are literals -/

theorem isDigit_toDigits {n : ℕ} : ∀ c ∈ Nat.toDigits 10 n, c.isDigit :=
  fun _ => Nat.isDigit_of_mem_toDigits (by decide) (by decide)

theorem head_toDigits {n : ℕ} (hn : 0 < n) : (Nat.toDigits 10 n).head? ≠ some '0' := by
  induction n using Nat.strong_induction_on with
  | _ n ih =>
    by_cases hlt : n < 10
    · rw [Nat.toDigits_of_lt_base hlt]
      interval_cases n <;> decide
    · rw [Nat.toDigits_of_base_le (by decide) (by omega),
        List.head?_append_of_ne_nil _ Nat.toDigits_ne_nil]
      exact ih (n / 10) (by omega) (by omega)

theorem length_toDigits {p n : ℕ} (hp : 0 < p) (hlow : 10 ^ (p - 1) ≤ n) (hhigh : n < 10 ^ p) :
    (Nat.toDigits 10 n).length = p := by
  refine le_antisymm ((Nat.length_toDigits_le_iff (by decide) hp).mpr hhigh) ?_
  by_contra hlt
  rcases Nat.eq_zero_or_pos (p - 1) with hzero | hpos
  · have := Nat.length_toDigits_pos (b := 10) (n := n)
    omega
  · have := (Nat.length_toDigits_le_iff (b := 10) (n := n) (by decide) hpos).mp (by omega)
    omega

theorem natural_toDigits (n : ℕ) : natural (Nat.toDigits 10 n) = some n := by
  rw [natural, if_pos ⟨Nat.toDigits_ne_nil, List.all_eq_true.mpr isDigit_toDigits⟩,
    Nat.ofDigitChars_ten_toDigits]

theorem natural_zero_toDigits (n : ℕ) : natural ('0' :: Nat.toDigits 10 n) = some n := by
  have hall : ('0' :: Nat.toDigits 10 n).all Char.isDigit := by
    rw [List.all_cons, Bool.and_eq_true]
    exact ⟨by decide, List.all_eq_true.mpr isDigit_toDigits⟩
  rw [natural, if_pos ⟨List.cons_ne_nil _ _, hall⟩, Nat.ofDigitChars_cons]
  exact congrArg some Nat.ofDigitChars_ten_toDigits

theorem exponent_power (x : ℤ) : exponent (power x) = some x := by
  have hdigits : natural (if x.natAbs < 10 then '0' :: Nat.toDigits 10 x.natAbs
      else Nat.toDigits 10 x.natAbs) = some x.natAbs := by
    split
    · exact natural_zero_toDigits _
    · exact natural_toDigits _
  unfold power exponent
  simp only [true_or, if_true]
  by_cases hx : x < 0
  · simp only [if_pos hx, hdigits, Option.map_some]
    congr 1
    omega
  · simp only [if_neg hx, hdigits, Option.map_some]
    congr 1
    omega

theorem number_of_digit {text : List Char} (h : ∃ c ∈ text.head?, c.isDigit) :
    number text = unsigned text := by
  unfold number
  split
  · obtain ⟨c, hc, hdigit⟩ := h
    cases hc
    exact absurd hdigit (by decide)
  · rfl

theorem number_text {whole digits text : List Char} {e : ℤ} (hne : whole ≠ [])
    (hwhole : ∀ c ∈ whole, c.isDigit) (hlead : 1 < whole.length → whole.head? ≠ some '0')
    (hdigits : ∀ c ∈ digits, c.isDigit) (htext : ∀ c ∈ text.head?, ¬ c.isDigit ∧ c ≠ '.')
    (he : exponent text = some e) :
    number (whole ++ (point digits ++ text)) =
      some (Nat.ofDigitChars 10 (whole ++ digits) 0 * (10 : ℚ) ^ (e - (digits.length : ℤ))) := by
  rw [number_of_digit, unsigned_text hne hwhole hlead hdigits htext he]
  obtain ⟨c, whole, rfl⟩ := List.exists_cons_of_ne_nil hne
  exact ⟨c, rfl, hwhole c List.mem_cons_self⟩

/-- The digits of a positive number, with the point behind the first `k` of them. -/
theorem number_split {n k : ℕ} (hn : 0 < n) (hk : 0 < k) {text : List Char} {e : ℤ}
    (htext : ∀ c ∈ text.head?, ¬ c.isDigit ∧ c ≠ '.') (he : exponent text = some e) :
    number ((Nat.toDigits 10 n).take k ++ (point ((Nat.toDigits 10 n).drop k) ++ text)) =
      some (n * (10 : ℚ) ^ (e - (((Nat.toDigits 10 n).length - k : ℕ) : ℤ))) := by
  have hne : (Nat.toDigits 10 n).take k ≠ [] := by
    rw [Ne, List.take_eq_nil_iff, not_or]
    exact ⟨hk.ne', Nat.toDigits_ne_nil⟩
  have hhead : ((Nat.toDigits 10 n).take k).head? ≠ some '0' := by
    rw [List.head?_take, if_neg hk.ne']
    exact head_toDigits hn
  rw [number_text hne (fun c hc => isDigit_toDigits c (List.mem_of_mem_take hc)) (fun _ => hhead)
    (fun c hc => isDigit_toDigits c (List.mem_of_mem_drop hc)) htext he,
    List.take_append_drop, Nat.ofDigitChars_ten_toDigits, List.length_drop]

/-- The digits of a number behind the point, with `k` zeros in front of them. -/
theorem number_fraction (n k : ℕ) :
    number ('0' :: point (List.replicate k '0' ++ Nat.toDigits 10 n)) =
      some (n * (10 : ℚ) ^ (-((k + (Nat.toDigits 10 n).length : ℕ) : ℤ))) := by
  have hdigits : ∀ c ∈ List.replicate k '0' ++ Nat.toDigits 10 n, c.isDigit := by
    intro c hc
    rcases List.mem_append.mp hc with hc | hc
    · rw [List.eq_of_mem_replicate hc]
      decide
    · exact isDigit_toDigits c hc
  have hvalue :
      Nat.ofDigitChars 10 (['0'] ++ (List.replicate k '0' ++ Nat.toDigits 10 n)) 0 = n := by
    rw [← List.append_assoc, List.singleton_append, ← List.replicate_succ, Nat.ofDigitChars_append,
      Nat.ofDigitChars_replicate_zero, Nat.mul_zero, Nat.ofDigitChars_ten_toDigits]
  have hzero : ∀ c ∈ ['0'], c.isDigit := List.forall_mem_singleton.mpr (by decide)
  have hend : exponent [] = some 0 := rfl
  have h := number_text (List.cons_ne_nil _ _) hzero (by decide) hdigits (by simp) hend
  rw [List.append_nil, List.singleton_append, hvalue, List.length_append, List.length_replicate,
    zero_sub] at h
  exact h

/-- What `%.pg` writes is a number literal; its value is the one of the digits kept. -/
theorem number_general {p : ℕ} (hp : 0 < p) {q : ℚ} (hq : 0 < q) :
    number (general p q) =
      some ((significant p q).1 * (10 : ℚ) ^ ((significant p q).2 - ((p : ℤ) - 1))) := by
  obtain ⟨hlow, hhigh⟩ := significant_bounds hp hq
  unfold general
  dsimp only
  generalize (significant p q).1 = n at hlow hhigh ⊢
  generalize (significant p q).2 = x
  have hlength := length_toDigits hp hlow hhigh
  have hn : 0 < n := lt_of_lt_of_le (Nat.pow_pos (by decide)) hlow
  split
  · have hpower : ∀ c ∈ (power x).head?, ¬ c.isDigit ∧ c ≠ '.' := by
      intro c hc
      cases hc
      decide
    rw [List.append_assoc, number_split hn one_pos hpower (exponent_power x), hlength]
    congr 3
    omega
  · split
    · rw [number_fraction, hlength]
      congr 3
      omega
    · have hk : 0 < (x + 1).toNat := by omega
      have hend : exponent [] = some 0 := rfl
      have h := number_split hn hk (by simp) hend
      rw [List.append_nil, hlength] at h
      rw [h]
      congr 3
      omega

/-- An integer in decimal. -/
def integer (i : ℤ) : List Char :=
  if i < 0 then '-' :: Nat.toDigits 10 i.natAbs else Nat.toDigits 10 i.natAbs

theorem unsigned_toDigits (n : ℕ) : unsigned (Nat.toDigits 10 n) = some (n : ℚ) := by
  have hlead : 1 < (Nat.toDigits 10 n).length → (Nat.toDigits 10 n).head? ≠ some '0' := by
    intro hlt
    refine head_toDigits (Nat.pos_of_ne_zero ?_)
    rintro rfl
    exact absurd hlt (by decide)
  have hnone : ∀ c ∈ ([] : List Char), c.isDigit := nofun
  have hend : exponent [] = some 0 := rfl
  have h := unsigned_text Nat.toDigits_ne_nil (isDigit_toDigits (n := n)) hlead hnone (by simp) hend
  have hpoint : point [] = [] := rfl
  rw [hpoint, List.append_nil, List.append_nil, Nat.ofDigitChars_ten_toDigits] at h
  rw [h]
  simp

theorem number_integer (i : ℤ) : number (integer i) = some (i : ℚ) := by
  unfold integer
  split
  · rename_i hi
    rw [number, unsigned_toDigits, Option.map_some, ← Int.cast_natCast, ← Int.cast_neg]
    congr 2
    omega
  · rename_i hi
    obtain ⟨c, digits, heq⟩ := List.exists_cons_of_ne_nil (Nat.toDigits_ne_nil (n := i.natAbs))
    have hdigit : ∃ c ∈ (Nat.toDigits 10 i.natAbs).head?, c.isDigit :=
      ⟨c, by rw [heq]; rfl, isDigit_toDigits c (heq ▸ List.mem_cons_self)⟩
    rw [number_of_digit hdigit, unsigned_toDigits, ← Int.cast_natCast]
    congr 2
    omega

/-- `%.pg` writes a literal whose value is within half a unit of the last digit kept. -/
theorem exists_number_general {p : ℕ} (hp : 0 < p) {q : ℚ} (hq : 0 < q) :
    ∃ r, number (general p q) = some r ∧ |r - q| ≤ 10 ^ (1 - (p : ℤ)) / 2 * q :=
  ⟨_, number_general hp hq, abs_significant_sub_le hp hq⟩

theorem number_neg {text : List Char} {q : ℚ} (h : number text = some q)
    (hdigit : ∃ c ∈ text.head?, c.isDigit) : number ('-' :: text) = some (-q) := by
  rw [number_of_digit hdigit] at h
  rw [number, h, Option.map_some]

theorem exists_digit_general (p : ℕ) (q : ℚ) : ∃ c ∈ (general p q).head?, c.isDigit := by
  obtain ⟨c, digits, heq⟩ := List.exists_cons_of_ne_nil (Nat.toDigits_ne_nil (b := 10)
    (n := (significant p q).1))
  have hdigit : c.isDigit := isDigit_toDigits c (heq ▸ List.mem_cons_self)
  unfold general
  dsimp only
  rw [heq]
  split
  · exact ⟨c, rfl, hdigit⟩
  · split
    · exact ⟨'0', rfl, by decide⟩
    · obtain ⟨k, hk⟩ := Nat.exists_eq_succ_of_ne_zero
        (n := ((significant p q).2 + 1).toNat) (by omega)
      rw [hk, List.take_succ_cons]
      exact ⟨c, rfl, hdigit⟩

/-! ### The characters of a literal -/

def isNumeral (c : Char) : Bool :=
  c.isDigit || c = '-' || c = '+' || c = '.' || c = 'e' || c = 'E'

theorem isNumeral_of_isDigit {c : Char} (h : c.isDigit) : isNumeral c := by
  simp [isNumeral, h]

theorem isNumeral_natural {text : List Char} (h : (natural text).isSome) :
    ∀ c ∈ text, isNumeral c := by
  unfold natural at h
  split at h
  · rename_i hdigits
    exact fun c hc => isNumeral_of_isDigit (List.all_eq_true.mp hdigits.2 c hc)
  · cases h

theorem isNumeral_exponent {text : List Char} (h : (exponent text).isSome) :
    ∀ c ∈ text, isNumeral c := by
  unfold exponent at h
  split at h
  · simp
  · rename_i c text
    split at h
    · rename_i hc
      have hfirst : isNumeral c := by rcases hc with rfl | rfl <;> decide
      rw [List.forall_mem_cons]
      refine ⟨hfirst, ?_⟩
      split at h <;> rw [Option.isSome_map] at h
      · exact List.forall_mem_cons.mpr ⟨by decide, isNumeral_natural h⟩
      · exact List.forall_mem_cons.mpr ⟨by decide, isNumeral_natural h⟩
      · exact isNumeral_natural h
    · cases h

theorem isNumeral_fraction {text digits rest : List Char}
    (h : fraction text = some (digits, rest)) (hrest : ∀ c ∈ rest, isNumeral c) :
    ∀ c ∈ text, isNumeral c := by
  unfold fraction at h
  split at h
  · rename_i text
    split at h
    · cases h
    · obtain ⟨-, rfl⟩ := Prod.mk.inj (Option.some.inj h)
      rw [List.forall_mem_cons, ← List.takeWhile_append_dropWhile (p := Char.isDigit) (l := text),
        List.forall_mem_append]
      exact ⟨by decide, fun c hc => isNumeral_of_isDigit (List.mem_takeWhile_imp hc), hrest⟩
  · obtain ⟨-, rfl⟩ := Prod.mk.inj (Option.some.inj h)
    exact hrest

theorem isNumeral_unsigned {text : List Char} (h : (unsigned text).isSome) :
    ∀ c ∈ text, isNumeral c := by
  unfold unsigned at h
  dsimp only at h
  split at h
  · cases h
  · rw [← List.takeWhile_append_dropWhile (p := Char.isDigit) (l := text), List.forall_mem_append]
    refine ⟨fun c hc => isNumeral_of_isDigit (List.mem_takeWhile_imp hc), ?_⟩
    cases hfraction : fraction (text.dropWhile Char.isDigit) with
    | none => simp [hfraction] at h
    | some r =>
      rw [hfraction, Option.bind_some, Option.isSome_map] at h
      exact isNumeral_fraction hfraction (isNumeral_exponent h)

theorem isNumeral_number {text : List Char} (h : (number text).isSome) :
    ∀ c ∈ text, isNumeral c := by
  unfold number at h
  split at h
  · rw [Option.isSome_map] at h
    exact List.forall_mem_cons.mpr ⟨by decide, isNumeral_unsigned h⟩
  · exact isNumeral_unsigned h

end DistributedLock.Library.Decimal
