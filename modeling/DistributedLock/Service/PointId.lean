import Mathlib.Data.UInt

/-! `make_numeric_point_id`: the number under which a write stands in Qdrant. The
machine integers are the ones of the source; an agent id is read byte by byte. -/

namespace DistributedLock.Service

/-- The loop over the bytes of the agent id. -/
def fnvHash (agentId : String) : UInt64 :=
  agentId.toUTF8.data.toList.foldl (fun hash c => (hash ^^^ c.toUInt64) * 1099511628211)
    1469598103934665603

def makeNumericPointId (agentId : String) (timestampUnixMs : Int64) : Int64 :=
  let mixed : UInt64 :=
    (timestampUnixMs.toUInt64 <<< 22) ^^^ (fnvHash agentId &&& ((1 : UInt64) <<< 22 - 1))
  (mixed &&& Int64.maxValue.toUInt64).toInt64

/-! ### The number in arithmetic -/

/-- A number below `2 ^ i` fills the low bits that a shift by `i` has left empty. -/
private theorem shiftLeft_xor_of_lt {b i : ℕ} (hb : b < 2 ^ i) (a : ℕ) :
    a <<< i ^^^ b = a * 2 ^ i + b := by
  rw [← Nat.shiftLeft_eq, Nat.shiftLeft_add_eq_or_of_lt hb]
  apply Nat.eq_of_testBit_eq
  intro j
  rw [Nat.testBit_xor, Nat.testBit_or, Nat.testBit_shiftLeft]
  by_cases hj : i ≤ j
  · rw [Nat.testBit_lt_two_pow (hb.trans_le (Nat.pow_le_pow_right (by omega) hj))]
    simp
  · simp [hj]

private theorem toNat_toUInt64_emod (t : Int64) :
    ((t.toUInt64.toNat % 2 ^ 41 : ℕ) : ℤ) = t.toInt % 2 ^ 41 := by
  have h : t.toInt = (t.toUInt64.toNat : ℤ).bmod (2 ^ 64) := by
    rw [← Int64.toNat_toBitVec, ← BitVec.toInt_eq_toNat_bmod, Int64.toInt_toBitVec]
  rw [h, Int.bmod_def]
  split <;> omega

/-- The bits of the point id as a natural number. -/
private theorem toNat_mixed (t hash : UInt64) :
    (((t <<< 22) ^^^ (hash &&& ((1 : UInt64) <<< 22 - 1))) &&& Int64.maxValue.toUInt64).toNat =
      t.toNat % 2 ^ 41 * 2 ^ 22 + hash.toNat % 2 ^ 22 := by
  have hmask : ((1 : UInt64) <<< 22 - 1).toNat = 2 ^ 22 - 1 := rfl
  have hmax : Int64.maxValue.toUInt64.toNat = 2 ^ 63 - 1 := rfl
  have hshift : (t <<< 22).toNat % 2 ^ 63 = (t.toNat % 2 ^ 41) <<< 22 := by
    rw [UInt64.toNat_shiftLeft, show (22 : UInt64).toNat % 64 = 22 from rfl, Nat.shiftLeft_eq,
      Nat.shiftLeft_eq]
    omega
  have hlow : hash.toNat % 2 ^ 22 < 2 ^ 22 := Nat.mod_lt _ (by decide)
  rw [UInt64.toNat_and, hmax, Nat.and_two_pow_sub_one_eq_mod, UInt64.toNat_xor,
    Nat.xor_mod_two_pow, hshift, UInt64.toNat_and, hmask, Nat.and_two_pow_sub_one_eq_mod,
    Nat.mod_eq_of_lt (hlow.trans (by decide)), shiftLeft_xor_of_lt hlow]

/-- 41 bits of the timestamp above 22 bits of the hash; the sign bit is clear. -/
theorem makeNumericPointId_toInt (agentId : String) (t : Int64) :
    (makeNumericPointId agentId t).toInt =
      t.toInt % 2 ^ 41 * 2 ^ 22 + ((fnvHash agentId).toNat % 2 ^ 22 : ℕ) := by
  have h := toNat_mixed t.toUInt64 (fnvHash agentId)
  have ht := toNat_toUInt64_emod t
  rw [makeNumericPointId, ← Int64.toInt_toBitVec, BitVec.toInt_eq_toNat_of_lt]
  · rw [Int64.toNat_toBitVec, UInt64.toUInt64_toInt64, h]
    push_cast at ht ⊢
    rw [ht]
  · rw [Int64.toNat_toBitVec, UInt64.toUInt64_toInt64, h]
    omega

/-- Point ids are never negative, and two of them are the same number exactly if the
timestamps agree in their low 41 bits and the hashes of the agent ids in their low 22:
writes at different times below `2 ^ 41` milliseconds have different ids. -/
theorem makeNumericPointId_eq_iff (a b : String) (s t : Int64) :
    0 ≤ (makeNumericPointId a s).toInt ∧
      (makeNumericPointId a s = makeNumericPointId b t ↔
        s.toInt % 2 ^ 41 = t.toInt % 2 ^ 41 ∧
          (fnvHash a).toNat % 2 ^ 22 = (fnvHash b).toNat % 2 ^ 22) := by
  have ha := makeNumericPointId_toInt a s
  have hb := makeNumericPointId_toInt b t
  constructor
  · omega
  · rw [← Int64.toInt_inj]
    omega

/-- Two agents that write in the same millisecond may have one id. -/
theorem makeNumericPointId_collides :
    ¬ ∀ (a b : String) (s t : Int64), a ≠ "" → b ≠ "" → 0 < s → 0 < t → (a, s) ≠ (b, t) →
      makeNumericPointId a s ≠ makeNumericPointId b t := by
  intro h
  exact h "agent-4192" "agent-18160" 1735689600000 1735689600000 (by decide) (by decide)
    (by decide) (by decide) (by decide) (by decide +kernel)

end DistributedLock.Service
