import Mathlib.Data.Nat.Basic
import Mathlib.Algebra.Group.Nat.Defs
import Mathlib.Algebra.Group.Int.Defs

/-! 32-bit words as signed and as unsigned numbers. -/

namespace Doppelganger.Lib

theorem toInt_toInt32 {n : UInt32} (h : n.toNat < 2 ^ 31) : n.toInt32.toInt = n.toNat := by
  have hlt : 2 * n.toBitVec.toNat < 2 ^ 32 := by
    rw [UInt32.toNat_toBitVec]
    omega
  exact BitVec.toInt_eq_toNat_of_lt hlt

theorem toInt_toInt32_of_le {n : UInt32} (h : 2 ^ 31 ≤ n.toNat) :
    n.toInt32.toInt = (n.toNat : Int) - 2 ^ 32 := by
  have hcond : n.toBitVec.toInt = if 2 * n.toBitVec.toNat < 2 ^ 32 then (n.toBitVec.toNat : Int)
      else n.toBitVec.toNat - (2 ^ 32 : Nat) := BitVec.toInt_eq_toNat_cond _
  rw [if_neg (by rw [UInt32.toNat_toBitVec]; omega)] at hcond
  exact hcond

/-- The word of a signed number. -/
theorem toNat_toUInt32 (n : Int32) : (n.toUInt32.toNat : Int) = n.toInt % 2 ^ 32 := by
  have hlt := n.toUInt32.toNat_lt
  rcases Nat.lt_or_ge n.toUInt32.toNat (2 ^ 31) with h | h
  · have hn := toInt_toInt32 h
    rw [Int32.toInt32_toUInt32] at hn
    omega
  · have hn := toInt_toInt32_of_le h
    rw [Int32.toInt32_toUInt32] at hn
    omega

/-- The 64-bit word of a signed number. -/
theorem toNat_toUInt64 (n : Int32) : (n.toInt64.toUInt64.toNat : Int) = n.toInt % 2 ^ 64 := by
  have hlt := n.toInt64.toUInt64.toNat_lt
  have hcond : n.toInt64.toBitVec.toInt = if 2 * n.toInt64.toBitVec.toNat < 2 ^ 64 then
      (n.toInt64.toBitVec.toNat : Int) else n.toInt64.toBitVec.toNat - (2 ^ 64 : Nat) :=
    BitVec.toInt_eq_toNat_cond _
  change n.toInt64.toInt = if 2 * n.toInt64.toUInt64.toNat < 2 ^ 64 then
      (n.toInt64.toUInt64.toNat : Int) else n.toInt64.toUInt64.toNat - (2 ^ 64 : Nat) at hcond
  rw [Int32.toInt_toInt64] at hcond
  split at hcond <;> omega

/-- The difference of two words is right as a signed number when neither has the highest bit. -/
theorem toInt_sub_toInt32 {a b : UInt32} (ha : a.toNat < 2 ^ 31) (hb : b.toNat < 2 ^ 31) :
    (a - b).toInt32.toInt = (a.toNat : Int) - b.toNat := by
  have hsub : (a - b).toNat = (2 ^ 32 - b.toNat + a.toNat) % 2 ^ 32 := UInt32.toNat_sub ..
  rcases Nat.lt_or_ge (a - b).toNat (2 ^ 31) with h | h
  · rw [toInt_toInt32 h]
    omega
  · rw [toInt_toInt32_of_le h]
    omega

/-- A word that is not negative as a signed number is that number. -/
theorem toNat_of_toInt_toInt32 {x : UInt32} {k : Nat} (h : x.toInt32.toInt = k) :
    x.toNat = k ∧ k < 2 ^ 31 := by
  have hlt := x.toNat_lt
  rcases Nat.lt_or_ge x.toNat (2 ^ 31) with hx | hx
  · rw [toInt_toInt32 hx] at h
    omega
  · rw [toInt_toInt32_of_le hx] at h
    omega

/-- The sum of signed words that are not negative, where it is a signed word. -/
theorem toInt_add_of_lt {i j : Int32} {a b : Nat} (hi : i.toInt = a) (hj : j.toInt = b)
    (h : a + b < 2 ^ 31) : (i + j).toInt = (a + b : Nat) := by
  rw [Int32.toInt_add, hi, hj, ← Int.natCast_add]
  apply Int.bmod_eq_of_le <;> omega

/-- Past the largest signed word the sum is negative. -/
theorem toInt_add_of_le {i j : Int32} {a b : Nat} (hi : i.toInt = a) (hj : j.toInt = b)
    (h : 2 ^ 31 ≤ a + b) : (i + j).toInt < 0 := by
  have hilt := i.toInt_lt
  have hjlt := j.toInt_lt
  rw [Int32.toInt_add, hi, hj, Int.bmod_def]
  omega

end Doppelganger.Lib
