/-
# Comparing by subtraction

Numbers of any width compared through the sign and the overflow of a difference, as
processors without a comparison do.  The subtraction is carried out as the addition of
the negated subtrahend, and the overflow is read off that addition; the least number is
its own negative, and there the answer is the opposite one.
-/
import Mathlib

namespace Subtraction

variable {k : ℕ}

/-- The overflow of an addition, read off the signs of the operands and the result. -/
def addOverflow (x y result : BitVec (k + 1)) : Bool := x.msb == y.msb && result.msb != y.msb

/-- The sign bit by value. -/
theorem msb_eq (x : BitVec (k + 1)) : x.msb = decide (2 ^ k ≤ x.toNat) := by
  rw [BitVec.msb_eq_decide]
  rfl

/-- The signed value, without a remainder. -/
theorem toInt_eq (x : BitVec (k + 1)) :
    x.toInt = if 2 ^ k ≤ x.toNat then (x.toNat : ℤ) - 2 * 2 ^ k else x.toNat := by
  have hmsb := BitVec.toInt_eq_msb_cond x
  rw [msb_eq, pow_succ, mul_comm] at hmsb
  simpa using hmsb

/-- **The overflow of a sum with a carry**: its signed value is out of range.  The carry need
not be known, since it shows in the sign of the result. -/
theorem addOverflow_carry (d s r : BitVec (k + 1)) (c : Bool)
    (hr : r.toNat = (d.toNat + s.toNat + c.toNat) % 2 ^ (k + 1)) :
    addOverflow s d r
      = decide (2 ^ k ≤ d.toInt + s.toInt + c.toNat ∨ d.toInt + s.toInt + c.toNat < -2 ^ k) := by
  have hd := d.isLt
  have hs := s.isLt
  have hc := c.toNat_le
  rw [pow_succ, mul_comm] at hd hs hr
  have hsum : r.toNat = if 2 * 2 ^ k ≤ d.toNat + s.toNat + c.toNat
      then d.toNat + s.toNat + c.toNat - 2 * 2 ^ k else d.toNat + s.toNat + c.toNat := by
    rw [hr]
    split_ifs with h
    · rw [Nat.mod_eq_sub_mod h, Nat.mod_eq_of_lt (by omega)]
    · exact Nat.mod_eq_of_lt (by omega)
  have hcast : ((2 ^ k : ℕ) : ℤ) = 2 ^ k := by push_cast; rfl
  rw [addOverflow, msb_eq, msb_eq, msb_eq, toInt_eq, toInt_eq, ← hcast, hsum]
  generalize 2 ^ k = K at *
  generalize d.toNat = x at *
  generalize s.toNat = y at *
  generalize c.toNat = e at *
  -- the signs of the operands decide in which half the sum can lie
  rw [Bool.eq_iff_iff]
  rcases Nat.lt_or_ge x K with hx | hx <;> rcases Nat.lt_or_ge y K with hy | hy
  · simp [Nat.not_le.mpr hx, Nat.not_le.mpr hy]
    split_ifs <;> omega
  · simp [Nat.not_le.mpr hx, hy]
    omega
  · simp [Nat.not_le.mpr hy, hx]
    omega
  · simp [hx, hy]
    split_ifs <;> omega

/-- The overflow of a sum: its signed value is out of range. -/
theorem addOverflow_add (d s : BitVec (k + 1)) :
    addOverflow s d (d + s)
      = decide (2 ^ k ≤ d.toInt + s.toInt ∨ d.toInt + s.toInt < -2 ^ k) := by
  have h := addOverflow_carry d s (d + s) false (BitVec.toNat_add d s)
  simpa using h

/-- Shifting all other bits out compares the signs. -/
theorem shift_beq (x y : BitVec (k + 1)) : (x >>> k == y >>> k) = (x.msb == y.msb) := by
  have hx := x.isLt
  have hy := y.isLt
  have hdiv (z : ℕ) (hz : z < 2 ^ (k + 1)) : z / 2 ^ k = if 2 ^ k ≤ z then 1 else 0 := by
    rw [pow_succ, mul_comm] at hz
    split_ifs with h
    · rw [Nat.div_eq_of_lt_le] <;> omega
    · exact Nat.div_eq_of_lt (by omega)
  rw [Bool.eq_iff_iff, beq_iff_eq, beq_iff_eq, ← BitVec.toNat_inj, BitVec.toNat_ushiftRight,
    BitVec.toNat_ushiftRight, Nat.shiftRight_eq_div_pow, Nat.shiftRight_eq_div_pow,
    hdiv _ hx, hdiv _ hy, msb_eq, msb_eq, decide_eq_decide]
  split_ifs with h1 h2 h2 <;> simp [h1, h2]

/-- The value of a difference, without a remainder. -/
theorem toNat_sub_eq (d s : BitVec (k + 1)) :
    (d - s).toNat
      = if s.toNat ≤ d.toNat then d.toNat - s.toNat else 2 * 2 ^ k + d.toNat - s.toNat := by
  have hd := d.isLt
  have hs := s.isLt
  rw [BitVec.toNat_sub]
  rw [pow_succ, mul_comm] at *
  split_ifs with h
  · rw [show 2 * 2 ^ k - s.toNat + d.toNat = d.toNat - s.toNat + 2 * 2 ^ k by omega,
      Nat.add_mod_right, Nat.mod_eq_of_lt (by omega)]
  · rw [Nat.mod_eq_of_lt (by omega)]
    omega

/-- The value of a negative, without a remainder. -/
theorem toNat_neg_eq (s : BitVec (k + 1)) :
    (-s).toNat = if s.toNat = 0 then 0 else 2 * 2 ^ k - s.toNat := by
  have h := toNat_sub_eq 0 s
  rw [show (0 : BitVec (k + 1)) - s = -s from BitVec.zero_sub s] at h
  rw [h]
  simp only [BitVec.ofNat_eq_ofNat, BitVec.toNat_ofNat, Nat.zero_mod]
  split_ifs <;> omega

/-- **Sign and overflow of a difference give the signed order**, the least number as
subtrahend excepted, where they give the opposite. -/
theorem sign_xor_overflow (d s : BitVec (k + 1)) :
    ((d - s).msb ^^ addOverflow (-s) d (d - s))
      = (d.slt s ^^ decide (s = BitVec.intMin (k + 1))) := by
  have hd := d.isLt
  have hs := s.isLt
  have hmin : s = BitVec.intMin (k + 1) ↔ s.toNat = 2 ^ k := by
    rw [← BitVec.toNat_inj, BitVec.toNat_intMin_of_pos (by omega)]
    simp
  rw [pow_succ, mul_comm] at hd hs
  have hult : d.ult s = decide (d.toNat < s.toNat) := rfl
  simp only [addOverflow, BitVec.slt_eq_ult, hult, msb_eq, toNat_sub_eq, toNat_neg_eq, hmin]
  generalize 2 ^ k = K at *
  generalize d.toNat = x at *
  generalize s.toNat = y at *
  rw [Bool.eq_iff_iff]
  rcases Nat.lt_or_ge x K with h1 | h1 <;> rcases Nat.lt_or_ge y K with h2 | h2 <;>
    rcases Nat.lt_or_ge x y with h3 | h3 <;> grind

end Subtraction
