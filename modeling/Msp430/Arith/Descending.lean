/-
# Descending stacks in a wrapping address space

The slots of a stack of two-byte words that grows downwards from a top address, in an
address space of `2 ^ n` bytes.  Addresses wrap round; the words do not, so that the word
at the last address has its second byte behind the address space.  Two slots share no byte
as long as the stack between them does not go all the way round.
-/
import Mathlib

namespace Descending

variable {n : ℕ}

/-- The slot of the `j`-th word below `top`. -/
def slot (top : BitVec n) (j : ℕ) : BitVec n := top - BitVec.ofNat n (2 * j)

/-- The words at two addresses share no byte. -/
def Apart (a b : BitVec n) : Prop := a.toNat + 1 < b.toNat ∨ b.toNat + 1 < a.toNat

theorem Apart.symm {a b : BitVec n} (h : Apart a b) : Apart b a := Or.symm h

@[simp] theorem slot_zero (top : BitVec n) : slot top 0 = top := by
  simp [slot]

/-- The slot that the next push takes. -/
theorem slot_sub_two (top : BitVec n) (j : ℕ) : slot top j - 2 = slot top (j + 1) := by
  have htwo : BitVec.ofNat n (2 * (j + 1)) = BitVec.ofNat n (2 * j) + 2 := by
    rw [Nat.mul_add, BitVec.ofNat_add]
    rfl
  rw [slot, slot, htwo, sub_sub]

/-- The slot that is on top after a pop. -/
theorem slot_add_two (top : BitVec n) (j : ℕ) : slot top (j + 1) + 2 = slot top j := by
  rw [← slot_sub_two, BitVec.sub_add_cancel]

/-- Slots counted from a slot. -/
theorem slot_slot (top : BitVec n) (i j : ℕ) : slot (slot top i) j = slot top (i + j) := by
  rw [slot, slot, slot, Nat.mul_add, BitVec.ofNat_add, sub_sub]

/-- Words an even distance apart, in a space of even size, share no byte. -/
theorem apart_add (hn : 0 < n) (b : BitVec n) {k : ℕ} (hk : 0 < k) (hlt : 2 * k < 2 ^ n) :
    Apart (b + BitVec.ofNat n (2 * k)) b := by
  obtain ⟨m, hm⟩ : ∃ m, 2 ^ n = 2 * m := ⟨2 ^ (n - 1), by rw [← pow_succ']; congr 1; omega⟩
  have hb := b.isLt
  have hsum : (b + BitVec.ofNat n (2 * k)).toNat = (b.toNat + 2 * k) % 2 ^ n := by
    rw [BitVec.toNat_add, BitVec.toNat_ofNat, Nat.add_mod_mod]
  rw [Apart, hsum]
  rcases lt_or_ge (b.toNat + 2 * k) (2 ^ n) with h | h
  · rw [Nat.mod_eq_of_lt h]
    omega
  · -- the upper word has wrapped round
    rw [Nat.mod_eq_sub_mod h, Nat.mod_eq_of_lt (by omega)]
    omega

/-- Two slots of a stack that does not go all the way round share no byte. -/
theorem slot_apart (hn : 0 < n) (top : BitVec n) {i j : ℕ} (hij : i < j)
    (hlt : 2 * j < 2 ^ n + 2 * i) : Apart (slot top i) (slot top j) := by
  have hslot : slot top i = slot top j + BitVec.ofNat n (2 * (j - i)) := by
    obtain ⟨k, rfl⟩ := Nat.exists_eq_add_of_lt hij
    rw [show i + k + 1 = i + (k + 1) by omega, ← slot_slot,
      show i + (k + 1) - i = k + 1 by omega]
    exact (BitVec.sub_add_cancel _ _).symm
  rw [hslot]
  exact apart_add hn _ (by omega) (by omega)

/-! ## No room beside a full stack -/

/-- An even distance below the top there is a slot, at the latest after a full round. -/
theorem exists_slot (hn : 0 < n) (top a : BitVec n) (h : 2 ∣ (top - a).toNat) :
    ∃ j, 0 < j ∧ 2 * j ≤ 2 ^ n ∧ slot top j = a := by
  obtain ⟨m, hm⟩ := h
  have hlt := (top - a).isLt
  have hself : top - (top - a) = a := sub_sub_cancel top a
  by_cases h0 : m = 0
  · refine ⟨2 ^ (n - 1), by positivity, le_of_eq ?_, ?_⟩
    · rw [← pow_succ']
      congr 1
      omega
    · have hdiff : top - a = 0 := by
        apply BitVec.eq_of_toNat_eq
        rw [hm, h0]
        rfl
      have hround : BitVec.ofNat n (2 * 2 ^ (n - 1)) = 0 := by
        rw [← pow_succ', Nat.sub_add_cancel hn]
        apply BitVec.eq_of_toNat_eq
        rw [BitVec.toNat_ofNat, Nat.mod_self]
        rfl
      rw [slot, hround, sub_zero]
      exact sub_eq_zero.mp hdiff
  · refine ⟨m, Nat.pos_of_ne_zero h0, by omega, ?_⟩
    rw [slot, ← hm, BitVec.ofNat_toNat, BitVec.setWidth_eq, hself]

/-- The difference of two addresses, as a number. -/
theorem toNat_sub_eq (a b : BitVec n) :
    (a - b).toNat
      = if b.toNat ≤ a.toNat then a.toNat - b.toNat else 2 ^ n + a.toNat - b.toNat := by
  have ha := a.isLt
  have hb := b.isLt
  rw [BitVec.toNat_sub]
  split_ifs with h
  · rw [show 2 ^ n - b.toNat + a.toNat = a.toNat - b.toNat + 2 ^ n by omega,
      Nat.add_mod_right, Nat.mod_eq_of_lt (by omega)]
  · rw [Nat.mod_eq_of_lt (by omega)]
    omega

/-- Every word shares a byte with a slot of a stack that goes all the way round. -/
theorem exists_not_apart (hn : 0 < n) (top a : BitVec n) :
    ∃ j, 0 < j ∧ 2 * j ≤ 2 ^ n ∧ ¬ Apart a (slot top j) := by
  obtain ⟨m, hm⟩ : ∃ m, 2 ^ n = 2 * m := ⟨2 ^ (n - 1), by rw [← pow_succ']; congr 1; omega⟩
  -- a slot within one byte of `a`
  obtain ⟨b, hb, hdvd⟩ : ∃ b : BitVec n,
      b.toNat ≤ a.toNat + 1 ∧ a.toNat ≤ b.toNat + 1 ∧ 2 ∣ (top - b).toNat := by
    have ha := a.isLt
    have ht := top.isLt
    by_cases heven : 2 ∣ (top - a).toNat
    · exact ⟨a, by omega, by omega, heven⟩
    · rw [toNat_sub_eq] at heven
      by_cases hlow : 2 ∣ a.toNat
      · refine ⟨BitVec.ofNat n (a.toNat + 1), ?_⟩
        rw [toNat_sub_eq, BitVec.toNat_ofNat, Nat.mod_eq_of_lt (by omega)]
        split_ifs at heven ⊢ <;> omega
      · refine ⟨BitVec.ofNat n (a.toNat - 1), ?_⟩
        rw [toNat_sub_eq, BitVec.toNat_ofNat, Nat.mod_eq_of_lt (by omega)]
        split_ifs at heven ⊢ <;> omega
  obtain ⟨j, hj, hround, hslot⟩ := exists_slot hn top b hdvd.2
  refine ⟨j, hj, hround, ?_⟩
  rw [hslot, Apart]
  omega

/-- A stack with room for a word beside it does not go all the way round. -/
theorem lt_of_apart (hn : 0 < n) (top a : BitVec n) {k : ℕ}
    (h : ∀ j, 0 < j → j ≤ k → Apart a (slot top j)) : 2 * k < 2 ^ n := by
  obtain ⟨j, hj, hround, hnot⟩ := exists_not_apart hn top a
  by_contra hk
  exact hnot (h j hj (by omega))

end Descending
