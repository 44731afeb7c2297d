/-
# Shifts by their operands

What RRC, SWPB, RRA and SXT do, said of the word that they work on and of the flags before: the
words that they leave as they are, the flags that they leave as they are, and where they bring the
program counter back to their own address.
-/
import Msp430.Compare
import Msp430.MultiShift

namespace Msp430

/-! ## Operands that a shift leaves -/

/-- The words that RRC, SWPB, RRA and SXT leave as they are. -/
def FixedBy (opcode : Fin 8) (bw : Width) (carry : Bool) (v : BitVec 16) : Prop :=
  match opcode, bw with
  | 0x0, .word => v = if carry then 0xFFFF else 0
  | 0x0, .byte => v.setWidth 8 = if carry then (0xFF : BitVec 8) else 0
  | 0x1, _ => v.setWidth 8 = highByte v
  | 0x2, .word => v = 0 ∨ v = 0xFFFF
  | 0x2, .byte => v = 0 ∨ v = 0x00FF
  | 0x3, _ => highByte v = if v.getLsbD 7 then (0xFF : BitVec 8) else 0
  | _, _ => True

theorem opcode_le_three {opcode : Fin 8} (h : opcode ≤ 3) :
    opcode = 0 ∨ opcode = 1 ∨ opcode = 2 ∨ opcode = 3 := by
  revert opcode
  decide

theorem rrcValue_word_eq_iff (c : Bool) (v : BitVec 16) :
    rrcValue .word c v = v ↔ v = if c then 0xFFFF else 0 := by
  have hnat := toNat_rrcValue c v
  rw [ShiftRight.shiftDigit] at hnat
  cases c <;> simp only [Bool.toNat_false, Bool.toNat_true, if_true, if_false,
    Bool.false_eq_true] at hnat ⊢ <;> constructor <;> intro h <;> bv_omega

theorem rrcValue_byte_eq_iff (c : Bool) (v : BitVec 16) :
    rrcValue .byte c v = v ↔ v.setWidth 8 = if c then (0xFF : BitVec 8) else 0 := by
  have hbyte : ∀ (c : Bool) (b : BitVec 8), (b >>> 1 ||| if c then 0x80 else 0) = b ↔
      b = if c then 0xFF else 0 := by decide
  rw [← hbyte c]
  exact (joinBytes_eq_iff _ _ _).trans (and_iff_left rfl)

theorem swpbValue_eq_iff (v : BitVec 16) : swpbValue v = v ↔ v.setWidth 8 = highByte v := by
  unfold swpbValue
  rw [joinBytes_eq_iff, eq_comm, and_iff_left_of_imp]
  exact id

theorem rraValue_word_eq_iff (v : BitVec 16) : rraValue .word v = v ↔ v = 0 ∨ v = 0xFFFF := by
  rw [rraValue_word, rrcValue_word_eq_iff, sign_eq]
  by_cases hs : 0x8000 ≤ v.toNat
  · rw [if_pos (by simpa using hs)]
    refine ⟨Or.inr, fun h => h.resolve_left ?_⟩
    rintro rfl
    exact absurd hs (by decide)
  · rw [if_neg (by simpa using hs)]
    refine ⟨Or.inl, fun h => h.resolve_right ?_⟩
    rintro rfl
    exact hs (by decide)

theorem highByte_or (u v : BitVec 16) : highByte (u ||| v) = highByte u ||| highByte v := by
  simp [highByte, BitVec.ushiftRight_or_distrib]

theorem highByte_ushiftRight_one (v : BitVec 16) : highByte (v >>> 1) = highByte v >>> 1 := by
  ext i hi
  rw [← BitVec.getLsbD_eq_getElem, ← BitVec.getLsbD_eq_getElem]
  by_cases h7 : i = 7
  · simp [highByte, h7]
  · simp [highByte, hi, show 1 + i < 8 by omega, show 8 + (1 + i) = 9 + i by omega]

theorem highByte_rraValue_byte (v : BitVec 16) :
    highByte (rraValue .byte v) = highByte v >>> 1 := by
  simp only [rraValue]
  split_ifs
  · rw [highByte_or, highByte_ushiftRight_one]
    exact BitVec.or_zero
  · rw [highByte_or, highByte_ushiftRight_one]
    exact BitVec.or_zero

theorem rraValue_joinBytes (b : BitVec 8) :
    rraValue .byte (joinBytes 0 b) = joinBytes 0 b ↔ b = 0 ∨ b = 0xFF := by
  revert b
  decide

theorem rraValue_byte_eq_iff (v : BitVec 16) : rraValue .byte v = v ↔ v = 0 ∨ v = 0x00FF := by
  have hhalf : ∀ b : BitVec 8, b >>> 1 = b → b = 0 := by decide
  obtain ⟨b, hb⟩ : ∃ b, b = v.setWidth 8 := ⟨_, rfl⟩
  constructor
  · intro h
    have hhigh := hhalf (highByte v) (by rw [← highByte_rraValue_byte, h])
    have hv : v = joinBytes 0 b := by rw [hb, ← hhigh, joinBytes_highByte]
    rw [hv] at h ⊢
    rcases (rraValue_joinBytes b).mp h with rfl | rfl
    · exact Or.inl rfl
    · exact Or.inr rfl
  · rintro (rfl | rfl) <;> rfl

theorem and_0x80 (v : BitVec 16) : (v &&& 0x0080 != 0) = v.getLsbD 7 := by
  have hone : (0x0080 : BitVec 16) = BitVec.twoPow 16 7 := rfl
  rw [hone, BitVec.and_twoPow]
  cases v.getLsbD 7 <;> rfl

theorem sxtValue_eq_joinBytes (v : BitVec 16) :
    sxtValue v = joinBytes (if v.getLsbD 7 then 0xFF else 0) (v.setWidth 8) := by
  rw [sxtValue, and_0x80]
  cases v.getLsbD 7
  · exact mask_eq_joinBytes v
  · rw [if_pos rfl, if_pos rfl, eq_comm, joinBytes_eq_iff, highByte_or, BitVec.setWidth_or]
    constructor
    · exact BitVec.or_zero.symm
    · exact (BitVec.or_allOnes (x := highByte v)).symm

theorem sxtValue_eq_iff (v : BitVec 16) :
    sxtValue v = v ↔ highByte v = if v.getLsbD 7 then (0xFF : BitVec 8) else 0 := by
  rw [sxtValue_eq_joinBytes, joinBytes_eq_iff, and_iff_right rfl, eq_comm]

/-- **What a shift leaves.** -/
theorem shiftValue_eq_iff {opcode : Fin 8} (h : opcode ≤ 3) (bw : Width) (c : Bool)
    (v : BitVec 16) : shiftValue opcode bw c v = v ↔ FixedBy opcode bw c v := by
  rcases opcode_le_three h with rfl | rfl | rfl | rfl <;> cases bw
  · exact rrcValue_word_eq_iff c v
  · exact rrcValue_byte_eq_iff c v
  · exact swpbValue_eq_iff v
  · exact swpbValue_eq_iff v
  · exact rraValue_word_eq_iff v
  · exact rraValue_byte_eq_iff v
  · exact sxtValue_eq_iff v
  · exact sxtValue_eq_iff v

/-- SXT looks at the low byte alone. -/
theorem sxtValue_mask (v : BitVec 16) : sxtValue (v &&& 0x00FF) = sxtValue v := by
  have hbit : (v &&& 0x00FF).getLsbD 7 = v.getLsbD 7 := by simp
  rw [sxtValue_eq_joinBytes, sxtValue_eq_joinBytes, setWidth_mask, hbit]

/-- A shift other than SXT brings no high byte back that the byte mask has taken. -/
theorem highByte_of_shiftValue_mask {opcode : Fin 8} (h : opcode ≤ 3) (h3 : opcode ≠ 3)
    {c : Bool} {v : BitVec 16} (hv : shiftValue opcode .byte c (v &&& 0x00FF) = v) :
    highByte v = 0 := by
  rcases opcode_le_three h with rfl | rfl | rfl | rfl
  · have hhigh := congrArg highByte hv
    rw [← hhigh]
    exact (highByte_joinBytes _ _).trans (highByte_mask v)
  · have hjoin : joinBytes ((v &&& 0x00FF).setWidth 8) (highByte (v &&& 0x00FF)) = v := hv
    rw [setWidth_mask, highByte_mask, joinBytes_eq_iff] at hjoin
    exact hjoin.2.symm.trans hjoin.1.symm
  · have hhigh := congrArg highByte hv
    rw [← hhigh]
    refine (highByte_rraValue_byte _).trans ?_
    rw [highByte_mask]
    rfl
  · exact absurd rfl h3

/-- **What a shift of a masked register leaves.** -/
theorem shiftValue_mask_eq_iff {opcode : Fin 8} (h : opcode ≤ 3) (c : Bool) (v : BitVec 16) :
    shiftValue opcode .byte c (v &&& 0x00FF) = v
      ↔ FixedBy opcode .byte c v ∧ (opcode ≠ 3 → highByte v = 0) := by
  rw [← shiftValue_eq_iff h]
  by_cases h3 : opcode = 3
  · rw [and_iff_left fun hc => absurd h3 hc, h3]
    exact iff_of_eq (congrArg (· = v) (sxtValue_mask v))
  · rw [and_comm]
    constructor
    · intro hv
      have hhigh := highByte_of_shiftValue_mask h h3 hv
      rw [(mask_eq_self_iff v).mpr hhigh] at hv
      exact ⟨fun _ => hhigh, hv⟩
    · rintro ⟨hhigh, hv⟩
      rw [(mask_eq_self_iff v).mpr (hhigh h3), hv]

/-! ## Flags that a shift leaves -/

/-- The flags are those that RRC, RRA or SXT leaves of the word `v`; SWPB sets none. -/
def FlagsSet (opcode : Fin 8) (bw : Width) (sr : StatusReg) (v : BitVec 16) : Prop :=
  match opcode, bw with
  | 0x0, .word => sr.carry = v.getLsbD 0 ∧ sr.negative = sr.carry ∧
      (sr.zero = true ↔ sr.carry = false ∧ v.toNat ≤ 1) ∧ sr.overflow = false
  | 0x0, .byte => sr.carry = v.getLsbD 0 ∧ sr.negative = sr.carry ∧
      (sr.zero = true ↔ sr.carry = false ∧ (v.setWidth 8).toNat ≤ 1) ∧ sr.overflow = false
  | 0x2, .word => sr.carry = v.getLsbD 0 ∧ (sr.negative = true ↔ 0x8000 ≤ v.toNat) ∧
      (sr.zero = true ↔ v.toNat ≤ 1) ∧ sr.overflow = false
  | 0x2, .byte => sr.carry = v.getLsbD 0 ∧ (sr.negative = true ↔ 0x80 ≤ v.toNat) ∧
      (sr.zero = true ↔ v.toNat ≤ 1) ∧ sr.overflow = false
  | 0x3, _ => (sr.carry = true ↔ v.setWidth 8 ≠ 0) ∧ sr.negative = v.getLsbD 7 ∧
      (sr.zero = true ↔ v.setWidth 8 = 0) ∧ sr.overflow = false
  | _, _ => True

instance (opcode : Fin 8) (bw : Width) (sr : StatusReg) (v : BitVec 16) :
    Decidable (FlagsSet opcode bw sr v) := by
  unfold FlagsSet
  split <;> infer_instance

/-- Four flags and the rest. -/
theorem with_flags_eq_iff (sr : StatusReg) (c n z v : Bool) :
    { sr with carry := c, zero := z, negative := n, overflow := v } = sr ↔
      sr.carry = c ∧ sr.negative = n ∧ sr.zero = z ∧ sr.overflow = v := by
  constructor
  · intro h
    rw [← h]
    exact ⟨rfl, rfl, rfl, rfl⟩
  · rintro ⟨rfl, rfl, rfl, rfl⟩
    rfl

theorem eq_decide_iff (b : Bool) (p : Prop) [Decidable p] : b = decide p ↔ (b = true ↔ p) := by
  rw [Bool.eq_iff_iff, decide_eq_true_iff]

/-- Zero and sign of what RRC stores. -/
theorem rrc_word_flags (c : Bool) (v : BitVec 16) :
    isNegative (rrcValue .word c v) .word = c ∧
      isZero (rrcValue .word c v) .word = decide (c = false ∧ v.toNat ≤ 1) := by
  have hv := v.isLt
  have hnat := toNat_rrcValue c v
  rw [ShiftRight.shiftDigit] at hnat
  constructor
  · rw [isNegative_word, BitVec.msb_eq_decide, hnat]
    cases c
    · simp
      omega
    · simp
  · rw [isZero, Bool.eq_iff_iff, beq_iff_eq, decide_eq_true_iff, ← BitVec.toNat_inj, hnat]
    cases c
    · simp
    · simp

theorem rrc_byte_flags (c : Bool) (v : BitVec 16) :
    isNegative (rrcValue .byte c v) .byte = c ∧
      isZero (rrcValue .byte c v) .byte = decide (c = false ∧ (v.setWidth 8).toNat ≤ 1) := by
  have hbyte : ∀ (c : Bool) (b : BitVec 8),
      (b >>> 1 ||| if c then 0x80 else 0).msb = c ∧
        ((b >>> 1 ||| if c then 0x80 else 0) == 0) = decide (c = false ∧ b.toNat ≤ 1) := by
    decide
  have hlow : (rrcValue .byte c v).setWidth 8 = v.setWidth 8 >>> 1 ||| if c then 0x80 else 0 :=
    setWidth_joinBytes _ _
  rw [isNegative_byte, isZero, hlow]
  exact hbyte c (v.setWidth 8)

/-- Zero and sign of what RRA stores. -/
theorem rra_word_flags (v : BitVec 16) :
    isNegative (rraValue .word v) .word = decide (0x8000 ≤ v.toNat) ∧
      isZero (rraValue .word v) .word = decide (v.toNat ≤ 1) := by
  have hflags := rrc_word_flags (v >>> 15 != 0) v
  rw [sign_eq] at hflags
  rw [rraValue_word, sign_eq]
  refine ⟨hflags.1, hflags.2.trans ?_⟩
  rw [decide_eq_decide, decide_eq_false_iff_not]
  omega

theorem rra_byte_flags (v : BitVec 16) :
    isNegative (rraValue .byte v) .byte = decide (0x80 ≤ v.toNat) ∧
      isZero (rraValue .byte v) .byte = decide (v.toNat ≤ 1) := by
  have hsign : (v >>> 7 != 0) = decide (0x80 ≤ v.toNat) := shift_ne_zero v 7
  rw [isNegative_byte, isZero, rraValue, hsign]
  by_cases hs : 0x80 ≤ v.toNat
  · -- the sign is put into the low byte
    have hmsb : ((v >>> 1 ||| 0x0080).setWidth 8).msb = true := by
      rw [BitVec.setWidth_or, BitVec.msb_or]
      exact Bool.or_true _
    have hne : (v >>> 1 ||| 0x0080).setWidth 8 ≠ 0 := by
      intro h
      rw [h] at hmsb
      cases hmsb
    rw [decide_eq_true hs, if_pos rfl, hmsb, decide_eq_false (by omega : ¬ v.toNat ≤ 1)]
    exact ⟨rfl, beq_eq_false_iff_ne.mpr hne⟩
  · have hlow : ((v >>> 1 ||| (0 : BitVec 16)).setWidth 8).toNat = v.toNat / 2 := by
      have hor : v >>> 1 ||| (0 : BitVec 16) = v >>> 1 := BitVec.or_zero
      rw [hor, BitVec.toNat_setWidth, BitVec.toNat_ushiftRight, Nat.shiftRight_eq_div_pow]
      omega
    rw [decide_eq_false hs, if_neg (by decide)]
    constructor
    · rw [BitVec.msb_eq_decide, hlow]
      exact decide_eq_false (by omega)
    · rw [Bool.eq_iff_iff, beq_iff_eq, decide_eq_true_iff, ← BitVec.toNat_inj, hlow]
      simp

/-- Zero and sign of what SXT stores. -/
theorem sxt_flags (v : BitVec 16) :
    isNegative (sxtValue v) .word = v.getLsbD 7 ∧
      isZero (sxtValue v) .word = decide (v.setWidth 8 = 0) := by
  have hjoin : ∀ b : BitVec 8, (joinBytes (if b.msb then 0xFF else 0) b).msb = b.msb ∧
      (joinBytes (if b.msb then 0xFF else 0) b == 0) = decide (b = 0) := by decide
  have hbit : (v.setWidth 8).msb = v.getLsbD 7 := by
    rw [BitVec.msb_eq_getLsbD_last]
    simp
  obtain ⟨hmsb, hzero⟩ := hjoin (v.setWidth 8)
  rw [hbit] at hmsb hzero
  rw [isNegative_word, isZero, sxtValue_eq_joinBytes]
  exact ⟨hmsb, hzero⟩

/-- **What a shift leaves of the flags.** -/
theorem shiftFlags_eq_iff {opcode : Fin 8} (h : opcode ≤ 3) (bw : Width) (sr : StatusReg)
    (v : BitVec 16) : shiftFlags opcode bw sr v = sr ↔ FlagsSet opcode bw sr v := by
  rcases opcode_le_three h with rfl | rfl | rfl | rfl
  · refine (with_flags_eq_iff sr _ _ _ _).trans ?_
    cases bw with
    | word =>
      simp only [shiftValue, (rrc_word_flags sr.carry v).1, (rrc_word_flags sr.carry v).2,
        eq_decide_iff]
      rfl
    | byte =>
      simp only [shiftValue, (rrc_byte_flags sr.carry v).1, (rrc_byte_flags sr.carry v).2,
        eq_decide_iff]
      rfl
  · exact iff_of_true rfl (by cases bw <;> trivial)
  · refine (with_flags_eq_iff sr _ _ _ _).trans ?_
    cases bw with
    | word =>
      simp only [shiftValue, (rra_word_flags v).1, (rra_word_flags v).2, eq_decide_iff]
      rfl
    | byte =>
      simp only [shiftValue, (rra_byte_flags v).1, (rra_byte_flags v).2, eq_decide_iff]
      rfl
  · refine (with_flags_eq_iff sr _ _ _ _).trans ?_
    have hcarry : (sr.carry = !decide (v.setWidth 8 = 0)) ↔
        (sr.carry = true ↔ v.setWidth 8 ≠ 0) := by
      rw [← decide_not, eq_decide_iff]
    simp only [shiftValue, (sxt_flags v).1, (sxt_flags v).2, hcarry, eq_decide_iff]
    cases bw <;> rfl

/-! ## Shifts that come back -/

/-- What a shift of the program counter finds there, the instruction being at `a`. -/
def pcBehind (bw : Width) (a : BitVec 16) : BitVec 16 :=
  match bw with
  | .word => a + 2
  | .byte => (a + 2) &&& 0x00FF

theorem pcBehind_byte (a : BitVec 16) :
    pcBehind .byte a = joinBytes 0 (a.setWidth 8 + 2) := by
  rw [pcBehind, mask_eq_joinBytes, BitVec.setWidth_add _ _ (by decide)]
  rfl

/-- A word below 256. -/
theorem eq_joinBytes_zero_iff (a : BitVec 16) (b : BitVec 8) :
    a = joinBytes 0 b ↔ highByte a = 0 ∧ a.setWidth 8 = b := by
  rw [eq_comm, joinBytes_eq_iff, and_comm, eq_comm, @eq_comm _ b]

theorem rrcValue_back_iff (bw : Width) (c : Bool) (a : BitVec 16) :
    rrcValue bw c (pcBehind bw a) = a ↔ c = false ∧ (a = 1 ∨ a = 2) := by
  cases bw with
  | word =>
    have hnat := toNat_rrcValue c (a + 2)
    rw [ShiftRight.shiftDigit] at hnat
    rw [pcBehind]
    cases c <;> simp only [Bool.toNat_false, Bool.toNat_true, true_and, Bool.true_eq_false,
      false_and, iff_false] at hnat ⊢
    · constructor
      · intro h
        bv_omega
      · rintro (rfl | rfl) <;> rfl
    · intro h
      bv_omega
  | byte =>
    have hbyte : ∀ (c : Bool) (b : BitVec 8), ((b + 2) >>> 1 ||| if c then 0x80 else 0) = b ↔
        c = false ∧ (b = 1 ∨ b = 2) := by decide
    have hlow : rrcValue .byte c (joinBytes 0 (a.setWidth 8 + 2))
        = joinBytes 0 ((a.setWidth 8 + 2) >>> 1 ||| if c then 0x80 else 0) := by
      simp [rrcValue]
    rw [pcBehind_byte, hlow, joinBytes_eq_iff, hbyte c,
      show (1 : BitVec 16) = joinBytes 0 1 from rfl, show (2 : BitVec 16) = joinBytes 0 2 from rfl,
      eq_joinBytes_zero_iff, eq_joinBytes_zero_iff, @eq_comm _ 0]
    tauto

theorem rraValue_back_iff (bw : Width) (a : BitVec 16) :
    rraValue bw (pcBehind bw a) = a ↔ a = 1 ∨ a = 2 := by
  cases bw with
  | word =>
    rw [rraValue_word]
    have hback := rrcValue_back_iff .word (pcBehind .word a >>> 15 != 0) a
    rw [hback, sign_eq]
    refine ⟨And.right, fun h => ⟨?_, h⟩⟩
    rcases h with rfl | rfl <;> rfl
  | byte =>
    have hbyte : ∀ b : BitVec 8, (rraValue .byte (joinBytes 0 (b + 2))).setWidth 8 = b ↔
        b = 1 ∨ b = 2 := by decide
    have hhigh : highByte (rraValue .byte (joinBytes 0 (a.setWidth 8 + 2))) = 0 := by
      rw [highByte_rraValue_byte, highByte_joinBytes]
      rfl
    rw [pcBehind_byte, show (1 : BitVec 16) = joinBytes 0 1 from rfl,
      show (2 : BitVec 16) = joinBytes 0 2 from rfl, eq_joinBytes_zero_iff, eq_joinBytes_zero_iff,
      ← and_or_left, ← hbyte (a.setWidth 8)]
    constructor
    · intro h
      exact ⟨by rw [← h, hhigh], by rw [h]⟩
    · rintro ⟨h0, hlow⟩
      rw [← joinBytes_highByte (rraValue .byte _), hhigh, hlow, ← h0, joinBytes_highByte]

theorem swpbValue_back_iff (bw : Width) (a : BitVec 16) :
    swpbValue (pcBehind bw a) = a ↔ bw = .byte ∧ a = 0x0200 := by
  cases bw with
  | word =>
    refine iff_of_false (fun h => ?_) (fun h => absurd h.1 (by decide))
    -- the bytes would have to change places under an addition of two
    obtain ⟨hlow, hhigh⟩ := (joinBytes_eq_iff _ _ _).mp h
    rw [← BitVec.toNat_inj, toNat_highByte, BitVec.toNat_setWidth] at hlow
    rw [← BitVec.toNat_inj, toNat_highByte, BitVec.toNat_setWidth] at hhigh
    have hsum : (pcBehind .word a).toNat = (a.toNat + 2) % 2 ^ 16 := BitVec.toNat_add a 2
    have ha := a.isLt
    rcases Nat.lt_or_ge (a.toNat % 256) 254 with hr | hr <;> omega
  | byte =>
    rw [pcBehind_byte, swpbValue, setWidth_joinBytes, highByte_joinBytes, joinBytes_eq_iff,
      show (0x0200 : BitVec 16) = joinBytes 2 0 from rfl, @eq_comm _ a, joinBytes_eq_iff]
    have hbyte : ∀ b h : BitVec 8, 0 = b → (b + 2 = h ↔ 2 = h) := by
      rintro b h rfl
      rfl
    exact (and_congr_right (hbyte _ _)).trans (and_iff_right rfl).symm

theorem sxtValue_back (bw : Width) (a : BitVec 16) : sxtValue (pcBehind bw a) ≠ a := by
  have hbyte : ∀ b : BitVec 8, b + 2 ≠ b := by decide
  intro h
  have hlow := congrArg (BitVec.setWidth 8) h
  rw [sxtValue_eq_joinBytes, setWidth_joinBytes] at hlow
  refine hbyte (a.setWidth 8) ?_
  cases bw with
  | word =>
    rw [pcBehind, BitVec.setWidth_add _ _ (by decide)] at hlow
    exact hlow
  | byte =>
    rw [pcBehind_byte, setWidth_joinBytes] at hlow
    exact hlow

/-- A shift of the program counter comes back to its own address `a` and finds the flags as it
would leave them. -/
def ShiftsBack (opcode : Fin 8) (bw : Width) (sr : StatusReg) (a : BitVec 16) : Prop :=
  match opcode, bw with
  | 0x0, _ => a = 2 ∧ sr.carry = false ∧ sr.negative = false ∧ sr.zero = false ∧
      sr.overflow = false
  | 0x1, .byte => a = 0x0200
  | 0x2, _ => (a = 1 ∧ sr.carry = true ∨ a = 2 ∧ sr.carry = false) ∧ sr.negative = false ∧
      sr.zero = false ∧ sr.overflow = false
  | _, _ => False

instance (opcode : Fin 8) (bw : Width) (sr : StatusReg) (a : BitVec 16) :
    Decidable (ShiftsBack opcode bw sr a) := by
  unfold ShiftsBack
  split <;> infer_instance

theorem ShiftsBack.le_three {opcode : Fin 8} {bw : Width} {sr : StatusReg} {a : BitVec 16}
    (h : ShiftsBack opcode bw sr a) : opcode ≤ 3 := by
  unfold ShiftsBack at h
  split at h
  · decide
  · decide
  · decide
  · exact h.elim

/-- The flags that RRC leaves at the address 2, and RRA at 1 and 2. -/
theorem flagsSet_pcBehind (bw : Width) (sr : StatusReg) :
    (FlagsSet 0 bw sr (pcBehind bw 1) ↔ sr.carry = true ∧ sr.negative = true ∧
        sr.zero = false ∧ sr.overflow = false) ∧
      (FlagsSet 0 bw sr (pcBehind bw 2) ↔ sr.carry = false ∧ sr.negative = false ∧
        sr.zero = false ∧ sr.overflow = false) ∧
      (FlagsSet 2 bw sr (pcBehind bw 1) ↔ sr.carry = true ∧ sr.negative = false ∧
        sr.zero = false ∧ sr.overflow = false) ∧
      (FlagsSet 2 bw sr (pcBehind bw 2) ↔ sr.carry = false ∧ sr.negative = false ∧
        sr.zero = false ∧ sr.overflow = false) := by
  cases bw <;> simp +contextual [FlagsSet, pcBehind]

/-- **Where a shift of the program counter comes back.** -/
theorem shiftsBack_iff {opcode : Fin 8} (h : opcode ≤ 3) (bw : Width) (sr : StatusReg)
    (a : BitVec 16) :
    shiftValue opcode bw sr.carry (pcBehind bw a) = a ∧
        shiftFlags opcode bw sr (pcBehind bw a) = sr
      ↔ ShiftsBack opcode bw sr a := by
  obtain ⟨hrrc1, hrrc2, hrra1, hrra2⟩ := flagsSet_pcBehind bw sr
  rw [shiftFlags_eq_iff h]
  rcases opcode_le_three h with rfl | rfl | rfl | rfl
  · refine (and_congr_left fun _ => rrcValue_back_iff bw sr.carry a).trans ?_
    constructor
    · rintro ⟨⟨hc, rfl | rfl⟩, hflags⟩
      · -- the word behind the address 1 is odd
        exact absurd (hc.symm.trans (hrrc1.mp hflags).1) (by decide)
      · exact ⟨rfl, hrrc2.mp hflags⟩
    · rintro ⟨rfl, hflags⟩
      exact ⟨⟨hflags.1, Or.inr rfl⟩, hrrc2.mpr hflags⟩
  · refine (and_congr_left fun _ => swpbValue_back_iff bw a).trans ?_
    cases bw <;> simp [FlagsSet, ShiftsBack]
  · refine (and_congr_left fun _ => rraValue_back_iff bw a).trans ?_
    constructor
    · rintro ⟨rfl | rfl, hflags⟩
      · obtain ⟨hc, hrest⟩ := hrra1.mp hflags
        exact ⟨Or.inl ⟨rfl, hc⟩, hrest⟩
      · obtain ⟨hc, hrest⟩ := hrra2.mp hflags
        exact ⟨Or.inr ⟨rfl, hc⟩, hrest⟩
    · rintro ⟨⟨rfl, hc⟩ | ⟨rfl, hc⟩, hrest⟩
      · exact ⟨Or.inl rfl, hrra1.mpr ⟨hc, hrest⟩⟩
      · exact ⟨Or.inr rfl, hrra2.mpr ⟨hc, hrest⟩⟩
  · exact iff_of_false (fun hc => sxtValue_back bw a hc.1) (by cases bw <;> exact id)

end Msp430
