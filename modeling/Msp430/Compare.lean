/-
# Compare and branch

CMP followed by a conditional jump, against the order of the integers.  The zero test is
always right.  The carry is wrong where the code tests the sum of a sign-extended
destination, and the signed branches are wrong where the source is the least number,
which is its own negative.  `compare_branches_iff` says that nothing else is wrong.
-/
import Msp430.ReadOnly

namespace Msp430

/-! ## What the jumps promise -/

/-- The order that a jump condition stands for: JZ, JNC (JLO), JC (JHS), JGE and JL. -/
def orderOf {n : ℕ} (condition : Fin 8) (s d : BitVec n) : Option Bool :=
  match condition with
  | 1 => some (d == s)
  | 2 => some (d.ult s)
  | 3 => some (s.ule d)
  | 5 => some (s.sle d)
  | 6 => some (d.slt s)
  | _ => none

/-- The words that `decode` takes for jumps. -/
def IsJump (j : BitVec 16) : Prop := 2 ≤ formatId j ∧ formatId j ≤ 3

instance (j : BitVec 16) : Decidable (IsJump j) := inferInstanceAs (Decidable (_ ∧ _))

/-- Each of the five jumps is taken exactly when the order it stands for holds. -/
def BranchesByOrder {n : ℕ} (emu : Emulator) (s d : BitVec n) : Prop :=
  ∀ j taken, IsJump j → orderOf (jumpCondition j) s d = some taken →
    decode emu j false = if taken then jump emu j else emu

/-- A jump whose offset is not zero moves the program counter. -/
theorem jump_ne_self (emu : Emulator) (j : BitVec 16) (h : signedOffset j ≠ 0) :
    jump emu j ≠ emu := by
  intro he
  have hpc : emu.pc + signedOffset j = emu.pc := by
    have := congrArg Emulator.pc he
    simpa [jump] using this
  exact h (by simpa using hpc)

/-- The condition of a jump that behaves like the given choice. -/
theorem conditionHolds_of_decode (emu : Emulator) (j : BitVec 16) (taken : Bool)
    (hj : IsJump j) (ho : signedOffset j ≠ 0)
    (h : decode emu j false = if taken then jump emu j else emu) :
    conditionHolds emu.sr (jumpCondition j) = taken := by
  rw [decode_formatIII emu j false hj, decodeFormatIII, if_neg (by decide)] at h
  have hne := jump_ne_self emu j ho
  cases hc : conditionHolds emu.sr (jumpCondition j) <;> cases taken <;>
    simp only [hc, if_true, if_false, Bool.false_eq_true] at h
  · rfl
  · exact absurd h.symm hne
  · exact absurd h hne
  · rfl

/-- A condition holds when its order does, if the flags say so. -/
theorem conditionHolds_eq_order {n : ℕ} (sr : StatusReg) (s d : BitVec n)
    (hz : sr.zero = (d == s)) (hc : sr.carry = s.ule d)
    (hn : (sr.negative ^^ sr.overflow) = d.slt s) (condition : Fin 8) (taken : Bool)
    (ho : orderOf condition s d = some taken) : conditionHolds sr condition = taken := by
  have hult : (!s.ule d) = d.ult s := by
    rw [BitVec.ule_eq_not_ult, Bool.not_not]
  have hsle : (!d.slt s) = s.sle d := by rw [BitVec.sle_eq_not_slt]
  unfold orderOf at ho
  split at ho
  · rw [← Option.some.inj ho, ← hz]
    simp [conditionHolds]
  · rw [← Option.some.inj ho, ← hult, ← hc]
    simp [conditionHolds]
  · rw [← Option.some.inj ho, ← hc]
    simp [conditionHolds]
  · rw [← Option.some.inj ho, ← hsle, ← hn]
    simp [conditionHolds]
  · rw [← Option.some.inj ho, ← hn]
    simp [conditionHolds]
  · simp at ho

/-- **The branches are right when carry and sign are**, the zero flag being so. -/
theorem branchesByOrder_iff {n : ℕ} (emu : Emulator) (s d : BitVec n)
    (hz : emu.sr.zero = (d == s)) :
    BranchesByOrder emu s d
      ↔ emu.sr.carry = s.ule d ∧ (emu.sr.negative ^^ emu.sr.overflow) = d.slt s := by
  constructor
  · intro h
    constructor
    · -- `JC +2`
      have hc := conditionHolds_of_decode emu 0x2C01 (s.ule d) (by decide) (by decide)
        (h 0x2C01 _ (by decide) rfl)
      rw [show jumpCondition 0x2C01 = 3 from rfl] at hc
      simpa [conditionHolds] using hc
    · -- `JL +2`
      have hl := conditionHolds_of_decode emu 0x3801 (d.slt s) (by decide) (by decide)
        (h 0x3801 _ (by decide) rfl)
      rw [show jumpCondition 0x3801 = 6 from rfl] at hl
      simpa [conditionHolds] using hl
  · rintro ⟨hc, hn⟩ j taken hj ho
    rw [decode_formatIII emu j false hj, decodeFormatIII, if_neg (by decide)]
    rw [conditionHolds_eq_order emu.sr s d hz hc hn (jumpCondition j) taken ho]

/-! ## The flags of CMP -/

/-- A word added to a negative is the difference. -/
theorem add_not_add_one {n : ℕ} (d s : BitVec n) : d + (~~~s + 1) = d - s := by
  rw [show ~~~s + 1 = -s from (BitVec.neg_eq_not_add s).symm, BitVec.sub_eq_add_neg]

theorem sub_beq_zero {n : ℕ} (d s : BitVec n) : (d - s == 0) = (d == s) := by
  rw [Bool.eq_iff_iff, beq_iff_eq, beq_iff_eq]
  constructor
  · intro h
    have := congrArg (· + s) h
    simpa using this
  · rintro rfl
    simp

/-- The early carry of the word form: the source is zero. -/
theorem earlyCarry_word (s : BitVec 16) :
    isCarried ((~~~s).setWidth 32) 1 .word = decide (s.toNat = 0) := by
  have hs := s.isLt
  rw [isCarried_word, toNat_zeroExtend_word, BitVec.toNat_not, decide_eq_decide,
    show (1 : BitVec 32).toNat = 1 from rfl]
  omega

/-- The early carry of the byte form sees the whole word. -/
theorem earlyCarry_byte (s : BitVec 16) :
    isCarried ((~~~s).setWidth 32) 1 .byte = decide (s.toNat ≤ 0xFF00) := by
  have hs := s.isLt
  rw [isCarried_byte, toNat_zeroExtend_word, BitVec.toNat_not, decide_eq_decide,
    show (1 : BitVec 32).toNat = 1 from rfl]
  omega

/-- The high byte by value. -/
theorem toNat_highByte (v : BitVec 16) : (highByte v).toNat = v.toNat / 256 := by
  have hv := v.isLt
  simp only [highByte, BitVec.toNat_setWidth, BitVec.toNat_ushiftRight,
    Nat.shiftRight_eq_div_pow]
  omega

/-- The carry of the word form: a large destination sets it. -/
theorem carry_word (d s : BitVec 16) :
    (if !isCarried ((~~~s).setWidth 32) 1 .word then
        isCarried (d.signExtend 32) ((~~~s + 1).setWidth 32) .word
      else true)
      = decide (s.toNat ≤ d.toNat ∨ 0x8000 ≤ d.toNat) := by
  have hd := d.isLt
  have hs := s.isLt
  have hneg := Subtraction.toNat_neg_eq s
  rw [earlyCarry_word, isCarried_sign_zero, neg_word, hneg]
  -- the early carry stands in for the negative of zero, which is no full word
  by_cases h0 : s.toNat = 0
  · simp [h0]
  · rw [if_pos (by simpa using h0), if_neg h0, decide_eq_decide]
    omega

/-- The carry of the byte form: a large source word, and a high byte in the word at the
destination, set it. -/
theorem carry_byte (d s : BitVec 16) :
    (if !isCarried ((~~~s).setWidth 32) 1 .byte then
        isCarried (d.signExtend 32) ((~~~s + 1).setWidth 32) .byte
      else true)
      = decide (s.toNat ≤ 0xFF00 ∨ (s.setWidth 8).toNat ≤ (d.setWidth 8).toNat
          ∨ highByte d ≠ 0) := by
  have hd := d.isLt
  have hs := s.isLt
  have hneg := Subtraction.toNat_neg_eq s
  have hhigh : highByte d ≠ 0 ↔ 256 ≤ d.toNat := by
    rw [ne_eq, ← BitVec.toNat_inj, toNat_highByte]
    simp only [BitVec.ofNat_eq_ofNat, BitVec.toNat_ofNat]
    omega
  rw [earlyCarry_byte, isCarried_byte, neg_word, toNat_zeroExtend_word, hneg,
    toNat_signExtend_word]
  simp only [BitVec.toNat_setWidth]
  -- the early carry sees the whole word and hides the byte comparison
  by_cases h0 : s.toNat ≤ 0xFF00
  · simp [h0]
  · have hs0 : s.toNat ≠ 0 := by omega
    rw [if_pos (by simpa using h0), if_neg hs0, decide_eq_decide, hhigh]
    split_ifs <;> omega

/-- The flags of the word form. -/
theorem sr_execCmp_word (emu : Emulator) (s : BitVec 16) (p : Ptr) :
    let d := emu.load16 p
    let sr := (execCmp emu .word s p).sr
    sr.zero = (d == s) ∧
      sr.carry = decide (s.toNat ≤ d.toNat ∨ 0x8000 ≤ d.toNat) ∧
      (sr.negative ^^ sr.overflow) = (d.slt s ^^ decide (s = 0x8000)) := by
  intro d sr
  refine ⟨?_, carry_word d s, ?_⟩
  · simp only [sr, execCmp, isZero]
    rw [add_not_add_one, sub_beq_zero]
  · simp only [sr, execCmp]
    rw [isNegative_word, isOverflowed_word, add_not_add_one, neg_word]
    exact Subtraction.sign_xor_overflow d s

/-- The sum of two zero-extended bytes, cut to a byte. -/
theorem setWidth_add_setWidth (x y : BitVec 8) :
    (x.setWidth 16 + y.setWidth 16).setWidth 8 = x + y := by
  rw [BitVec.setWidth_add _ _ (by decide)]
  simp

/-- The flags of the byte form. -/
theorem sr_execCmp_byte (emu : Emulator) (s : BitVec 16) (p : Ptr) :
    let d := emu.load16 p
    let s8 := s.setWidth 8
    let d8 := d.setWidth 8
    let sr := (execCmp emu .byte s p).sr
    sr.zero = (d8 == s8) ∧
      sr.carry = decide (s.toNat ≤ 0xFF00 ∨ s8.toNat ≤ d8.toNat ∨ highByte d ≠ 0) ∧
      (sr.negative ^^ sr.overflow) = (d8.slt s8 ^^ decide (s8 = 0x80)) := by
  intro d s8 d8 sr
  have hneg : (~~~s + 1).setWidth 8 = -s8 := by rw [neg_word, setWidth_neg]
  have hresult : d8 + (~~~s + 1).setWidth 8 = d8 - s8 := by
    rw [hneg, BitVec.sub_eq_add_neg]
  refine ⟨?_, carry_byte d s, ?_⟩
  · simp only [sr, execCmp, isZero]
    rw [setWidth_add_setWidth, Emulator.load8_eq, hresult, sub_beq_zero]
  · simp only [sr, execCmp]
    rw [isNegative_byte, isOverflowed_byte, setWidth_add_setWidth, Emulator.load8_eq,
      hresult, hneg]
    exact Subtraction.sign_xor_overflow d8 s8

/-! ## Compare and branch -/

/-- CMP is `execCmp` after the operand block. -/
theorem decode_compare (emu : Emulator) (w : BitVec 16) (h : formatId w = 0x9) :
    decode emu w false
      = execCmp (operandsI emu w false).emu (bwFlag w) (operandsI emu w false).sourceValue
          (operandsI emu w false).destinationAddr := by
  rw [decode_formatI emu w false (by rw [h]; decide)]
  simp only [decodeFormatI, h]
  rfl

theorem xor_decide_eq_self (x : Bool) (P : Prop) [Decidable P] :
    (x ^^ decide P) = x ↔ ¬ P := by
  cases x <;> simp

/-- **Compare and branch agree with the order exactly when** the source is not the least
number, and, in word form, a destination below the source has its top bit clear, in byte
form, a destination below the source is a word without high byte and the source a word
above `0xFF00`. -/
theorem compare_branches_iff (emu : Emulator) (w : BitVec 16) (h : formatId w = 0x9) :
    let o := operandsI emu w false
    let s := o.sourceValue
    let d := o.emu.load16 o.destinationAddr
    (bwFlag w = .word →
        (BranchesByOrder (decode emu w false) s d
          ↔ s ≠ 0x8000 ∧ (s ≤ d ∨ d < 0x8000))) ∧
      (bwFlag w = .byte →
        (BranchesByOrder (decode emu w false) (s.setWidth 8) (d.setWidth 8)
          ↔ s.setWidth 8 ≠ 0x80 ∧
            (s.setWidth 8 ≤ d.setWidth 8 ∨ (0xFF00 < s ∧ highByte d = 0)))) := by
  intro o s d
  rw [decode_compare emu w h]
  constructor
  · intro hbw
    rw [hbw]
    obtain ⟨hz, hc, hn⟩ := sr_execCmp_word o.emu s o.destinationAddr
    rw [branchesByOrder_iff _ s d hz, hc, hn, xor_decide_eq_self, and_comm]
    refine and_congr_right fun _ => ?_
    rw [show s.ule d = decide (s.toNat ≤ d.toNat) from rfl, decide_eq_decide]
    show (s.toNat ≤ d.toNat ∨ 0x8000 ≤ d.toNat ↔ s.toNat ≤ d.toNat) ↔
      s.toNat ≤ d.toNat ∨ d.toNat < 0x8000
    omega
  · intro hbw
    rw [hbw]
    obtain ⟨hz, hc, hn⟩ := sr_execCmp_byte o.emu s o.destinationAddr
    rw [branchesByOrder_iff _ _ _ hz, hc, hn, xor_decide_eq_self, and_comm]
    refine and_congr_right fun _ => ?_
    rw [show (s.setWidth 8).ule (d.setWidth 8)
        = decide ((s.setWidth 8).toNat ≤ (d.setWidth 8).toNat) from rfl, decide_eq_decide]
    show (s.toNat ≤ 0xFF00 ∨ (s.setWidth 8).toNat ≤ (d.setWidth 8).toNat ∨ highByte d ≠ 0
        ↔ (s.setWidth 8).toNat ≤ (d.setWidth 8).toNat) ↔
      (s.setWidth 8).toNat ≤ (d.setWidth 8).toNat ∨ 0xFF00 < s.toNat ∧ highByte d = 0
    by_cases hd : highByte d = 0
    · simp only [hd, ne_eq, not_true_eq_false, or_false, and_true]
      omega
    · simp only [hd, ne_eq, not_false_eq_true, or_true, true_iff, and_false, or_false]

/-- `CMP R4, R5` with `R4 = 0xF000` and `R5 = 0x9000`: JC is taken although
`0x9000 < 0xF000`. -/
theorem compare_branches_wrong :
    let emu := (startState.setReg 4 0xF000).setReg 5 0x9000
    ¬ BranchesByOrder (decode emu 0x9405 false) (0xF000 : BitVec 16) 0x9000 := by
  intro emu h
  have hc := conditionHolds_of_decode _ 0x2C01 false (by decide) (by decide)
    (h 0x2C01 _ (by decide) (by decide))
  revert hc
  decide

/-- `CMP R4, R5` with `R4 = 1` and `R5 = 2`, and `CMP.B R4, R5` with `R4 = 0xFFFE`. -/
theorem compare_branches_iff_small :
    BranchesByOrder (decode ((startState.setReg 4 1).setReg 5 2) 0x9405 false)
        (1 : BitVec 16) 2 ∧
      BranchesByOrder (decode ((startState.setReg 4 0xFFFE).setReg 5 2) 0x9445 false)
        (0xFE : BitVec 8) 2 :=
  ⟨((compare_branches_iff ((startState.setReg 4 1).setReg 5 2) 0x9405 (by decide)).1
      (by decide)).mpr (by decide),
    ((compare_branches_iff ((startState.setReg 4 0xFFFE).setReg 5 2) 0x9445 (by decide)).2
      (by decide)).mpr (by decide)⟩

end Msp430
