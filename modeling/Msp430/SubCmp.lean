/-
# SUB and CMP side by side

The two opcodes compute one difference by two separately written paths.  Sign, zero and
overflow always agree, and SUB stores the difference.  The carries differ: SUB promotes
its negated source with its sign, and leaves the flag alone where it finds no carry.
-/
import Msp430.Compare

namespace Msp430

/-! ## Instruction words that differ in the opcode -/

/-- The words agree in everything below the opcode. -/
def SameOperands (w w' : BitVec 16) : Prop := w.setWidth 12 = w'.setWidth 12

instance (w w' : BitVec 16) : Decidable (SameOperands w w') :=
  inferInstanceAs (Decidable (_ = _))

/-- A field below the opcode. -/
theorem SameOperands.extractLsb' {w w' : BitVec 16} (h : SameOperands w w') (i k : ℕ)
    (hik : i + k ≤ 12) : w.extractLsb' i k = w'.extractLsb' i k := by
  have hcut (v : BitVec 16) : v.extractLsb' i k = (v.setWidth 12).extractLsb' i k := by
    ext j hj
    simp [show i + j < 12 by omega]
  rw [hcut w, hcut w', h]

/-- A bit below the opcode. -/
theorem SameOperands.getLsbD {w w' : BitVec 16} (h : SameOperands w w') (i : ℕ)
    (hi : i < 12) : w.getLsbD i = w'.getLsbD i := by
  have := congrArg (fun v => BitVec.getLsbD v i) h
  simpa [hi] using this

/-- The operand block does not read the opcode. -/
theorem SameOperands.operandsI {w w' : BitVec 16} (h : SameOperands w w') (emu : Emulator)
    (disassemble : Bool) :
    Msp430.operandsI emu w disassemble = Msp430.operandsI emu w' disassemble := by
  have hs : sourceReg w = sourceReg w' := by
    unfold sourceReg
    rw [h.extractLsb' 8 4 (by omega)]
  have hd : lowReg w = lowReg w' := by
    unfold lowReg
    rw [h.extractLsb' 0 4 (by omega)]
  have has : asFlag w = asFlag w' := by
    unfold asFlag
    rw [h.extractLsb' 4 2 (by omega)]
  have had : adFlag w = adFlag w' := h.getLsbD 7 (by omega)
  have hbw : bwFlag w = bwFlag w' := by
    unfold bwFlag
    rw [h.getLsbD 6 (by omega)]
  simp only [Msp430.operandsI, hs, hd, has, had, hbw]

/-- The width is below the opcode. -/
theorem SameOperands.bwFlag {w w' : BitVec 16} (h : SameOperands w w') :
    Msp430.bwFlag w = Msp430.bwFlag w' := by
  unfold Msp430.bwFlag
  rw [h.getLsbD 6 (by omega)]

/-! ## The carry of SUB -/

/-- The value of a negated source with its sign. -/
theorem toNat_signExtend_neg (s : BitVec 16) :
    ((-s).signExtend 32).toNat
      = if s.toNat = 0 then 0
        else if s.toNat ≤ 0x8000 then 2 ^ 32 - s.toNat else 2 ^ 16 - s.toNat := by
  have hs := s.isLt
  rw [toNat_signExtend_word, Subtraction.toNat_neg_eq]
  split_ifs <;> omega

/-- In word form the two carry tests of SUB together cover every operand. -/
theorem subCarry_word (d s : BitVec 16) :
    (isCarried (~~~((-s).signExtend 32)) 1 .word
      || isCarried (d.signExtend 32) ((-s).signExtend 32) .word) = true := by
  have hs := s.isLt
  rw [isCarried_sign_sign, isCarried_word, ← Bool.decide_or, decide_eq_true_iff,
    BitVec.toNat_not, toNat_signExtend_neg, Subtraction.toNat_neg_eq,
    show (1 : BitVec 32).toNat = 1 from rfl]
  split_ifs <;> omega

/-- In byte form they miss a source without high byte that exceeds the low byte of a
destination with high byte one. -/
theorem subCarry_byte (d s : BitVec 16) :
    (isCarried (~~~((-s).signExtend 32)) 1 .byte
      || isCarried (d.signExtend 32) ((-s).signExtend 32) .byte)
      = decide (¬ (highByte s = 0 ∧ highByte d = 1 ∧ d.setWidth 8 < s.setWidth 8)) := by
  have hs := s.isLt
  have hd := d.isLt
  have hhs : highByte s = 0 ↔ s.toNat < 256 := by
    rw [← BitVec.toNat_inj, toNat_highByte, show (0 : BitVec 8).toNat = 0 from rfl]
    omega
  have hhd : highByte d = 1 ↔ 256 ≤ d.toNat ∧ d.toNat < 512 := by
    rw [← BitVec.toNat_inj, toNat_highByte, show (1 : BitVec 8).toNat = 1 from rfl]
    omega
  have hlt : d.setWidth 8 < s.setWidth 8 ↔ d.toNat % 256 < s.toNat % 256 := by
    rw [BitVec.lt_def, BitVec.toNat_setWidth, BitVec.toNat_setWidth]
  rw [isCarried_byte, isCarried_byte, ← Bool.decide_or, decide_eq_decide, BitVec.toNat_not,
    toNat_signExtend_neg, toNat_signExtend_word, hhs, hhd, hlt,
    show (1 : BitVec 32).toNat = 1 from rfl]
  split_ifs <;> omega

/-! ## The flags of the two opcodes -/

/-- The status register after a difference of any width, its carry given. -/
def differenceFlags {n : ℕ} (sr : StatusReg) (s d : BitVec (n + 1)) (carry : Bool) :
    StatusReg :=
  { sr with
    zero := d - s == 0
    negative := (d - s).msb
    carry := carry
    overflow := Subtraction.addOverflow (-s) d (d - s) }

/-- The flags of SUB in word form: the carry is always set. -/
theorem sr_execSub_word (emu : Emulator) (s : BitVec 16) (p : Ptr) :
    (executeI emu 0x8 .word s p).sr = differenceFlags emu.sr s (emu.load16 p) true := by
  rw [sr_executeI_eq _ _ _ _ _ (by decide), load16_executeI _ _ _ _ _ (by decide)]
  simp only [flagsI, differenceFlags, aluResult, isZero]
  rw [subCarry_word, isNegative_word, isOverflowed_word, Bool.true_or]

/-- The flags of SUB in byte form: the carry is set, or stays. -/
theorem sr_execSub_byte (emu : Emulator) (s : BitVec 16) (p : Ptr) :
    let d := emu.load16 p
    (executeI emu 0x8 .byte s p).sr
      = differenceFlags emu.sr (s.setWidth 8) (d.setWidth 8)
          (decide (¬ (highByte s = 0 ∧ highByte d = 1 ∧ d.setWidth 8 < s.setWidth 8))
            || emu.sr.carry) := by
  intro d
  rw [sr_executeI_eq _ _ _ _ _ (by decide), load16_executeI _ _ _ _ _ (by decide)]
  simp only [flagsI, differenceFlags, aluResult, isZero]
  rw [subCarry_byte, isNegative_byte, isOverflowed_byte, setWidth_joinBytes, setWidth_neg]

/-- The flags of CMP in word form. -/
theorem sr_execCmp_word_eq (emu : Emulator) (s : BitVec 16) (p : Ptr) :
    let d := emu.load16 p
    (execCmp emu .word s p).sr
      = differenceFlags emu.sr s d (decide (s.toNat ≤ d.toNat ∨ 0x8000 ≤ d.toNat)) := by
  intro d
  simp only [execCmp, differenceFlags, isZero]
  rw [carry_word, isNegative_word, isOverflowed_word, add_not_add_one, neg_word]

/-- The flags of CMP in byte form. -/
theorem sr_execCmp_byte_eq (emu : Emulator) (s : BitVec 16) (p : Ptr) :
    let d := emu.load16 p
    (execCmp emu .byte s p).sr
      = differenceFlags emu.sr (s.setWidth 8) (d.setWidth 8)
          (decide (s.toNat ≤ 0xFF00 ∨ (s.setWidth 8).toNat ≤ (d.setWidth 8).toNat
            ∨ highByte d ≠ 0)) := by
  intro d
  simp only [execCmp, differenceFlags, isZero]
  rw [carry_byte, isNegative_byte, isOverflowed_byte, setWidth_add_setWidth,
    Emulator.load8_eq, neg_word, setWidth_neg, ← BitVec.sub_eq_add_neg]

/-! ## The two opcodes together -/

/-- The four flags agree. -/
def SameFlags (sr sr' : StatusReg) : Prop :=
  sr.negative = sr'.negative ∧ sr.zero = sr'.zero ∧ sr.carry = sr'.carry ∧
    sr.overflow = sr'.overflow

instance (sr sr' : StatusReg) : Decidable (SameFlags sr sr') :=
  inferInstanceAs (Decidable (_ ∧ _))

/-- After one difference the flags agree when the carries do. -/
theorem sameFlags_differenceFlags {n : ℕ} (sr : StatusReg) (s d : BitVec (n + 1))
    (c c' : Bool) :
    SameFlags (differenceFlags sr s d c) (differenceFlags sr s d c') ↔ c = c' := by
  simp [SameFlags, differenceFlags]

/-- SUB is its execute case after the operand block. -/
theorem decode_sub (emu : Emulator) (w : BitVec 16) (h : formatId w = 0x8) :
    decode emu w false
      = executeI (operandsI emu w false).emu 0x8 (bwFlag w) (operandsI emu w false).sourceValue
          (operandsI emu w false).destinationAddr := by
  rw [decode_formatI emu w false (by rw [h]; decide)]
  simp only [decodeFormatI, h]
  rfl

/-- **SUB and CMP leave the same flags exactly when**, in word form, the destination is
not below the source or has its top bit set, and, in byte form, CMP finds a carry (a
source word up to `0xFF00`, a low byte not below the source's, a high byte at the
destination), which SUB must not have missed with the flag clear.  SUB stores the
difference in every case. -/
theorem sub_cmp_iff (emu : Emulator) (w w' : BitVec 16) (h : formatId w = 0x8)
    (h' : formatId w' = 0x9) (hw : SameOperands w w') :
    let o := operandsI emu w false
    let s := o.sourceValue
    let d := o.emu.load16 o.destinationAddr
    let sub := decode emu w false
    let cmp := decode emu w' false
    (bwFlag w = .word →
        sub.load16 o.destinationAddr = d - s ∧
          (SameFlags sub.sr cmp.sr ↔ s ≤ d ∨ 0x8000 ≤ d)) ∧
      (bwFlag w = .byte →
        sub.load8 o.destinationAddr = d.setWidth 8 - s.setWidth 8 ∧
          (SameFlags sub.sr cmp.sr
            ↔ (s ≤ 0xFF00 ∨ s.setWidth 8 ≤ d.setWidth 8 ∨ highByte d ≠ 0) ∧
              (highByte s = 0 → highByte d = 1 → d.setWidth 8 < s.setWidth 8 →
                emu.sr.carry = true))) := by
  intro o s d sub cmp
  have hsr : o.emu.sr = emu.sr := sr_operandsI emu w false
  have hsub : sub = executeI o.emu 0x8 (bwFlag w) s o.destinationAddr := decode_sub emu w h
  have hcmp : cmp = execCmp o.emu (bwFlag w) s o.destinationAddr := by
    have := decode_compare emu w' h'
    rwa [← hw.operandsI emu false, ← hw.bwFlag] at this
  constructor
  · intro hbw
    rw [hbw] at hsub hcmp
    rw [hsub, hcmp]
    constructor
    · rw [load16_executeI _ _ _ _ _ (by decide)]
      rfl
    · rw [sr_execSub_word, sr_execCmp_word_eq, sameFlags_differenceFlags, eq_comm,
        decide_eq_true_iff]
      exact Iff.rfl
  · intro hbw
    rw [hbw] at hsub hcmp
    rw [hsub, hcmp]
    constructor
    · rw [Emulator.load8_eq, load16_executeI _ _ _ _ _ (by decide)]
      exact setWidth_joinBytes _ _
    · rw [sr_execSub_byte, sr_execCmp_byte_eq, sameFlags_differenceFlags, hsr]
      show (decide (¬ (highByte s = 0 ∧ highByte d = 1 ∧ d.setWidth 8 < s.setWidth 8))
            || emu.sr.carry)
          = decide (s ≤ 0xFF00 ∨ s.setWidth 8 ≤ d.setWidth 8 ∨ highByte d ≠ 0) ↔ _
      by_cases hmiss : highByte s = 0 ∧ highByte d = 1 ∧ d.setWidth 8 < s.setWidth 8
      · -- SUB misses the carry: CMP finds it, on the high byte of the destination
        simp [hmiss]
      · have himp : highByte s = 0 → highByte d = 1 → d.setWidth 8 < s.setWidth 8 →
            emu.sr.carry = true := fun h1 h2 h3 => absurd ⟨h1, h2, h3⟩ hmiss
        rw [decide_eq_true hmiss, Bool.true_or, eq_comm, decide_eq_true_iff]
        exact ⟨fun hc => ⟨hc, himp⟩, fun hc => hc.1⟩

/-- `SUB R4, R5` and `CMP R4, R5` with `R4 = 2` and `R5 = 1`: SUB sets the carry, CMP
does not. -/
theorem sub_cmp_wrong :
    let emu := (startState.setReg 4 2).setReg 5 1
    (decode emu 0x8405 false).sr.carry = true ∧ (decode emu 0x9405 false).sr.carry = false ∧
      ¬ SameFlags (decode emu 0x8405 false).sr (decode emu 0x9405 false).sr := by
  decide

/-- With `R4 = 1` and `R5 = 2` the flags agree, in both widths. -/
theorem sub_cmp_iff_small :
    let emu := (startState.setReg 4 1).setReg 5 2
    SameFlags (decode emu 0x8405 false).sr (decode emu 0x9405 false).sr ∧
      SameFlags (decode emu 0x8445 false).sr (decode emu 0x9445 false).sr := by
  intro emu
  have hword := (sub_cmp_iff emu 0x8405 0x9405 (by decide) (by decide) (by decide)).1
    (by decide)
  have hbyte := (sub_cmp_iff emu 0x8445 0x9445 (by decide) (by decide) (by decide)).2
    (by decide)
  exact ⟨hword.2.mpr (by decide), hbyte.2.mpr (by decide)⟩

end Msp430
