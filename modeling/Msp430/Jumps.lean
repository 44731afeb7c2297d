/-
# Where the jumps go

The jumps against their encoding: `jumpOffset` reads the offset field as a signed number
and `Condition` is the documented condition.  The conditions are right; the offset is not
where the doubled field shows a bit that the code takes for its sign.
-/
import Msp430.Compare

namespace Msp430

/-! ## What the encoding says -/

/-- The offset of a jump in words: the 10-bit field as a two's-complement number. -/
def jumpOffset (w : BitVec 16) : ℤ := (w.extractLsb' 0 10).toInt

/-- The documented conditions: JNZ, JZ, JNC, JC, JN, JGE, JL and JMP. -/
def Condition (sr : StatusReg) : Fin 8 → Prop
  | 0 => sr.zero = false
  | 1 => sr.zero = true
  | 2 => sr.carry = false
  | 3 => sr.carry = true
  | 4 => sr.negative = true
  | 5 => sr.negative = sr.overflow
  | 6 => sr.negative ≠ sr.overflow
  | 7 => True

instance (sr : StatusReg) (condition : Fin 8) : Decidable (Condition sr condition) :=
  match condition with
  | 0 => inferInstanceAs (Decidable (sr.zero = false))
  | 1 => inferInstanceAs (Decidable (sr.zero = true))
  | 2 => inferInstanceAs (Decidable (sr.carry = false))
  | 3 => inferInstanceAs (Decidable (sr.carry = true))
  | 4 => inferInstanceAs (Decidable (sr.negative = true))
  | 5 => inferInstanceAs (Decidable (sr.negative = sr.overflow))
  | 6 => inferInstanceAs (Decidable (sr.negative ≠ sr.overflow))
  | 7 => inferInstanceAs (Decidable True)

/-- The program counter that a jump at the address `a` is documented to leave. -/
def jumpTarget (sr : StatusReg) (a w : BitVec 16) : BitVec 16 :=
  if Condition sr (jumpCondition w) then BitVec.ofInt 16 (a.toNat + 2 + 2 * jumpOffset w)
  else BitVec.ofInt 16 (a.toNat + 2)

/-! ## What the code computes -/

/-- The code tests the documented conditions. -/
theorem conditionHolds_iff (sr : StatusReg) (condition : Fin 8) :
    conditionHolds sr condition = true ↔ Condition sr condition := by
  have hxor : (sr.negative ^^ sr.overflow) = false ↔ sr.negative = sr.overflow := by
    cases sr.negative <;> cases sr.overflow <;> decide
  fin_cases condition
  · exact beq_iff_eq
  · exact beq_iff_eq
  · exact beq_iff_eq
  · exact beq_iff_eq
  · exact beq_iff_eq
  · exact beq_iff_eq.trans hxor
  · refine beq_iff_eq.trans (Iff.trans ?_ (not_congr hxor))
    rw [Bool.not_eq_false]
  · exact iff_of_true rfl trivial

/-- The masked instruction word is the offset field. -/
theorem offsetField (w : BitVec 16) :
    w &&& 0x03FF = (w.extractLsb' 0 10).setWidth 16 := by
  have hmask : ∀ k : Fin 16, (0x03FF : BitVec 16).getLsbD k = decide (k.val < 10) := by
    decide
  ext i hi
  rw [← BitVec.getLsbD_eq_getElem, ← BitVec.getLsbD_eq_getElem, BitVec.getLsbD_and,
    hmask ⟨i, hi⟩]
  by_cases h : i < 10 <;> simp [h, hi]

/-- The offset that the code adds, by the value of the field: it takes the field for
negative from `256` on. -/
theorem toNat_signedOffset (w : BitVec 16) :
    (signedOffset w).toNat
      = 2 * (w.extractLsb' 0 10).toNat
          + if 256 ≤ (w.extractLsb' 0 10).toNat then 0xF800 else 0 := by
  obtain ⟨f, hf⟩ : ∃ f, f = w.extractLsb' 0 10 := ⟨_, rfl⟩
  have hlt := f.isLt
  obtain ⟨v, hv⟩ : ∃ v : BitVec 16, v = f.setWidth 16 * 2 := ⟨_, rfl⟩
  have hval : v.toNat = 2 * f.toNat := by
    rw [hv, BitVec.toNat_mul, BitVec.toNat_setWidth, show (2 : BitVec 16).toNat = 2 from rfl]
    omega
  have hsign : (v.sshiftRight 9 != 0) = decide (256 ≤ f.toNat) := by
    have hmsb : v.msb = false := by
      rw [BitVec.msb_eq_decide, decide_eq_false_iff_not]
      omega
    rw [BitVec.sshiftRight_eq_of_msb_false hmsb, shift_ne_zero, decide_eq_decide]
    omega
  -- the mask lies above the doubled field
  have hor : (v ||| 0xF800).toNat = 2 * f.toNat + 0xF800 := by
    rw [BitVec.toNat_or, hval, show (0xF800 : BitVec 16).toNat = 2 ^ 11 * 31 from rfl,
      Nat.lor_comm, ← Nat.two_pow_add_eq_or_of_lt (by omega)]
    omega
  simp only [signedOffset]
  rw [offsetField, ← hf, ← hv, hsign]
  by_cases h : 256 ≤ f.toNat
  · simp only [h, decide_true, if_true]
    exact hor
  · simp only [h, decide_false, Bool.false_eq_true, if_false]
    exact hval

/-- The offset by the value of the field. -/
theorem jumpOffset_eq (w : BitVec 16) :
    jumpOffset w
      = (w.extractLsb' 0 10).toNat
          - if 512 ≤ (w.extractLsb' 0 10).toNat then 1024 else 0 := by
  rw [jumpOffset, BitVec.toInt_eq_toNat_cond]
  split_ifs <;> omega

/-- The code adds the documented offset, except to a long forward jump. -/
theorem add_signedOffset_iff (a w : BitVec 16) :
    a + 2 + signedOffset w = BitVec.ofInt 16 (a.toNat + 2 + 2 * jumpOffset w)
      ↔ jumpOffset w < 256 := by
  have ha := a.isLt
  have hf := (w.extractLsb' 0 10).isLt
  rw [← BitVec.toNat_inj, BitVec.toNat_add, BitVec.toNat_add, toNat_signedOffset,
    BitVec.toNat_ofInt, jumpOffset_eq, show (2 : BitVec 16).toNat = 2 from rfl]
  split_ifs <;> omega

/-- One step on a jump: only the program counter changes. -/
theorem cpuStep_jump (emu : Emulator) (h : IsJump (fetch emu).1) :
    cpuStep emu
      = emu.setReg 0
          (if Condition emu.sr (jumpCondition (fetch emu).1) then
            emu.pc + 2 + signedOffset (fetch emu).1
          else emu.pc + 2) := by
  obtain ⟨w, hw⟩ : ∃ w, w = (fetch emu).1 := ⟨_, rfl⟩
  rw [cpuStep, decode_formatIII _ _ _ h, decodeFormatIII, if_neg (by decide), ← hw]
  have hsr : (fetch emu).2.sr = emu.sr := rfl
  rw [hsr]
  have htwice (v v' : BitVec 16) : (emu.setReg 0 v).setReg 0 v' = emu.setReg 0 v' := by
    simp only [Emulator.setReg, Emulator.mk.injEq, and_true]
    funext n
    by_cases hn : n = 0 <;> simp [hn]
  by_cases hc : Condition emu.sr (jumpCondition w)
  · rw [if_pos hc, if_pos ((conditionHolds_iff _ _).mpr hc)]
    exact htwice _ _
  · rw [if_neg hc, if_neg (fun hh => hc ((conditionHolds_iff _ _).mp hh))]
    rfl

/-! ## The jumps -/

/-- The address after the instruction word. -/
theorem ofInt_pc_add_two (a : BitVec 16) : BitVec.ofInt 16 (a.toNat + 2) = a + 2 := by
  have ha := a.isLt
  rw [← BitVec.toNat_inj, BitVec.toNat_add, BitVec.toNat_ofInt,
    show (2 : BitVec 16).toNat = 2 from rfl]
  omega

/-- The value of an assigned program counter. -/
theorem setReg_zero_inj (emu : Emulator) (v v' : BitVec 16) :
    emu.setReg 0 v = emu.setReg 0 v' ↔ v = v' := by
  constructor
  · intro h
    simpa using congrArg Emulator.pc h
  · rintro rfl
    rfl

/-- **A jump goes where its encoding says exactly when** it is not taken or its offset is
below `256`: then the step leaves the documented program counter and no other change. -/
theorem jump_iff (emu : Emulator) (h : IsJump (fetch emu).1) :
    cpuStep emu = emu.setReg 0 (jumpTarget emu.sr emu.pc (fetch emu).1)
      ↔ ¬ (Condition emu.sr (jumpCondition (fetch emu).1) ∧
          256 ≤ jumpOffset (fetch emu).1) := by
  rw [cpuStep_jump emu h, setReg_zero_inj, jumpTarget]
  by_cases hc : Condition emu.sr (jumpCondition (fetch emu).1)
  · rw [if_pos hc, if_pos hc, add_signedOffset_iff]
    simp [hc]
  · rw [if_neg hc, if_neg hc, ofInt_pc_add_two]
    simp [hc]

/-- `JMP` with the offset field `256` goes backwards. -/
theorem jump_wrong :
    let emu := startState.setWords [(0xC000, 0x3D00)]
    jumpOffset (fetch emu).1 = 256 ∧
      (cpuStep emu).pc = emu.pc + 2 + 0xFA00 ∧
      cpuStep emu ≠ emu.setReg 0 (jumpTarget emu.sr emu.pc (fetch emu).1) := by
  intro emu
  have hpc : (cpuStep emu).pc = emu.pc + 2 + 0xFA00 := by decide
  refine ⟨by decide, hpc, fun h => ?_⟩
  have ht := congrArg Emulator.pc h
  rw [hpc] at ht
  revert ht
  decide

/-- `JMP` with the offset `-1` stays where it is. -/
theorem jump_iff_self :
    let emu := startState.setWords [(0xC000, 0x3FFF)]
    cpuStep emu = emu.setReg 0 (jumpTarget emu.sr emu.pc (fetch emu).1) := by
  intro emu
  exact (jump_iff emu (by decide)).mpr (by decide)

end Msp430
