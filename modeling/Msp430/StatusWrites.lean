/-
# Writes to the status register

`get_reg_ptr` hands out a pointer to a copy of the status word.  The debugger assigns to
the bit-field struct with `set_sr_value`; an instruction that writes register 2 assigns to
the copy, and the struct only sees the flags that the instruction sets besides.
`status_writes_iff` says for every path when the written bits read back.
-/
import Msp430.StatusShifts
import Msp430.SumFlags

namespace Msp430

/-! ## Format I instructions on the status register -/

/-- The operand block of a Format I instruction whose destination is register 2. -/
theorem operandsI_status (emu : Emulator) (w : BitVec 16) (ha : adFlag w = false)
    (hr : lowReg w = 2) :
    (operandsI emu w false).destinationAddr = .reg 2 ∧
      (operandsI emu w false).emu.regs 2 = statusOperand (bwFlag w) emu.sr := by
  refine ⟨?_, ?_⟩
  · rw [operandsI_destinationAddr, destinationI_eq_reg]
    exact ⟨ha, hr⟩
  · rw [operandsI_emu]
    have hinc : ¬ (autoIncrements w = true ∧ 2 = sourceReg w) := by
      rintro ⟨hi, h2⟩
      simp only [autoIncrements, Bool.and_eq_true, Option.isNone_iff_eq_none,
        beq_iff_eq] at hi
      exact sourceReg_ne_two hi.1.1 (by rw [hi.1.2]; decide) h2.symm
    have hinc' : (autoIncrements w && (2 : Fin 16) == sourceReg w) = false := by
      simpa using fun hi h2 => hinc ⟨hi, h2⟩
    cases hbw : bwFlag w <;>
      simp [regsI, unmaskedI, masksDestination, regs_lookupsI, hinc', hbw, ha, hr,
        statusOperand]

/-- The bits that an instruction writes of the nine. -/
def statusMask (bw : Width) : BitVec 16 :=
  match bw with
  | .word => 0x1FF
  | .byte => 0xFF

/-- The result `r` is what the status register becomes when the carry and overflow flags are `c`
and `o`: it is not zero, its bits 0, 1, 2 and 8 are the flags and the others the old ones. -/
def FlagsReadBack {n : ℕ} (v : BitVec 16) (r : BitVec n) (c o : Bool) : Prop :=
  r ≠ 0 ∧ r.setWidth 16 &&& 0x1FF
    = v &&& 0xF8 ||| bitIf c 0x01 ||| bitIf r.msb 0x04 ||| bitIf o 0x100

instance {n : ℕ} (v : BitVec 16) (r : BitVec n) (c o : Bool) :
    Decidable (FlagsReadBack v r c o) :=
  inferInstanceAs (Decidable (_ ∧ _))

/-- The sources with which a writing opcode on the status register reads back.  MOV, BIC and BIS
have to change nothing; the byte forms clear the overflow flag besides. -/
def WriteReadsBack (opcode : Fin 16) (bw : Width) (sr : StatusReg) (s : BitVec 16) : Prop :=
  let v := srToValue sr
  let sl := s.setWidth bw.bits
  let vl := v.setWidth bw.bits
  if opcode = 0x4 then s &&& statusMask bw = v &&& 0x1FF
  else if opcode = 0xC then s &&& v &&& statusMask bw = 0 ∧ (bw = .byte → sr.overflow = false)
  else if opcode = 0xD then
    s &&& ~~~v &&& statusMask bw = 0 ∧ (bw = .byte → sr.overflow = false)
  else if opcode = 0xE then FlagsReadBack v (vl ^^^ sl) true (vl.msb && sl.msb)
  else if opcode = 0xF then FlagsReadBack v (vl &&& sl) true false
  else
    FlagsReadBack v (sumOf opcode sr.carry sl vl)
      (decide (SumCarries opcode bw sr.carry s (statusOperand bw sr)))
      (decide (SumOverflows bw (statusOperand bw sr) (addend opcode s sr.carry).1
        (addend opcode s sr.carry).2))

instance (opcode : Fin 16) (bw : Width) (sr : StatusReg) (s : BitVec 16) :
    Decidable (WriteReadsBack opcode bw sr s) := by
  unfold WriteReadsBack
  infer_instance

/-- The status word with other flags. -/
theorem srToValue_flags (sr : StatusReg) (c n z o : Bool) :
    srToValue { sr with carry := c, zero := z, negative := n, overflow := o } &&& 0x1FF
      = (srToValue sr &&& 0xF8 ||| bitIf c 0x01 ||| bitIf n 0x04 ||| bitIf o 0x100)
        ||| bitIf z 0x02 := by
  have hhigh : (srToValue sr &&& 0xF8 ||| bitIf c 0x01 ||| bitIf n 0x04 ||| bitIf o 0x100)
      ||| bitIf z 0x02
        = ((srToValue sr &&& 0xF8 ||| bitIf c 0x01 ||| bitIf n 0x04 ||| bitIf o 0x100)
          ||| bitIf z 0x02) &&& 0x1FF := by
    cases c <;> cases n <;> cases z <;> cases o <;>
      simp only [bitIf, BitVec.and_or_distrib_right, BitVec.and_assoc] <;> rfl
  rw [hhigh, implemented_eq_iff]
  intro i
  rw [getLsbD_srToValue]
  simp only [BitVec.getLsbD_or, BitVec.getLsbD_and, getLsbD_bitIf, getLsbD_srToValue]
  fin_cases i <;> simp [StatusReg.implemented]

/-- New flags read back when the zero flag is clear: a result of zero has no bit set. -/
theorem flagsReadBack_iff {n : ℕ} (sr : StatusReg) (r : BitVec n) (c o : Bool) :
    srToValue { sr with carry := c, zero := r == 0, negative := r.msb, overflow := o } &&& 0x1FF
        = r.setWidth 16 &&& 0x1FF
      ↔ FlagsReadBack (srToValue sr) r c o := by
  rw [srToValue_flags, FlagsReadBack]
  by_cases h0 : r = 0
  · refine iff_of_false (fun h => ?_) (fun h => h.1 h0)
    have hbit := congrArg (fun x => x.getLsbD 1) h
    simp [h0, bitIf] at hbit
  · rw [and_iff_right h0, beq_eq_false_iff_ne.mpr h0, eq_comm]
    simp [bitIf]

theorem setWidth_statusOperand (bw : Width) (sr : StatusReg) :
    (statusOperand bw sr).setWidth bw.bits = (srToValue sr).setWidth bw.bits := by
  cases bw with
  | word => rfl
  | byte => exact setWidth_mask (srToValue sr)

/-- MOV, BIC and BIS leave the flags, so that what they write has to be there already. -/
theorem mov_readsBack (bw : Width) (v s : BitVec 16) :
    v &&& 0x1FF = (s.setWidth bw.bits).setWidth 16 &&& 0x1FF
      ↔ s &&& statusMask bw = v &&& 0x1FF := by
  have hlow : (s.setWidth bw.bits).setWidth 16 &&& 0x1FF = s &&& statusMask bw := by
    cases bw with
    | word => exact congrArg (· &&& 0x1FF) ((BitVec.setWidth_eq _).trans (BitVec.setWidth_eq s))
    | byte =>
      dsimp only [Width.bits]
      rw [← joinBytes_zero, ← mask_eq_joinBytes, BitVec.and_assoc]
      rfl
  rw [hlow, eq_comm]

theorem bic_readsBack (bw : Width) (v s : BitVec 16) :
    v &&& 0x1FF = (v.setWidth bw.bits &&& ~~~(s.setWidth bw.bits)).setWidth 16 &&& 0x1FF
      ↔ s &&& v &&& statusMask bw = 0 ∧ (bw = .byte → v.getLsbD 8 = false) := by
  rw [implemented_eq_iff, and_eq_iff_getLsbD]
  cases bw with
  | word =>
    change (∀ i : Fin 9, v.getLsbD i
      = ((v.setWidth 16 &&& ~~~(s.setWidth 16)).setWidth 16).getLsbD i) ↔ _
    simp [Fin.forall_fin_succ, statusMask]
    grind
  | byte =>
    change (∀ i : Fin 9, v.getLsbD i
      = ((v.setWidth 8 &&& ~~~(s.setWidth 8)).setWidth 16).getLsbD i) ↔ _
    simp [Fin.forall_fin_succ, statusMask]
    grind

theorem bis_readsBack (bw : Width) (v s : BitVec 16) :
    v &&& 0x1FF = (v.setWidth bw.bits ||| s.setWidth bw.bits).setWidth 16 &&& 0x1FF
      ↔ s &&& ~~~v &&& statusMask bw = 0 ∧ (bw = .byte → v.getLsbD 8 = false) := by
  rw [implemented_eq_iff, and_eq_iff_getLsbD]
  cases bw with
  | word =>
    change (∀ i : Fin 9, v.getLsbD i
      = ((v.setWidth 16 ||| s.setWidth 16).setWidth 16).getLsbD i) ↔ _
    simp [Fin.forall_fin_succ, statusMask]
  | byte =>
    change (∀ i : Fin 9, v.getLsbD i
      = ((v.setWidth 8 ||| s.setWidth 8).setWidth 16).getLsbD i) ↔ _
    simp [Fin.forall_fin_succ, statusMask]
    grind

/-- **What a writing opcode reads back**, by its operands. -/
theorem writeReadsBack_iff {opcode : Fin 16} (h : Writes opcode) (bw : Width) (sr : StatusReg)
    (s : BitVec 16) :
    srToValue (operandFlags opcode bw sr s (statusOperand bw sr)) &&& 0x1FF
        = (aluResult opcode (s.setWidth bw.bits) ((srToValue sr).setWidth bw.bits)
            sr.carry).setWidth 16 &&& 0x1FF
      ↔ WriteReadsBack opcode bw sr s := by
  have hoverflow : (srToValue sr).getLsbD 8 = sr.overflow := getLsbD_srToValue sr 8
  by_cases hadds : Adds opcode
  · have h9 : opcode ≠ 0x9 := by
      rintro rfl
      exact absurd h (by decide)
    rw [operandFlags, if_pos hadds, setWidth_statusOperand, aluResult_eq hadds h9]
    refine (flagsReadBack_iff sr _ _ _).trans ?_
    unfold Adds at hadds
    fin_cases hadds
    · rfl
    · rfl
    · rfl
    · rfl
    · exact absurd rfl h9
  · rw [operandFlags, if_neg hadds, setWidth_statusOperand]
    -- a result that is not zero sets the carry
    have hset {n : ℕ} (r : BitVec n) (o : Bool) :
        srToValue (resultFlags sr r o) &&& 0x1FF = r.setWidth 16 &&& 0x1FF
          ↔ FlagsReadBack (srToValue sr) r true o := by
      refine (flagsReadBack_iff sr r _ o).trans (and_congr_right fun h0 => ?_)
      rw [beq_eq_false_iff_ne.mpr h0, Bool.not_false]
    unfold Writes at h
    fin_cases h
    · exact mov_readsBack bw (srToValue sr) s
    · exact absurd (by decide) hadds
    · exact absurd (by decide) hadds
    · exact absurd (by decide) hadds
    · exact absurd (by decide) hadds
    · refine (bic_readsBack bw (srToValue sr) s).trans ?_
      rw [hoverflow]
      rfl
    · refine (bis_readsBack bw (srToValue sr) s).trans ?_
      rw [hoverflow]
      rfl
    · exact hset _ _
    · exact hset _ _

/-- **A Format I instruction on the status register** reads back exactly when its source is one
with which the status register ends with the written bits anyway. -/
theorem write_status_iff (emu : Emulator) (w : BitVec 16) (h : Writes (formatId w))
    (ha : adFlag w = false) (hr : lowReg w = 2) :
    StatusWritten (decode emu w false)
      ↔ WriteReadsBack (formatId w) (bwFlag w) emu.sr (sourceValueI emu w) := by
  obtain ⟨hdst, hreg⟩ := operandsI_status emu w ha hr
  have h4 : 4 ≤ formatId w := four_le_of_writes h
  have hexec : decode emu w false = executeI (operandsI emu w false).emu (formatId w)
      (bwFlag w) (sourceValueI emu w) (.reg 2) := by
    rw [decode_formatI emu w false h4]
    simp only [decodeFormatI, Bool.false_eq_true, if_false, hdst, operandsI_sourceValue]
  have hload : (operandsI emu w false).emu.load16 (.reg 2)
      = statusOperand (bwFlag w) emu.sr := hreg
  have hresult : (decode emu w false).regs 2
      = (aluResult (formatId w) ((sourceValueI emu w).setWidth (bwFlag w).bits)
          ((srToValue emu.sr).setWidth (bwFlag w).bits) emu.sr.carry).setWidth 16 := by
    refine (congrArg (Emulator.load16 · (.reg 2)) hexec).trans ?_
    rw [load16_executeI _ _ _ _ _ h, hload, sr_operandsI]
    cases bwFlag w with
    | word =>
      dsimp only [Width.bits, statusOperand]
      rw [BitVec.setWidth_eq, BitVec.setWidth_eq, BitVec.setWidth_eq]
    | byte =>
      simp only [statusOperand, highByte_mask, setWidth_mask]
      exact joinBytes_zero _
  have hsr : (decode emu w false).sr = operandFlags (formatId w) (bwFlag w) emu.sr
      (sourceValueI emu w) (statusOperand (bwFlag w) emu.sr) := by
    rw [hexec, sr_executeI_operands, hload, sr_operandsI]
  rw [StatusWritten, hsr, hresult]
  exact writeReadsBack_iff h (bwFlag w) emu.sr (sourceValueI emu w)

/-! ## PUSH SR and POP SR -/

/-- `PUSH SR` stores the status word on top of the stack. -/
theorem push_status (emu : Emulator) :
    (decode emu 0x1202 false).sp = emu.sp - 2 ∧
      (decode emu 0x1202 false).load16 (getStackPtr (decode emu 0x1202 false))
        = srToValue emu.sr := by
  have hsp : (operandsII emu 0x1202).emu.sp = emu.sp := by
    rw [operandsII_emu, Emulator.sp]
    show regsII emu 0x1202 1 = emu.sp
    rw [regsII_of_ne emu 0x1202 1 (by decide) (by decide) (by decide), if_neg (by decide)]
    rfl
  have hval : sourceValueII emu 0x1202 = srToValue emu.sr := rfl
  rw [decode_pushes emu 0x1202 (by decide), hval]
  refine ⟨?_, ?_⟩
  · rw [Emulator.sp, regs_execPush, if_pos rfl, hsp]
  · rw [getStackPtr_execPush, execPush_eq]
    exact Emulator.load16_store16 _ _ _

/-- `POP SR`, that is `MOV @SP+, SR`, moves the word on top of the stack to the copy and
leaves the status register as it was. -/
theorem pop_status (emu : Emulator) :
    (decode emu 0x4132 false).regs 2 = emu.load16 (getStackPtr emu) ∧
      (decode emu 0x4132 false).sp = emu.sp + 2 ∧ (decode emu 0x4132 false).sr = emu.sr := by
  obtain ⟨-, hregs⟩ := decode_pops emu 0x4132 (by decide)
  refine ⟨?_, ?_, ?_⟩
  · rw [hregs, if_pos (by decide)]
    rfl
  · rw [Emulator.sp, hregs, if_neg (by decide), if_pos rfl]
    rfl
  · rw [decode_formatI emu 0x4132 false (by decide)]
    simp only [decodeFormatI, Bool.false_eq_true, if_false]
    rw [sr_executeI _ (formatId 0x4132) _ _ _ (Or.inl rfl), sr_operandsI]

/-! ## The paths that write the status register -/

/-- **Which writes of the status register take effect.**  The debugger's always; those of
an instruction only when the status register ends with the written bits anyway, since
the instruction writes a copy; and `POP SR` brings the word that `PUSH SR` saved back to
that copy, so that it restores the status register only when the instructions in between
have not changed it. -/
theorem status_writes_iff (emu emu' : Emulator) (v w : BitVec 16) :
    srToValue (setSrValue emu v).sr &&& 0x1FF = v &&& 0x1FF ∧
      (Writes (formatId w) → adFlag w = false → lowReg w = 2 →
        (StatusWritten (decode emu w false)
          ↔ WriteReadsBack (formatId w) (bwFlag w) emu.sr (sourceValueI emu w))) ∧
      (formatId w = 1 → opcodeII w = 0 ∨ opcodeII w = 1 ∨ opcodeII w = 2 →
        asFlag w = 0 → lowReg w = 2 →
        (StatusWritten (decode emu w false)
          ↔ ShiftReadsBack (opcodeII w) (bwFlag w) (srToValue emu.sr))) ∧
      (emu'.sp = (decode emu 0x1202 false).sp →
        emu'.load16 (getStackPtr emu')
          = (decode emu 0x1202 false).load16 (getStackPtr (decode emu 0x1202 false)) →
        (decode emu' 0x4132 false).regs 2 = srToValue emu.sr ∧
          (decode emu' 0x4132 false).sp = emu.sp ∧
          (srToValue (decode emu' 0x4132 false).sr &&& 0x1FF = srToValue emu.sr &&& 0x1FF
            ↔ srToValue emu'.sr &&& 0x1FF = srToValue emu.sr &&& 0x1FF)) := by
  refine ⟨?_, write_status_iff emu w, shift_status_iff emu w, ?_⟩
  · rw [implemented_eq_iff]
    intro i
    rw [getLsbD_srToValue, implemented_setSrValue]
  · intro hsp htop
    obtain ⟨hpushed, hvalue⟩ := push_status emu
    obtain ⟨hpopped, hback, hsr⟩ := pop_status emu'
    refine ⟨?_, ?_, ?_⟩
    · rw [hpopped, htop, hvalue]
    · rw [hback, hsp, hpushed]
      bv_omega
    · rw [hsr]

/-- `SETC`, that is `BIS #1, SR`, does not set the carry flag. -/
theorem status_write_lost : ¬ StatusWritten (decode startState 0xD312 false) := by
  unfold StatusWritten
  decide

/-- `BIC #1, SR` on a clear carry flag, and `RRC SR` on the word `0x1FB`. -/
theorem status_writes_iff_kept :
    StatusWritten (decode startState 0xC312 false) ∧
      StatusWritten (decode (setSrValue startState 0x1FB) 0x1002 false) :=
  ⟨((status_writes_iff startState startState 0 0xC312).2.1 (by decide) rfl rfl).mpr
      (by decide),
    ((status_writes_iff (setSrValue startState 0x1FB) startState 0 0x1002).2.2.1 rfl
      (Or.inl rfl) rfl rfl).mpr (Or.inl (by decide))⟩

end Msp430
