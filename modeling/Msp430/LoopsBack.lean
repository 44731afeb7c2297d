/-
# Instructions that stand still

An instruction that leads back to its own address and leaves the registers and the flags as they
are shows nowhere but in the peripherals.  `LoopsOnItself` names these instructions by their
operands and by the flags that they find, and `same_machineStep_iff` says that there are no
others.
-/
import Msp430.SumFlags
import Msp430.ShiftOperands
import Msp430.Lengths
import Msp430.Modes

namespace Msp430

/-! ## Operands of a given result -/

/-- The operands of which an opcode makes the word `a`. -/
def Gives {n : ℕ} (opcode : Fin 16) (carry : Bool) (s d a : BitVec n) : Prop :=
  match opcode with
  | 0x4 => s = a
  | 0x5 => s = a - d
  | 0x6 => s = a - d - BitVec.ofNat n carry.toNat
  | 0x7 => s = d - a - 1 + BitVec.ofNat n carry.toNat
  | 0x8 => s = d - a
  | 0xC => d &&& ~~~s = a
  | 0xD => d ||| s = a
  | 0xE => s = d ^^^ a
  | 0xF => d &&& s = a
  | _ => d = a

theorem xor_eq_iff {n : ℕ} (s d a : BitVec n) : d ^^^ s = a ↔ s = d ^^^ a := by
  constructor
  · rintro rfl
    rw [← BitVec.xor_assoc, BitVec.xor_self, BitVec.zero_xor]
  · rintro rfl
    rw [← BitVec.xor_assoc, BitVec.xor_self, BitVec.zero_xor]

theorem aluResult_eq_iff {n : ℕ} (opcode : Fin 16) (s d a : BitVec n) (carry : Bool) :
    aluResult opcode s d carry = a ↔ Gives opcode carry s d a := by
  by_cases h : Writes opcode
  · unfold Writes at h
    fin_cases h
    · rfl
    · show d + s = a ↔ s = a - d
      rw [eq_sub_iff_add_eq, add_comm]
    · show d + s + _ = a ↔ s = a - d - _
      rw [eq_sub_iff_add_eq, eq_sub_iff_add_eq, add_comm d, add_right_comm]
    · show d + ~~~s + _ = a ↔ s = d - a - 1 + _
      rw [show ~~~s = -s - 1 from BitVec.not_eq_neg_add s]
      constructor
      · rintro rfl
        ring
      · rintro rfl
        ring
    · show d - s = a ↔ s = d - a
      rw [sub_eq_iff_eq_add, eq_sub_iff_add_eq, eq_comm, add_comm]
    · rfl
    · rfl
    · exact xor_eq_iff s d a
    · rfl
  · -- the other opcodes leave the destination
    fin_cases opcode <;> first | rfl | exact absurd (by decide) h

instance {n : ℕ} (opcode : Fin 16) (carry : Bool) (s d a : BitVec n) :
    Decidable (Gives opcode carry s d a) :=
  decidable_of_iff _ (aluResult_eq_iff opcode s d a carry)

/-- The flags are those that an opcode leaves when it makes `a` of the words `s` and `d`. -/
def KeepsFlags (opcode : Fin 16) (bw : Width) (sr : StatusReg) (s d : BitVec 16)
    (a : BitVec bw.bits) : Prop :=
  if Adds opcode then
    (sr.carry = true ↔ SumCarries opcode bw sr.carry s d) ∧ sr.negative = a.msb ∧
      (sr.zero = true ↔ a = 0) ∧ (sr.overflow = true ↔
        SumOverflows bw d (addend opcode s sr.carry).1 (addend opcode s sr.carry).2)
  else if opcode = 0xE ∨ opcode = 0xF then
    (sr.carry = true ↔ a ≠ 0) ∧ sr.negative = a.msb ∧ (sr.zero = true ↔ a = 0) ∧
      (sr.overflow = true ↔ opcode = 0xE ∧
        (d.setWidth bw.bits).msb = true ∧ (s.setWidth bw.bits).msb = true)
  else True

instance (opcode : Fin 16) (bw : Width) (sr : StatusReg) (s d : BitVec 16)
    (a : BitVec bw.bits) : Decidable (KeepsFlags opcode bw sr s d a) := by
  unfold KeepsFlags
  infer_instance

theorem eq_beq_zero_iff {n : ℕ} (b : Bool) (a : BitVec n) :
    b = (a == 0) ↔ (b = true ↔ a = 0) := by
  rw [Bool.eq_iff_iff, beq_iff_eq]

theorem resultFlags_eq_iff {n : ℕ} (sr : StatusReg) (a : BitVec n) (v : Bool) :
    resultFlags sr a v = sr ↔ (sr.carry = true ↔ a ≠ 0) ∧ sr.negative = a.msb ∧
      (sr.zero = true ↔ a = 0) ∧ sr.overflow = v := by
  refine (with_flags_eq_iff sr _ _ _ _).trans ?_
  have hcarry : (sr.carry = !(a == 0)) ↔ (sr.carry = true ↔ a ≠ 0) := by
    rw [Bool.eq_iff_iff, Bool.not_eq_true', beq_eq_false_iff_ne]
  rw [hcarry, eq_beq_zero_iff]

/-- **The flags that an opcode leaves as they are**, by the operands and the result. -/
theorem operandFlags_eq_iff {opcode : Fin 16} (h : Writes opcode) (bw : Width) (sr : StatusReg)
    (s d : BitVec 16) (a : BitVec bw.bits)
    (ha : aluResult opcode (s.setWidth bw.bits) (d.setWidth bw.bits) sr.carry = a) :
    operandFlags opcode bw sr s d = sr ↔ KeepsFlags opcode bw sr s d a := by
  rw [operandFlags, KeepsFlags]
  split_ifs with hadds hlogic
  · have h9 : opcode ≠ 0x9 := by
      rintro rfl
      exact absurd h (by decide)
    have hsum : sumOf opcode sr.carry (s.setWidth bw.bits) (d.setWidth bw.bits) = a :=
      (aluResult_eq hadds h9 _ _ _).symm.trans ha
    refine (with_flags_eq_iff sr _ _ _ _).trans ?_
    rw [hsum, eq_decide_iff, eq_decide_iff, eq_beq_zero_iff]
  · rcases hlogic with rfl | rfl
    · refine (resultFlags_eq_iff sr _ _).trans ?_
      have hoverflow (x y : Bool) : sr.overflow = (x && y) ↔
          (sr.overflow = true ↔ (0xE : Fin 16) = 0xE ∧ x = true ∧ y = true) := by
        rw [Bool.eq_iff_iff, Bool.and_eq_true, and_iff_right rfl]
      rw [show d.setWidth bw.bits ^^^ s.setWidth bw.bits = a from ha, hoverflow]
    · refine (resultFlags_eq_iff sr _ _).trans ?_
      rw [show d.setWidth bw.bits &&& s.setWidth bw.bits = a from ha]
      simp
  · have hnone : opcode = 0x4 ∨ opcode = 0xC ∨ opcode = 0xD := by
      clear ha
      revert opcode
      decide
    rcases hnone with rfl | rfl | rfl <;> exact iff_of_true rfl trivial

/-- An opcode makes the word `a` of the words `s` and `d` and leaves the flags.  A byte form
takes the high byte of `d` over. -/
def LeadsTo (opcode : Fin 16) (bw : Width) (sr : StatusReg) (s d a : BitVec 16) : Prop :=
  (bw = .byte → highByte d = highByte a) ∧
    Gives opcode sr.carry (s.setWidth bw.bits) (d.setWidth bw.bits) (a.setWidth bw.bits) ∧
    KeepsFlags opcode bw sr s d (a.setWidth bw.bits)

instance (opcode : Fin 16) (bw : Width) (sr : StatusReg) (s d a : BitVec 16) :
    Decidable (LeadsTo opcode bw sr s d a) :=
  inferInstanceAs (Decidable (_ ∧ _ ∧ _))

/-- The word that a writing opcode leaves in a register. -/
def resultI (opcode : Fin 16) (bw : Width) (carry : Bool) (s d : BitVec 16) : BitVec 16 :=
  match bw with
  | .word => aluResult opcode s d carry
  | .byte => joinBytes (highByte d) (aluResult opcode (s.setWidth 8) (d.setWidth 8) carry)

theorem leadsTo_iff {opcode : Fin 16} (h : Writes opcode) (bw : Width) (sr : StatusReg)
    (s d a : BitVec 16) :
    resultI opcode bw sr.carry s d = a ∧ operandFlags opcode bw sr s d = sr
      ↔ LeadsTo opcode bw sr s d a := by
  have hresult : resultI opcode bw sr.carry s d = a ↔ (bw = .byte → highByte d = highByte a) ∧
      aluResult opcode (s.setWidth bw.bits) (d.setWidth bw.bits) sr.carry
        = a.setWidth bw.bits := by
    cases bw with
    | word =>
      rw [and_iff_right (fun hc => absurd hc (by decide))]
      dsimp only [Width.bits]
      rw [BitVec.setWidth_eq, BitVec.setWidth_eq, BitVec.setWidth_eq]
      rfl
    | byte =>
      refine (joinBytes_eq_iff _ _ _).trans (and_comm.trans ?_)
      exact and_congr_left fun _ => ⟨fun hhigh _ => hhigh, fun hhigh => hhigh rfl⟩
  rw [hresult, LeadsTo, and_assoc]
  refine and_congr_right fun _ => ?_
  rw [← aluResult_eq_iff]
  exact and_congr_right fun ha => operandFlags_eq_iff h bw sr s d _ ha

/-! ## Instructions that stand still -/

/-- A jump that is taken, to itself. -/
def LoopsIII (emu : Emulator) (w : BitVec 16) : Prop :=
  (2 ≤ formatId w ∧ formatId w ≤ 3) ∧ conditionHolds emu.sr (jumpCondition w) = true ∧
    signedOffset w = -2

/-- A two-operand instruction that writes its own address to the program counter, leaves the
flags and increments no register. -/
def LoopsI (emu : Emulator) (w : BitVec 16) : Prop :=
  Writes (formatId w) ∧ OnPc w ∧ autoIncrements w = false ∧
    LeadsTo (formatId w) (bwFlag w) emu.sr (sourceValueI (fetch emu).2 w)
      (pcBehind (bwFlag w) (emu.pc + advanceI w)) emu.pc

/-- A shift of the program counter that gives its own address and leaves the flags. -/
def LoopsII (emu : Emulator) (w : BitVec 16) : Prop :=
  formatId w = 1 ∧ OnPc w ∧ ShiftsBack (opcodeII w) (bwFlag w) emu.sr emu.pc

/-- The instruction at the program counter leads back to itself and changes nothing. -/
def LoopsOnItself (emu : Emulator) : Prop :=
  LoopsIII emu (fetch emu).1 ∨ LoopsI emu (fetch emu).1 ∨ LoopsII emu (fetch emu).1

instance (emu : Emulator) : Decidable (LoopsOnItself emu) := by
  unfold LoopsOnItself LoopsIII LoopsI LoopsII
  infer_instance

/-! Which of the three it can be, the format says. -/

section Formats

variable {emu : Emulator}

theorem not_loopsOnItself_of_invalid (h0 : formatId (fetch emu).1 = 0) : ¬ LoopsOnItself emu := by
  rintro (h | h | h)
  · exact absurd h.1.1 (by rw [h0]; decide)
  · exact absurd (four_le_of_writes h.1) (by rw [h0]; decide)
  · exact absurd h.1 (by rw [h0]; decide)

theorem loopsOnItself_iff_formatII (h1 : formatId (fetch emu).1 = 1) :
    LoopsOnItself emu ↔ LoopsII emu (fetch emu).1 := by
  refine ⟨fun h => ?_, fun h => Or.inr (Or.inr h)⟩
  rcases h with h | h | h
  · exact absurd h.1.1 (by rw [h1]; decide)
  · exact absurd (four_le_of_writes h.1) (by rw [h1]; decide)
  · exact h

theorem loopsOnItself_iff_formatIII
    (h3 : 2 ≤ formatId (fetch emu).1 ∧ formatId (fetch emu).1 ≤ 3) :
    LoopsOnItself emu ↔ LoopsIII emu (fetch emu).1 := by
  refine ⟨fun h => ?_, Or.inl⟩
  rcases h with h | h | h
  · exact h
  · exact absurd (le_trans (four_le_of_writes h.1) h3.2) (by decide)
  · exact absurd h.1 (formatId_ne_one h3.1)

theorem loopsOnItself_iff_formatI (h4 : 4 ≤ formatId (fetch emu).1) :
    LoopsOnItself emu ↔ LoopsI emu (fetch emu).1 := by
  refine ⟨fun h => ?_, fun h => Or.inr (Or.inl h)⟩
  rcases h with h | h | h
  · exact absurd (le_trans h4 h.1.2) (by decide)
  · exact h
  · exact absurd h.1 (formatId_ne_one (le_trans (by decide) h4))

theorem LoopsI.writesPc {w : BitVec 16} (h : LoopsI emu w) : WritesPc w := by
  have hne : formatId w ≠ 1 := formatId_ne_one (le_trans (by decide) (four_le_of_writes h.1))
  rw [WritesPc, if_neg hne]
  exact ⟨h.1, h.2.1⟩

theorem LoopsII.writesPc {w : BitVec 16} (h : LoopsII emu w) : WritesPc w := by
  rw [WritesPc, if_pos h.1]
  exact Or.inr ⟨h.2.2.le_three, h.2.1⟩

end Formats

/-- A two-operand instruction that writes the program counter. -/
theorem cpuStep_onPcI (emu : Emulator) (hw : Writes (formatId (fetch emu).1))
    (hon : OnPc (fetch emu).1) :
    let w := (fetch emu).1
    let s := sourceValueI (fetch emu).2 w
    let d := pcBehind (bwFlag w) (emu.pc + advanceI w)
    (∀ n, (cpuStep emu).regs n
        = if n = 0 then resultI (formatId w) (bwFlag w) emu.sr.carry s d
          else regsI (fetch emu).2 w false n) ∧
      (cpuStep emu).mem = emu.mem ∧
      (cpuStep emu).sr = operandFlags (formatId w) (bwFlag w) emu.sr s d := by
  obtain ⟨w, hword⟩ : ∃ w, w = (fetch emu).1 := ⟨_, rfl⟩
  obtain ⟨e, he⟩ : ∃ e, e = (fetch emu).2 := ⟨_, rfl⟩
  have hsr : e.sr = emu.sr := by rw [he]; rfl
  have hmem : e.mem = emu.mem := by rw [he]; rfl
  have hpc : e.pc = emu.pc + 2 := by rw [he]; rfl
  unfold cpuStep
  rw [← hword] at hw hon ⊢
  rw [← he]
  intro w' s d
  have h4 : 4 ≤ formatId w := four_le_of_writes hw
  have hne : formatId w ≠ 1 := formatId_ne_one (le_trans (by decide) h4)
  rw [OnPc, if_neg hne] at hon
  have hdst : (operandsI e w false).destinationAddr = .reg 0 := by
    rw [operandsI_destinationAddr, destinationI_eq_reg]
    exact ⟨hon.2, hon.1⟩
  have hload : (operandsI e w false).emu.load16 (.reg 0) = d := by
    rw [operandsI_emu]
    show regsI e w false 0 = pcBehind (bwFlag w) (emu.pc + advanceI w)
    rw [regsI_pc, hpc, add_right_comm]
    cases hbw : bwFlag w <;> simp [masksDestination, hbw, hon.1, hon.2, pcBehind]
  have hexec : decode e w false = executeI (operandsI e w false).emu (formatId w) (bwFlag w)
      s (.reg 0) := by
    rw [decode_formatI e w false h4, decodeFormatI, if_neg (by decide), hdst,
      operandsI_sourceValue]
  refine ⟨fun n => ?_, ?_, ?_⟩
  · split_ifs with h0
    · have hresult : (decode e w false).load16 (.reg 0)
          = resultI (formatId w) (bwFlag w) emu.sr.carry s d := by
        rw [hexec, load16_executeI _ _ _ _ _ hw, hload, sr_operandsI, hsr]
        rfl
      rw [h0]
      exact hresult
    · rw [hexec, executeI_eq_storeResult _ _ _ _ _ hw]
      refine (regs_storeResult _ _ _ _ _ _ (by simpa using Ne.symm h0)).trans ?_
      rw [operandsI_emu]
  · rw [hexec, executeI_eq_storeResult _ _ _ _ _ hw]
    funext a
    refine (mem_storeResult _ _ _ _ _ _ id).trans ?_
    rw [mem_operandsI, hmem]
  · rw [hexec, sr_executeI_operands, hload, sr_operandsI, hsr]

/-- A shift of the program counter. -/
theorem cpuStep_onPcII (emu : Emulator) (hf : formatId (fetch emu).1 = 1)
    (ho : opcodeII (fetch emu).1 ≤ 3) (hon : OnPc (fetch emu).1) :
    let w := (fetch emu).1
    let v := pcBehind (bwFlag w) emu.pc
    (∀ n, (cpuStep emu).regs n
        = if n = 0 then shiftValue (opcodeII w) (bwFlag w) emu.sr.carry v
          else regsII (fetch emu).2 w n) ∧
      (cpuStep emu).mem = emu.mem ∧
      (cpuStep emu).sr = shiftFlags (opcodeII w) (bwFlag w) emu.sr v := by
  obtain ⟨w, hword⟩ : ∃ w, w = (fetch emu).1 := ⟨_, rfl⟩
  obtain ⟨e, he⟩ : ∃ e, e = (fetch emu).2 := ⟨_, rfl⟩
  have hsr : e.sr = emu.sr := by rw [he]; rfl
  have hmem : e.mem = emu.mem := by rw [he]; rfl
  have hpc : e.pc = emu.pc + 2 := by rw [he]; rfl
  unfold cpuStep
  rw [← hword] at hf ho hon ⊢
  rw [← he]
  intro w' v
  rw [OnPc, if_pos hf] at hon
  have hcell : sourceCellII e w = .reg 0 := by
    have hc : ¬ ((constantII w).isSome || immediateII w) = true := by
      simp [constantII, generatedConstant, immediateII, hon.1, hon.2]
    rw [sourceCellII, if_neg hc, hon.2]
    simp only [hon.1]
  have hoperand : regsII e w 0 = v := by
    have hadvance : advanceII w = 0 := by
      simp [advanceII, extendedII, immediateII, hon.1, hon.2]
    show regsII e w 0 = pcBehind (bwFlag w) emu.pc
    rw [regsII_pc, hpc, hadvance, add_zero]
    cases hbw : bwFlag w <;> simp [masksOperand, hbw, hon.1, hon.2, pcBehind]
  have hexec : decode e w false
      = { (operandsII e w).emu.store16 (.reg 0)
            (shiftValue (opcodeII w) (bwFlag w) emu.sr.carry v) with
          sr := shiftFlags (opcodeII w) (bwFlag w) emu.sr v } := by
    rw [decode_formatII e w false hf, decodeFormatII, if_neg (by decide),
      (operandsII_source e w).1, hcell, executeII_shift _ _ _ _ ho, operandsII_emu, ← hsr,
      ← hoperand]
    rfl
  rw [hexec]
  refine ⟨fun n => ?_, ?_, rfl⟩
  · show ((operandsII e w).emu.store16 (.reg 0) _).regs n = _
    rw [Emulator.regs_store16, operandsII_emu]
    simp only [Ptr.reg.injEq, @eq_comm _ 0 n]
    rfl
  · rw [operandsII_emu]
    exact hmem

/-- Fetching moves the program counter alone. -/
theorem regs_fetch (emu : Emulator) {n : Fin 16} (h : n ≠ 0) :
    (fetch emu).2.regs n = emu.regs n := by
  simp [fetch, h]

/-- An instruction that writes no memory, followed by the handlers. -/
theorem same_handlePeripherals_iff {emu emu' : Emulator} (hmem : emu'.mem = emu.mem) :
    SameMachine emu (handlePeripherals emu')
      ↔ ((∀ n, n ≠ 2 → emu'.regs n = emu.regs n) ∧ emu'.sr = emu.sr) ∧ HandlersIdle emu := by
  have hidle : HandlersIdle emu' ↔ HandlersIdle emu := by
    simp only [HandlersIdle, Sends, ta0ctl, Emulator.load16, hmem]
  obtain ⟨hregs, hsr⟩ := regs_handlePeripherals emu'
  rw [SameMachine, hregs, hsr, ← hmem, mem_handlePeripherals_iff, hidle, and_assoc]

/-- The registers and the flags are those of the other state. -/
def SameRegisters (emu emu' : Emulator) : Prop :=
  (∀ n, n ≠ 2 → emu'.regs n = emu.regs n) ∧ emu'.sr = emu.sr

theorem same_onPcII_iff (emu : Emulator) (hf : formatId (fetch emu).1 = 1)
    (ho : opcodeII (fetch emu).1 ≤ 3) (hon : OnPc (fetch emu).1) :
    SameRegisters emu (cpuStep emu) ↔ LoopsII emu (fetch emu).1 := by
  obtain ⟨hregs, -, hsr⟩ := cpuStep_onPcII emu hf ho hon
  have hlow : lowReg (fetch emu).1 = 0 := hon.1
  rw [LoopsII, and_iff_right hf, and_iff_right hon, ← shiftsBack_iff ho]
  constructor
  · rintro ⟨hsame, hflags⟩
    have hpc := hsame 0 (by decide)
    rw [hregs, if_pos rfl] at hpc
    exact ⟨hpc, hsr.symm.trans hflags⟩
  · rintro ⟨hpc, hflags⟩
    refine ⟨fun n hn => ?_, hsr.trans hflags⟩
    rw [hregs]
    split_ifs with h0
    · rw [hpc, h0]
      rfl
    · rw [regsII_of_ne _ _ n h0 hn (fun hc => h0 (hc.2.trans hlow)),
        if_neg (fun hc => h0 (hc.2.trans hlow)), regs_fetch emu h0]

theorem same_onPcI_iff (emu : Emulator) (hw : Writes (formatId (fetch emu).1))
    (hon : OnPc (fetch emu).1) :
    SameRegisters emu (cpuStep emu) ↔ LoopsI emu (fetch emu).1 := by
  obtain ⟨hregs, -, hsr⟩ := cpuStep_onPcI emu hw hon
  have hlow : lowReg (fetch emu).1 = 0 := hon.1
  -- a register other than the program counter is at most incremented
  have hother (n : Fin 16) (h0 : n ≠ 0) (h2 : n ≠ 2) : (cpuStep emu).regs n = emu.regs n
      + if autoIncrements (fetch emu).1 ∧ n = sourceReg (fetch emu).1 then
          increment (bwFlag (fetch emu).1) else 0 := by
    rw [hregs, if_neg h0, regsI_of_unmasked _ _ n h2 (fun hc => h0 (hc.2.trans hlow)),
      if_neg h0, regs_fetch emu h0, add_zero]
  rw [LoopsI, and_iff_right hw, and_iff_right hon, ← leadsTo_iff hw]
  constructor
  · rintro ⟨hsame, hflags⟩
    have hpc := hsame 0 (by decide)
    rw [hregs, if_pos rfl] at hpc
    refine ⟨?_, hpc, hsr.symm.trans hflags⟩
    by_contra hinc
    have hinc : autoIncrements (fetch emu).1 = true := by simpa using hinc
    have hcond := hinc
    simp only [autoIncrements, Bool.and_eq_true, Option.isNone_iff_eq_none, beq_iff_eq,
      bne_iff_ne] at hcond
    obtain ⟨⟨hc, ha⟩, h0⟩ := hcond
    have h2 := sourceReg_ne_two hc (by rw [ha]; decide)
    have hreg := hsame _ h2
    rw [hother _ h0 h2, if_pos ⟨hinc, rfl⟩] at hreg
    cases hbw : bwFlag (fetch emu).1 <;> rw [hbw, increment] at hreg <;> bv_omega
  · rintro ⟨hinc, hpc, hflags⟩
    refine ⟨fun n hn => ?_, hsr.trans hflags⟩
    by_cases h0 : n = 0
    · rw [hregs, if_pos h0, hpc, h0]
      rfl
    · rw [hother n h0 hn, if_neg (by simp [hinc]), add_zero]

theorem same_jump_iff (emu : Emulator)
    (hf : 2 ≤ formatId (fetch emu).1 ∧ formatId (fetch emu).1 ≤ 3) :
    SameRegisters emu (cpuStep emu) ↔ LoopsIII emu (fetch emu).1 := by
  have hpc : (fetch emu).2.pc = emu.pc + 2 := rfl
  have hsr : (fetch emu).2.sr = emu.sr := rfl
  unfold LoopsIII
  rw [cpuStep, decode_formatIII _ _ _ hf, decodeFormatIII, if_neg (by decide), hsr]
  split_ifs with hcond
  · constructor
    · rintro ⟨hsame, -⟩
      have hjump : emu.pc + 2 + signedOffset (fetch emu).1 = emu.pc := hsame 0 (by decide)
      exact ⟨hf, hcond, by bv_omega⟩
    · rintro ⟨-, -, hoff⟩
      refine ⟨fun n hn => ?_, rfl⟩
      rw [jump, hoff, hpc, Emulator.regs_setReg]
      split_ifs with h0
      · rw [h0, show emu.regs 0 = emu.pc from rfl]
        bv_omega
      · exact regs_fetch emu h0
  · refine iff_of_false (fun h => ?_) (fun h => hcond h.2.1)
    have hmove : emu.pc + 2 = emu.pc := h.1 0 (by decide)
    bv_omega

/-- **An instruction other than CALL leaves the machine as it is exactly when** it leads back
to itself and the handlers are idle. -/
theorem same_machineStep_iff (emu : Emulator)
    (hcall : ¬ (formatId (fetch emu).1 = 1 ∧ opcodeII (fetch emu).1 = 5)) :
    SameMachine emu (machineStep emu) ↔ LoopsOnItself emu ∧ HandlersIdle emu := by
  -- an instruction that moves on, and one that writes no memory
  have hmoves (h : (cpuStep emu).pc ≠ emu.pc) (hl : ¬ LoopsOnItself emu) :
      SameMachine emu (machineStep emu) ↔ LoopsOnItself emu ∧ HandlersIdle emu := by
    refine iff_of_false (fun hs => h ?_) (fun hc => hl hc.1)
    have hpc := hs.1 0 (by decide)
    rwa [machineStep, (regs_handlePeripherals _).1] at hpc
  have hstays (hmem : (cpuStep emu).mem = emu.mem)
      (h : SameRegisters emu (cpuStep emu) ↔ LoopsOnItself emu) :
      SameMachine emu (machineStep emu) ↔ LoopsOnItself emu ∧ HandlersIdle emu := by
    rw [machineStep, same_handlePeripherals_iff hmem, ← h]
    rfl
  rcases formatId_cases (fetch emu).1 with h0 | h1 | h3 | h4
  · apply hmoves
    · rw [cpuStep, decode_invalid _ _ _ h0]
      show emu.pc + 2 ≠ emu.pc
      bv_omega
    · exact not_loopsOnItself_of_invalid h0
  · have hloops := loopsOnItself_iff_formatII h1
    by_cases hw : WritesPc (fetch emu).1
    · have hshift := hw
      rw [WritesPc, if_pos h1] at hshift
      obtain ⟨ho, hon⟩ := hshift.resolve_left fun h5 => hcall ⟨h1, h5⟩
      exact hstays (cpuStep_onPcII emu h1 ho hon).2.1
        ((same_onPcII_iff emu h1 ho hon).trans hloops.symm)
    · apply hmoves (pc_cpuStep_ne emu (Or.inl h1) hw)
      exact fun h => hw (hloops.mp h).writesPc
  · apply hstays
    · rw [cpuStep, decode_formatIII _ _ _ h3, decodeFormatIII, if_neg (by decide)]
      split_ifs <;> rfl
    · exact (same_jump_iff emu h3).trans (loopsOnItself_iff_formatIII h3).symm
  · have hne : formatId (fetch emu).1 ≠ 1 := formatId_ne_one (le_trans (by decide) h4)
    have hloops := loopsOnItself_iff_formatI h4
    by_cases hw : WritesPc (fetch emu).1
    · have hon := hw
      rw [WritesPc, if_neg hne] at hon
      exact hstays (cpuStep_onPcI emu hon.1 hon.2).2.1
        ((same_onPcI_iff emu hon.1 hon.2).trans hloops.symm)
    · apply hmoves (pc_cpuStep_ne emu (Or.inr h4) hw)
      exact fun h => hw (hloops.mp h).writesPc

end Msp430
