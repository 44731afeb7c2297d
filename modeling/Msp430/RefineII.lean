/-
# Single-operand instructions refine the documented processor

`ExactOne` says when a single-operand instruction of the code does what it is documented to
do.  It excludes a symbolic operand, a byte popped through the stack pointer, the status
register as an operand that is replaced, RRA.B beside a non-zero byte, PUSH.B of a register
with a high byte, and a CALL whose operand is the stack pointer or the stack slot.
-/
import Msp430.RefineI
import Msp430.Calls

namespace Msp430

/-! ## The fields of the instruction -/

/-- An operand is immediate. -/
def Operand.isImmediate : Operand → Bool
  | .immediate _ => true
  | _ => false

section

variable (op : OneOp) (bw : Width) (operand : Operand)

theorem constantII_one : constantII (Instruction.one op bw operand).word = operand.generated := by
  obtain ⟨-, -, -, has, hreg⟩ := Instruction.fields_one op bw operand
  rw [constantII, hreg, has, Operand.generatedConstant_eq]

theorem immediateII_one :
    immediateII (Instruction.one op bw operand).word = operand.isImmediate := by
  obtain ⟨-, -, -, has, hreg⟩ := Instruction.fields_one op bw operand
  rw [immediateII, constantII_one, has, hreg]
  cases operand with
  | autoIncrement n h => simp [Operand.generated, Operand.mode, Operand.reg, Operand.isImmediate, h.1]
  | _ => rfl

theorem advanceII_one : advanceII (Instruction.one op bw operand).word
    = 2 * BitVec.ofNat 16 operand.extension.length := by
  obtain ⟨-, -, -, has, -⟩ := Instruction.fields_one op bw operand
  rw [advanceII, extendedII, immediateII_one, constantII_one, has]
  cases operand <;> rfl

theorem autoIncrementsII_one :
    autoIncrementsII (Instruction.one op bw operand).word = operand.increments := by
  obtain ⟨-, -, -, has, hreg⟩ := Instruction.fields_one op bw operand
  rw [autoIncrementsII, constantII_one, has, hreg]
  cases operand with
  | autoIncrement n h => simp [Operand.generated, Operand.mode, Operand.reg, Operand.increments, h.1]
  | _ => rfl

theorem masksOperand_one :
    masksOperand (Instruction.one op bw operand).word = (bw == .byte && operand.mode == 0) := by
  obtain ⟨-, -, hbw, has, -⟩ := Instruction.fields_one op bw operand
  rw [masksOperand, hbw, has]

end

/-! ## What is exact -/

/-- The operand is evaluated as documented: it is not symbolic and no byte is popped. -/
def Operand.ExactAlone (bw : Width) : Operand → Prop
  | .symbolic _ => False
  | .autoIncrement n _ => ¬ (n = 1 ∧ bw = .byte)
  | _ => True

instance (bw : Width) (o : Operand) : Decidable (o.ExactAlone bw) :=
  match o with
  | .symbolic _ => inferInstanceAs (Decidable False)
  | .autoIncrement n _ => inferInstanceAs (Decidable (¬ (n = 1 ∧ bw = .byte)))
  | .register _ _ | .indexed _ _ _ | .absolute _ | .indirect _ _ | .immediate _ | .constant _ =>
    inferInstanceAs (Decidable True)

theorem Operand.ExactAlone.beside {bw : Width} {o : Operand} (h : o.ExactAlone bw) :
    o.ExactBeside bw false := by
  cases o with
  | register n hn => exact fun hc => absurd hc.2 (by decide)
  | indirect n hn => exact fun hc => absurd hc.2 (by decide)
  | symbolic x => exact h.elim
  | autoIncrement n hn => exact h
  | _ => trivial

/-- The word that holds an operand once a register has been masked. -/
def Operand.maskedWord (s : Processor) (bw : Width) (here : BitVec 16) (o : Operand) :
    BitVec 16 :=
  match o, bw with
  | .register _ _, .byte => o.word s here &&& 0x00FF
  | _, _ => o.word s here

/-- What an operation asks for besides: a shift does not replace the status register, and one
of a byte by RRA has no high byte; a byte pushed from a register has none; a call reads its
operand behind the store of the return address. -/
def OneOp.Exact (s : Processor) (bw : Width) (here : BitVec 16) (operand : Operand) :
    OneOp → Prop
  | .rrc | .swpb | .sxt => operand.place s here ≠ .reg 2
  | .rra => operand.place s here ≠ .reg 2 ∧
      (bw = .byte → highByte (operand.maskedWord s bw here) = 0)
  | .push => bw = .byte → ∀ n, operand.place s here = .reg n → highByte (s.reg n) = 0
  | .call => operand.place s here ≠ .reg 1 ∧
      operand.place s here ≠ .mem ((operand.after s bw).sp - 2)
  | .reti => True

/-- **The single-operand instructions that the code executes as documented.** -/
def ExactOne (s : Processor) (op : OneOp) (bw : Width) (operand : Operand)
    (here : BitVec 16) : Prop :=
  operand.ExactAlone bw ∧ (operand.place s here).Interior ∧ op.Exact s bw here operand

instance (s : Processor) (bw : Width) (here : BitVec 16) (operand : Operand) (op : OneOp) :
    Decidable (op.Exact s bw here operand) :=
  match op with
  | .rrc | .swpb | .sxt => inferInstanceAs (Decidable (operand.place s here ≠ .reg 2))
  | .rra => inferInstanceAs (Decidable (operand.place s here ≠ .reg 2 ∧
      (bw = .byte → highByte (operand.maskedWord s bw here) = 0)))
  | .push => inferInstanceAs (Decidable (bw = .byte → ∀ n : Fin 16,
      operand.place s here = .reg n → highByte (s.reg n) = 0))
  | .call => inferInstanceAs (Decidable (operand.place s here ≠ .reg 1 ∧
      operand.place s here ≠ .mem ((operand.after s bw).sp - 2)))
  | .reti => inferInstanceAs (Decidable True)

instance (s : Processor) (op : OneOp) (bw : Width) (operand : Operand) (here : BitVec 16) :
    Decidable (ExactOne s op bw operand here) :=
  inferInstanceAs (Decidable (_ ∧ _ ∧ _))

/-! ## The execute switch -/

/-- The opcodes of the shifts. -/
theorem OneOp.code_le_three {op : OneOp} (h : op.shifts = true) : op.code ≤ 3 := by
  cases op <;> first | decide | exact absurd h (by decide)

/-- **A shift of the code is the documented one**, of a register that has been masked. -/
theorem view_executeII_shift (emu : Emulator) {op : OneOp} (hop : op.shifts = true) {bw : Width}
    (hbw : bw = .byte → op.hasByte = true) (v : BitVec 16) {l : Place} (h2 : l ≠ .reg 2)
    (hin : l.Interior) (hmask : Masked emu bw l)
    (hrra : op = .rra → bw = .byte → highByte (emu.load16 l.ptr) = 0) :
    view (executeII emu op.code bw v l.ptr)
      = (view emu).shift op bw ((emu.load16 l.ptr).setWidth bw.bits) l := by
  have hle := OneOp.code_le_three hop
  rw [executeII_shift emu bw v l.ptr hle, view_with_sr]
  refine Eq.trans ?_ (Processor.write_with_sr (view emu) _ bw h2 _).symm
  cases bw with
  | word =>
    have hvalue := shiftValue_word hle emu.sr.carry (emu.load16 l.ptr)
    have hflags := shiftFlags_word hle emu.sr (emu.load16 l.ptr)
    rw [hvalue, hflags, view_store16 emu h2 hin]
    simp only [Width.bits, shiftAt, shiftFlagsAt, BitVec.setWidth_eq]
    rfl
  | byte =>
    have hcode : op.code = 0 ∨ op.code = 2 := by
      have := hbw rfl
      cases op <;> first | decide | exact absurd this (by decide) | exact absurd hop (by decide)
    have hhigh : op.code = 2 → highByte (emu.load16 l.ptr) = 0 := by
      intro h
      refine hrra ?_ rfl
      cases op <;> first | rfl | exact absurd h (by decide)
    have hvalue := shiftValue_byte hcode emu.sr.carry (emu.load16 l.ptr) hhigh
    have hflags := shiftFlags_byte hcode emu.sr (emu.load16 l.ptr) hhigh
    rw [hvalue, hflags, ← Emulator.store8_eq_store16, view_store8 emu h2 (hmask rfl)]
    rfl

/-- A push of the code is the documented one. -/
theorem view_execPush (emu : Emulator) (bw : Width) (v : BitVec 16) (hsp : Aligned emu.sp) :
    (view emu).push bw (v.setWidth bw.bits) = some (view (execPush emu bw v)) := by
  refine (if_pos hsp).trans (congrArg some ?_)
  rw [execPush_eq]
  cases bw with
  | word =>
    rw [view_store16_mem _ hsp.sub_two.ne_last, view_setReg emu (by decide)]
    exact congrArg _ (BitVec.setWidth_eq v)
  | byte =>
    rw [view_store8_mem, view_setReg emu (by decide)]
    rfl

/-- A call of the code, its operand read behind the store of the return address. -/
theorem view_execCall (emu : Emulator) (p : Ptr) (hsp : Aligned emu.sp) {v : BitVec 16}
    (hv : ((emu.setReg 1 (emu.sp - 2)).store16 (getAddrPtr (emu.sp - 2)) emu.pc).load16 p = v) :
    ((view emu).push .word (view emu).pc).map (fun s => s.writeReg 0 v)
      = some (view (execCall emu p)) := by
  have hpush : (view emu).push .word (view emu).pc
      = some (((view emu).writeReg 1 (emu.sp - 2)).writeMem .word (emu.sp - 2) emu.pc) :=
    if_pos hsp
  rw [hpush, execCall_eq]
  simp only [hv, Option.map_some]
  rw [view_setReg _ (by decide), view_store16_mem _ hsp.sub_two.ne_last,
    view_setReg emu (by decide)]

/-! ## The operand -/

section

variable (e : Emulator) (op : OneOp) (bw : Width) (operand : Operand)

/-- The state behind the operand block. -/
def resolvedII (e : Emulator) (w : BitVec 16) : Emulator :=
  { e with regs := regsII e w, bogusReg := bogusII e w, residue := fun k => e.residue (k + 1) }

/-- A register that the operand block does not mask is as the evaluation of the operand
leaves it. -/
theorem regsII_one_operand (hop : operand.ExactAlone bw) {n : Fin 16} (h2 : n ≠ 2) (h3 : n ≠ 3) :
    regsII e (Instruction.one op bw operand).word n
      = if bw = .byte ∧ operand.mode = 0 ∧ n = operand.reg then
          (operand.after (entered e (.one op bw operand)) bw).reg n &&& 0x00FF
        else (operand.after (entered e (.one op bw operand)) bw).reg n := by
  obtain ⟨-, -, hbw, -, hreg⟩ := Instruction.fields_one op bw operand
  have hunmasked : unmaskedII e (Instruction.one op bw operand).word n
      = (operand.after (entered e (.one op bw operand)) bw).reg n := by
    rw [unmaskedII, regs_lookupII_of_ne e _ h2, reg_after _ bw operand false hop.beside,
      reg_entered e _ h2 h3, advanceII_one, autoIncrementsII_one, hreg, hbw]
    simp only [Bool.and_eq_true, beq_iff_eq]
    rfl
  rw [regsII, masksOperand_one, hreg, hunmasked]
  simp only [Bool.and_eq_true, beq_iff_eq, and_assoc]

/-- **The operand of the code is the documented place.** -/
theorem sourceCellII_one (hop : operand.ExactAlone bw)
    (hext : ∀ x, operand.extension = [x] → extensionII e = x) :
    sourceCellII e (Instruction.one op bw operand).word
      = (operand.place (entered e (.one op bw operand)) e.pc).ptr := by
  obtain ⟨-, -, -, has, hreg⟩ := Instruction.fields_one op bw operand
  have hpointer {n : Fin 16} (h2 : n ≠ 2) (h3 : n ≠ 3) (h : n ≠ 0 ∨ operand.extension = []) :
      (entered e (.one op bw operand)).reg n = e.regs n := by
    rw [reg_entered e _ h2 h3]
    rcases h with h | h
    · rw [if_neg h]
      exact BitVec.add_zero _
    · rw [Instruction.extension, h]
      split_ifs <;> exact BitVec.add_zero _
  rw [sourceCellII, constantII_one, immediateII_one]
  cases operand with
  | constant c => rfl
  | immediate x => rfl
  | symbolic x => exact hop.elim
  | register n hn => simp [Operand.generated, Operand.isImmediate, has, hreg, Operand.mode,
      Operand.reg, Operand.place, Place.ptr]
  | indexed n x hn =>
    have hx := hext x rfl
    simp only [Operand.generated, Operand.isImmediate, has, hreg, Operand.mode, Operand.reg,
      Operand.place, if_neg hn.1, if_neg hn.2.1, hx, hpointer hn.2.1 hn.2.2 (Or.inl hn.1)]
    rfl
  | absolute x =>
    have hx := hext x rfl
    simp only [Operand.generated, Operand.isImmediate, has, hreg, Operand.mode, Operand.reg,
      Operand.place, hx]
    rfl
  | indirect n hn =>
    simp only [Operand.generated, Operand.isImmediate, has, hreg, Operand.mode, Operand.reg,
      Operand.place, hpointer hn.1 hn.2 (Or.inr rfl)]
    rfl
  | autoIncrement n hn =>
    simp only [Operand.generated, Operand.isImmediate, has, hreg, Operand.mode, Operand.reg,
      Operand.place, hpointer hn.2.1 hn.2.2 (Or.inl hn.1)]
    rfl

/-- The value of the code's operand, read before any mask. -/
theorem sourceValueII_one (hop : operand.ExactAlone bw)
    (hin : (operand.place (entered e (.one op bw operand)) e.pc).Interior)
    (hext : ∀ x, operand.extension = [x] → extensionII e = x) :
    sourceValueII e (Instruction.one op bw operand).word
      = operand.word (entered e (.one op bw operand)) e.pc := by
  obtain ⟨-, -, -, has, hreg⟩ := Instruction.fields_one op bw operand
  have hcell := sourceCellII_one e op bw operand hop hext
  have hmem {a : BitVec 16} (ha : a ≠ 0xFFFF) :
      (entered e (.one op bw operand)).wordAt a = e.load16 (Place.mem a).ptr :=
    wordAt_entered e _ ha
  rw [sourceValueII, constantII_one, immediateII_one, hcell]
  cases operand with
  | constant c => rfl
  | immediate x => exact hext x rfl
  | symbolic x => exact hop.elim
  | register n hn =>
    simp only [Operand.generated, Operand.isImmediate, has, hreg, Operand.mode, Operand.reg,
      Operand.word, Operand.place, Processor.wordOf, Processor.readReg]
    rw [regs_lookupII, hreg, sr_entered]
    by_cases h2 : n = 2
    · subst h2
      rfl
    · have hzero : (entered e (.one op bw (.register n hn))).reg n = e.regs n := by
        rw [reg_entered e _ h2 hn]
        split_ifs <;> exact BitVec.add_zero _
      simp [h2, hzero]
  | indexed n x hn => exact (by simpa [Operand.generated, Operand.isImmediate, has, hreg,
      Operand.mode, Operand.reg, Operand.word, Operand.place, Processor.wordOf, hn.1]
      using (hmem hin).symm)
  | absolute x => exact (by simpa [Operand.generated, Operand.isImmediate, has, hreg,
      Operand.mode, Operand.reg, Operand.word, Operand.place, Processor.wordOf]
      using (hmem hin).symm)
  | indirect n hn => exact (by simpa [Operand.generated, Operand.isImmediate, has, hreg,
      Operand.mode, Operand.reg, Operand.word, Operand.place, Processor.wordOf]
      using (hmem hin).symm)
  | autoIncrement n hn => exact (by simpa [Operand.generated, Operand.isImmediate, has, hreg,
      Operand.mode, Operand.reg, Operand.word, Operand.place, Processor.wordOf]
      using (hmem hin).symm)

/-- The register that an operand is. -/
theorem Operand.place_eq_reg {s : Processor} {here : BitVec 16} {o : Operand} {n : Fin 16}
    (h : o.place s here = .reg n) : o.mode = 0 ∧ o.reg = n ∧ n ≠ 3 ∧ o.extension = [] ∧
      o.after s bw = s := by
  cases o with
  | register m hm =>
    obtain rfl := Place.reg.inj h
    exact ⟨rfl, rfl, hm, rfl, rfl⟩
  | _ => simp [Operand.place] at h

/-- An operand in register mode is a register, unless it is the constant zero of R3. -/
theorem Operand.place_of_mode (s : Processor) (here : BitVec 16) {o : Operand} (h : o.mode = 0)
    (h3 : o.reg ≠ 3) : o.place s here = .reg o.reg := by
  cases o with
  | register n hn => rfl
  | constant c => cases c <;> first | exact absurd rfl h3 | exact absurd h (by decide)
  | _ => exact absurd h (by simp [Operand.mode])

/-- The state behind the operand block, unless the mask shows. -/
theorem view_resolvedII (hop : operand.ExactAlone bw)
    (hmask : bw = .byte → ∀ n, operand.place (entered e (.one op bw operand)) e.pc = .reg n →
      n ≠ 2 → highByte ((entered e (.one op bw operand)).reg n) = 0) :
    view (resolvedII e (Instruction.one op bw operand).word)
      = operand.after (entered e (.one op bw operand)) bw := by
  refine Processor.eq_of_reg (fun n h2 h3 => ?_) ?_ ?_
  · rw [reg_view _ h2 h3]
    refine (regsII_one_operand e op bw operand hop h2 h3).trans ?_
    split_ifs with hm
    · obtain ⟨hb, hmode, rfl⟩ := hm
      have hplace := Operand.place_of_mode (entered e (.one op bw operand)) e.pc hmode h3
      obtain ⟨-, -, -, -, hafter⟩ := Operand.place_eq_reg bw hplace
      rw [hafter]
      exact (mask_eq_self_iff _).mpr (hmask hb _ hplace h2)
    · rfl
  · rw [sr_after, sr_entered]
    rfl
  · rw [mem_after, mem_entered]
    rfl

/-- A write to the operand hides the mask. -/
theorem write_view_resolvedII (hop : operand.ExactAlone bw) {l : Place}
    (hl : l = operand.place (entered e (.one op bw operand)) e.pc) (h2 : l ≠ .reg 2)
    (v : BitVec bw.bits) :
    (view (resolvedII e (Instruction.one op bw operand).word)).write bw l v
      = (operand.after (entered e (.one op bw operand)) bw).write bw l v := by
  by_cases hreg : ∃ n, l = .reg n
  · obtain ⟨n, hn⟩ := hreg
    obtain ⟨-, hr, h3, -, -⟩ := Operand.place_eq_reg bw (hl.symm.trans hn)
    have hn2 : n ≠ 2 := fun h => h2 (by rw [hn, h])
    rw [hn]
    refine Processor.eq_of_reg (fun m hm2 hm3 => ?_) ?_ ?_
    · refine (Processor.reg_writeReg _ hn2 h3 _ m).trans ?_
      refine Eq.trans ?_ (Processor.reg_writeReg _ hn2 h3 _ m).symm
      by_cases hmn : m = n
      · rw [if_pos hmn, if_pos hmn]
      · rw [if_neg hmn, if_neg hmn, reg_view _ hm2 hm3]
        refine (regsII_one_operand e op bw operand hop hm2 hm3).trans (if_neg fun hc => ?_)
        exact hmn (hc.2.2.trans hr)
    · refine (Processor.sr_writeReg _ hn2 _).trans ?_
      refine Eq.trans ?_ (Processor.sr_writeReg _ hn2 _).symm
      rw [sr_after, sr_entered]
      rfl
    · refine (Processor.mem_writeReg _ _ _).trans ?_
      refine Eq.trans ?_ (Processor.mem_writeReg _ _ _).symm
      rw [mem_after, mem_entered]
      rfl
  · rw [view_resolvedII e op bw operand hop fun _ n hn _ => absurd ⟨n, hl.trans hn⟩ hreg]

/-- The word of the operand, as the execute switch finds it. -/
theorem load16_resolvedII (hop : operand.ExactAlone bw) {l : Place}
    (hl : l = operand.place (entered e (.one op bw operand)) e.pc) (h2 : l ≠ .reg 2)
    (hin : l.Interior) (hext : ∀ x, operand.extension = [x] → extensionII e = x) :
    (resolvedII e (Instruction.one op bw operand).word).load16 l.ptr
      = operand.maskedWord (entered e (.one op bw operand)) bw e.pc := by
  have hconstant := constantII_one op bw operand
  have himmediate := immediateII_one op bw operand
  cases operand with
  | constant c =>
    subst hl
    have hbogus : bogusII e (Instruction.one op bw (.constant c)).word = c.value := by
      rw [bogusII, hconstant]
      rfl
    exact hbogus
  | immediate x =>
    subst hl
    have hbogus : bogusII e (Instruction.one op bw (.immediate x)).word = extensionII e := by
      rw [bogusII, hconstant, himmediate]
      rfl
    exact hbogus.trans (hext x rfl)
  | symbolic x => exact hop.elim
  | register n hn =>
    subst hl
    have hn2 : n ≠ 2 := fun h => h2 (congrArg Place.reg h)
    refine (regsII_one_operand e op bw (.register n hn) hop hn2 hn).trans ?_
    have hread := Processor.readReg_of_ne (entered e (.one op bw (.register n hn))) hn2
    cases bw with
    | word => exact hread.symm
    | byte => exact (if_pos ⟨rfl, rfl, rfl⟩).trans (congrArg (· &&& 0x00FF) hread.symm)
  | indexed n x hn => subst hl; exact (wordAt_entered e _ hin).symm
  | absolute x => subst hl; exact (wordAt_entered e _ hin).symm
  | indirect n hn => subst hl; exact (wordAt_entered e _ hin).symm
  | autoIncrement n hn => subst hl; exact (wordAt_entered e _ hin).symm

end

/-! ## The instruction -/

theorem Operand.setWidth_maskedWord (s : Processor) (bw : Width) (here : BitVec 16)
    (o : Operand) : (o.maskedWord s bw here).setWidth bw.bits = (o.word s here).setWidth bw.bits := by
  cases o with
  | register n h =>
    cases bw with
    | word => rfl
    | byte => exact setWidth_mask _
  | _ => rfl

/-- `decode_formatII` behind the operand block. -/
theorem decodeFormatII_one (e : Emulator) (op : OneOp) (bw : Width) (operand : Operand)
    (hop : operand.ExactAlone bw)
    (hin : (operand.place (entered e (.one op bw operand)) e.pc).Interior)
    (hext : ∀ x, operand.extension = [x] → extensionII e = x) :
    decodeFormatII e (Instruction.one op bw operand).word false
      = executeII (resolvedII e (Instruction.one op bw operand).word) op.code bw
          (operand.word (entered e (.one op bw operand)) e.pc)
          (operand.place (entered e (.one op bw operand)) e.pc).ptr := by
  obtain ⟨-, hcode, hbw, -, -⟩ := Instruction.fields_one op bw operand
  obtain ⟨haddr, hvalue⟩ := operandsII_source e (Instruction.one op bw operand).word
  rw [decodeFormatII, if_neg (by decide), hcode, hbw, haddr, hvalue, operandsII_emu,
    sourceValueII_one e op bw operand hop hin hext, sourceCellII_one e op bw operand hop hext]
  rfl

section

variable {e : Emulator} {op : OneOp} {bw : Width} {operand : Operand}

/-- A shift of the code behind the operand block. -/
theorem view_shift (hop : operand.ExactAlone bw) {l : Place}
    (hl : l = operand.place (entered e (.one op bw operand)) e.pc) (hin : l.Interior)
    (hext : ∀ x, operand.extension = [x] → extensionII e = x) (hshift : op.shifts = true)
    (hbw : bw = .byte → op.hasByte = true) (h2 : l ≠ .reg 2)
    (hrra : op = .rra → bw = .byte →
      highByte (operand.maskedWord (entered e (.one op bw operand)) bw e.pc) = 0)
    (v : BitVec 16) :
    view (executeII (resolvedII e (Instruction.one op bw operand).word) op.code bw v l.ptr)
      = (operand.after (entered e (.one op bw operand)) bw).shift op bw
          ((operand.word (entered e (.one op bw operand)) e.pc).setWidth bw.bits) l := by
  have hload := load16_resolvedII e op bw operand hop hl h2 hin hext
  have hmasked : Masked (resolvedII e (Instruction.one op bw operand).word) bw l := by
    intro hb n hn
    obtain ⟨hmode, hr, h3, -, -⟩ := Operand.place_eq_reg bw (hl.symm.trans hn)
    have hn2 : n ≠ 2 := fun h => h2 (by rw [hn, h])
    refine (congrArg highByte (regsII_one_operand e op bw operand hop hn2 h3)).trans ?_
    rw [if_pos ⟨hb, hmode, hr.symm⟩, highByte_mask]
  rw [view_executeII_shift _ hshift hbw v h2 hin hmasked (fun ho hb => by rw [hload, hrra ho hb]),
    hload, Operand.setWidth_maskedWord]
  -- the write hides the mask
  refine (Processor.write_with_sr _ _ bw h2 _).trans ?_
  refine Eq.trans ?_ (Processor.write_with_sr _ _ bw h2 _).symm
  rw [write_view_resolvedII e op bw operand hop hl h2]
  have hsr : (view (resolvedII e (Instruction.one op bw operand).word)).sr
      = (operand.after (entered e (.one op bw operand)) bw).sr := by
    rw [sr_after, sr_entered]
    rfl
  rw [hsr]

/-- A word operand, as the execute switch finds it: also the status register. -/
theorem load16_resolvedII_word (hop : operand.ExactAlone .word)
    (hin : (operand.place (entered e (.one op .word operand)) e.pc).Interior)
    (hext : ∀ x, operand.extension = [x] → extensionII e = x) :
    (resolvedII e (Instruction.one op .word operand).word).load16
        (operand.place (entered e (.one op .word operand)) e.pc).ptr
      = operand.word (entered e (.one op .word operand)) e.pc := by
  by_cases h2 : operand.place (entered e (.one op .word operand)) e.pc = .reg 2
  · obtain ⟨hn, rfl⟩ : ∃ hn, operand = .register 2 hn := by
      cases operand with
      | register n hn =>
        obtain rfl := Place.reg.inj h2
        exact ⟨hn, rfl⟩
      | _ => simp [Operand.place] at h2
    obtain ⟨-, -, hbw, -, hlow⟩ := Instruction.fields_one op .word (.register 2 hn)
    have hlookup := regsII_word e _ hbw 2
    rw [autoIncrementsII_one, regs_lookupII, hlow, if_pos ⟨rfl, rfl⟩] at hlookup
    refine hlookup.trans ?_
    have hread : Operand.word (entered e (.one op .word (.register 2 hn))) e.pc (.register 2 hn)
        = srToValue e.sr := by
      rw [← sr_entered e (.one op .word (.register 2 hn))]
      rfl
    rw [hread]
    simp [Operand.increments]
  · refine (load16_resolvedII e op .word operand hop rfl h2 hin hext).trans ?_
    cases operand <;> rfl

/-- A store into the stack slot leaves another aligned word and the registers. -/
theorem ptr_disjoint_slot {l : Place} {sp : BitVec 16} (hsp : Aligned sp) (hl : l.Allows .word)
    (hslot : l ≠ .mem sp) : l.ptr.Disjoint (getAddrPtr sp) := by
  cases l with
  | reg n => trivial
  | nowhere => trivial
  | mem a =>
    have hne : a.toNat ≠ sp.toNat := fun h => hslot (congrArg Place.mem (BitVec.eq_of_toNat_eq h))
    have heven : a.toNat % 2 = 0 := hl
    have hspEven : sp.toNat % 2 = 0 := hsp
    change a.toNat + 1 < sp.toNat ∨ sp.toNat + 1 < a.toNat
    omega

/-- A CALL of the code behind the operand block. -/
theorem view_call (hop : operand.ExactAlone .word)
    (hin : (operand.place (entered e (.one .call .word operand)) e.pc).Interior)
    (hallows : (operand.place (entered e (.one .call .word operand)) e.pc).Allows .word)
    (hext : ∀ x, operand.extension = [x] → extensionII e = x)
    (hexact : OneOp.call.Exact (entered e (.one .call .word operand)) .word e.pc operand)
    {s : Processor}
    (hs : ((operand.after (entered e (.one .call .word operand)) .word).push .word
        (operand.after (entered e (.one .call .word operand)) .word).pc).map
          (fun s' => s'.writeReg 0 (operand.word (entered e (.one .call .word operand)) e.pc))
      = some s) :
    view (execCall (resolvedII e (Instruction.one .call .word operand).word)
      (operand.place (entered e (.one .call .word operand)) e.pc).ptr) = s := by
  have hload : (resolvedII e (Instruction.one .call .word operand).word).load16
      (operand.place (entered e (.one .call .word operand)) e.pc).ptr
        = operand.word (entered e (.one .call .word operand)) e.pc :=
    load16_resolvedII_word hop hin hext
  have hview := view_resolvedII e .call .word operand hop (fun hb => absurd hb (by decide))
  obtain ⟨emu, hemu⟩ : ∃ emu, emu = resolvedII e (Instruction.one .call .word operand).word :=
    ⟨_, rfl⟩
  rw [← hemu] at hload hview
  obtain ⟨hreg, hslot⟩ := hexact
  rw [← hview] at hs hslot
  have hsp : Aligned emu.sp := by
    by_contra hodd
    have hnone : (view emu).push .word (view emu).pc = none := if_neg hodd
    rw [hnone] at hs
    exact absurd hs (by simp)
  rw [← hemu]
  refine Option.some.inj ((view_execCall emu _ hsp ?_).symm.trans hs)
  -- the operand survives the store of the return address
  rw [load16_store16_of_disjoint _ _ (ptr_disjoint_slot hsp.sub_two hallows hslot), ← hload]
  cases hplace : operand.place (entered e (.one .call .word operand)) e.pc with
  | reg n => exact if_neg fun h => hreg (hplace.trans (congrArg Place.reg h))
  | mem a => rfl
  | nowhere => rfl

/-- **A single-operand instruction of the code is the documented one** where it is exact. -/
theorem view_decodeFormatII (hext : ∀ x, operand.extension = [x] → extensionII e = x)
    (hexact : ExactOne (entered e (.one op bw operand)) op bw operand e.pc) {s : Processor}
    (hexec : (entered e (.one op bw operand)).execOne op bw operand e.pc = some s) :
    view (decodeFormatII e (Instruction.one op bw operand).word false) = s := by
  obtain ⟨hop, hin, hexact⟩ := hexact
  rw [decodeFormatII_one e op bw operand hop hin hext]
  simp only [Processor.execOne] at hexec
  split at hexec
  case isFalse => exact absurd hexec (by simp)
  case isTrue hallows =>
    obtain ⟨hbw, hallows⟩ := hallows
    have hbytes (hnone : op.hasByte = false) : bw = .word := by
      cases bw with
      | word => rfl
      | byte => exact absurd (hnone.symm.trans (hbw rfl)) (by decide)
    split at hexec
    case isTrue hshift =>
      obtain rfl := Option.some.inj hexec
      have h2 : operand.place (entered e (.one op bw operand)) e.pc ≠ .reg 2 := by
        cases op <;> first | exact hexact | exact hexact.1 | exact absurd hshift (by decide)
      refine view_shift hop rfl hin hext hshift hbw h2 (fun ho hb => ?_) _
      subst ho
      exact hexact.2 hb
    case isFalse =>
      cases op with
      | push =>
        have hview := view_resolvedII e .push bw operand hop fun hb n hn _ => hexact hb n hn
        rw [← hview] at hexec
        by_cases hsp : Aligned (resolvedII e (Instruction.one .push bw operand).word).sp
        · rw [view_execPush _ bw _ hsp] at hexec
          exact Option.some.inj hexec
        · have hnone (v : BitVec bw.bits) :
              (view (resolvedII e (Instruction.one .push bw operand).word)).push bw v = none :=
            if_neg hsp
          simp only [hnone] at hexec
          exact absurd hexec (by simp)
      | call =>
        obtain rfl := hbytes rfl
        exact view_call hop hin hallows hext hexact hexec
      | _ => exact absurd hexec (by simp_all [OneOp.shifts])

end

end Msp430
