/-
# Two-operand instructions refine the documented processor

`ExactTwo` says when a two-operand instruction of the code does what it is documented to do.
It excludes what the claims about the decoder have found: a symbolic source or the program
counter beside a destination in memory, a byte popped through the stack pointer, the status
register as a destination, a comparison that masks its register, the carry tests.  Where it
holds, `decode_formatI` is the documented instruction.
-/
import Msp430.FlagsExact
import Msp430.ReadOnly

namespace Msp430

/-! ## The execute switch -/

/-- An operation stores its result, or compares, or is DADD. -/
theorem TwoOp.writes_or_compares {op : TwoOp} (h : op ≠ .dadd) :
    (op.compares = false ∧ Writes op.code) ∨
      (op.compares = true ∧ (op.code = 0x9 ∨ op.code = 0xB)) := by
  cases op <;> first | exact absurd rfl h | simp [TwoOp.compares, TwoOp.code, Writes]

/-- A register that a byte instruction works on has been masked. -/
def Masked (emu : Emulator) (bw : Width) (l : Place) : Prop :=
  bw = .byte → ∀ n, l = .reg n → highByte (emu.regs n) = 0

/-- The state after a comparison. -/
theorem view_executeI_compares (emu : Emulator) {op : TwoOp} (hop : op ≠ .dadd)
    (hc : op.compares = true) (bw : Width) (v : BitVec 16) (p : Ptr)
    (h : FlagsExact op bw emu.sr.carry v (emu.load16 p)) :
    view (executeI emu op.code bw v p)
      = { view emu with
          sr := op.flags emu.sr (v.setWidth bw.bits) ((emu.load16 p).setWidth bw.bits) } := by
  have hcode : op.code = 0x9 ∨ op.code = 0xB := by
    rcases TwoOp.writes_or_compares hop with hw | hw
    · exact absurd (hw.1.symm.trans hc) (by decide)
    · exact hw.2
  rw [executeI_compares emu op.code bw v p hcode, sr_executeI_exact emu bw v p h]
  rfl

/-- The state after the result has been stored. -/
theorem view_storeResult (emu : Emulator) (op : TwoOp) (bw : Width) (v : BitVec 16)
    {l : Place} (h2 : l ≠ .reg 2) (hin : l.Interior) (hmask : Masked emu bw l) :
    view (storeResult emu op.code bw v l.ptr)
      = (view emu).write bw l
          (aluResult op.code (v.setWidth bw.bits) ((emu.load16 l.ptr).setWidth bw.bits)
            emu.sr.carry) := by
  cases bw with
  | word =>
    refine (view_store16 emu h2 hin _).trans (congrArg ((view emu).write .word l) ?_)
    exact congrArg₂ (fun a d => aluResult op.code a d emu.sr.carry) (BitVec.setWidth_eq v).symm
      (BitVec.setWidth_eq _).symm
  | byte =>
    refine (view_store8 emu h2 (hmask rfl) _).trans (congrArg ((view emu).write .byte l) ?_)
    exact congrArg (fun d => aluResult op.code (v.setWidth 8) d emu.sr.carry)
      (emu.load8_eq l.ptr)

/-- A write does not look at the flags, a place apart that is the status register. -/
theorem Processor.write_with_sr (s : Processor) (sr : StatusReg) (bw : Width) {l : Place}
    (h2 : l ≠ .reg 2) (v : BitVec bw.bits) :
    { s with sr := sr }.write bw l v = { s.write bw l v with sr := sr } := by
  cases l with
  | reg n =>
    have hn : n ≠ 2 := fun hn => h2 (by rw [hn])
    simp only [Processor.write, Processor.writeReg]
    split_ifs <;> rfl
  | mem a => cases bw <;> rfl
  | nowhere => rfl

/-- The state after an operation that stores. -/
theorem view_executeI_writes (emu : Emulator) {op : TwoOp} (hop : op ≠ .dadd)
    (hc : op.compares = false) (bw : Width) (v : BitVec 16) {l : Place} (h2 : l ≠ .reg 2)
    (hin : l.Interior) (hmask : Masked emu bw l)
    (h : FlagsExact op bw emu.sr.carry v (emu.load16 l.ptr)) :
    let v' := v.setWidth bw.bits
    let d := (emu.load16 l.ptr).setWidth bw.bits
    view (executeI emu op.code bw v l.ptr)
      = { view emu with sr := op.flags emu.sr v' d }.write bw l
          (aluResult op.code v' d emu.sr.carry) := by
  have hwrites : Writes op.code := by
    rcases TwoOp.writes_or_compares hop with hw | hw
    · exact hw.2
    · exact absurd (hw.1.symm.trans hc) (by decide)
  intro v' d
  rw [executeI_eq_storeResult emu op.code bw v l.ptr hwrites, view_with_sr,
    sr_executeI_exact emu bw v l.ptr h, view_storeResult emu op bw v h2 hin hmask]
  exact (Processor.write_with_sr (view emu) _ bw h2 _).symm

/-- MOV, BIC and BIS into the constant generator leave the processor as it is. -/
theorem view_executeI_three (emu : Emulator) {op : TwoOp}
    (hop : op = .mov ∨ op = .bic ∨ op = .bis) (bw : Width) (v : BitVec 16) :
    view (executeI emu op.code bw v (.reg 3)) = view emu := by
  refine view_congr (fun n _ h3 => ?_) ?_ (fun a => ?_)
  · rcases hop with rfl | rfl | rfl <;> cases bw <;> exact if_neg h3
  · exact sr_executeI emu op.code bw v _ (by rcases hop with rfl | rfl | rfl <;> decide)
  · rcases hop with rfl | rfl | rfl <;> cases bw <;> rfl

/-! ## The fields of the instruction -/

/-- The constant that an operand is. -/
def Operand.generated : Operand → Option (BitVec 16)
  | .constant c => some c.value
  | _ => none

theorem Operand.generatedConstant_eq (o : Operand) :
    generatedConstant o.reg o.mode = o.generated := by
  rw [Constant.generatedConstant_eq]
  cases o with
  | constant c =>
    have hc := (Constant.read_iff (constant c).reg (constant c).mode c).mpr ⟨rfl, rfl⟩
    rw [hc]
    rfl
  | _ => exact congrArg (Option.map Constant.value) (read_constant_eq_none _ (by simp))

/-- An operand increments its register. -/
def Operand.increments : Operand → Bool
  | .autoIncrement _ _ => true
  | _ => false

section

variable (op : TwoOp) (bw : Width) (src : Operand) (dst : Target)

theorem constantI_two : constantI (Instruction.two op bw src dst).word = src.generated := by
  obtain ⟨-, hsrc, -, -, has, -⟩ := Instruction.fields_two op bw src dst
  rw [constantI, hsrc, has, Operand.generatedConstant_eq]

theorem sourceAdvance_two : sourceAdvance (Instruction.two op bw src dst).word
    = 2 * BitVec.ofNat 16 src.extension.length := by
  obtain ⟨-, hsrc, -, -, has, -⟩ := Instruction.fields_two op bw src dst
  have hext := src.fieldExtended_eq
  rw [fieldExtended_eq] at hext
  rw [sourceAdvance, sourceExtended, constantI_two, hsrc, has, ← Operand.generatedConstant_eq,
    hext]
  cases src <;> rfl

theorem advanceI_two : advanceI (Instruction.two op bw src dst).word
    = 2 * BitVec.ofNat 16 (src.extension ++ dst.extension).length := by
  obtain ⟨-, -, had, -, -, -⟩ := Instruction.fields_two op bw src dst
  rw [advanceI, sourceAdvance_two, had, List.length_append, BitVec.ofNat_add, BitVec.mul_add]
  cases dst <;> rfl

theorem autoIncrements_two :
    autoIncrements (Instruction.two op bw src dst).word = src.increments := by
  obtain ⟨-, hsrc, -, -, has, -⟩ := Instruction.fields_two op bw src dst
  rw [autoIncrements, constantI_two, hsrc, has]
  cases src with
  | autoIncrement n h => simp [Operand.generated, Operand.mode, Operand.reg, Operand.increments, h.1]
  | _ => rfl

theorem masksDestination_two :
    masksDestination (Instruction.two op bw src dst).word = (bw == .byte && !dst.mode) := by
  obtain ⟨-, -, had, hbw, -, -⟩ := Instruction.fields_two op bw src dst
  rw [masksDestination, hbw, had]

end

/-! ## What is exact -/

/-- The source is evaluated as documented: not the program counter or a symbolic source
beside a destination in memory, and no byte through an incremented stack pointer. -/
def Operand.ExactBeside (bw : Width) (beside : Bool) : Operand → Prop
  | .register n _ | .indirect n _ => ¬ (n = 0 ∧ beside)
  | .symbolic _ => ¬ beside
  | .autoIncrement n _ => ¬ (n = 1 ∧ bw = .byte)
  | _ => True

/-- The destination is: not the status register; the constant generator only for an operation
that sets no flags; for a comparison of bytes, no register with a high byte. -/
def Target.Exact (s : Processor) (op : TwoOp) (bw : Width) : Target → Prop
  | .register n => n ≠ 2 ∧ (n = 3 → op = .mov ∨ op = .bic ∨ op = .bis) ∧
      (op.compares → bw = .byte → highByte (s.readReg n) = 0)
  | .indexed n _ _ => n ≠ 3
  | _ => True

/-- The word that holds the destination once a register has been masked. -/
def maskedWord (s : Processor) (bw : Width) (l : Place) : BitVec 16 :=
  match l, bw with
  | .reg _, .byte => s.wordOf l &&& 0x00FF
  | _, _ => s.wordOf l

/-- **The two-operand instructions that the code executes as documented.** -/
def ExactTwo (s : Processor) (op : TwoOp) (bw : Width) (src : Operand) (dst : Target)
    (here : BitVec 16) : Prop :=
  let s' := src.after s bw
  let l := dst.place s' (here + 2 * BitVec.ofNat 16 src.extension.length)
  src.ExactBeside bw dst.mode ∧ (src.place s here).Interior ∧ dst.Exact s' op bw ∧ l.Interior ∧
    (l ≠ .reg 3 → FlagsExact op bw s.sr.carry (src.word s here) (maskedWord s' bw l))

instance (bw : Width) (beside : Bool) (o : Operand) : Decidable (o.ExactBeside bw beside) :=
  match o with
  | .register n _ | .indirect n _ => inferInstanceAs (Decidable (¬ (n = 0 ∧ beside)))
  | .symbolic _ => inferInstanceAs (Decidable (¬ beside))
  | .autoIncrement n _ => inferInstanceAs (Decidable (¬ (n = 1 ∧ bw = .byte)))
  | .indexed _ _ _ | .absolute _ | .immediate _ | .constant _ => inferInstanceAs (Decidable True)

instance (s : Processor) (op : TwoOp) (bw : Width) (t : Target) : Decidable (t.Exact s op bw) :=
  match t with
  | .register n => inferInstanceAs (Decidable (n ≠ 2 ∧ (n = 3 → op = .mov ∨ op = .bic ∨
      op = .bis) ∧ (op.compares → bw = .byte → highByte (s.readReg n) = 0)))
  | .indexed n _ _ => inferInstanceAs (Decidable (n ≠ 3))
  | .symbolic _ | .absolute _ => inferInstanceAs (Decidable True)

instance (s : Processor) (op : TwoOp) (bw : Width) (src : Operand) (dst : Target)
    (here : BitVec 16) : Decidable (ExactTwo s op bw src dst here) :=
  inferInstanceAs (Decidable (_ ∧ _))

/-! ## The operands -/

/-- The processor as it executes an instruction whose extension words the code is about to
fetch. -/
def entered (e : Emulator) (i : Instruction) : Processor :=
  (view e).writeReg 0 (e.pc + 2 * BitVec.ofNat 16 i.extension.length)

theorem reg_entered (e : Emulator) (i : Instruction) {n : Fin 16} (h2 : n ≠ 2) (h3 : n ≠ 3) :
    (entered e i).reg n
      = e.regs n + if n = 0 then 2 * BitVec.ofNat 16 i.extension.length else 0 := by
  rw [entered, Processor.reg_writeReg _ (by decide) (by decide)]
  by_cases h0 : n = 0
  · rw [if_pos h0, if_pos h0, h0]
    rfl
  · rw [if_neg h0, if_neg h0, reg_view e h2 h3]
    exact (BitVec.add_zero _).symm

@[simp] theorem sr_entered (e : Emulator) (i : Instruction) : (entered e i).sr = e.sr :=
  Processor.sr_writeReg _ (by decide) _

@[simp] theorem mem_entered (e : Emulator) (i : Instruction) :
    (entered e i).mem = (view e).mem :=
  Processor.mem_writeReg _ _ _

theorem wordAt_entered (e : Emulator) (i : Instruction) {a : BitVec 16} (h : a ≠ 0xFFFF) :
    (entered e i).wordAt a = e.load16 (getAddrPtr a) := by
  rw [← wordAt_view e h, Processor.wordAt, mem_entered]
  rfl

/-- Evaluating an operand moves at most one register. -/
theorem reg_after (s : Processor) (bw : Width) (o : Operand) (beside : Bool)
    (h : o.ExactBeside bw beside) {n : Fin 16} :
    (o.after s bw).reg n
      = s.reg n + if o.increments ∧ n = o.reg then increment bw else 0 := by
  cases o with
  | autoIncrement m hm =>
    have hstride : stride m bw = increment bw := by
      cases bw with
      | word => rfl
      | byte => exact if_neg fun h1 => h ⟨h1, rfl⟩
    rw [Operand.after, Processor.reg_writeReg _ hm.2.1 hm.2.2, hstride]
    by_cases hn : n = m
    · rw [if_pos hn, if_pos ⟨rfl, hn⟩, hn]
    · rw [if_neg hn, if_neg fun hc => hn hc.2]
      exact (BitVec.add_zero _).symm
  | _ => exact (BitVec.add_zero _).symm

@[simp] theorem sr_after (s : Processor) (bw : Width) (o : Operand) : (o.after s bw).sr = s.sr := by
  cases o with
  | autoIncrement n h => exact Processor.sr_writeReg _ h.2.1 _
  | _ => rfl

@[simp] theorem mem_after (s : Processor) (bw : Width) (o : Operand) :
    (o.after s bw).mem = s.mem := by
  cases o with
  | autoIncrement n h => exact Processor.mem_writeReg _ _ _
  | _ => rfl

section

variable (e : Emulator) (op : TwoOp) (bw : Width) (src : Operand) (dst : Target)

/-- A register that the operand block does not mask is as the evaluation of the source
leaves it. -/
theorem regsI_two (hsrc : src.ExactBeside bw dst.mode) {n : Fin 16} (h2 : n ≠ 2) (h3 : n ≠ 3)
    (hmask : ¬ (bw = .byte ∧ dst.mode = false ∧ n = dst.reg)) :
    regsI e (Instruction.two op bw src dst).word false n
      = (src.after (entered e (.two op bw src dst)) bw).reg n := by
  obtain ⟨-, hreg, -, hbw, -, hdst⟩ := Instruction.fields_two op bw src dst
  have hm : ¬ (masksDestination (Instruction.two op bw src dst).word = true ∧
      n = lowReg (Instruction.two op bw src dst).word) := by
    rw [masksDestination_two, hdst]
    rintro ⟨hb, hn⟩
    simp only [Bool.and_eq_true, beq_iff_eq, Bool.not_eq_true'] at hb
    exact hmask ⟨hb.1, hb.2, hn⟩
  rw [regsI_of_unmasked e _ n h2 hm, reg_after _ bw src dst.mode hsrc, reg_entered e _ h2 h3,
    advanceI_two, autoIncrements_two, hreg, hbw]
  rfl

/-- A masked register. -/
theorem regsI_two_masked (hsrc : src.ExactBeside bw dst.mode) (hbw : bw = .byte)
    (hmode : dst.mode = false) (h2 : dst.reg ≠ 2) (h3 : dst.reg ≠ 3) :
    regsI e (Instruction.two op bw src dst).word false dst.reg
      = (src.after (entered e (.two op bw src dst)) bw).reg dst.reg &&& 0x00FF := by
  obtain ⟨-, hreg, -, hwidth, -, hdst⟩ := Instruction.fields_two op bw src dst
  have hm : masksDestination (Instruction.two op bw src dst).word = true := by
    rw [masksDestination_two, hbw, hmode]
    rfl
  have hlook := regs_lookupsI_of_ne e (Instruction.two op bw src dst).word h2
  rw [regsI, hm, hdst, reg_after _ bw src dst.mode hsrc, reg_entered e _ h2 h3]
  simp only [Bool.not_false, Bool.and_true, beq_self_eq_true, if_true, unmaskedI, hlook,
    advanceI_two, autoIncrements_two, hreg, hwidth]
  simp only [Bool.true_and, Bool.and_eq_true, beq_iff_eq]
  rfl

/-- **The source of the code is the documented one.** -/
theorem sourceValueI_two (hsrc : src.ExactBeside bw dst.mode)
    (hin : (src.place (entered e (.two op bw src dst)) e.pc).Interior)
    (hext : ∀ x, src.extension = [x] → sourceExtension e = x) :
    sourceValueI e (Instruction.two op bw src dst).word
      = src.word (entered e (.two op bw src dst)) e.pc := by
  obtain ⟨-, hreg, had, -, has, -⟩ := Instruction.fields_two op bw src dst
  -- a base register is read as it was, the program counter behind the instruction word
  have hbase {n : Fin 16} (h : Base n) :
      (entered e (.two op bw src dst)).reg n = e.regs n := by
    rw [reg_entered e _ h.2.1 h.2.2, if_neg h.1]
    exact BitVec.add_zero _
  have hpointer {n : Fin 16} (h2 : n ≠ 2) (h3 : n ≠ 3) (hs : src.extension = [])
      (h0 : ¬ (n = 0 ∧ dst.mode = true)) :
      (entered e (.two op bw src dst)).reg n = e.regs n := by
    rw [reg_entered e _ h2 h3]
    by_cases hn : n = 0
    · have hd : dst.extension = [] := by
        cases hdst : dst with
        | register m => rfl
        | _ => exact absurd ⟨hn, by rw [hdst]; rfl⟩ h0
      rw [if_pos hn, Instruction.extension, hs, hd]
      exact BitVec.add_zero _
    · rw [if_neg hn]
      exact BitVec.add_zero _
  rw [sourceValueI, constantI_two]
  cases src with
  | constant c => rfl
  | register n hn =>
    simp only [Operand.generated, has, hreg, had, Operand.mode, Operand.reg, if_true]
    rw [if_neg hsrc, regs_lookupsI, hreg, Operand.word, Operand.place, Processor.wordOf,
      Processor.readReg]
    · by_cases h2 : n = 2
      · rw [if_pos h2, if_pos ⟨Or.inl h2, h2⟩, sr_entered]
        exact BitVec.add_zero _
      · rw [if_neg h2, if_neg fun hc => h2 hc.2, hpointer h2 hn rfl hsrc]
        exact BitVec.add_zero _
    all_goals simp
  | indexed n x hn =>
    have hx := hext x rfl
    simp only [Operand.generated, has, Operand.mode, Operand.reg, Operand.word, Operand.place,
      Processor.wordOf, sourceCellI, hreg, if_neg hn.1, if_neg hn.2.1, hx]
    rw [wordAt_entered e _ hin, hbase hn]
    rfl
  | symbolic x =>
    have hx := hext x rfl
    have hmode : dst.mode = false := by simpa [Operand.ExactBeside] using hsrc
    simp only [Operand.generated, has, Operand.mode, Operand.reg, Operand.word, Operand.place,
      Processor.wordOf, sourceCellI, hreg, hx, had, hmode]
    rw [wordAt_entered e _ hin]
    simp
  | absolute x =>
    have hx := hext x rfl
    simp only [Operand.generated, has, Operand.mode, Operand.reg, Operand.word, Operand.place,
      Processor.wordOf, sourceCellI, hreg, hx]
    rw [wordAt_entered e _ hin]
    rfl
  | indirect n hn =>
    simp only [Operand.generated, has, Operand.mode, Operand.reg, Operand.word, Operand.place,
      Processor.wordOf, sourceCellI, hreg, had, if_neg hsrc]
    rw [wordAt_entered e _ hin, hpointer hn.1 hn.2 rfl hsrc]
    simp
  | autoIncrement n hn =>
    simp only [Operand.generated, has, Operand.mode, Operand.reg, Operand.word, Operand.place,
      Processor.wordOf, sourceCellI, hreg]
    rw [wordAt_entered e _ hin, hbase hn]
    rfl
  | immediate x =>
    have hx := hext x rfl
    simp only [Operand.generated, has, Operand.mode, Operand.reg, Operand.word, sourceCellI,
      hreg]
    exact hx

/-- **The destination of the code is the documented one.** -/
theorem destinationI_two (hsrc : src.ExactBeside bw dst.mode)
    (hdst : dst.Exact (src.after (entered e (.two op bw src dst)) bw) op bw)
    (hext : ∀ y, dst.extension = [y] →
      destinationExtension e (Instruction.two op bw src dst).word = y) :
    destinationI e (Instruction.two op bw src dst).word false
      = (dst.place (src.after (entered e (.two op bw src dst)) bw)
          (e.pc + 2 * BitVec.ofNat 16 src.extension.length)).ptr := by
  obtain ⟨-, -, had, -, -, hreg⟩ := Instruction.fields_two op bw src dst
  rw [destinationI, had, hreg, sourceAdvance_two]
  cases dst with
  | register n => rfl
  | indexed n y hn =>
    have hregs := regsI_two e op bw src (.indexed n y hn) hsrc hn.2 hdst (by simp [Target.mode])
    simp only [Target.mode, Target.reg, if_true, if_neg hn.1, if_neg hn.2, hext y rfl]
    rw [hregs]
    rfl
  | symbolic y =>
    simp only [Target.mode, Target.reg, if_true, hext y rfl]
    rfl
  | absolute y =>
    simp only [Target.mode, Target.reg, if_true, hext y rfl]
    rfl

/-- The state after the operand block, unless the mask shows. -/
theorem view_operandsI (hsrc : src.ExactBeside bw dst.mode)
    (hmask : bw = .byte → ∀ n, dst = .register n → n ≠ 3 →
      highByte ((src.after (entered e (.two op bw src dst)) bw).reg n) = 0) :
    view { e with regs := regsI e (Instruction.two op bw src dst).word false }
      = src.after (entered e (.two op bw src dst)) bw := by
  refine Processor.eq_of_reg (fun n h2 h3 => ?_) ?_ ?_
  · rw [reg_view _ h2 h3]
    by_cases hm : bw = .byte ∧ dst.mode = false ∧ n = dst.reg
    · obtain ⟨hb, hmode, rfl⟩ := hm
      obtain ⟨m, rfl⟩ : ∃ m, dst = .register m := by
        cases dst with
        | register m => exact ⟨m, rfl⟩
        | _ => exact absurd hmode (by simp [Target.mode])
      refine (regsI_two_masked e op bw src _ hsrc hb rfl h2 h3).trans ?_
      exact (mask_eq_self_iff _).mpr (hmask hb m rfl h3)
    · exact regsI_two e op bw src dst hsrc h2 h3 hm
  · rw [sr_after, sr_entered]
    rfl
  · rw [mem_after, mem_entered]
    rfl

/-- A write to the register that has been masked hides the mask. -/
theorem writeReg_view_operandsI {n : Fin 16} (hsrc : src.ExactBeside bw false) (h2 : n ≠ 2)
    (h3 : n ≠ 3) (v : BitVec 16) :
    (view { e with regs := regsI e (Instruction.two op bw src (.register n)).word false }).writeReg
        n v
      = (src.after (entered e (.two op bw src (.register n))) bw).writeReg n v := by
  refine Processor.eq_of_reg (fun m hm2 hm3 => ?_) ?_ ?_
  · rw [Processor.reg_writeReg _ h2 h3, Processor.reg_writeReg _ h2 h3]
    by_cases hmn : m = n
    · rw [if_pos hmn, if_pos hmn]
    · rw [if_neg hmn, if_neg hmn, reg_view _ hm2 hm3]
      exact regsI_two e op bw src (.register n) hsrc hm2 hm3 (fun hc => hmn hc.2.2)
  · rw [Processor.sr_writeReg _ h2, Processor.sr_writeReg _ h2, sr_after, sr_entered]
    rfl
  · rw [Processor.mem_writeReg, Processor.mem_writeReg, mem_after, mem_entered]
    rfl

/-- The word at the destination, as the execute switch finds it. -/
theorem load16_operandsI_two (hsrc : src.ExactBeside bw dst.mode) {l : Place}
    (hl : l = dst.place (src.after (entered e (.two op bw src dst)) bw)
      (e.pc + 2 * BitVec.ofNat 16 src.extension.length))
    (h2 : l ≠ .reg 2) (h3 : l ≠ .reg 3) (hin : l.Interior) :
    ({ e with regs := regsI e (Instruction.two op bw src dst).word false } : Emulator).load16 l.ptr
      = maskedWord (src.after (entered e (.two op bw src dst)) bw) bw l := by
  obtain ⟨s', hs'⟩ : ∃ s', s' = src.after (entered e (.two op bw src dst)) bw := ⟨_, rfl⟩
  rw [← hs'] at hl ⊢
  have hmem (a : BitVec 16) (ha : a ≠ 0xFFFF) :
      s'.wordAt a = e.load16 (getAddrPtr a) := by
    rw [← wordAt_entered e (.two op bw src dst) ha, Processor.wordAt, hs', mem_after]
    rfl
  cases dst with
  | register n =>
    subst hl
    have hn2 : n ≠ 2 := fun hn => h2 (by rw [hn]; rfl)
    have hn3 : n ≠ 3 := fun hn => h3 (by rw [hn]; rfl)
    cases bw with
    | word =>
      refine (regsI_two e op .word src _ hsrc hn2 hn3 (by simp)).trans ?_
      rw [← hs']
      exact (s'.readReg_of_ne hn2).symm
    | byte =>
      refine (regsI_two_masked e op .byte src _ hsrc rfl rfl hn2 hn3).trans ?_
      rw [← hs']
      exact congrArg (· &&& 0x00FF) (s'.readReg_of_ne hn2).symm
  | indexed n y hn => subst hl; exact (hmem _ hin).symm
  | symbolic y => subst hl; exact (hmem _ hin).symm
  | absolute y => subst hl; exact (hmem _ hin).symm

end

/-! ## The instruction -/

/-- The part of a word that an operation sees is not masked away. -/
theorem setWidth_maskedWord (s : Processor) (bw : Width) (l : Place) :
    (maskedWord s bw l).setWidth bw.bits = (s.wordOf l).setWidth bw.bits := by
  cases l with
  | reg n =>
    cases bw with
    | word => rfl
    | byte => exact setWidth_mask _
  | _ => rfl

/-- The register that a destination in a register is. -/
theorem Target.place_eq_reg {s : Processor} {here : BitVec 16} {dst : Target} {n : Fin 16}
    (h : dst.place s here = .reg n) : dst = .register n := by
  cases dst with
  | register m =>
    simp only [Target.place, Place.reg.injEq] at h
    rw [h]
  | _ => simp [Target.place] at h

/-- What an executed two-operand instruction is and leaves. -/
theorem Processor.execTwo_inv {s t : Processor} {op : TwoOp} {bw : Width} {src : Operand}
    {dst : Target} {here : BitVec 16} (h : s.execTwo op bw src dst here = some t) :
    op ≠ .dadd ∧ t = (src.after s bw).operate op bw ((src.word s here).setWidth bw.bits)
      (dst.place (src.after s bw) (here + 2 * BitVec.ofNat 16 src.extension.length)) := by
  simp only [execTwo] at h
  split at h
  · rename_i hallows
    exact ⟨hallows.1, (Option.some.inj h).symm⟩
  · exact absurd h (by simp)

/-- **A two-operand instruction of the code is the documented one** where it is exact. -/
theorem view_decodeFormatI (e : Emulator) (op : TwoOp) (bw : Width) (src : Operand) (dst : Target)
    (hsx : ∀ x, src.extension = [x] → sourceExtension e = x)
    (hdx : ∀ y, dst.extension = [y] →
      destinationExtension e (Instruction.two op bw src dst).word = y)
    (hexact : ExactTwo (entered e (.two op bw src dst)) op bw src dst e.pc) {s : Processor}
    (hexec : (entered e (.two op bw src dst)).execTwo op bw src dst e.pc = some s) :
    view (decodeFormatI e (Instruction.two op bw src dst).word false) = s := by
  obtain ⟨hop, -, -, hbw, -, -⟩ := Instruction.fields_two op bw src dst
  obtain ⟨hsrc, hsin, hdst, hdin, hflags⟩ := hexact
  -- the state after the source, the destination, and the code's state behind the operand block
  obtain ⟨s', hs'⟩ : ∃ s', s' = src.after (entered e (.two op bw src dst)) bw := ⟨_, rfl⟩
  obtain ⟨l, hl⟩ : ∃ l, l = dst.place s' (e.pc + 2 * BitVec.ofNat 16 src.extension.length) :=
    ⟨_, rfl⟩
  obtain ⟨emu, hemu⟩ : ∃ emu : Emulator,
    emu = { e with regs := regsI e (Instruction.two op bw src dst).word false } := ⟨_, rfl⟩
  have hsr : emu.sr = e.sr := by rw [hemu]
  have hdecode : decodeFormatI e (Instruction.two op bw src dst).word false
      = executeI emu op.code bw (src.word (entered e (.two op bw src dst)) e.pc) l.ptr := by
    simp only [decodeFormatI]
    rw [if_neg (by decide), hop, hbw, operandsI_sourceValue, operandsI_destinationAddr,
      operandsI_emu, sourceValueI_two e op bw src dst hsrc hsin hsx,
      destinationI_two e op bw src dst hsrc hdst hdx, ← hemu, ← hs', ← hl]
  have hview : (∀ n, bw = .byte → l = .reg n → n ≠ 3 → highByte (s'.reg n) = 0) →
      view emu = s' := by
    intro hmask
    rw [hemu, hs']
    refine view_operandsI e op bw src dst hsrc fun hb n hn h3 => ?_
    rw [← hs']
    exact hmask n hb (by rw [hl, hn]; rfl) h3
  obtain ⟨hdadd, hs⟩ := Processor.execTwo_inv hexec
  rw [← hs', ← hl] at hs
  have hsr' : s'.sr = e.sr := by rw [hs', sr_after, sr_entered]
  rw [← hs', ← hl] at hflags hdin
  rw [← hs'] at hdst
  rw [hdecode, hs, Processor.operate, hsr']
  by_cases h3 : l = .reg 3
  · obtain rfl := Target.place_eq_reg (hl.symm.trans h3)
    have hnoflags := hdst.2.1 rfl
    have hnone : op.compares = false ∧ ∀ {k : ℕ} (v d : BitVec k), op.flags e.sr v d = e.sr := by
      rcases hnoflags with rfl | rfl | rfl <;> exact ⟨rfl, fun _ _ => rfl⟩
    rw [h3, if_neg (by rw [hnone.1]; decide), hnone.2]
    refine (view_executeI_three emu hnoflags bw _).trans ?_
    rw [hview (fun n _ hn h => absurd (Place.reg.inj (hn.symm.trans h3)) h), Processor.write,
      Processor.writeReg_three]
    exact Processor.eq_of_reg (fun _ _ _ => rfl) hsr' rfl
  · have h2 : l ≠ .reg 2 := by
      intro h2
      obtain rfl := Target.place_eq_reg (hl.symm.trans h2)
      exact hdst.1 rfl
    have hload : emu.load16 l.ptr = maskedWord s' bw l := by
      rw [hemu, hs']
      exact load16_operandsI_two e op bw src dst hsrc (hs' ▸ hl) h2 h3 hdin
    have hexactflags : FlagsExact op bw emu.sr.carry
        (src.word (entered e (.two op bw src dst)) e.pc) (emu.load16 l.ptr) := by
      rw [hload, hsr]
      have hf := hflags h3
      rw [sr_entered] at hf
      exact hf
    by_cases hc : op.compares = true
    · rw [if_pos hc, view_executeI_compares emu hdadd hc bw _ _ hexactflags, hload,
        setWidth_maskedWord, hsr]
      rw [hview fun n hb hn hn3 => ?_]
      obtain rfl := Target.place_eq_reg (hl.symm.trans hn)
      have hhigh := hdst.2.2 hc hb
      rwa [Processor.readReg_of_ne _ hdst.1] at hhigh
    · have hc' : op.compares = false := by simpa using hc
      have hmasked : Masked emu bw l := by
        intro hb n hn
        obtain rfl := Target.place_eq_reg (hl.symm.trans hn)
        have hn3 : n ≠ 3 := fun h => h3 (by rw [hn, h])
        have hreg := regsI_two_masked e op bw src (.register n) hsrc hb rfl hdst.1 hn3
        rw [hemu]
        exact (congrArg highByte hreg).trans (highByte_mask _)
      -- a write to a masked register hides the mask
      have hwrite (r : BitVec bw.bits) : (view emu).write bw l r = s'.write bw l r := by
        cases hplace : l with
        | reg n =>
          obtain rfl := Target.place_eq_reg (hl.symm.trans hplace)
          have hn3 : n ≠ 3 := fun h => h3 (by rw [hplace, h])
          have hreg := writeReg_view_operandsI e op bw src hsrc hdst.1 hn3 (r.setWidth 16)
          rw [← hemu, ← hs'] at hreg
          exact hreg
        | mem a => rw [hview fun n _ hn => absurd (hplace.symm.trans hn) (by simp)]
        | nowhere => rw [hview fun n _ hn => absurd (hplace.symm.trans hn) (by simp)]
      rw [if_neg hc, view_executeI_writes emu hdadd hc' bw _ h2 hdin hmasked hexactflags, hload,
        setWidth_maskedWord, hsr]
      refine (Processor.write_with_sr (view emu) _ bw h2 _).trans ?_
      rw [hwrite]
      exact (Processor.write_with_sr s' _ bw h2 _).symm

end Msp430
