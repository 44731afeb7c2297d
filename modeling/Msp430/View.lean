/-
# The emulator as a processor

`view` forgets what the instruction set does not know of the emulator's state: the host
cells, the static copy of the status word, the memory past the last address, the debugger.
A store of the code is a write of the processor, a load a read, with two provisos: the place
is not the last byte of the address space, where the code reads a host byte behind it, and a
byte goes to a register that has been masked.
-/
import Msp430.Processor
import Msp430.Shifts

namespace Msp430

/-- The processor that the emulator is. -/
def view (emu : Emulator) : Processor where
  reg n := if n = 2 ∨ n = 3 then 0 else emu.regs n
  sr := emu.sr
  mem a := emu.mem a.toNat
  reg_two := rfl
  reg_three := rfl

/-- The host pointer to a place. -/
def Place.ptr : Place → Ptr
  | .reg n => .reg n
  | .mem a => getAddrPtr a
  | .nowhere => .bogus

/-- A place that is not the last byte of the address space. -/
def Place.Interior : Place → Prop
  | .mem a => a ≠ 0xFFFF
  | _ => True

instance (l : Place) : Decidable l.Interior :=
  match l with
  | .mem a => inferInstanceAs (Decidable (a ≠ 0xFFFF))
  | .reg _ | .nowhere => inferInstanceAs (Decidable True)

theorem reg_view (emu : Emulator) {n : Fin 16} (h2 : n ≠ 2) (h3 : n ≠ 3) :
    (view emu).reg n = emu.regs n :=
  if_neg (not_or.mpr ⟨h2, h3⟩)

@[simp] theorem pc_view (emu : Emulator) : (view emu).pc = emu.pc := rfl

@[simp] theorem sp_view (emu : Emulator) : (view emu).sp = emu.sp := rfl

@[simp] theorem sr_view (emu : Emulator) : (view emu).sr = emu.sr := rfl

@[simp] theorem mem_view (emu : Emulator) (a : BitVec 16) :
    (view emu).mem a = emu.mem a.toNat := rfl

/-- A processor is given by its registers but 2 and 3, its status register and its memory. -/
theorem Processor.eq_of_reg {s t : Processor} (hreg : ∀ n, n ≠ 2 → n ≠ 3 → s.reg n = t.reg n)
    (hsr : s.sr = t.sr) (hmem : s.mem = t.mem) : s = t := by
  ext1
  · funext n
    by_cases h2 : n = 2
    · rw [h2, s.reg_two, t.reg_two]
    · by_cases h3 : n = 3
      · rw [h3, s.reg_three, t.reg_three]
      · exact hreg n h2 h3
  · exact hsr
  · exact hmem

/-- The view depends on the registers but 2 and 3, the status register and the memory. -/
theorem view_congr {emu emu' : Emulator}
    (hregs : ∀ n, n ≠ 2 → n ≠ 3 → emu'.regs n = emu.regs n) (hsr : emu'.sr = emu.sr)
    (hmem : ∀ a : BitVec 16, emu'.mem a.toNat = emu.mem a.toNat) : view emu' = view emu := by
  refine Processor.eq_of_reg (fun n h2 h3 => ?_) hsr (funext hmem)
  rw [reg_view _ h2 h3, reg_view _ h2 h3, hregs n h2 h3]

/-! ## Reads and writes of the processor -/

namespace Processor

theorem reg_writeReg (s : Processor) {n : Fin 16} (h2 : n ≠ 2) (h3 : n ≠ 3) (v : BitVec 16)
    (m : Fin 16) : (s.writeReg n v).reg m = if m = n then v else s.reg m := by
  rw [writeReg, dif_neg (not_or.mpr ⟨h2, h3⟩)]
  exact Function.update_apply _ _ _ _

theorem sr_writeReg (s : Processor) {n : Fin 16} (h2 : n ≠ 2) (v : BitVec 16) :
    (s.writeReg n v).sr = s.sr := by
  rw [writeReg]
  split_ifs <;> rfl

@[simp] theorem mem_writeReg (s : Processor) (n : Fin 16) (v : BitVec 16) :
    (s.writeReg n v).mem = s.mem := by
  rw [writeReg]
  split_ifs <;> rfl

/-- Nothing is stored in the constant generator. -/
theorem writeReg_three (s : Processor) (v : BitVec 16) : s.writeReg 3 v = s := by
  rw [writeReg, dif_pos (Or.inr rfl), if_neg (by decide)]

theorem readReg_of_ne (s : Processor) {n : Fin 16} (h : n ≠ 2) : s.readReg n = s.reg n :=
  if_neg h

@[simp] theorem reg_writeMem (s : Processor) (bw : Width) (a : BitVec 16)
    (v : BitVec bw.bits) : (s.writeMem bw a v).reg = s.reg := by cases bw <;> rfl

@[simp] theorem sr_writeMem (s : Processor) (bw : Width) (a : BitVec 16)
    (v : BitVec bw.bits) : (s.writeMem bw a v).sr = s.sr := by cases bw <;> rfl

end Processor

/-! ## Addresses -/

/-- The address behind an address, unless it is the last. -/
theorem toNat_succ {a : BitVec 16} (h : a ≠ 0xFFFF) : (a + 1).toNat = a.toNat + 1 := by
  have hlt : a.toNat ≠ 0xFFFF := fun hc => h (BitVec.eq_of_toNat_eq hc)
  have := a.isLt
  rw [BitVec.toNat_add]
  exact Nat.mod_eq_of_lt (by simp only [BitVec.reduceToNat]; omega)

theorem toNat_eq_succ_iff {a : BitVec 16} (h : a ≠ 0xFFFF) (b : BitVec 16) :
    b.toNat = a.toNat + 1 ↔ b = a + 1 := by
  rw [← toNat_succ h, BitVec.toNat_inj]

theorem Aligned.ne_last {a : BitVec 16} (h : Aligned a) : a ≠ 0xFFFF := by
  rintro rfl
  exact absurd h (by decide)

theorem Aligned.add_two {a : BitVec 16} (h : Aligned a) : Aligned (a + 2) := by
  rw [Aligned] at *
  have := a.isLt
  rw [BitVec.toNat_add]
  simp only [BitVec.reduceToNat]
  omega

theorem Aligned.sub_two {a : BitVec 16} (h : Aligned a) : Aligned (a - 2) := by
  rw [Aligned] at *
  have := a.isLt
  rw [BitVec.toNat_sub]
  simp only [BitVec.reduceToNat]
  omega

/-! ## Loads and stores -/

/-- A load of the code from memory. -/
theorem wordAt_view (emu : Emulator) {a : BitVec 16} (h : a ≠ 0xFFFF) :
    (view emu).wordAt a = emu.load16 (getAddrPtr a) := by
  rw [Processor.wordAt, mem_view, mem_view, toNat_succ h]
  rfl

/-- A store of a word into memory. -/
theorem view_store16_mem (emu : Emulator) {a : BitVec 16} (h : a ≠ 0xFFFF) (v : BitVec 16) :
    view (emu.store16 (getAddrPtr a) v) = (view emu).writeMem .word a v := by
  ext1
  · rfl
  · rfl
  · funext b
    simp only [mem_view, Emulator.store16, getAddrPtr, Emulator.setByte, Processor.writeMem,
      Function.update_apply, toNat_eq_succ_iff h, BitVec.toNat_inj]
    rfl

/-- A store of a byte into memory. -/
theorem view_store8_mem (emu : Emulator) (a : BitVec 16) (b : BitVec 8) :
    view (emu.store8 (getAddrPtr a) b) = (view emu).writeMem .byte a b := by
  ext1
  · rfl
  · rfl
  · funext a'
    simp only [mem_view, Emulator.store8, getAddrPtr, Emulator.setByte, Processor.writeMem,
      Function.update_apply, BitVec.toNat_inj]

/-- A store into a register. -/
theorem view_setReg (emu : Emulator) {n : Fin 16} (h : n ≠ 2) (v : BitVec 16) :
    view (emu.setReg n v) = (view emu).writeReg n v := by
  by_cases h3 : n = 3
  · subst h3
    rw [Processor.writeReg_three]
    refine view_congr (fun m _ hm => ?_) rfl (fun _ => rfl)
    exact if_neg hm
  · refine Processor.eq_of_reg (fun m hm2 hm3 => ?_) ?_ ?_
    · rw [Processor.reg_writeReg _ h h3, reg_view _ hm2 hm3, reg_view _ hm2 hm3]
      rfl
    · rw [Processor.sr_writeReg _ h]
      rfl
    · rw [Processor.mem_writeReg]
      rfl

/-- A store of a byte into a register without high byte. -/
theorem view_store8_reg (emu : Emulator) {n : Fin 16} (h : n ≠ 2)
    (hhigh : highByte (emu.regs n) = 0) (b : BitVec 8) :
    view (emu.store8 (.reg n) b) = (view emu).writeReg n (b.setWidth 16) := by
  rw [Emulator.store8, hhigh, joinBytes_zero]
  exact view_setReg emu h _

/-- New flags. -/
theorem view_with_sr (emu : Emulator) (sr : StatusReg) :
    view { emu with sr := sr } = { view emu with sr := sr } := rfl

/-- **A store of the code is a write of the processor**: of a word, or of a byte where a
register has been masked. -/
theorem view_store16 (emu : Emulator) {l : Place} (h2 : l ≠ .reg 2) (h : l.Interior)
    (v : BitVec 16) : view (emu.store16 l.ptr v) = (view emu).write .word l v := by
  cases l with
  | reg n =>
    have hn : n ≠ 2 := fun hn => h2 (by rw [hn])
    exact (view_setReg emu hn v).trans
      (congrArg ((view emu).writeReg n) (BitVec.setWidth_eq v).symm)
  | mem a => exact view_store16_mem emu h v
  | nowhere => rfl

theorem view_store8 (emu : Emulator) {l : Place} (h2 : l ≠ .reg 2)
    (hhigh : ∀ n, l = .reg n → highByte (emu.regs n) = 0) (b : BitVec 8) :
    view (emu.store8 l.ptr b) = (view emu).write .byte l b := by
  cases l with
  | reg n =>
    have hn : n ≠ 2 := fun hn => h2 (by rw [hn])
    exact view_store8_reg emu hn (hhigh n rfl) b
  | mem a => exact view_store8_mem emu a b
  | nowhere => rfl

end Msp430
