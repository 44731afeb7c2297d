/-
# The machine state

The data that the C code of the emulator reads and writes: the register cells and
the status register of `struct Cpu` (`devices/cpu/registers.h`), the buffer
`MEMSPACE` (`devices/memory/memspace.c`), the flags of `struct Debugger` and the
peripheral mirrors, together with the host pointers through which the decoders
reach them (`get_reg_ptr`, `get_addr_ptr`, `get_stack_ptr` in
`devices/utilities.c`).

Conventions:

* a machine integer of width `w` is a `BitVec w`; `int16_t` and `uint16_t` share
  `BitVec 16`, and the promotions to 32 bits are written where the code makes them;
* the register cells are one file indexed by the register number.  Cell `0` is
  `cpu->pc`, cell `1` is `cpu->sp`, cell `3` is `cpu->cg2`, cells `4 … 15` are
  `cpu->r4 … cpu->r15`; cell `2` is NOT the status register but the `static int16_t
  r2` of `get_reg_ptr`, the copy that a pointer to register 2 really points at;
* `MEMSPACE` is addressed by its host offset, a natural number, so that the second
  byte of a word at `0xFFFF` is the host byte at offset `0x10000`, as it is in C.
-/
import Mathlib

namespace Msp430

/-! ## Index types

The sizes of the register file, of a port and of the `As` field.  As named instances
they make a numeral the same term in every module. -/

instance neZero_registers : NeZero 16 := ⟨by decide⟩

instance neZero_pins : NeZero 8 := ⟨by decide⟩

instance neZero_modes : NeZero 4 := ⟨by decide⟩

instance lawfulBEq_registers : LawfulBEq (Fin 16) := inferInstance

/-! ## Widths and the status register -/

/-- The `WORD`/`BYTE` flag of an instruction (`decoder.h`). -/
inductive Width : Type where
  | word : Width
  | byte : Width
  deriving DecidableEq, Repr

/-- The bit-field struct `Status_reg`. -/
structure StatusReg where
  reserved : BitVec 7
  overflow : Bool
  scg1 : Bool
  scg0 : Bool
  oscoff : Bool
  cpuoff : Bool
  gie : Bool
  negative : Bool
  zero : Bool
  carry : Bool
  deriving DecidableEq, Repr

/-! ## Peripheral mirrors -/

/-- The pin flags of `struct Port_1`, pin by pin. -/
structure Port1 where
  dir : Fin 8 → Bool
  out : Fin 8 → Bool
  ifg : Fin 8 → Bool
  ie : Fin 8 → Bool
  sel : Fin 8 → Bool
  sel2 : Fin 8 → Bool

/-- The clocks of `bcm.h`. -/
inductive Clock : Type where
  | dcoclk : Clock
  | xt2clk : Clock
  | vloclk : Clock
  | taclk : Clock
  | aclk : Clock
  | smclk : Clock
  | mclk : Clock
  | inclk : Clock
  deriving DecidableEq, Repr

/-- The derived clock values of `struct Bcm`. -/
structure Bcm where
  dcoFreq : ℕ
  dcoPeriod : ℕ
  dcoPulseWidth : ℕ
  mclkSource : Clock
  mclkDiv : ℕ
  mclkFreq : ℕ

/-- The timer modes of `timer_a.h`. -/
inductive TimerMode : Type where
  | stop : TimerMode
  | up : TimerMode
  | continous : TimerMode
  | upDown : TimerMode
  deriving DecidableEq, Repr

/-- The derived fields of `struct Timer_a` that `handle_timer_a` writes. -/
structure TimerA where
  source0 : Clock
  idiv0 : ℕ
  mode0 : TimerMode
  captureMode0 : Bool
  compareMode0 : Bool
  timer0Running : Bool

/-! ## The emulator state -/

/-- The state of `struct Emulator`, with the globals and the host cells that the
decoders use.  `bogusReg` is the stack cell `bogus_reg` of `decode_formatII`;
`residue` supplies, one value for each call of `decode_formatII`, what its local
`source_value` holds before anything is assigned to it. -/
structure Emulator where
  regs : Fin 16 → BitVec 16
  sr : StatusReg
  mem : ℕ → BitVec 8
  bogusReg : BitVec 16
  residue : ℕ → BitVec 16
  running : Bool
  debugMode : Bool
  disassembleMode : Bool
  quit : Bool
  numBps : ℕ
  bpAddresses : ℕ → BitVec 16
  currentBp : BitVec 16
  p1 : Port1
  bcm : Bcm
  timerA : TimerA
  serial : List (BitVec 8)

/-- A host pointer of the decoders: to a register cell, into `MEMSPACE`, or to
`bogus_reg`. -/
inductive Ptr : Type where
  | reg (n : Fin 16) : Ptr
  | mem (offset : ℕ) : Ptr
  | bogus : Ptr
  deriving DecidableEq, Repr

/-- The high byte of a word. -/
def highByte (v : BitVec 16) : BitVec 8 := (v >>> 8).setWidth 8

/-- The word with the given high and low bytes. -/
def joinBytes (high low : BitVec 8) : BitVec 16 := high.setWidth 16 <<< 8 ||| low.setWidth 16

namespace Emulator

/-- `cpu->pc`. -/
def pc (emu : Emulator) : BitVec 16 := emu.regs 0

/-- `cpu->sp`. -/
def sp (emu : Emulator) : BitVec 16 := emu.regs 1

/-- Assign a register cell. -/
def setReg (emu : Emulator) (n : Fin 16) (v : BitVec 16) : Emulator :=
  { emu with regs := fun m => if m = n then v else emu.regs m }

/-- Assign one byte of `MEMSPACE`. -/
def setByte (emu : Emulator) (a : ℕ) (b : BitVec 8) : Emulator :=
  { emu with mem := fun a' => if a' = a then b else emu.mem a' }

/-- The word at a `uint16_t *` (the host is little-endian). -/
def load16 (emu : Emulator) : Ptr → BitVec 16
  | .reg n => emu.regs n
  | .mem a => joinBytes (emu.mem (a + 1)) (emu.mem a)
  | .bogus => emu.bogusReg

/-- The byte at the same pointer cast to `uint8_t *`. -/
def load8 (emu : Emulator) : Ptr → BitVec 8
  | .reg n => (emu.regs n).setWidth 8
  | .mem a => emu.mem a
  | .bogus => emu.bogusReg.setWidth 8

/-- Store a word through a `uint16_t *`. -/
def store16 (emu : Emulator) : Ptr → BitVec 16 → Emulator
  | .reg n, v => emu.setReg n v
  | .mem a, v => (emu.setByte a (v.setWidth 8)).setByte (a + 1) (highByte v)
  | .bogus, v => { emu with bogusReg := v }

/-- Store a byte through the pointer cast to `uint8_t *`: the high byte stays. -/
def store8 (emu : Emulator) : Ptr → BitVec 8 → Emulator
  | .reg n, b => emu.setReg n (joinBytes (highByte (emu.regs n)) b)
  | .mem a, b => emu.setByte a b
  | .bogus, b => { emu with bogusReg := joinBytes (highByte emu.bogusReg) b }

end Emulator

/-! ## Register lookup and the status word (`utilities.c`, `registers.c`) -/

/-- `if (b) r2 |= mask;` on a word that starts at zero. -/
def bitIf (b : Bool) (mask : BitVec 16) : BitVec 16 := if b then mask else 0

/-- `sr_to_value`: the status word spelled by the bit-field struct. -/
def srToValue (sr : StatusReg) : BitVec 16 :=
  bitIf (sr.reserved &&& 0b1000000 != 0) 0x8000
    ||| bitIf (sr.reserved &&& 0b0100000 != 0) 0x4000
    ||| bitIf (sr.reserved &&& 0b0010000 != 0) 0x2000
    ||| bitIf (sr.reserved &&& 0b0001000 != 0) 0x1000
    ||| bitIf (sr.reserved &&& 0b0000100 != 0) 0x0800
    ||| bitIf (sr.reserved &&& 0b0000010 != 0) 0x0400
    ||| bitIf (sr.reserved &&& 0b0000001 != 0) 0x0200
    ||| bitIf sr.overflow 0x0100
    ||| bitIf sr.scg1 0x0080
    ||| bitIf sr.scg0 0x0040
    ||| bitIf sr.oscoff 0x0020
    ||| bitIf sr.cpuoff 0x0010
    ||| bitIf sr.gie 0x0008
    ||| bitIf sr.negative 0x0004
    ||| bitIf sr.zero 0x0002
    ||| bitIf sr.carry 0x0001

/-- `set_sr_value`.  The seven assignments to `reserved` go through a 7-bit field,
so each constant loses the bits above the sixth. -/
def setSrValue (emu : Emulator) (value : BitVec 16) : Emulator :=
  let reservedIf (mask : BitVec 16) : BitVec 7 :=
    if value &&& mask != 0 then mask.setWidth 7 else 0
  { emu with sr :=
    { reserved := reservedIf 0x8000 ||| reservedIf 0x4000 ||| reservedIf 0x2000
        ||| reservedIf 0x1000 ||| reservedIf 0x0800 ||| reservedIf 0x0400
        ||| reservedIf 0x0200
      overflow := value &&& 0x0100 != 0
      scg1 := value &&& 0x0080 != 0
      scg0 := value &&& 0x0040 != 0
      oscoff := value &&& 0x0020 != 0
      cpuoff := value &&& 0x0010 != 0
      gie := value &&& 0x0008 != 0
      negative := value &&& 0x0004 != 0
      zero := value &&& 0x0002 != 0
      carry := value &&& 0x0001 != 0 } }

/-- The effect of `get_reg_ptr` on the state: looking up register 2 refreshes the
static copy of the status word; the pointer returned is `Ptr.reg reg`. -/
def getRegPtr (emu : Emulator) (reg : Fin 16) : Emulator :=
  if reg = 2 then emu.setReg 2 (srToValue emu.sr) else emu

/-- `get_addr_ptr`. -/
def getAddrPtr (virtAddr : BitVec 16) : Ptr := .mem virtAddr.toNat

/-- `get_stack_ptr`. -/
def getStackPtr (emu : Emulator) : Ptr := .mem emu.sp.toNat

/-! ## Loads and stores -/

namespace Emulator

@[simp] theorem regs_setReg (emu : Emulator) (n m : Fin 16) (v : BitVec 16) :
    (emu.setReg n v).regs m = if m = n then v else emu.regs m := rfl

@[simp] theorem sr_setReg (emu : Emulator) (n : Fin 16) (v : BitVec 16) :
    (emu.setReg n v).sr = emu.sr := rfl

@[simp] theorem mem_setReg (emu : Emulator) (n : Fin 16) (v : BitVec 16) :
    (emu.setReg n v).mem = emu.mem := rfl

@[simp] theorem pc_setReg (emu : Emulator) (n : Fin 16) (v : BitVec 16) :
    (emu.setReg n v).pc = if 0 = n then v else emu.pc := rfl

@[simp] theorem sp_setReg (emu : Emulator) (n : Fin 16) (v : BitVec 16) :
    (emu.setReg n v).sp = if 1 = n then v else emu.sp := rfl

/-- A register assignment does not show through a pointer into memory. -/
@[simp] theorem load16_setReg_getAddrPtr (emu : Emulator) (n : Fin 16) (v a : BitVec 16) :
    (emu.setReg n v).load16 (getAddrPtr a) = emu.load16 (getAddrPtr a) := rfl

@[simp] theorem regs_store16 (emu : Emulator) (p : Ptr) (v : BitVec 16) (n : Fin 16) :
    (emu.store16 p v).regs n = if p = .reg n then v else emu.regs n := by
  cases p with
  | reg m => simp [store16, eq_comm]
  | mem a => simp [store16, setByte]
  | bogus => simp [store16]

@[simp] theorem regs_store8 (emu : Emulator) (p : Ptr) (b : BitVec 8) (n : Fin 16) :
    (emu.store8 p b).regs n
      = if p = .reg n then joinBytes (highByte (emu.regs n)) b else emu.regs n := by
  cases p with
  | reg m =>
    by_cases h : n = m
    · subst h; simp [store8]
    · simp [store8, h, Ne.symm h]
  | mem a => simp [store8, setByte]
  | bogus => simp [store8]

@[simp] theorem sr_store16 (emu : Emulator) (p : Ptr) (v : BitVec 16) :
    (emu.store16 p v).sr = emu.sr := by cases p <;> rfl

@[simp] theorem sr_store8 (emu : Emulator) (p : Ptr) (b : BitVec 8) :
    (emu.store8 p b).sr = emu.sr := by cases p <;> rfl

end Emulator

/-- Joining the two bytes of a word gives the word back. -/
@[simp] theorem joinBytes_highByte (v : BitVec 16) :
    joinBytes (highByte v) (v.setWidth 8) = v := by
  ext i hi
  rw [← BitVec.getLsbD_eq_getElem, ← BitVec.getLsbD_eq_getElem]
  by_cases h : i < 8
  · simp [joinBytes, h, hi]
  · simp [joinBytes, highByte, h, hi, show i - 8 < 8 by omega, show 8 + (i - 8) = i by omega]

/-- The low byte of a joined word. -/
@[simp] theorem setWidth_joinBytes (high low : BitVec 8) :
    (joinBytes high low).setWidth 8 = low := by
  ext i hi
  simp [joinBytes]

/-- The high byte of a joined word. -/
@[simp] theorem highByte_joinBytes (high low : BitVec 8) :
    highByte (joinBytes high low) = high := by
  ext i hi
  rw [← BitVec.getLsbD_eq_getElem, ← BitVec.getLsbD_eq_getElem]
  simp [joinBytes, highByte, hi, show 8 + i < 16 by omega, show i < 16 by omega]

/-- A byte as a word. -/
theorem joinBytes_zero (b : BitVec 8) : joinBytes 0 b = b.setWidth 16 := by
  ext i hi
  simp [joinBytes]

/-- A word is given by its two bytes. -/
theorem joinBytes_eq_iff (high low : BitVec 8) (v : BitVec 16) :
    joinBytes high low = v ↔ low = v.setWidth 8 ∧ high = highByte v := by
  constructor
  · rintro rfl
    simp
  · rintro ⟨rfl, rfl⟩
    exact joinBytes_highByte v

/-! ## Byte masks -/

/-- The byte mask keeps the low byte. -/
theorem mask_eq_joinBytes (v : BitVec 16) : v &&& 0x00FF = joinBytes 0 (v.setWidth 8) := by
  have hmask : ∀ k : Fin 16, (0x00FF : BitVec 16).getLsbD k = decide (k.val < 8) := by decide
  ext i hi
  rw [← BitVec.getLsbD_eq_getElem, ← BitVec.getLsbD_eq_getElem, BitVec.getLsbD_and,
    hmask ⟨i, hi⟩, joinBytes_zero]
  simp [hi, Bool.and_comm]

/-- Its complement keeps the high byte. -/
theorem mask_high_eq_joinBytes (v : BitVec 16) : v &&& 0xFF00 = joinBytes (highByte v) 0 := by
  have hmask : ∀ k : Fin 16, (0xFF00 : BitVec 16).getLsbD k = decide (8 ≤ k.val) := by decide
  ext i hi
  rw [← BitVec.getLsbD_eq_getElem, ← BitVec.getLsbD_eq_getElem, BitVec.getLsbD_and,
    hmask ⟨i, hi⟩]
  by_cases h : i < 8
  · simp [joinBytes, h]
  · simp [joinBytes, highByte, h, hi, show 8 ≤ i by omega, show i - 8 < 8 by omega,
      show 8 + (i - 8) = i by omega]

theorem setWidth_mask (v : BitVec 16) : (v &&& 0x00FF).setWidth 8 = v.setWidth 8 := by
  rw [mask_eq_joinBytes, setWidth_joinBytes]

theorem highByte_mask (v : BitVec 16) : highByte (v &&& 0x00FF) = 0 := by
  rw [mask_eq_joinBytes, highByte_joinBytes]

/-- The byte mask leaves a word exactly when its high byte is zero. -/
theorem mask_eq_self_iff (v : BitVec 16) : v &&& 0x00FF = v ↔ highByte v = 0 := by
  rw [mask_eq_joinBytes, joinBytes_eq_iff, eq_comm (a := (0 : BitVec 8))]
  exact and_iff_right rfl

namespace Emulator

/-- The byte form of a load is the low half of the word form. -/
theorem load8_eq (emu : Emulator) (p : Ptr) : emu.load8 p = (emu.load16 p).setWidth 8 := by
  cases p <;> simp [load8, load16]

@[simp] theorem load16_store16 (emu : Emulator) (p : Ptr) (v : BitVec 16) :
    (emu.store16 p v).load16 p = v := by
  cases p with
  | reg n => simp [load16, store16]
  | mem a => simp [load16, store16, setByte, joinBytes_highByte]
  | bogus => rfl

@[simp] theorem load8_store8 (emu : Emulator) (p : Ptr) (b : BitVec 8) :
    (emu.store8 p b).load8 p = b := by
  cases p <;> simp [load8, store8, setByte]

/-- A byte store keeps the high byte of the word it lands in. -/
theorem load16_store8 (emu : Emulator) (p : Ptr) (b : BitVec 8) :
    (emu.store8 p b).load16 p = joinBytes (highByte (emu.load16 p)) b := by
  cases p <;> simp [load16, store8, setByte]

end Emulator

/-! ## Register lookup -/

@[simp] theorem regs_getRegPtr (emu : Emulator) (r n : Fin 16) :
    (getRegPtr emu r).regs n = if r = 2 ∧ n = 2 then srToValue emu.sr else emu.regs n := by
  unfold getRegPtr
  split <;> simp_all

@[simp] theorem sr_getRegPtr (emu : Emulator) (r : Fin 16) :
    (getRegPtr emu r).sr = emu.sr := by
  unfold getRegPtr
  split <;> rfl

@[simp] theorem load16_getRegPtr_getAddrPtr (emu : Emulator) (r : Fin 16)
    (a : BitVec 16) :
    (getRegPtr emu r).load16 (getAddrPtr a) = emu.load16 (getAddrPtr a) := by
  unfold getRegPtr
  split <;> rfl

@[simp] theorem pc_getRegPtr (emu : Emulator) (r : Fin 16) :
    (getRegPtr emu r).pc = emu.pc := by
  unfold getRegPtr
  split <;> rfl

end Msp430
