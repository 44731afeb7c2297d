/-
# The state in which the machine starts (`main.cpp`)

`initialize_msp_memspace`, `initialize_msp_registers` and the four `setup_…` functions,
in the order in which `main` calls them on its zeroed allocations.  `startState` is the
state before a bootloader or a firmware image is loaded.
-/
import Msp430.Machine

namespace Msp430

/-! ## Memory and registers -/

/-- Assign the bytes of a list one after the other. -/
def Emulator.setBytes (emu : Emulator) (bytes : List (ℕ × BitVec 8)) : Emulator :=
  bytes.foldl (fun e b => e.setByte b.1 b.2) emu

/-- Assign the words of a list one after the other. -/
def Emulator.setWords (emu : Emulator) (words : List (ℕ × BitVec 16)) : Emulator :=
  words.foldl (fun e v => e.store16 (.mem v.1) v.2) emu

/-- `initialize_msp_memspace`: zeroes, `0xFF` in the info and code memory, and the
calibration data of the clock. -/
def initializeMspMemspace (emu : Emulator) : Emulator :=
  { emu with mem := fun a =>
      if (0x1000 ≤ a ∧ a < 0x1100) ∨ (0xC000 ≤ a ∧ a < 0x10000) then 0xFF else 0 }.setBytes
    [(0x10F8, 0x95), (0x10F9, 0x8F), (0x10FA, 0x9E), (0x10FB, 0x8E),
     (0x10FC, 0x92), (0x10FD, 0x8D), (0x10FE, 0xD1), (0x10FF, 0x86)]

/-- `initialize_msp_registers`; the static copy of the status word is left alone. -/
def initializeMspRegisters (emu : Emulator) : Emulator :=
  { emu with
    regs := fun n =>
      if n = 0 then 0xC000 else if n = 1 then 0x400 else if n = 2 then emu.regs 2 else 0
    sr := ⟨0, false, false, false, false, false, false, false, false, false⟩
    running := false }

/-! ## Peripherals -/

/-- `setup_bcm`. -/
def setupBcm (emu : Emulator) : Emulator :=
  { emu.setBytes [(0x56, 0x60), (0x57, 0x87), (0x58, 0), (0x53, 0x5), (0x0, 0), (0x2, 0)]
    with bcm := { emu.bcm with
      dcoFreq := 1030000, dcoPeriod := 971, dcoPulseWidth := 970 / 2 } }

/-- `setup_timer_a`; the source `0b10` it assigns is `VLOCLK` in the enumeration of
`bcm.h`. -/
def setupTimerA (emu : Emulator) : Emulator :=
  { emu.setWords
      [(0x160, 0), (0x170, 0), (0x162, 0), (0x172, 0), (0x164, 0), (0x174, 0), (0x166, 0),
       (0x176, 0), (0x12E, 0), (0x180, 0), (0x190, 0), (0x182, 0), (0x192, 0), (0x184, 0),
       (0x194, 0), (0x186, 0), (0x196, 0), (0x11E, 0)]
    with timerA := { emu.timerA with source0 := .vloclk, timer0Running := false } }

/-- The pins of port 1 with every flag cleared. -/
def clearedPort1 : Port1 :=
  ⟨fun _ => false, fun _ => false, fun _ => false, fun _ => false, fun _ => false,
    fun _ => false⟩

/-- `setup_port_1`. -/
def setupPort1 (emu : Emulator) : Emulator :=
  { emu.setBytes
      [(0x20, 0), (0x21, 0), (0x22, 0), (0x23, 0), (0x24, 0), (0x25, 0), (0x26, 0),
       (0x41, 0), (0x27, 0)]
    with p1 := clearedPort1 }

/-- `setup_usci`: the registers, then `TXIFG` set and `RXIFG` cleared in `IFG2`. -/
def setupUsci (emu : Emulator) : Emulator :=
  let emu := emu.setBytes
    [(0x60, 0), (0x61, 0x01), (0x62, 0), (0x63, 0), (0x64, 0), (0x65, 0), (0x66, 0),
     (0x67, 0), (0x5D, 0), (0x5E, 0), (0x5F, 0)]
  let emu := emu.setByte 0x03 (emu.mem 0x03 ||| 0x02)
  emu.setByte 0x03 (emu.mem 0x03 &&& ~~~0x01)

/-! ## The start state -/

/-- The zeroed allocations of `main` after `setup_debugger`. -/
def allocated : Emulator where
  regs := fun _ => 0
  sr := ⟨0, false, false, false, false, false, false, false, false, false⟩
  mem := fun _ => 0
  bogusReg := 0
  residue := fun _ => 0
  running := false
  debugMode := true
  disassembleMode := false
  quit := false
  numBps := 0
  bpAddresses := fun _ => 0
  currentBp := 0
  p1 := clearedPort1
  bcm := ⟨0, 0, 0, .dcoclk, 0, 0⟩
  timerA := ⟨.dcoclk, 0, .stop, false, false, false⟩
  serial := []

/-- The state with which the main loop starts, no image loaded. -/
def startState : Emulator :=
  setupUsci (setupPort1 (setupTimerA (setupBcm
    (initializeMspRegisters (initializeMspMemspace allocated)))))

/-- The machine starts at the first word of the code memory, stack on top of the RAM. -/
example : startState.pc = 0xC000 ∧ startState.sp = 0x400 := ⟨rfl, rfl⟩

end Msp430
