/-
# Decoding, executing and disassembling (`decoder.c`, `disassembler.c`)

`decode` dispatches on the top four bits; `cpuStep` is one fetch-decode-execute
cycle, and `disassemble` runs the same `fetch` and `decode` over a listing and then
restores the program counter.
-/
import Msp430.FormatI
import Msp430.FormatII
import Msp430.FormatIII

namespace Msp430

/-- `decode`; an invalid word stops the CPU in both modes. -/
def decode (emu : Emulator) (instruction : BitVec 16) (disassemble : Bool) : Emulator :=
  if formatId instruction = 1 then decodeFormatII emu instruction disassemble
  else if 2 ≤ formatId instruction ∧ formatId instruction ≤ 3 then
    decodeFormatIII emu instruction disassemble
  else if 4 ≤ formatId instruction then decodeFormatI emu instruction disassemble
  else { emu with running := false, debugMode := true }

/-- `decode(emu, fetch(emu), EXECUTE)`. -/
def cpuStep (emu : Emulator) : Emulator := decode (fetch emu).2 (fetch emu).1 false

/-- One turn of the loop of `disassemble`: `decode(emu, fetch(emu), DISASSEMBLE)`. -/
def disassembleLine (emu : Emulator) : Emulator :=
  decode (fetch emu).2 (fetch emu).1 true

/-- `disassemble`; `times` is a `uint8_t`. -/
def disassemble (emu : Emulator) (startAddr : BitVec 16) (times : BitVec 8) : Emulator :=
  let savedPc := emu.pc
  let emu := { emu with disassembleMode := true }
  let emu := emu.setReg 0 startAddr
  let emu := disassembleLine^[times.toNat] emu
  let emu := { emu with disassembleMode := false }
  emu.setReg 0 savedPc

/-! ## The dispatch of `decode` -/

/-- The four formats, and the words that are no instruction. -/
theorem formatId_cases (w : BitVec 16) :
    formatId w = 0 ∨ formatId w = 1 ∨ (2 ≤ formatId w ∧ formatId w ≤ 3) ∨ 4 ≤ formatId w := by
  generalize formatId w = f
  revert f
  decide

/-- A word of Format III or I is none of Format II. -/
theorem formatId_ne_one {w : BitVec 16} (h : 2 ≤ formatId w) : formatId w ≠ 1 := by
  intro he
  rw [he] at h
  exact absurd h (by decide)

theorem decode_invalid (emu : Emulator) (w : BitVec 16) (disassemble : Bool)
    (h : formatId w = 0) :
    decode emu w disassemble = { emu with running := false, debugMode := true } := by
  simp [decode, h]

theorem decode_formatI (emu : Emulator) (w : BitVec 16) (disassemble : Bool)
    (h : 4 ≤ formatId w) : decode emu w disassemble = decodeFormatI emu w disassemble := by
  have h1 : formatId w ≠ 1 := formatId_ne_one (le_trans (by decide) h)
  have h3 : ¬ (2 ≤ formatId w ∧ formatId w ≤ 3) := fun hc =>
    absurd (le_trans h hc.2) (by decide)
  rw [decode, if_neg h1, if_neg h3, if_pos h]

theorem decode_formatII (emu : Emulator) (w : BitVec 16) (disassemble : Bool)
    (h : formatId w = 1) : decode emu w disassemble = decodeFormatII emu w disassemble := by
  rw [decode, if_pos h]

theorem decode_formatIII (emu : Emulator) (w : BitVec 16) (disassemble : Bool)
    (h : 2 ≤ formatId w ∧ formatId w ≤ 3) :
    decode emu w disassemble = decodeFormatIII emu w disassemble := by
  rw [decode, if_neg (formatId_ne_one h.1), if_pos h]

end Msp430
