/-
# Symbolic operands

A symbolic operand stands at the address of its own extension word plus the value of
that word.  The decoders form the address after the program counter has moved on, each
branch with a correction of its own.  `symbolic_resolves_iff` says which corrections are
right: all but the one for a symbolic source beside an indexed destination, and the
missing one of Format II.
-/
import Msp430.OperandsII
import Msp430.Startup

namespace Msp430

/-- The cell of the symbolic operand whose extension word is at `a`. -/
def symbolicCell (emu : Emulator) (a : BitVec 16) : Ptr :=
  getAddrPtr (a + emu.load16 (getAddrPtr a))

/-! ## Format I -/

/-- The source operand is symbolic. -/
def SymbolicSource (w : BitVec 16) : Prop := asFlag w = 1 ∧ sourceReg w = 0

/-- The destination operand is symbolic. -/
def SymbolicDestination (w : BitVec 16) : Prop := adFlag w = true ∧ lowReg w = 0

/-- The symbolic operands of a Format I instruction are the cells at their extension
words, that of the destination behind that of the source, and the source value is the
content. -/
def SymbolicResolvesI (emu : Emulator) (w : BitVec 16) (disassemble : Bool) : Prop :=
  (SymbolicSource w →
      (operandsI emu w disassemble).sourceAddr = some (symbolicCell emu emu.pc) ∧
      (operandsI emu w disassemble).sourceValue = emu.load16 (symbolicCell emu emu.pc)) ∧
    (SymbolicDestination w →
      (operandsI emu w disassemble).destinationAddr
        = symbolicCell emu (emu.pc + sourceAdvance w))

/-- A symbolic source is no constant. -/
theorem constantI_of_symbolic {w : BitVec 16} (h : SymbolicSource w) : constantI w = none := by
  rw [constantI, h.1, h.2]
  rfl

/-- Two cells at different addresses. -/
theorem getAddrPtr_inj {a b : BitVec 16} : getAddrPtr a = getAddrPtr b ↔ a = b := by
  rw [getAddrPtr, getAddrPtr, Ptr.mem.injEq, BitVec.toNat_inj]

/-- The source of a Format I instruction, when symbolic. -/
theorem sourceAddr_of_symbolic (emu : Emulator) (w : BitVec 16) (disassemble : Bool)
    (h : SymbolicSource w) :
    (operandsI emu w disassemble).sourceAddr
      = some (getAddrPtr
          (emu.pc + emu.load16 (getAddrPtr emu.pc) - if adFlag w then 2 else 0)) := by
  rw [operandsI_sourceAddr, constantI_of_symbolic h]
  simp [sourceCellI, h.1, h.2, sourceExtension]

/-- **A symbolic operand of Format I is resolved right, unless it is a source beside an
indexed destination.** -/
theorem symbolicI_iff (emu : Emulator) (w : BitVec 16) (disassemble : Bool) :
    SymbolicResolvesI emu w disassemble ↔ ¬ (SymbolicSource w ∧ adFlag w = true) := by
  constructor
  · rintro ⟨hsrc, -⟩ ⟨hs, ha⟩
    have haddr := (hsrc hs).1
    rw [sourceAddr_of_symbolic emu w disassemble hs, ha, Option.some.injEq, symbolicCell,
      getAddrPtr_inj] at haddr
    -- the two addresses differ by the two that the correction has too much
    simp only [if_true] at haddr
    bv_omega
  · intro h
    refine ⟨?_, ?_⟩
    · intro hs
      have ha : adFlag w = false := by
        by_contra hc
        exact h ⟨hs, by simpa using hc⟩
      have hcell : sourceCellI emu w = symbolicCell emu emu.pc := by
        simp [sourceCellI, hs.1, hs.2, ha, sourceExtension, symbolicCell]
      rw [operandsI_sourceAddr, operandsI_sourceValue, sourceValueI,
        constantI_of_symbolic hs, hcell, hs.1]
      exact ⟨rfl, rfl⟩
    · rintro ⟨ha, hd⟩
      rw [operandsI_destinationAddr, destinationI, if_pos ha, if_pos hd]
      rfl

/-! ## Format II -/

/-- The operand of a Format II instruction is symbolic. -/
def SymbolicOperand (w : BitVec 16) : Prop := asFlag w = 1 ∧ lowReg w = 0

/-- The symbolic operand of a Format II instruction is the cell at its extension word,
and its content is the value used: through the pointer by CALL and the instructions that
modify their operand, as `source_value` by PUSH. -/
def SymbolicResolvesII (emu : Emulator) (w : BitVec 16) : Prop :=
  SymbolicOperand w →
    (operandsII emu w).sourceAddress = symbolicCell emu emu.pc ∧
    (operandsII emu w).sourceValue = emu.load16 (symbolicCell emu emu.pc)

/-- What a symbolic operand of Format II comes out as: two bytes too high, and no value
at all. -/
theorem operandsII_of_symbolic (emu : Emulator) (w : BitVec 16) (h : SymbolicOperand w) :
    (operandsII emu w).sourceAddress
        = getAddrPtr (emu.pc + 2 + emu.load16 (getAddrPtr emu.pc)) ∧
      (operandsII emu w).sourceValue = emu.residue 0 := by
  obtain ⟨haddr, hval⟩ := operandsII_source emu w
  have hc : constantII w = none := by
    rw [constantII, h.1, h.2]
    rfl
  rw [haddr, hval]
  simp [sourceCellII, sourceValueII, immediateII, hc, h.1, h.2, extensionII]

/-- **A symbolic operand of Format II is never resolved right.** -/
theorem symbolicII_iff (emu : Emulator) (w : BitVec 16) :
    SymbolicResolvesII emu w ↔ ¬ SymbolicOperand w := by
  constructor
  · intro h hs
    have haddr := (h hs).1
    rw [(operandsII_of_symbolic emu w hs).1, symbolicCell, getAddrPtr_inj] at haddr
    bv_omega
  · intro h hs
    exact absurd hs h

/-! ## Both formats -/

/-- **Where symbolic operands are resolved right**: everywhere but in a source beside an
indexed destination, and in Format II. -/
theorem symbolic_resolves_iff (emu : Emulator) (w : BitVec 16) (disassemble : Bool) :
    (SymbolicResolvesI emu w disassemble ↔ ¬ (SymbolicSource w ∧ adFlag w = true)) ∧
      (SymbolicResolvesII emu w ↔ ¬ SymbolicOperand w) :=
  ⟨symbolicI_iff emu w disassemble, symbolicII_iff emu w⟩

/-- `MOV X, Y` with both operands symbolic, and `PUSH X`. -/
theorem symbolic_resolves_wrong :
    ¬ SymbolicResolvesI startState 0x4090 false ∧ ¬ SymbolicResolvesII startState 0x1210 :=
  ⟨fun h => (symbolicI_iff _ _ _).mp h ⟨⟨rfl, rfl⟩, rfl⟩,
    fun h => (symbolicII_iff _ _).mp h ⟨rfl, rfl⟩⟩

end Msp430
