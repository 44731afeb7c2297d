/-
# The stack instructions in closed form

PUSH and CALL (`formatII.c`) as one step on the stack pointer and one store at the new
top of the stack.  The byte form of PUSH moves the stack pointer by two and replaces
the low byte of the word there.  A POP is `MOV @SP+, Rn` (`formatI.c`); its byte form moves
the stack pointer by one.
-/
import Msp430.Decoder
import Msp430.OperandsII
import Msp430.TwoOperand

namespace Msp430

/-! ## Stores that overwrite each other -/

namespace Emulator

/-- The second of two word stores at one location counts. -/
theorem store16_store16 (emu : Emulator) (p : Ptr) (v u : BitVec 16) :
    (emu.store16 p v).store16 p u = emu.store16 p u := by
  cases p with
  | reg n =>
    simp only [store16, setReg]
    congr 1
    funext m
    by_cases h : m = n <;> simp [h]
  | mem a =>
    simp only [store16, setByte]
    congr 1
    funext b
    by_cases h : b = a <;> by_cases h' : b = a + 1 <;> simp [h, h']
  | bogus => rfl

/-- A byte store is the word store that keeps the high byte. -/
theorem store8_eq_store16 (emu : Emulator) (p : Ptr) (b : BitVec 8) :
    emu.store8 p b = emu.store16 p (joinBytes (highByte (emu.load16 p)) b) := by
  cases p with
  | reg n => rfl
  | mem a =>
    simp only [store8, store16, setByte, load16, setWidth_joinBytes, highByte_joinBytes]
    congr 1
    funext c
    by_cases h' : c = a + 1
    · simp [h']
    · simp [h']
  | bogus => rfl

end Emulator

/-- Clearing the low byte of a word and or-ing a byte in joins that byte to the high
byte. -/
theorem mask_or_eq_joinBytes (v : BitVec 16) (b : BitVec 8) :
    v &&& 0xFF00 ||| b.setWidth 16 = joinBytes (highByte v) b := by
  rw [mask_high_eq_joinBytes]
  simp [joinBytes]

/-- The byte at a location is one of the two of the word there. -/
theorem Touches.word {p : Ptr} {bw : Width} {a : ℕ} (h : Touches p bw a) :
    Touches p .word a := by
  cases p with
  | reg n => cases bw <;> exact h.elim
  | mem b =>
    cases bw with
    | word => exact h
    | byte => exact Or.inl h
  | bogus => cases bw <;> exact h.elim

/-! ## Words that share no byte -/

/-- Two words that share no byte. -/
def Ptr.Disjoint : Ptr → Ptr → Prop
  | .reg n, .reg m => n ≠ m
  | .mem a, .mem b => a + 1 < b ∨ b + 1 < a
  | .bogus, .bogus => False
  | _, _ => True

instance (p q : Ptr) : Decidable (p.Disjoint q) :=
  match p, q with
  | .reg n, .reg m => inferInstanceAs (Decidable (n ≠ m))
  | .mem a, .mem b => inferInstanceAs (Decidable (a + 1 < b ∨ b + 1 < a))
  | .bogus, .bogus => inferInstanceAs (Decidable False)
  | .reg _, .mem _ | .reg _, .bogus | .mem _, .reg _ | .mem _, .bogus | .bogus, .reg _
  | .bogus, .mem _ => inferInstanceAs (Decidable True)

theorem Ptr.Disjoint.symm {p q : Ptr} (h : p.Disjoint q) : q.Disjoint p := by
  cases p <;> cases q
  · exact Ne.symm h
  · exact h
  · exact h
  · exact h
  · exact Or.symm h
  · exact h
  · exact h
  · exact h
  · exact h

/-- A store leaves the words that share no byte with it. -/
theorem load16_store16_of_disjoint (emu : Emulator) {p q : Ptr} (v : BitVec 16)
    (h : p.Disjoint q) : (emu.store16 q v).load16 p = emu.load16 p := by
  cases p with
  | reg n =>
    have hne : q ≠ .reg n := by
      rintro rfl
      exact h rfl
    show (emu.store16 q v).regs n = emu.regs n
    rw [Emulator.regs_store16, if_neg hne]
  | mem a =>
    cases q with
    | reg m => rfl
    | mem b =>
      have hab : a + 1 < b ∨ b + 1 < a := h
      simp only [Emulator.load16, Emulator.store16, Emulator.setByte]
      rw [if_neg (by omega), if_neg (by omega), if_neg (by omega), if_neg (by omega)]
    | bogus => rfl
  | bogus =>
    cases q with
    | reg m => rfl
    | mem b => rfl
    | bogus => exact absurd h id

/-! ## PUSH -/

/-- The state after PUSH: two bytes down, and the operand at the new top. -/
theorem execPush_eq (emu : Emulator) (bw : Width) (v : BitVec 16) :
    execPush emu bw v
      = match bw with
        | .word => (emu.setReg 1 (emu.sp - 2)).store16 (getAddrPtr (emu.sp - 2)) v
        | .byte =>
          (emu.setReg 1 (emu.sp - 2)).store8 (getAddrPtr (emu.sp - 2)) (v.setWidth 8) := by
  have htop : getStackPtr (emu.setReg 1 (emu.sp - 2)) = getAddrPtr (emu.sp - 2) := by
    simp [getStackPtr, getAddrPtr]
  cases bw with
  | word => simp only [execPush, htop]
  | byte =>
    simp only [execPush, htop]
    -- clearing the low byte and or-ing the operand in is a byte store
    rw [Emulator.store16_store16, Emulator.load16_store16, mask_or_eq_joinBytes,
      ← Emulator.store8_eq_store16]

/-- PUSH moves the stack pointer and no other register. -/
theorem regs_execPush (emu : Emulator) (bw : Width) (v : BitVec 16) (n : Fin 16) :
    (execPush emu bw v).regs n = if n = 1 then emu.sp - 2 else emu.regs n := by
  rw [execPush_eq]
  cases bw <;> simp [getAddrPtr]

/-- The top of the stack after PUSH. -/
theorem getStackPtr_execPush (emu : Emulator) (bw : Width) (v : BitVec 16) :
    getStackPtr (execPush emu bw v) = getAddrPtr (emu.sp - 2) := by
  rw [getStackPtr, Emulator.sp, regs_execPush, if_pos rfl]
  rfl

@[simp] theorem sr_execPush (emu : Emulator) (bw : Width) (v : BitVec 16) :
    (execPush emu bw v).sr = emu.sr := by
  rw [execPush_eq]
  cases bw <;> simp

/-- PUSH changes the bytes it stores and no others. -/
theorem mem_execPush (emu : Emulator) (bw : Width) (v : BitVec 16) (a : ℕ)
    (h : ¬ Touches (getAddrPtr (emu.sp - 2)) bw a) :
    (execPush emu bw v).mem a = emu.mem a := by
  rw [execPush_eq]
  cases bw with
  | word => exact Emulator.mem_store16 _ _ _ _ h
  | byte => exact Emulator.mem_store8 _ _ _ _ h

/-! ## POP -/

/-- `MOV @SP+, Rn` and `MOV.B @SP+, Rn`. -/
def Pops (w : BitVec 16) : Prop :=
  formatId w = 4 ∧ sourceReg w = 1 ∧ asFlag w = 3 ∧ adFlag w = false

instance (w : BitVec 16) : Decidable (Pops w) := inferInstanceAs (Decidable (_ ∧ _))

/-- The part of a word that an instruction of a width copies. -/
def truncated (bw : Width) (v : BitVec 16) : BitVec 16 :=
  match bw with
  | .word => v
  | .byte => (v.setWidth 8).setWidth 16

/-- The register cells after the operand block of a POP, before it stores. -/
theorem regsI_pops (emu : Emulator) (w : BitVec 16) (h : Pops w) (n : Fin 16)
    (hn : n ≠ lowReg w) :
    regsI emu w false n = if n = 1 then emu.sp + increment (bwFlag w) else emu.regs n := by
  obtain ⟨-, hs, ha, hd⟩ := h
  have hc : constantI w = none := by
    rw [constantI, hs, ha]
    rfl
  have hlook : (lookupsI emu w).regs n = emu.regs n := by
    rw [regs_lookupsI, if_neg]
    rintro ⟨h2, rfl⟩
    rw [hs] at h2
    exact h2.elim (by decide) fun h2 => hn h2.symm
  have hinc : autoIncrements w = true := by simp [autoIncrements, hc, hs, ha]
  have hadv : advanceI w = 0 := by
    simp [advanceI, sourceAdvance, sourceExtended, hs, ha, hd]
  have hmask : (!false && masksDestination w && n == lowReg w) = false := by simp [hn]
  rw [regsI, hmask, if_neg (by decide), unmaskedI, hlook, hinc, hadv, hs]
  by_cases h1 : n = 1
  · simp [h1, Emulator.sp]
  · simp [h1]

/-- **A POP**: the word or byte on top of the stack goes to the register, and the stack
pointer moves by two or by one. -/
theorem decode_pops (emu : Emulator) (w : BitVec 16) (h : Pops w) :
    (decode emu w false).mem = emu.mem ∧
      ∀ n, (decode emu w false).regs n
        = if n = lowReg w then truncated (bwFlag w) (emu.load16 (getStackPtr emu))
          else if n = 1 then emu.sp + increment (bwFlag w) else emu.regs n := by
  have hregs := regsI_pops emu w h
  obtain ⟨hf, hs, ha, hd⟩ := h
  have hc : constantI w = none := by
    rw [constantI, hs, ha]
    rfl
  have hval : (operandsI emu w false).sourceValue = emu.load16 (getStackPtr emu) := by
    simp only [operandsI_sourceValue, sourceValueI, hc, ha, sourceCellI, hs]
    rfl
  have hdst : (operandsI emu w false).destinationAddr = .reg (lowReg w) := by
    rw [operandsI_destinationAddr, destinationI, hd]
    rfl
  have hstep : decode emu w false
      = execMov { emu with regs := regsI emu w false } (bwFlag w)
          (emu.load16 (getStackPtr emu)) (.reg (lowReg w)) := by
    rw [decode_formatI emu w false (by rw [hf])]
    simp only [decodeFormatI, Bool.false_eq_true, if_false, hval, hdst, hf, operandsI_emu]
    rfl
  rw [hstep]
  cases hbw : bwFlag w with
  | word =>
    refine ⟨rfl, fun n => ?_⟩
    simp only [execMov, Emulator.regs_store16, Ptr.reg.injEq, truncated]
    by_cases hn : n = lowReg w
    · rw [if_pos hn.symm, if_pos hn]
    · rw [if_neg (Ne.symm hn), if_neg hn, hregs n hn, hbw]
  | byte =>
    refine ⟨rfl, fun n => ?_⟩
    simp only [execMov, Emulator.regs_store8, Ptr.reg.injEq, truncated]
    by_cases hn : n = lowReg w
    · -- the operand block has cleared the high byte of the register
      have hmask : masksDestination w = true := by simp [masksDestination, hbw, hd]
      have hhigh : highByte (regsI emu w false n) = 0 := by
        rw [hn]
        simpa [regsI, hmask] using highByte_mask (unmaskedI emu w false (lowReg w))
      rw [if_pos hn.symm, if_pos hn, hhigh, joinBytes_zero]
    · rw [if_neg (Ne.symm hn), if_neg hn, hregs n hn, hbw]

/-! ## CALL -/

/-- The state after CALL: two bytes down, the return address at the new top, and the
program counter as the operand cell then reads. -/
theorem execCall_eq (emu : Emulator) (p : Ptr) :
    execCall emu p
      = let emu' := (emu.setReg 1 (emu.sp - 2)).store16 (getAddrPtr (emu.sp - 2)) emu.pc
        emu'.setReg 0 (emu'.load16 p) := by
  have htop : getStackPtr (emu.setReg 1 (emu.sp - 2)) = getAddrPtr (emu.sp - 2) := by
    simp [getStackPtr, getAddrPtr]
  simp only [execCall, htop, Emulator.pc_setReg]
  rfl

end Msp430
