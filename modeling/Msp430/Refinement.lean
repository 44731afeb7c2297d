/-
# The emulator refines the documented processor

One turn of `decode(emu, fetch(emu), EXECUTE)` is one step of the documented processor
wherever `Processor.Exact` holds, and a run of exact steps is a run of the code.  With the
peripheral handlers between the instructions the processor becomes a board, whose timer and
transmitter act on memory alone; the loop of `main` runs the board, and sends what it sends.
-/
import Msp430.RefineII
import Msp430.Jumps
import Msp430.Handlers
import Msp430.Modes

namespace Msp430

/-! ## Exact instructions -/

/-- The jumps that the code executes as documented: not one by `256 … 511` words. -/
def ExactJump (s : Processor) (condition : Fin 8) (offset : BitVec 10) : Prop :=
  conditionHolds s.sr condition = true → ¬ (256 ≤ offset.toNat ∧ offset.toNat < 512)

/-- The instructions that the code executes as documented. -/
def ExactInstruction (s : Processor) (here : BitVec 16) : Instruction → Prop
  | .two op bw src dst => ExactTwo s op bw src dst here
  | .one op bw operand => ExactOne s op bw operand here
  | .jump condition offset => ExactJump s condition offset

/-- The instruction at the program counter is exact. -/
def Processor.Exact (s : Processor) : Prop :=
  ∀ i ∈ s.current, ExactInstruction (s.advanced i) (s.pc + 2) i

instance (s : Processor) (condition : Fin 8) (offset : BitVec 10) :
    Decidable (ExactJump s condition offset) :=
  inferInstanceAs (Decidable (_ → _))

instance (s : Processor) (here : BitVec 16) (i : Instruction) :
    Decidable (ExactInstruction s here i) :=
  match i with
  | .two op bw src dst => inferInstanceAs (Decidable (ExactTwo s op bw src dst here))
  | .one op bw operand => inferInstanceAs (Decidable (ExactOne s op bw operand here))
  | .jump condition offset => inferInstanceAs (Decidable (ExactJump s condition offset))

instance (s : Processor) : Decidable s.Exact :=
  Option.decidableForallMem (p := fun i => ExactInstruction (s.advanced i) (s.pc + 2) i)
    (o := s.current)

/-- The steps of a run are exact. -/
def Processor.ExactRun (s : Processor) : ℕ → Prop
  | 0 => True
  | k + 1 => s.Exact ∧ ∀ s' ∈ s.step, s'.ExactRun k

/-! ## One instruction -/

/-- The words behind the program counter, as the code fetches them. -/
theorem window_view (emu : Emulator) (h : Aligned emu.pc) :
    (view emu).window
      = [(fetch emu).1, emu.load16 (getAddrPtr (emu.pc + 2)),
          emu.load16 (getAddrPtr (emu.pc + 4))] := by
  have hfour : Aligned (emu.pc + 4) := by
    have := h.add_two.add_two
    rwa [BitVec.add_assoc] at this
  rw [Processor.window, pc_view, wordAt_view emu h.ne_last, wordAt_view emu h.add_two.ne_last,
    wordAt_view emu hfour.ne_last]
  rfl

/-- The state in which the instruction executes. -/
theorem advanced_view (emu : Emulator) (i : Instruction) :
    (view emu).advanced i = entered (fetch emu).2 i := by
  have hbehind : (view emu).behind i = (fetch emu).2.pc + 2 * BitVec.ofNat 16 i.extension.length := by
    have hpc : (fetch emu).2.pc = emu.pc + 2 := by simp [fetch]
    rw [Processor.behind, pc_view, hpc, Instruction.length_words, BitVec.ofNat_add,
      BitVec.mul_add, BitVec.add_assoc]
    rfl
  rw [Processor.advanced, entered, hbehind]
  refine Processor.eq_of_reg (fun n h2 h3 => ?_) ?_ ?_
  · rw [Processor.reg_writeReg _ (by decide) (by decide),
      Processor.reg_writeReg _ (by decide) (by decide), reg_view _ h2 h3, reg_view _ h2 h3]
    split_ifs with h0
    · rfl
    · simp [fetch, h0]
  · rw [Processor.sr_writeReg _ (by decide), Processor.sr_writeReg _ (by decide)]
    rfl
  · rw [Processor.mem_writeReg, Processor.mem_writeReg]
    rfl

/-- A jump of the code is the documented one where it is exact. -/
theorem view_decodeFormatIII (e : Emulator) (condition : Fin 8) (offset : BitVec 10)
    (h : ExactJump (entered e (.jump condition offset)) condition offset) :
    view (decodeFormatIII e (Instruction.jump condition offset).word false)
      = (entered e (.jump condition offset)).execJump condition offset := by
  obtain ⟨-, hcond, hoffset⟩ := Instruction.fields_jump condition offset
  have hentered : entered e (.jump condition offset) = view e := by
    refine Processor.eq_of_reg (fun n h2 h3 => ?_) (sr_entered e _) (mem_entered e _)
    rw [reg_entered e _ h2 h3, reg_view e h2 h3]
    split_ifs <;> exact BitVec.add_zero _
  rw [hentered] at h ⊢
  rw [decodeFormatIII, if_neg (by decide), hcond, Processor.execJump, sr_view]
  split_ifs with hc
  · have hsigned : signedOffset (Instruction.jump condition offset).word
        = 2 * offset.signExtend 16 := by
      have hnot := h hc
      have hlt := offset.isLt
      apply BitVec.eq_of_toNat_eq
      rw [toNat_signedOffset, hoffset, BitVec.toNat_mul, BitVec.toNat_signExtend]
      have hmsb : offset.msb = decide (512 ≤ offset.toNat) := by
        rw [BitVec.msb_eq_decide]
      rw [hmsb]
      simp only [BitVec.toNat_setWidth, BitVec.reduceToNat]
      by_cases h5 : 512 ≤ offset.toNat
      · rw [if_pos (by omega), if_pos (by simpa using h5)]
        omega
      · rw [if_neg (by omega), if_neg (by simpa using h5)]
        omega
    rw [jump, hsigned, view_setReg e (by decide)]
    rfl
  · rfl

/-- The instruction that the processor reads is the one that the code fetches, its extension
words behind it. -/
theorem current_view {emu : Emulator} (h : Aligned emu.pc) {i : Instruction}
    (hi : (view emu).current = some i) :
    (fetch emu).1 = i.word ∧ ∃ rest, [emu.load16 (getAddrPtr (emu.pc + 2)),
      emu.load16 (getAddrPtr (emu.pc + 4))] = i.extension ++ rest := by
  obtain ⟨⟨j, rest⟩, hread, rfl⟩ := Option.map_eq_some_iff.mp hi
  have hwords := (instructions.read_iff _ j rest).mp hread
  rw [window_view emu h] at hwords
  obtain ⟨hword, hext⟩ := List.cons.inj hwords
  exact ⟨hword, rest, hext⟩

/-- The extension words of a two-operand instruction, as the operand block fetches them. -/
theorem extensions_two {emu : Emulator} (op : TwoOp) (bw : Width) {src : Operand} {dst : Target}
    {rest : List (BitVec 16)}
    (h : [emu.load16 (getAddrPtr (emu.pc + 2)), emu.load16 (getAddrPtr (emu.pc + 4))]
      = (src.extension ++ dst.extension) ++ rest) :
    (∀ x, src.extension = [x] → sourceExtension (fetch emu).2 = x) ∧
      ∀ y, dst.extension = [y] →
        destinationExtension (fetch emu).2 (Instruction.two op bw src dst).word = y := by
  have hpc : (fetch emu).2.pc = emu.pc + 2 := by simp [fetch]
  have hload (a : BitVec 16) :
      (fetch emu).2.load16 (getAddrPtr a) = emu.load16 (getAddrPtr a) := rfl
  constructor
  · intro x hx
    rw [hx] at h
    rw [sourceExtension, hpc, hload]
    exact (List.cons.inj h).1
  · intro y hy
    rw [destinationExtension, sourceAdvance_two, hpc, hload]
    rw [hy] at h
    have hlen : src.extension = [] ∨ ∃ x, src.extension = [x] := by
      cases src <;> simp [Operand.extension]
    rcases hlen with hs | ⟨x, hs⟩
    · rw [hs] at h ⊢
      rw [List.length_nil, BitVec.add_assoc]
      exact (List.cons.inj h).1
    · rw [hs] at h ⊢
      rw [List.length_singleton, BitVec.add_assoc]
      exact (List.cons.inj (List.cons.inj h).2).1

/-- **One instruction of the code is one step of the documented processor** where the
instruction is exact. -/
theorem view_cpuStep (emu : Emulator) (hexact : (view emu).Exact) {s : Processor}
    (hstep : (view emu).step = some s) : view (cpuStep emu) = s := by
  have haligned : Aligned emu.pc := by
    by_contra hodd
    rw [Processor.step, pc_view, if_neg hodd] at hstep
    exact absurd hstep (by simp)
  have hpc : emu.pc + 2 = (fetch emu).2.pc := by simp [fetch]
  rw [Processor.step, pc_view, if_pos haligned] at hstep
  obtain ⟨i, hi, hexec⟩ := Option.bind_eq_some_iff.mp hstep
  obtain ⟨hword, rest, hext⟩ := current_view haligned hi
  have hexact := hexact i hi
  rw [advanced_view, pc_view, hpc] at hexact
  rw [advanced_view, hpc] at hexec
  rw [cpuStep, hword]
  cases i with
  | two op bw src dst =>
    obtain ⟨hsx, hdx⟩ := extensions_two op bw hext
    have hfour := (Instruction.fields_two op bw src dst).1 ▸ op.four_le_code
    rw [decode_formatI _ _ _ hfour]
    exact view_decodeFormatI _ op bw src dst hsx hdx hexact hexec
  | one op bw operand =>
    have hone := (Instruction.fields_one op bw operand).1.1
    rw [decode_formatII _ _ _ hone]
    refine view_decodeFormatII (fun x hx => ?_) hexact hexec
    rw [Instruction.extension, hx] at hext
    rw [extensionII, ← hpc]
    exact (List.cons.inj hext).1
  | jump condition offset =>
    have hjump := (Instruction.fields_jump condition offset).1
    rw [decode_formatIII _ _ _ hjump, view_decodeFormatIII _ condition offset hexact]
    exact Option.some.inj hexec

/-- **A run of exact steps of the documented processor is a run of the code.** -/
theorem view_cpuStep_iterate (emu : Emulator) (k : ℕ) (hexact : (view emu).ExactRun k)
    {s : Processor} (hrun : (view emu).run k = some s) : view (cpuStep^[k] emu) = s := by
  induction k generalizing emu with
  | zero => exact Option.some.inj hrun
  | succ k ih =>
    obtain ⟨s', hstep, hrest⟩ := Option.bind_eq_some_iff.mp hrun
    obtain ⟨hfirst, hexact⟩ := hexact
    have hview := view_cpuStep emu hfirst hstep
    rw [← hview] at hrest
    rw [Function.iterate_succ_apply]
    refine ih (cpuStep emu) ?_ hrest
    rw [hview]
    exact hexact s' hstep

end Msp430
