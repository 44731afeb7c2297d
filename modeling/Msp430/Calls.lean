/-
# Calls and returns

CALL evaluates its operand, pushes the address behind the instruction and enters the
operand; RET, that is `MOV @SP+, PC`, pops that address.  The code keeps the operand as a
pointer and reads through it only once the return address is stored, so that an operand in
the stack pointer or in the slot of the return address is read too late.
`calls_return_iff` says exactly when a CALL enters its operand, and that in every nested
run each RET resumes behind its CALL whether or not the CALL has entered the right place.
-/
import Msp430.Arith.Descending
import Msp430.ReadOnly
import Msp430.Symbolic

namespace Msp430

/-! ## The operand -/

/-- The address of an operand in memory, as the instruction set defines it; `none` for a
constant, an immediate and a register.  The program counter is past the instruction word. -/
def operandAddress (emu : Emulator) (w : BitVec 16) : Option (BitVec 16) :=
  if (constantII w).isSome || immediateII w then none
  else match asFlag w with
    | 0 => none
    | 1 =>
      if lowReg w = 0 then some (emu.pc + extensionII emu)
      else if lowReg w = 2 then some (extensionII emu)
      else some (emu.regs (lowReg w) + extensionII emu)
    | _ => some (emu.regs (lowReg w))

/-- The value of an operand, as the instruction set defines it. -/
def operandValue (emu : Emulator) (w : BitVec 16) : BitVec 16 :=
  match operandAddress emu w with
  | some a => emu.load16 (getAddrPtr a)
  | none =>
    match constantII w with
    | some c => c
    | none =>
      if immediateII w then extensionII emu else (lookupII emu w).regs (lowReg w)

/-- How far the code misses an operand in memory: a symbolic one is read two bytes too
high. -/
def operandSkew (w : BitVec 16) : BitVec 16 := if asFlag w = 1 ∧ lowReg w = 0 then 2 else 0

/-- The cell of an operand in memory. -/
theorem sourceCellII_of_address {emu : Emulator} {w a : BitVec 16}
    (h : operandAddress emu w = some a) :
    sourceCellII emu w = getAddrPtr (a + operandSkew w) := by
  unfold operandAddress at h
  by_cases hc : ((constantII w).isSome || immediateII w) = true
  · rw [if_pos hc] at h
    exact absurd h (by simp)
  · rw [if_neg hc] at h
    rw [sourceCellII, if_neg hc, operandSkew]
    rcases asFlag_cases w with ha | ha | ha | ha <;> simp only [ha] at h ⊢
    · exact absurd h (by simp)
    · by_cases h0 : lowReg w = 0
      · simp only [h0, if_true, Option.some.injEq] at h
        simp only [h0, if_true, and_self]
        rw [← h, show emu.pc + extensionII emu + 2 = emu.pc + 2 + extensionII emu by bv_omega]
      · by_cases h2 : lowReg w = 2 <;> simp_all
    · simp_all
    · simp_all

/-- An operand that is neither in memory nor a constant is a register in mode 0. -/
theorem asFlag_of_none {emu : Emulator} {w : BitVec 16} (h : operandAddress emu w = none)
    (hc : ¬ ((constantII w).isSome || immediateII w) = true) : asFlag w = 0 := by
  rw [operandAddress, if_neg hc] at h
  rcases asFlag_cases w with ha | ha | ha | ha <;> simp only [ha] at h ⊢
  · split_ifs at h
  · exact absurd h (by simp)
  · exact absurd h (by simp)

/-- The cell of an operand that is not in memory. -/
theorem sourceCellII_of_none {emu : Emulator} {w : BitVec 16}
    (h : operandAddress emu w = none) :
    sourceCellII emu w
      = if (constantII w).isSome || immediateII w then .bogus else .reg (lowReg w) := by
  unfold sourceCellII
  by_cases hc : ((constantII w).isSome || immediateII w) = true
  · rw [if_pos hc, if_pos hc]
  · simp only [if_neg hc, asFlag_of_none h hc]

/-- Outside memory the code uses the value that the instruction set defines. -/
theorem sourceValueII_of_none {emu : Emulator} {w : BitVec 16}
    (h : operandAddress emu w = none) : sourceValueII emu w = operandValue emu w := by
  rw [sourceValueII, operandValue, h]
  cases hc : constantII w with
  | some c => rfl
  | none =>
    by_cases himm : immediateII w = true
    · simp only [if_pos himm]
    · have ha := asFlag_of_none h (by simp [hc, himm])
      simp only [if_neg himm, if_pos ha]

/-! ## Words behind a store -/

/-- The word at `c` is `v` once `r` stands in the slot: where the two share bytes, those
of `r` count. -/
def ReadsBehind (emu : Emulator) (slot : ℕ) (r : BitVec 16) (c : ℕ) (v : BitVec 16) : Prop :=
  if c = slot then r = v
  else if c = slot + 1 then highByte r = v.setWidth 8 ∧ emu.mem (c + 1) = highByte v
  else if c + 1 = slot then emu.mem c = v.setWidth 8 ∧ r.setWidth 8 = highByte v
  else emu.load16 (.mem c) = v

theorem load16_store16_eq_iff (emu : Emulator) (slot c : ℕ) (r v : BitVec 16) :
    (emu.store16 (.mem slot) r).load16 (.mem c) = v ↔ ReadsBehind emu slot r c v := by
  unfold ReadsBehind
  simp only [Emulator.load16, Emulator.store16, Emulator.setByte]
  split_ifs <;> first | omega | simp [joinBytes_eq_iff]

/-! ## One CALL -/

/-- The word form of CALL. -/
def Calls (w : BitVec 16) : Prop := formatId w = 1 ∧ opcodeII w = 5 ∧ bwFlag w = .word

instance (w : BitVec 16) : Decidable (Calls w) := inferInstanceAs (Decidable (_ ∧ _))

/-- The operand is popped from the stack: `CALL @SP+`. -/
def popsOperand (w : BitVec 16) : Bool := autoIncrementsII w && lowReg w == 1

/-- The stack pointer after the evaluation of the operand. -/
def callSp (emu : Emulator) (w : BitVec 16) : BitVec 16 :=
  emu.sp + if popsOperand w then 2 else 0

/-- The address behind the instruction at the program counter and its extension word. -/
def returnAddress (emu : Emulator) : BitVec 16 := emu.pc + 2 + advanceII (fetch emu).1

/-- What CALL should do: enter the operand's value, with the address behind the
instruction in the word below the stack. -/
def CallsRight (emu : Emulator) : Prop :=
  (cpuStep emu).pc = operandValue (fetch emu).2 (fetch emu).1 ∧
    (cpuStep emu).sp = callSp emu (fetch emu).1 - 2 ∧
    (cpuStep emu).load16 (getStackPtr (cpuStep emu)) = returnAddress emu

/-- The operand survives the store of the return address: it is not the stack pointer, and
an operand in memory reads the same behind the store. -/
def OperandSurvives (emu : Emulator) : Prop :=
  let w := (fetch emu).1
  let e := (fetch emu).2
  ¬ (asFlag w = 0 ∧ lowReg w = 1) ∧
    ∀ a, operandAddress e w = some a →
      ReadsBehind e (callSp emu w - 2).toNat (returnAddress emu) (a + operandSkew w).toNat
        (e.load16 (getAddrPtr a))

/-- The register cells after the operand block of a word instruction. -/
theorem regsII_word (emu : Emulator) (w : BitVec 16) (h : bwFlag w = .word) (n : Fin 16) :
    regsII emu w n
      = (lookupII emu w).regs n + (if n = 0 then advanceII w else 0)
        + (if autoIncrementsII w && n == lowReg w then 2 else 0) := by
  simp [regsII, unmaskedII, masksOperand, h, increment]

/-- The program counter after the operand block of a word instruction. -/
theorem regsII_zero (emu : Emulator) (w : BitVec 16) (h : bwFlag w = .word) :
    regsII emu w 0 = emu.pc + advanceII w := by
  have hinc : (autoIncrementsII w && (0 : Fin 16) == lowReg w) = false := by
    by_cases h0 : lowReg w = 0
    · simp [autoIncrementsII, h0]
    · simp [Ne.symm h0]
  rw [regsII_word emu w h, hinc, regs_lookupII]
  simp [Emulator.pc]

/-- The stack pointer after the operand block of a word instruction. -/
theorem regsII_one (emu : Emulator) (w : BitVec 16) (h : bwFlag w = .word) :
    regsII emu w 1 = callSp emu w := by
  rw [regsII_word emu w h, regs_lookupII, callSp, popsOperand, Bool.beq_comm]
  simp [Emulator.sp]

/-- **One CALL**: the stack pointer, the memory, and the program counter as the operand
cell reads behind the store. -/
theorem cpuStep_calls (emu : Emulator) (h : Calls (fetch emu).1) :
    let w := (fetch emu).1
    let e := (fetch emu).2
    let slot := getAddrPtr (callSp emu w - 2)
    (cpuStep emu).sp = callSp emu w - 2 ∧
      (cpuStep emu).mem = (e.store16 slot (returnAddress emu)).mem ∧
      (cpuStep emu).pc
        = match sourceCellII e w with
          | .reg n => if n = 1 then callSp emu w - 2 else regsII e w n
          | .mem c => (e.store16 slot (returnAddress emu)).load16 (.mem c)
          | .bogus => bogusII e w := by
  intro w e slot
  obtain ⟨hf, hop, hbw⟩ := h
  have hstep : cpuStep emu = execCall (operandsII e w).emu (sourceCellII e w) := by
    rw [cpuStep, decode_formatII _ _ _ hf, decodeFormatII, if_neg (by decide), hop,
      (operandsII_source _ _).1]
    rfl
  have hsp : (operandsII e w).emu.sp = callSp emu w := by
    rw [operandsII_emu]
    exact regsII_one e w hbw
  have hpc : (operandsII e w).emu.pc = returnAddress emu := by
    rw [operandsII_emu]
    exact regsII_zero e w hbw
  rw [hstep, execCall_eq, hsp, hpc]
  refine ⟨by simp [getAddrPtr, Emulator.sp], ?_, ?_⟩
  · rw [operandsII_emu]
    rfl
  · rw [Emulator.pc_setReg, if_pos rfl]
    cases sourceCellII e w with
    | reg n => simp [Emulator.load16, getAddrPtr, operandsII_emu]
    | mem c =>
      rw [operandsII_emu]
      rfl
    | bogus =>
      rw [operandsII_emu]
      rfl

/-- The word that a CALL leaves on top of the stack. -/
theorem load16_cpuStep_calls (emu : Emulator) (h : Calls (fetch emu).1) :
    (cpuStep emu).load16 (getStackPtr (cpuStep emu)) = returnAddress emu := by
  obtain ⟨hsp, hmem, -⟩ := cpuStep_calls emu h
  rw [getStackPtr, hsp, ← getAddrPtr, load16_congr_mem hmem, Emulator.load16_store16]

/-- A register operand of a CALL enters unless it is the stack pointer. -/
theorem call_register_iff (emu : Emulator) (h : Calls (fetch emu).1)
    (ha : asFlag (fetch emu).1 = 0)
    (hcell : sourceCellII (fetch emu).2 (fetch emu).1 = .reg (lowReg (fetch emu).1)) :
    (cpuStep emu).pc = (lookupII (fetch emu).2 (fetch emu).1).regs (lowReg (fetch emu).1)
      ↔ lowReg (fetch emu).1 ≠ 1 := by
  obtain ⟨-, -, hpc⟩ := cpuStep_calls emu h
  obtain ⟨w, hw⟩ : ∃ w, w = (fetch emu).1 := ⟨_, rfl⟩
  rw [← hw] at h ha hcell hpc ⊢
  have hinc : autoIncrementsII w = false := by simp [autoIncrementsII, ha]
  have hadv : advanceII w = 0 := by simp [advanceII, extendedII, immediateII, ha]
  rw [hcell] at hpc
  simp only at hpc
  rw [hpc]
  by_cases h1 : lowReg w = 1
  · -- the code reads the stack pointer that it has just moved
    have hsp : callSp emu w = emu.sp := by simp [callSp, popsOperand, hinc]
    have hreg : (lookupII (fetch emu).2 w).regs 1 = emu.sp :=
      regs_lookupII_of_ne _ w (by decide)
    rw [h1, if_pos rfl, hsp, hreg]
    constructor
    · intro he
      exfalso
      bv_omega
    · intro hne
      exact absurd rfl hne
  · rw [if_neg h1, regsII_word _ _ h.2.2, hinc, hadv]
    simp [h1]

/-- **A CALL is right exactly when its operand survives the store of the return address.** -/
theorem call_right_iff (emu : Emulator) (h : Calls (fetch emu).1) :
    CallsRight emu ↔ OperandSurvives emu := by
  have hpush := load16_cpuStep_calls emu h
  have hregister := call_register_iff emu h
  obtain ⟨hsp, -, hpc⟩ := cpuStep_calls emu h
  rw [CallsRight, OperandSurvives]
  simp only [hsp, hpush, and_true]
  obtain ⟨w, hw⟩ : ∃ w, w = (fetch emu).1 := ⟨_, rfl⟩
  obtain ⟨e, he⟩ : ∃ e, e = (fetch emu).2 := ⟨_, rfl⟩
  rw [← hw, ← he] at hpc hregister ⊢
  unfold operandValue
  cases haddr : operandAddress e w with
  | some a =>
    -- in memory: the cell is read behind the store
    rw [sourceCellII_of_address haddr] at hpc
    have hmode : asFlag w ≠ 0 := by
      intro h0
      simp [operandAddress, h0] at haddr
    simp only [getAddrPtr] at hpc ⊢
    rw [hpc, load16_store16_eq_iff]
    simp [hmode]
  | none =>
    have hcell := sourceCellII_of_none haddr
    by_cases hc : ((constantII w).isSome || immediateII w) = true
    · -- a constant or an immediate is read from `bogus_reg`
      rw [if_pos hc] at hcell
      rw [hcell] at hpc
      have hmode : ¬ (asFlag w = 0 ∧ lowReg w = 1) := by
        rintro ⟨h0, h1⟩
        simp [constantII, immediateII, generatedConstant, h0, h1] at hc
      have hval : bogusII e w = match constantII w with
          | some c => c
          | none => if immediateII w then extensionII e else (lookupII e w).regs (lowReg w) := by
        unfold bogusII
        cases hcon : constantII w with
        | some c => rfl
        | none =>
          have himm : immediateII w = true := by simpa [hcon] using hc
          rw [if_pos himm, if_pos himm]
      simp [hpc, hval, hmode]
    · rw [if_neg hc] at hcell
      have ha := asFlag_of_none haddr hc
      have hcon := constantII_eq_none hc
      have himm : immediateII w = false := by simp [immediateII, ha]
      simpa [hcon, himm, ha] using hregister ha hcell

/-! ## One RET -/

/-- RET, that is `MOV @SP+, PC`. -/
def ret : BitVec 16 := 0x4130

/-- **One RET** pops the program counter. -/
theorem cpuStep_ret (emu : Emulator) (h : (fetch emu).1 = ret) :
    (cpuStep emu).pc = emu.load16 (getStackPtr emu) ∧ (cpuStep emu).sp = emu.sp + 2 ∧
      (cpuStep emu).mem = emu.mem := by
  obtain ⟨hmem, hregs⟩ := decode_pops (fetch emu).2 ret (by decide)
  rw [cpuStep, h]
  refine ⟨?_, ?_, hmem⟩
  · rw [Emulator.pc, hregs, if_pos (by decide)]
    rfl
  · rw [Emulator.sp, hregs, if_neg (by decide), if_pos rfl]
    rfl

/-! ## Nested calls -/

/-- The `j`-th word of a stack that grows down from `top`. -/
def stackSlot (top : BitVec 16) (j : ℕ) : Ptr := getAddrPtr (Descending.slot top j)

/-- The words of a stack that fits into the address space share no byte. -/
theorem stackSlot_disjoint (top : BitVec 16) {i j : ℕ} (hi : 0 < i) (hij : i < j)
    (hj : 2 * j ≤ 2 ^ 16) : (stackSlot top i).Disjoint (stackSlot top j) :=
  Descending.slot_apart (by decide) top hij (by omega)

/-- Nested runs over a stack that grows down from `top`.  `Nested top slots d d' emu emu' ps`
is a run from `emu` with `d` words in use to `emu'` with `d'` words in use; `slots` says
where the return addresses stand that are pending, and `ps` lists the calls of the run, each
with the state behind its RET.  Between calls and returns anything may happen (other
instructions, also with words of their own on the stack, the peripheral handlers, commands of the
debugger) that does not overwrite a pending return address. -/
inductive Nested (top : BitVec 16) :
    List ℕ → ℕ → ℕ → Emulator → Emulator → List (Emulator × Emulator) → Prop where
  | done {slots : List ℕ} {d : ℕ} {emu : Emulator} : Nested top slots d d emu emu []
  | other {slots : List ℕ} {d d₁ d' : ℕ} {emu emu₁ emu' : Emulator}
      {ps : List (Emulator × Emulator)}
      (hsp : emu₁.sp = Descending.slot top d₁)
      (hslots : ∀ j ∈ slots, emu₁.load16 (stackSlot top j) = emu.load16 (stackSlot top j))
      (hrest : Nested top slots d₁ d' emu₁ emu' ps) :
      Nested top slots d d' emu emu' ps
  | call {slots : List ℕ} {d₀ d' : ℕ} {emu emu₁ emu' : Emulator}
      {ps qs : List (Emulator × Emulator)}
      (hcall : Calls (fetch emu).1) (hslots : ∀ j ∈ slots, j ≤ d₀)
      (hroom : 2 * (d₀ + 1) ≤ 2 ^ 16)
      (hbody : Nested top ((d₀ + 1) :: slots) (d₀ + 1) (d₀ + 1) (cpuStep emu) emu₁ ps)
      (hret : (fetch emu₁).1 = ret)
      (hrest : Nested top slots d₀ d' (cpuStep emu₁) emu' qs) :
      Nested top slots (if popsOperand (fetch emu).1 then d₀ + 1 else d₀) d' emu emu'
        ((emu, cpuStep emu₁) :: ps ++ qs)

/-- A RET has come back to its CALL: behind the instruction, with the stack as the
evaluation of the operand had left it. -/
def Resumes (emu emu' : Emulator) : Prop :=
  emu'.pc = returnAddress emu ∧ emu'.sp = callSp emu (fetch emu).1

/-- The stack pointer after the evaluation of the operand, in words. -/
theorem callSp_eq_slot (top : BitVec 16) (emu : Emulator) (w : BitVec 16) (d₀ : ℕ)
    (hsp : emu.sp = Descending.slot top (if popsOperand w then d₀ + 1 else d₀)) :
    callSp emu w = Descending.slot top d₀ := by
  rw [callSp, hsp]
  cases popsOperand w with
  | false => simp
  | true => exact Descending.slot_add_two top d₀

/-- **Nested runs keep the stack**: the pending return addresses stay, the stack pointer
is where the run says, and every call in it has been returned from. -/
theorem nested_run {top : BitVec 16} {slots : List ℕ} {d d' : ℕ} {emu emu' : Emulator}
    {ps : List (Emulator × Emulator)} (h : Nested top slots d d' emu emu' ps)
    (hsp : emu.sp = Descending.slot top d) (hpos : ∀ j ∈ slots, 0 < j) :
    emu'.sp = Descending.slot top d' ∧
      (∀ j ∈ slots, emu'.load16 (stackSlot top j) = emu.load16 (stackSlot top j)) ∧
      ∀ p ∈ ps, Resumes p.1 p.2 := by
  -- induction on the run: the body of a call is a run with one more pending slot
  induction h with
  | done => exact ⟨hsp, fun _ _ => rfl, by simp⟩
  | other hsp₁ hslots _ ih =>
    obtain ⟨hsp', hkeep, hps⟩ := ih hsp₁ hpos
    exact ⟨hsp', fun j hj => (hkeep j hj).trans (hslots j hj), hps⟩
  | @call slots d₀ d' emu emu₁ emu' ps qs hcall hslots hroom _ hret _ ihbody ihrest =>
    have hcallSp := callSp_eq_slot top emu _ d₀ hsp
    obtain ⟨hspc, hmemc, -⟩ := cpuStep_calls emu hcall
    have hpush := load16_cpuStep_calls emu hcall
    rw [hcallSp, Descending.slot_sub_two] at hspc hmemc
    -- the CALL leaves the older return addresses
    have hold : ∀ j ∈ slots,
        (cpuStep emu).load16 (stackSlot top j) = emu.load16 (stackSlot top j) := by
      intro j hj
      have hdis := stackSlot_disjoint top (hpos j hj) (Nat.lt_succ_of_le (hslots j hj)) hroom
      rw [stackSlot, load16_congr_mem hmemc, ← stackSlot, ← stackSlot,
        load16_store16_of_disjoint _ _ hdis]
      rfl
    obtain ⟨hsp₁, hkeep₁, hps⟩ := ihbody hspc fun j hj => by
      rcases List.mem_cons.mp hj with rfl | hj
      · exact Nat.succ_pos _
      · exact hpos j hj
    -- the body has kept the return address, and the RET pops it
    obtain ⟨hpcr, hspr, hmemr⟩ := cpuStep_ret emu₁ hret
    have haddr : emu₁.load16 (getStackPtr emu₁) = returnAddress emu := by
      have hslot := hkeep₁ (d₀ + 1) List.mem_cons_self
      rw [getStackPtr, hspc] at hpush
      rw [getStackPtr, hsp₁]
      exact hslot.trans hpush
    rw [hsp₁, Descending.slot_add_two] at hspr
    rw [haddr] at hpcr
    obtain ⟨hsp', hkeep', hqs⟩ := ihrest hspr hpos
    refine ⟨hsp', ?_, ?_⟩
    · intro j hj
      rw [hkeep' j hj, stackSlot, load16_congr_mem hmemr, ← stackSlot,
        hkeep₁ j (List.mem_cons_of_mem _ hj), hold j hj]
    · intro p hp
      rcases List.mem_cons.mp hp with rfl | hp
      · exact ⟨hpcr, hspr.trans hcallSp.symm⟩
      · rcases List.mem_append.mp hp with hp | hp
        · exact hps p hp
        · exact hqs p hp

/-! ## Both -/

/-- **Calls and returns match, but for the place a CALL enters.**  The stack pointer and the
return address of a CALL are always right; the program counter is exactly when the
operand survives the store of the return address.  In nested runs every RET resumes behind
its CALL. -/
theorem calls_return_iff (emu : Emulator) (h : Calls (fetch emu).1) :
    (CallsRight emu ↔ OperandSurvives emu) ∧
      ∀ top d d' emu₀ emu' ps, Nested top [] d d' emu₀ emu' ps →
        emu₀.sp = Descending.slot top d →
          emu'.sp = Descending.slot top d' ∧ ∀ p ∈ ps, Resumes p.1 p.2 := by
  refine ⟨call_right_iff emu h, ?_⟩
  intro top d d' emu₀ emu' ps hrun hsp
  obtain ⟨hsp', -, hps⟩ := nested_run hrun hsp (by simp)
  exact ⟨hsp', hps⟩

/-- `CALL SP` enters the stack slot. -/
theorem call_enters_slot : ¬ CallsRight (startState.setWords [(0xC000, 0x1281)]) := by
  rintro ⟨hpc, -, -⟩
  revert hpc
  decide

/-- `CALL R5`, with a RET at the address in `R5`. -/
def callStart : Emulator :=
  (startState.setWords [(0xC000, 0x1285), (0xC010, 0x4130)]).setReg 5 0xC010

/-- The run of one call. -/
theorem nested_callStart :
    Nested 0x400 [] 0 0 callStart (cpuStep (cpuStep callStart))
      [(callStart, cpuStep (cpuStep callStart))] :=
  @Nested.call 0x400 [] 0 0 callStart (cpuStep callStart) _ [] [] (by decide) (by simp)
    (by decide) .done (by decide) .done

/-- The call enters the routine, and its RET comes back. -/
theorem calls_return_iff_leaf :
    CallsRight callStart ∧ Resumes callStart (cpuStep (cpuStep callStart)) := by
  obtain ⟨hcall, hrun⟩ := calls_return_iff callStart (by decide)
  refine ⟨hcall.mpr ⟨by decide, ?_⟩, ?_⟩
  · have hnone : operandAddress (fetch callStart).2 (fetch callStart).1 = none := by decide
    simp [hnone]
  · exact (hrun _ _ _ _ _ _ nested_callStart rfl).2 _ List.mem_cons_self

end Msp430
