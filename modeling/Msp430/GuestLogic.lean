/-
# Reasoning about guest programs

Rules of pre- and postconditions for programs that the emulator runs: `Board.Leads Q` is the
total-correctness judgement for exact steps of the board with the DCO selected, `Loaded` says
that a program stands in memory, and there is one rule for each kind of instruction.
`Board.Leads.mainLoops` carries what is proved of a program over to the loop of `main`.
-/
import Msp430.Board

namespace Msp430

/-! ## Programs in memory -/

/-- The address behind the first instructions of a program that stands at `org`. -/
def lineAt (org : BitVec 16) (before : List Instruction) : BitVec 16 :=
  org + 2 * BitVec.ofNat 16 (instructions.writeAll before).length

/-- The cells of a program. -/
def InCode (org : BitVec 16) (code : List Instruction) (a : BitVec 16) : Prop :=
  ∃ j < (instructions.writeAll code).length,
    a = org + 2 * BitVec.ofNat 16 j ∨ a = org + 2 * BitVec.ofNat 16 j + 1

/-- A program stands in memory. -/
def Processor.Loaded (s : Processor) (org : BitVec 16) (code : List Instruction) : Prop :=
  ∀ j (h : j < (instructions.writeAll code).length),
    s.wordAt (org + 2 * BitVec.ofNat 16 j) = (instructions.writeAll code)[j]

theorem Processor.Loaded.congr {s s' : Processor} {org : BitVec 16} {code : List Instruction}
    (h : s.Loaded org code) (hmem : ∀ a, InCode org code a → s'.mem a = s.mem a) :
    s'.Loaded org code := by
  intro j hj
  rw [← h j hj, Processor.wordAt, Processor.wordAt, hmem _ ⟨j, hj, Or.inl rfl⟩,
    hmem _ ⟨j, hj, Or.inr rfl⟩]

theorem Instruction.words_cases (i : Instruction) :
    (∃ w, i.words = [w]) ∨ (∃ w x, i.words = [w, x]) ∨ ∃ w x y, i.words = [w, x, y] := by
  have hshort : i.extension = [] ∨ (∃ x, i.extension = [x]) ∨ ∃ x y, i.extension = [x, y] := by
    cases i with
    | two op bw src dst =>
      cases src <;> cases dst <;> simp [extension, Operand.extension, Target.extension]
    | one op bw operand => cases operand <;> simp [extension, Operand.extension]
    | jump condition offset => exact Or.inl rfl
  rcases hshort with h | ⟨x, h⟩ | ⟨x, y, h⟩
  · exact Or.inl ⟨i.word, by rw [words, h]⟩
  · exact Or.inr (Or.inl ⟨i.word, x, by rw [words, h]⟩)
  · exact Or.inr (Or.inr ⟨i.word, x, y, by rw [words, h]⟩)

/-- The instruction whose words stand at the program counter. -/
theorem Processor.current_of_words (s : Processor) (i : Instruction)
    (h : ∀ j (hj : j < i.words.length), s.wordAt (s.pc + 2 * BitVec.ofNat 16 j) = i.words[j]) :
    s.current = some i := by
  have hwindow : ∃ rest, s.window = i.words ++ rest := by
    have hzero : s.pc + 2 * BitVec.ofNat 16 0 = s.pc := BitVec.add_zero _
    rcases i.words_cases with ⟨w, hw⟩ | ⟨w, x, hw⟩ | ⟨w, x, y, hw⟩
    · have h0 := h 0 (by simp [hw])
      simp only [hw, hzero, List.getElem_cons_zero] at h0
      exact ⟨[s.wordAt (s.pc + 2), s.wordAt (s.pc + 4)], by rw [hw, ← h0]; rfl⟩
    · have h0 := h 0 (by simp [hw])
      have h1 := h 1 (by simp [hw])
      simp only [hw, hzero, List.getElem_cons_zero, List.getElem_cons_succ] at h0 h1
      exact ⟨[s.wordAt (s.pc + 4)], by rw [hw, ← h0, ← h1]; rfl⟩
    · have h0 := h 0 (by simp [hw])
      have h1 := h 1 (by simp [hw])
      have h2 := h 2 (by simp [hw])
      simp only [hw, hzero, List.getElem_cons_zero, List.getElem_cons_succ] at h0 h1 h2
      exact ⟨[], by rw [hw, ← h0, ← h1, ← h2]; rfl⟩
  obtain ⟨rest, hrest⟩ := hwindow
  have hread : instructions.read s.window = some (i, rest) := by
    rw [hrest]
    exact instructions.read_write i rest
  rw [current, hread]
  rfl

/-- The instruction behind the first ones of a loaded program. -/
theorem Processor.Loaded.current {s : Processor} {org : BitVec 16} {code before : List Instruction}
    {i : Instruction} {rest : List Instruction} (h : s.Loaded org code)
    (hcode : code = before ++ i :: rest) (hpc : s.pc = lineAt org before) :
    s.current = some i := by
  refine s.current_of_words i fun j hj => ?_
  subst hcode
  have hsplit : instructions.writeAll (before ++ i :: rest)
      = instructions.writeAll before ++ (i.words ++ instructions.writeAll rest) :=
    instructions.writeAll_append _ _
  have hlt : (instructions.writeAll before).length + j
      < (instructions.writeAll (before ++ i :: rest)).length := by
    rw [hsplit, List.length_append, List.length_append]
    omega
  have hword := h _ hlt
  have hget : (instructions.writeAll (before ++ i :: rest))[
      (instructions.writeAll before).length + j] = i.words[j] := by
    simp only [hsplit]
    rw [List.getElem_append_right (Nat.le_add_right _ _)]
    simp only [Nat.add_sub_cancel_left]
    exact List.getElem_append_left hj
  rw [hget] at hword
  rw [← hword, hpc, lineAt, BitVec.add_assoc, ← BitVec.mul_add, ← BitVec.ofNat_add]

/-! ## The judgement -/

/-- Exact steps of the board, the DCO selected, lead to a state with `Q`. -/
def Board.Leads (Q : Board → Prop) (b : Board) : Prop :=
  Progress.Leads Board.step (fun b => b.cpu.Exact ∧ b.cpu.Clocked) Q b

/-- **What a program is led to, the loop of `main` reaches.** -/
theorem Board.Leads.mainLoops {Q : Board → Prop} {emu : Emulator} (hruns : Runs emu)
    (hlast : ∀ b, Q b → b.cpu.Clocked) (h : (boardView emu).Leads Q) :
    ∃ k e, Msp430.mainLoops k emu = some e ∧ Q (boardView e) ∧ Runs e := by
  have hgood (b : Board) (hb : b.cpu.Exact ∧ b.cpu.Clocked) : b.cpu.Clocked := hb.2
  refine Progress.Leads.follow hgood hlast ?_ hruns h
  intro emu b hruns hgood hstep hclock
  exact boardView_mainLoop hruns hgood.1 hstep hclock

/-- The rule for an instruction. -/
theorem Board.Leads.instruction {Q : Board → Prop} {b : Board} {i : Instruction} {s : Processor}
    (hclock : b.cpu.Clocked) (haligned : Aligned b.cpu.pc) (hcurrent : b.cpu.current = some i)
    (hexact : ExactInstruction (b.cpu.advanced i) (b.cpu.pc + 2) i)
    (hexec : (b.cpu.advanced i).exec i (b.cpu.pc + 2) = some s)
    (hrest : Board.Leads Q ⟨s.devices, b.sent ++ s.wire⟩) : b.Leads Q := by
  refine .next ⟨?_, hclock⟩ ?_ hrest
  · intro j hj
    obtain rfl := Option.some.inj (hcurrent.symm.trans hj)
    exact hexact
  · rw [Board.step, Processor.step, if_pos haligned, hcurrent, Option.bind_some, hexec]
    rfl

/-- No timer is to be cleared and the transmitter has no byte. -/
def Processor.Quiet (s : Processor) : Prop := (s.mem 0x160).getLsbD 2 = false ∧ s.mem 0x67 = 0

theorem Processor.Quiet.devices {s : Processor} (h : s.Quiet) : s.devices = s := by
  have htx : ¬ s.Transmits := fun ht => ht.2.2.2 h.2
  have htimer : s.clearTimer = s := by
    rw [clearTimer, h.1]
    rfl
  rw [Processor.devices, htimer, transmit, if_neg htx]

theorem Processor.Quiet.wire {s : Processor} (h : s.Quiet) : s.wire = [] :=
  if_neg fun ht => ht.2.2.2 h.2

/-- The rule for an instruction that leaves the devices nothing to do. -/
theorem Board.Leads.quiet {Q : Board → Prop} {b : Board} {i : Instruction} {s : Processor}
    (hclock : b.cpu.Clocked) (haligned : Aligned b.cpu.pc) (hcurrent : b.cpu.current = some i)
    (hexact : ExactInstruction (b.cpu.advanced i) (b.cpu.pc + 2) i)
    (hexec : (b.cpu.advanced i).exec i (b.cpu.pc + 2) = some s) (hquiet : s.Quiet)
    (hrest : Board.Leads Q ⟨s, b.sent⟩) : b.Leads Q := by
  refine .instruction hclock haligned hcurrent hexact hexec ?_
  rw [hquiet.devices, hquiet.wire, List.append_nil]
  exact hrest

/-! ## What an instruction leaves -/

namespace Processor

theorem reg_advanced (s : Processor) (i : Instruction) (n : Fin 16) :
    (s.advanced i).reg n = if n = 0 then s.behind i else s.reg n :=
  s.reg_writeReg (by decide) (by decide) _ n

@[simp] theorem sr_advanced (s : Processor) (i : Instruction) : (s.advanced i).sr = s.sr :=
  s.sr_writeReg (by decide) _

@[simp] theorem mem_advanced (s : Processor) (i : Instruction) : (s.advanced i).mem = s.mem :=
  s.mem_writeReg _ _

@[simp] theorem wordAt_advanced (s : Processor) (i : Instruction) (a : BitVec 16) :
    (s.advanced i).wordAt a = s.wordAt a := by
  rw [wordAt, wordAt, mem_advanced]

@[simp] theorem wordAt_after (s : Processor) (bw : Width) (o : Operand) (a : BitVec 16) :
    (o.after s bw).wordAt a = s.wordAt a := by
  rw [wordAt, wordAt, mem_after]

/-- A two-operand instruction that the widths allow. -/
theorem execTwo_eq (s : Processor) {op : TwoOp} {bw : Width} {src : Operand} {dst : Target}
    {here : BitVec 16} (hop : op ≠ .dadd) (hsrc : (src.place s here).Allows bw)
    (hdst : (dst.place (src.after s bw)
      (here + 2 * BitVec.ofNat 16 src.extension.length)).Allows bw) :
    s.execTwo op bw src dst here
      = some ((src.after s bw).operate op bw ((src.word s here).setWidth bw.bits)
          (dst.place (src.after s bw) (here + 2 * BitVec.ofNat 16 src.extension.length))) :=
  if_pos ⟨hop, hsrc, hdst⟩

section

variable (s : Processor) {op : TwoOp} {bw : Width} (v : BitVec bw.bits)

/-- A comparison leaves registers and memory. -/
theorem operate_compares (hc : op.compares = true) (l : Place) :
    (s.operate op bw v l).reg = s.reg ∧ (s.operate op bw v l).mem = s.mem := by
  rw [operate, if_pos hc]
  exact ⟨rfl, rfl⟩

/-- An operation on a register leaves its result there. -/
theorem operate_reg (hc : op.compares = false) {n : Fin 16} (h2 : n ≠ 2) (h3 : n ≠ 3) :
    (∀ m, (s.operate op bw v (.reg n)).reg m
        = if m = n then
            (aluResult op.code v ((s.reg n).setWidth bw.bits) s.sr.carry).setWidth 16
          else s.reg m) ∧
      (s.operate op bw v (.reg n)).mem = s.mem := by
  rw [operate, if_neg (by rw [hc]; decide)]
  refine ⟨fun m => ?_, mem_writeReg _ _ _⟩
  refine (reg_writeReg _ h2 h3 _ m).trans ?_
  rw [wordOf, s.readReg_of_ne h2]

/-- An operation on a byte of memory leaves its result there. -/
theorem operate_byte (hc : op.compares = false) (v : BitVec 8) (a : BitVec 16) :
    (s.operate op .byte v (.mem a)).reg = s.reg ∧
      (s.operate op .byte v (.mem a)).mem
        = Function.update s.mem a (aluResult op.code v (s.mem a) s.sr.carry) := by
  have hbyte : (s.wordOf (.mem a)).setWidth 8 = s.mem a := setWidth_joinBytes _ _
  unfold operate
  rw [if_neg (by rw [hc]; decide)]
  refine ⟨rfl, ?_⟩
  rw [← hbyte]
  rfl

/-- An operation on a word of memory leaves its result there. -/
theorem operate_word (hc : op.compares = false) (v : BitVec 16) (a : BitVec 16) :
    (s.operate op .word v (.mem a)).reg = s.reg ∧
      (∀ a', a' ≠ a → a' ≠ a + 1 → (s.operate op .word v (.mem a)).mem a' = s.mem a') ∧
      (s.operate op .word v (.mem a)).wordAt a = aluResult op.code v (s.wordAt a) s.sr.carry := by
  obtain ⟨r, hr⟩ : ∃ r, r = aluResult op.code v (s.wordAt a) s.sr.carry := ⟨_, rfl⟩
  have hmem : (s.operate op .word v (.mem a)).mem
      = Function.update (Function.update s.mem a (r.setWidth 8)) (a + 1) (highByte r) := by
    have hword : (s.wordOf (.mem a)).setWidth Width.word.bits = s.wordAt a := BitVec.setWidth_eq _
    unfold operate
    rw [if_neg (by rw [hc]; decide), hword, hr]
    rfl
  refine ⟨?_, fun a' h h1 => ?_, ?_⟩
  · unfold operate
    rw [if_neg (by rw [hc]; decide)]
    rfl
  · rw [hmem, Function.update_of_ne h1, Function.update_of_ne h]
  · have hne : a ≠ a + 1 := by bv_omega
    rw [wordAt, hmem, Function.update_self, Function.update_of_ne hne, Function.update_self,
      joinBytes_highByte, hr]

end

end Processor

/-! ## Rules for instructions -/

namespace Board.Leads

variable {Q : Board → Prop} {b : Board}

/-- The rule for a two-operand instruction. -/
theorem two {op : TwoOp} {bw : Width} {src : Operand} {dst : Target} {s : Processor} {l : Place}
    (hclock : b.cpu.Clocked) (haligned : Aligned b.cpu.pc)
    (hcurrent : b.cpu.current = some (.two op bw src dst))
    (hs : s = b.cpu.advanced (.two op bw src dst))
    (hl : l = dst.place (src.after s bw)
      (b.cpu.pc + 2 + 2 * BitVec.ofNat 16 src.extension.length))
    (hop : op ≠ .dadd) (hsrc : (src.place s (b.cpu.pc + 2)).Allows bw) (hdst : l.Allows bw)
    (hexact : ExactTwo s op bw src dst (b.cpu.pc + 2))
    (hrest : ∀ s', s' = (src.after s bw).operate op bw
        ((src.word s (b.cpu.pc + 2)).setWidth bw.bits) l →
      Board.Leads Q ⟨s'.devices, b.sent ++ s'.wire⟩) : b.Leads Q := by
  subst hs hl
  exact .instruction hclock haligned hcurrent hexact (Processor.execTwo_eq _ hop hsrc hdst) (hrest _ rfl)

/-- The rule for a jump. -/
theorem jump {condition : Fin 8} {offset : BitVec 10} (hclock : b.cpu.Clocked)
    (haligned : Aligned b.cpu.pc) (hcurrent : b.cpu.current = some (.jump condition offset))
    (hexact : ¬ (256 ≤ offset.toNat ∧ offset.toNat < 512)) (hquiet : b.cpu.Quiet)
    (hrest : ∀ s : Processor,
      (∀ n, s.reg n = if n = 0 then
          b.cpu.pc + 2 + if conditionHolds b.cpu.sr condition then 2 * offset.signExtend 16 else 0
        else b.cpu.reg n) →
      s.sr = b.cpu.sr → s.mem = b.cpu.mem → Board.Leads Q ⟨s, b.sent⟩) : b.Leads Q := by
  have hbehind : b.cpu.behind (.jump condition offset) = b.cpu.pc + 2 := rfl
  have hmem : ((b.cpu.advanced (.jump condition offset)).execJump condition offset).mem
      = b.cpu.mem := by
    rw [Processor.execJump]
    split_ifs
    · rw [Processor.mem_writeReg, Processor.mem_advanced]
    · rw [Processor.mem_advanced]
  refine .quiet hclock haligned hcurrent (fun _ => hexact) rfl ?_ (hrest _ (fun n => ?_) ?_ hmem)
  · rw [Processor.Quiet, hmem]
    exact hquiet
  · rw [Processor.execJump, Processor.sr_advanced]
    split_ifs with hc h0 h0
    · rw [Processor.reg_writeReg _ (by decide) (by decide), if_pos h0, Processor.pc,
        Processor.reg_advanced, if_pos rfl, hbehind]
    · rw [Processor.reg_writeReg _ (by decide) (by decide), if_neg h0, Processor.reg_advanced,
        if_neg h0]
    · rw [Processor.reg_advanced, if_pos h0, hbehind]
      exact (BitVec.add_zero _).symm
    · rw [Processor.reg_advanced, if_neg h0]
  · rw [Processor.execJump]
    split_ifs
    · rw [Processor.sr_writeReg _ (by decide), Processor.sr_advanced]
    · rw [Processor.sr_advanced]

end Board.Leads

/-! ## Flags -/

/-- An operation that does not add is exact. -/
theorem flagsExact_of_none {op : TwoOp} {bw : Width} {carry : Bool} {v d : BitVec 16}
    (h : op.summand v carry = none) : FlagsExact op bw carry v d := by
  cases op <;> cases bw <;>
    first | exact ⟨trivial, by simp⟩ | exact absurd h (by simp [TwoOp.summand])

/-- Counting up is exact. -/
theorem flagsExact_increment (carry : Bool) (d : BitVec 16) :
    FlagsExact .add .word carry 1 d :=
  ⟨.inl (show (1 : BitVec 16).toNat < 0x8000 by decide), by simp⟩

/-- A comparison of numbers without sign is exact. -/
theorem flagsExact_compare (carry : Bool) {v d : BitVec 16} (hv : v.toNat < 0x8000)
    (hd : d.toNat < 0x8000) : FlagsExact .cmp .word carry v d := by
  refine ⟨.inr hd, fun _ => ?_⟩
  have htop : -2 ^ 15 < v.toInt := by
    rw [BitVec.toInt_eq_toNat_cond]
    split_ifs <;> omega
  simpa [signedLow, Width.bits] using htop

/-- `JL` behind a comparison of numbers without sign. -/
theorem less_iff (sr : StatusReg) {v d : BitVec 16} (hv : v.toNat < 0x8000)
    (hd : d.toNat < 0x8000) :
    conditionHolds (TwoOp.cmp.flags sr v d) 6 = true ↔ d.toNat < v.toNat := by
  have hdiff : d + ~~~v + BitVec.ofNat 16 true.toNat = d - v :=
    (BitVec.add_assoc _ _ _).trans (add_not_add_one d v)
  have hnegative : (d - v).msb = decide (d.toNat < v.toNat) := by
    rw [BitVec.msb_eq_decide, BitVec.toNat_sub, decide_eq_decide]
    omega
  have hoverflow : ¬ (2 ^ 15 ≤ d.toInt + (~~~v).toInt + true.toNat ∨
      d.toInt + (~~~v).toInt + true.toNat < -2 ^ 15) := by
    simp only [BitVec.toInt_eq_toNat_cond, BitVec.toNat_not, Bool.toNat_true]
    omega
  have hflags : TwoOp.cmp.flags sr v d = sumFlags sr d (~~~v) true := rfl
  rw [hflags, conditionHolds_iff]
  simp only [Condition, sumFlags, hdiff, hnegative, decide_eq_false hoverflow]
  simp

end Msp430
