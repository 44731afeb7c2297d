/-
# The firmware prints what it is given

`print` of `430x2_firm/uart/main.c`, compiled by hand: wait for the transmitter, toggle the green
LED, put the next character into the transmit buffer, count to 5000, and again until the text
ends.  Run by the emulator with the DCO selected it puts exactly the text on the wire, toggles the
LED once for each character, changes nothing else that a caller can see, and returns.
-/
import Msp430.GuestLogic

namespace Msp430

/-! ## The routine -/

/-- One compilation of `print`, the repository having the C text alone: the text in R15, its length
in R14, `k` in R13 and the global `i` in memory. -/
def printCode (i : BitVec 16) : List Instruction :=
  [ .two .mov .word (.constant .zero) (.register 13),
    .jump 7 18,
    -- while (!(IFG2 & UCA0TXIFG));
    .two .bit .byte (.constant .two) (.absolute 0x03),
    .jump 1 (-3),
    -- P1OUT ^= BIT6; UCA0TXBUF = txt[k];
    .two .xor .byte (.immediate 0x40) (.absolute 0x21),
    .two .mov .byte (.autoIncrement 15 (by decide)) (.absolute 0x67),
    -- for (i = 0; i < 5000; i++);
    .two .mov .word (.constant .zero) (.absolute i),
    .jump 7 2,
    .two .add .word (.constant .one) (.absolute i),
    .two .cmp .word (.immediate 5000) (.absolute i),
    .jump 6 (-6),
    -- for (k = 0; k < len; k++)
    .two .add .word (.constant .one) (.register 13),
    .two .cmp .word (.register 14 (by decide)) (.register 13),
    .jump 6 (-20),
    .two .mov .word (.autoIncrement 1 (by decide)) (.register 0) ]

/-- The cells that the routine writes. -/
def Written (i a : BitVec 16) : Prop := a = 0x21 ∨ a = 0x67 ∨ a = i ∨ a = i + 1

instance (i a : BitVec 16) : Decidable (Written i a) := inferInstanceAs (Decidable (_ ∨ _))

/-- A call of `print` on a text: the routine at `org`, the text without a null character
and out of the way of what is written, the transmitter connected, ready and empty, and the DCO
selected. -/
structure PrintCall (b : Board) (org i : BitVec 16) (text : List (BitVec 8)) : Prop where
  loaded : b.cpu.Loaded org (printCode i)
  code : ∀ a, InCode org (printCode i) a → ¬ Written i a
  aligned : Aligned org
  counter : Aligned i
  stack : Aligned b.cpu.sp
  short : text.length < 0x8000
  length : b.cpu.reg 14 = BitVec.ofNat 16 text.length
  chars : ∀ j (h : j < text.length), b.cpu.mem (b.cpu.reg 15 + BitVec.ofNat 16 j) = text[j]
  nonzero : ∀ c ∈ text, c ≠ 0
  apart : ∀ j < text.length, b.cpu.reg 15 + BitVec.ofNat 16 j ≠ 0xFFFF ∧
    ¬ Written i (b.cpu.reg 15 + BitVec.ofNat 16 j)
  slot : ¬ Written i b.cpu.sp ∧ ¬ Written i (b.cpu.sp + 1)
  devices : ∀ a ∈ [0x03, 0x26, 0x41, 0x58, 0x160, 0x21, 0x67], a ≠ i ∧ a ≠ i + 1
  connected : (b.cpu.mem 0x26).getLsbD 2 = true ∧ (b.cpu.mem 0x41).getLsbD 2 = true
  ready : b.cpu.mem 0x03 &&& 0x02 ≠ 0
  clocked : b.cpu.Clocked
  timer : (b.cpu.mem 0x160).getLsbD 2 = false
  empty : b.cpu.mem 0x67 = 0

/-- The port after the green LED has been toggled a number of times. -/
def toggled (t : ℕ) (out : BitVec 8) : BitVec 8 := (· ^^^ 0x40)^[t] out

/-- The address of a word of the routine. -/
def wordAddr (org : BitVec 16) (c : ℕ) : BitVec 16 := org + 2 * BitVec.ofNat 16 c

theorem wordAddr_add (org : BitVec 16) (c k : ℕ) :
    wordAddr org c + 2 * BitVec.ofNat 16 k = wordAddr org (c + k) := by
  rw [wordAddr, wordAddr, BitVec.add_assoc, ← BitVec.mul_add, ← BitVec.ofNat_add]

theorem aligned_wordAddr {org : BitVec 16} (h : Aligned org) (c : ℕ) :
    Aligned (wordAddr org c) := by
  rw [Aligned] at *
  rw [wordAddr, BitVec.toNat_add, BitVec.toNat_mul, BitVec.toNat_ofNat]
  simp only [BitVec.reduceToNat]
  omega

/-- Where `print` is: in front of word `c`, `k` characters counted, `q` sent, the LED toggled
`t` times. -/
structure Printing (b₀ : Board) (org i : BitVec 16) (text : List (BitVec 8)) (c k q t : ℕ)
    (b : Board) : Prop where
  pc : b.cpu.reg 0 = wordAddr org c
  count : b.cpu.reg 13 = BitVec.ofNat 16 k
  next : b.cpu.reg 15 = b₀.cpu.reg 15 + BitVec.ofNat 16 q
  regs : ∀ n, n ≠ 0 → n ≠ 13 → n ≠ 15 → b.cpu.reg n = b₀.cpu.reg n
  mem : ∀ a, ¬ Written i a → b.cpu.mem a = b₀.cpu.mem a
  port : b.cpu.mem 0x21 = toggled t (b₀.cpu.mem 0x21)
  empty : b.cpu.mem 0x67 = 0
  sent : b.sent = b₀.sent ++ text.take q

variable {b₀ b : Board} {org i : BitVec 16} {text : List (BitVec 8)} {c k q t : ℕ}

/-- The routine does not write the registers of the devices but the two it is to write. -/
theorem PrintCall.not_written (h : PrintCall b₀ org i text) {a : BitVec 16}
    (ha : a ∈ [0x03, 0x26, 0x41, 0x58, 0x160]) : ¬ Written i a := by
  have hplain : a ≠ 0x21 ∧ a ≠ 0x67 := by
    simp only [List.mem_cons, List.not_mem_nil, or_false] at ha
    rcases ha with rfl | rfl | rfl | rfl | rfl <;> decide
  obtain ⟨hi, hi'⟩ := h.devices a (List.mem_append_left [0x21, 0x67] ha)
  rintro (hc | hc | hc | hc)
  · exact hplain.1 hc
  · exact hplain.2 hc
  · exact hi hc
  · exact hi' hc

/-- Nor the one that selects the clock. -/
theorem PrintCall.keeps_clock (h : PrintCall b₀ org i text)
    (hmem : ∀ a, ¬ Written i a → b.cpu.mem a = b₀.cpu.mem a) : b.cpu.Clocked := by
  rw [Processor.Clocked, hmem _ (h.not_written (by simp))]
  exact h.clocked

/-- The instruction at a word of the routine. -/
theorem current_printCode {s : Processor} (h : s.Loaded org (printCode i)) (m : ℕ)
    {instr : Instruction} (hcode : (printCode i)[m]? = some instr)
    (hc : (instructions.writeAll ((printCode i).take m)).length = c)
    (hpc : s.pc = wordAddr org c) : s.current = some instr := by
  obtain ⟨hm, hget⟩ := List.getElem?_eq_some_iff.mp hcode
  have hsplit : printCode i = (printCode i).take m ++ instr :: (printCode i).drop (m + 1) := by
    rw [← hget, ← List.drop_eq_getElem_cons hm, List.take_append_drop]
  exact h.current hsplit (by rw [hpc, ← hc]; rfl)

namespace Printing

/-- The devices have nothing to do. -/
theorem quiet (hcall : PrintCall b₀ org i text) (h : Printing b₀ org i text c k q t b) :
    b.cpu.Quiet :=
  ⟨by rw [h.mem _ (hcall.not_written (by simp)), hcall.timer], h.empty⟩

theorem clocked (hcall : PrintCall b₀ org i text) (h : Printing b₀ org i text c k q t b) :
    b.cpu.Clocked := hcall.keeps_clock h.mem

theorem aligned (hcall : PrintCall b₀ org i text) (h : Printing b₀ org i text c k q t b) :
    Aligned b.cpu.pc := by
  rw [Processor.pc, h.pc]
  exact aligned_wordAddr hcall.aligned c

/-- The instruction at a word of the routine. -/
theorem current (hcall : PrintCall b₀ org i text) (h : Printing b₀ org i text c k q t b)
    (m : ℕ) {instr : Instruction} (hcode : (printCode i)[m]? = some instr)
    (hc : (instructions.writeAll ((printCode i).take m)).length = c) :
    b.cpu.current = some instr := by
  have hloaded : b.cpu.Loaded org (printCode i) :=
    hcall.loaded.congr fun a ha => h.mem a (hcall.code a ha)
  exact current_printCode hloaded m hcode hc h.pc

/-- The registers once the program counter has moved on. -/
theorem advanced (h : Printing b₀ org i text c k q t b) (instr : Instruction) (n : Fin 16) :
    (b.cpu.advanced instr).reg n
      = if n = 0 then wordAddr org (c + instr.words.length) else b.cpu.reg n := by
  rw [Processor.reg_advanced, Processor.behind, Processor.pc, h.pc, wordAddr_add]

/-- An instruction that writes at most R13 and the counter `i`. -/
theorem moves (hcall : PrintCall b₀ org i text) (h : Printing b₀ org i text c k q t b)
    {s : Processor} {c' k' : ℕ} (hpc : s.reg 0 = wordAddr org c')
    (hcount : s.reg 13 = BitVec.ofNat 16 k')
    (hreg : ∀ n, n ≠ 0 → n ≠ 13 → s.reg n = b.cpu.reg n)
    (hmem : ∀ a, a ≠ i → a ≠ i + 1 → s.mem a = b.cpu.mem a) :
    Printing b₀ org i text c' k' q t ⟨s, b.sent⟩ where
  pc := hpc
  count := hcount
  next := by rw [hreg 15 (by decide) (by decide), h.next]
  regs n h0 h13 h15 := by rw [hreg n h0 h13, h.regs n h0 h13 h15]
  mem a ha := by
    have hi : a ≠ i ∧ a ≠ i + 1 :=
      ⟨fun hc => ha (Or.inr (Or.inr (Or.inl hc))), fun hc => ha (Or.inr (Or.inr (Or.inr hc)))⟩
    rw [hmem a hi.1 hi.2, h.mem a ha]
  port := by
    obtain ⟨hi, hi'⟩ := hcall.devices 0x21 (by simp)
    rw [hmem _ hi hi', h.port]
  empty := by
    obtain ⟨hi, hi'⟩ := hcall.devices 0x67 (by simp)
    rw [hmem _ hi hi', h.empty]
  sent := h.sent

/-- Behind a quiet instruction. -/
theorem arrive (hcall : PrintCall b₀ org i text) {Q : Board → Prop} {s : Processor}
    (hs : Printing b₀ org i text c k q t ⟨s, b.sent⟩) (hq : Q ⟨s, b.sent⟩) :
    Board.Leads Q ⟨s.devices, b.sent ++ s.wire⟩ := by
  have hquiet : s.Quiet := hs.quiet hcall
  rw [hquiet.devices, hquiet.wire, List.append_nil]
  exact .here hq

/-! ### Comparisons and jumps -/

/-- A comparison moves on and leaves flags. -/
theorem compare (hcall : PrintCall b₀ org i text) (h : Printing b₀ org i text c k q t b)
    {op : TwoOp} {bw : Width} {src : Operand} {dst : Target} {s : Processor} {l : Place} (m : ℕ)
    (hcode : (printCode i)[m]? = some (.two op bw src dst))
    (hc : (instructions.writeAll ((printCode i).take m)).length = c) (hop : op.compares = true)
    (hs : s = b.cpu.advanced (.two op bw src dst)) (hafter : src.after s bw = s)
    (hl : l = dst.place s (b.cpu.pc + 2 + 2 * BitVec.ofNat 16 src.extension.length))
    (hsrc : (src.place s (b.cpu.pc + 2)).Allows bw) (hdst : l.Allows bw)
    (hexact : ExactTwo s op bw src dst (b.cpu.pc + 2)) :
    b.Leads fun b' =>
      Printing b₀ org i text (c + (Instruction.two op bw src dst).words.length) k q t b' ∧
        b'.cpu.mem = b.cpu.mem ∧
        b'.cpu.sr = op.flags b.cpu.sr ((src.word s (b.cpu.pc + 2)).setWidth bw.bits)
          ((s.wordOf l).setWidth bw.bits) := by
  have hreg := h.advanced (.two op bw src dst)
  have hmem := b.cpu.mem_advanced (.two op bw src dst)
  have hsr := b.cpu.sr_advanced (.two op bw src dst)
  rw [← hs] at hreg hmem hsr
  have hdadd : op ≠ .dadd := by
    rintro rfl
    exact absurd hop (by decide)
  refine .two (h.clocked hcall) (h.aligned hcall) (h.current hcall m hcode hc) hs (by rw [hafter]; exact hl) hdadd
    hsrc hdst hexact fun s' hs' => ?_
  rw [hafter] at hs'
  obtain ⟨hreg', hmem'⟩ := s.operate_compares ((src.word s (b.cpu.pc + 2)).setWidth bw.bits) hop l
  have hflags : s'.sr = op.flags b.cpu.sr ((src.word s (b.cpu.pc + 2)).setWidth bw.bits)
      ((s.wordOf l).setWidth bw.bits) := by
    rw [hs', Processor.operate, if_pos hop, hsr]
  rw [← hs'] at hreg' hmem'
  have hprinting : Printing b₀ org i text (c + (Instruction.two op bw src dst).words.length)
      k q t ⟨s', b.sent⟩ := by
    refine h.moves hcall ?_ ?_ (fun n h0 _ => ?_) (fun a _ _ => ?_)
    · rw [hreg', hreg, if_pos rfl]
    · rw [hreg', hreg, if_neg (by decide), h.count]
    · rw [hreg', hreg, if_neg h0]
    · rw [hmem', hmem]
  exact arrive hcall hprinting ⟨hprinting, hmem'.trans hmem, hflags⟩

/-- A jump moves to its target when its condition holds, and on otherwise. -/
theorem jump (hcall : PrintCall b₀ org i text) (h : Printing b₀ org i text c k q t b)
    {condition : Fin 8} {offset : BitVec 10} (m target : ℕ)
    (hcode : (printCode i)[m]? = some (.jump condition offset))
    (hc : (instructions.writeAll ((printCode i).take m)).length = c)
    (hoffset : ¬ (256 ≤ offset.toNat ∧ offset.toNat < 512))
    (htarget : 2 * BitVec.ofNat 16 (c + 1) + 2 * offset.signExtend 16
      = 2 * BitVec.ofNat 16 target) :
    b.Leads fun b' =>
      Printing b₀ org i text (if conditionHolds b.cpu.sr condition then target else c + 1)
        k q t b' ∧ b'.cpu.mem = b.cpu.mem := by
  refine .jump (h.clocked hcall) (h.aligned hcall) (h.current hcall m hcode hc) hoffset (h.quiet hcall)
    fun s hreg _ hmem => .here ⟨h.moves hcall ?_ ?_ (fun n h0 _ => ?_) (fun a _ _ => ?_), hmem⟩
  · have hone : b.cpu.pc + 2 = wordAddr org (c + 1) := by
      rw [← wordAddr_add, ← h.pc]
      rfl
    rw [hreg, if_pos rfl, hone]
    split_ifs
    · rw [wordAddr, wordAddr, BitVec.add_assoc, htarget]
    · exact BitVec.add_zero _
  · rw [hreg, if_neg (by decide), h.count]
  · rw [hreg, if_neg h0]
  · rw [hmem]

/-- A word operation of a constant on the counter `i`. -/
theorem counts (hcall : PrintCall b₀ org i text) (h : Printing b₀ org i text c k q t b)
    {op : TwoOp} {v : Constant} (m : ℕ)
    (hcode : (printCode i)[m]? = some (.two op .word (.constant v) (.absolute i)))
    (hc : (instructions.writeAll ((printCode i).take m)).length = c)
    (hop : op.compares = false) (hdadd : op ≠ .dadd)
    (hflags : FlagsExact op .word b.cpu.sr.carry v.value (b.cpu.wordAt i)) :
    b.Leads fun b' => Printing b₀ org i text (c + 2) k q t b' ∧
      b'.cpu.wordAt i = aluResult op.code v.value (b.cpu.wordAt i) b.cpu.sr.carry := by
  have hreg := h.advanced (.two op .word (.constant v) (.absolute i))
  have hmem := b.cpu.mem_advanced (.two op .word (.constant v) (.absolute i))
  have hsr := b.cpu.sr_advanced (.two op .word (.constant v) (.absolute i))
  obtain ⟨s, hs⟩ : ∃ s, s = b.cpu.advanced (.two op .word (.constant v) (.absolute i)) := ⟨_, rfl⟩
  have hword := b.cpu.wordAt_advanced (.two op .word (.constant v) (.absolute i)) i
  rw [← hs] at hreg hmem hsr hword
  have hexact : ExactTwo s op .word (.constant v) (.absolute i) (b.cpu.pc + 2) :=
    ⟨trivial, trivial, trivial, hcall.counter.ne_last, fun _ => by
      rw [← hword, ← hsr] at hflags
      exact hflags⟩
  refine .two (h.clocked hcall) (h.aligned hcall) (h.current hcall m hcode hc) hs rfl hdadd trivial hcall.counter
    hexact fun s' hs' => ?_
  obtain ⟨hreg', hmem', hword'⟩ := s.operate_word hop v.value i
  have hvalue : s' = s.operate op .word v.value (.mem i) :=
    hs'.trans (congrArg (fun x => s.operate op .word x (.mem i)) (BitVec.setWidth_eq v.value))
  rw [← hvalue] at hreg' hmem' hword'
  have hprinting : Printing b₀ org i text (c + 2) k q t ⟨s', b.sent⟩ := by
    refine h.moves hcall ?_ ?_ (fun n h0 _ => ?_) (fun a ha ha' => ?_)
    · rw [hreg', hreg, if_pos rfl]
      rfl
    · rw [hreg', hreg, if_neg (by decide), h.count]
    · rw [hreg', hreg, if_neg h0]
    · rw [hmem' a ha ha', hmem]
  exact arrive hcall hprinting ⟨hprinting, by rw [hword', hword, hsr]⟩

/-! ### The instructions of the routine -/

/-- `MOV #0, R13`: the count starts. -/
theorem start (hcall : PrintCall b₀ org i text) (hpc : b₀.cpu.pc = org) :
    b₀.Leads (Printing b₀ org i text 1 0 0 0) := by
  have hzero : b₀.cpu.pc = wordAddr org 0 := hpc.trans (BitVec.add_zero _).symm
  have hcurrent : b₀.cpu.current = some (.two .mov .word (.constant .zero) (.register 13)) :=
    current_printCode hcall.loaded 0 rfl rfl hzero
  obtain ⟨s, hs⟩ : ∃ s, s = b₀.cpu.advanced (.two .mov .word (.constant .zero) (.register 13)) :=
    ⟨_, rfl⟩
  refine .two hcall.clocked (by rw [hpc]; exact hcall.aligned) hcurrent hs rfl (by decide) trivial trivial
    ⟨trivial, trivial, ⟨by decide, by decide, fun hc => absurd hc (by decide)⟩, trivial,
      fun _ => flagsExact_of_none rfl⟩ fun s' hs' => ?_
  obtain ⟨hreg', hmem'⟩ := s.operate_reg (Constant.zero.value.setWidth Width.word.bits)
    (show TwoOp.mov.compares = false from rfl) (show (13 : Fin 16) ≠ 2 by decide) (by decide)
  have hreg (n : Fin 16) : s.reg n = if n = 0 then wordAddr org 1 else b₀.cpu.reg n := by
    rw [hs, Processor.reg_advanced, Processor.behind, hzero, wordAddr_add]
    rfl
  have hvalue : s' = s.operate .mov .word (Constant.zero.value.setWidth Width.word.bits) (.reg 13) :=
    hs'
  rw [← hvalue] at hreg' hmem'
  have hmem : s'.mem = b₀.cpu.mem := by rw [hmem', hs, Processor.mem_advanced]
  have hprinting : Printing b₀ org i text 1 0 0 0 ⟨s', b₀.sent⟩ := by
    refine ⟨?_, ?_, ?_, fun n h0 h13 _ => ?_, fun a _ => ?_, ?_, ?_, ?_⟩
    · rw [hreg', if_neg (by decide), hreg, if_pos rfl]
    · rw [hreg', if_pos rfl]
      rfl
    · rw [hreg', if_neg (by decide), hreg, if_neg (by decide)]
      exact (BitVec.add_zero _).symm
    · rw [hreg', if_neg h13, hreg, if_neg h0]
    · rw [hmem]
    · rw [hmem]
      rfl
    · rw [hmem, hcall.empty]
    · exact (List.append_nil _).symm
  exact arrive hcall hprinting hprinting

/-- `JMP` to the test of the outer loop. -/
theorem enter (hcall : PrintCall b₀ org i text) (h : Printing b₀ org i text 1 k q t b) :
    b.Leads (Printing b₀ org i text 20 k q t) :=
  (h.jump hcall 1 20 rfl rfl (by decide) (by decide)).mono fun _ h' => h'.1

/-- `BIT.B #2, &IFG2` and `JZ`: the transmitter is ready. -/
theorem poll (hcall : PrintCall b₀ org i text) (h : Printing b₀ org i text 2 k q t b) :
    b.Leads (Printing b₀ org i text 5 k q t) := by
  refine (h.compare hcall 2 rfl rfl rfl rfl rfl rfl trivial trivial
    ⟨trivial, trivial, trivial, (by decide : (0x03 : BitVec 16) ≠ 0xFFFF),
      fun _ => flagsExact_of_none rfl⟩).trans fun b' hb' => ?_
  rcases hb' with ⟨h', hmem, hsr⟩
  have hifg : b.cpu.mem 0x03 &&& 0x02 ≠ 0 := by
    rw [h.mem _ (hcall.not_written (by simp))]
    exact hcall.ready
  have hlow : ((b.cpu.advanced (.two .bit .byte (.constant .two) (.absolute 0x03))).wordOf
      (.mem 0x03)).setWidth 8 = b.cpu.mem 0x03 :=
    (setWidth_joinBytes _ _).trans (congrFun (b.cpu.mem_advanced _) 0x03)
  have hzero : b'.cpu.sr.zero = (0x02 &&& b.cpu.mem 0x03 == 0) := by
    rw [hsr]
    exact congrArg (fun d : BitVec 8 => 0x02 &&& d == 0) hlow
  have hready : conditionHolds b'.cpu.sr 1 = false := by
    rw [BitVec.and_comm] at hifg
    rw [conditionHolds, hzero, beq_false_of_ne hifg]
    rfl
  refine (h'.jump hcall 3 2 rfl rfl (by decide) (by decide)).mono fun b'' hb'' => ?_
  rcases hb'' with ⟨h'', _⟩
  rw [hready] at h''
  exact h''

/-- `XOR.B #0x40, &P1OUT`: the LED is toggled. -/
theorem toggle (hcall : PrintCall b₀ org i text) (h : Printing b₀ org i text 5 k q t b) :
    b.Leads (Printing b₀ org i text 8 k q (t + 1)) := by
  obtain ⟨s, hs⟩ : ∃ s, s = b.cpu.advanced (.two .xor .byte (.immediate 0x40) (.absolute 0x21)) :=
    ⟨_, rfl⟩
  have hreg := h.advanced (.two .xor .byte (.immediate 0x40) (.absolute 0x21))
  have hmem := b.cpu.mem_advanced (.two .xor .byte (.immediate 0x40) (.absolute 0x21))
  rw [← hs] at hreg hmem
  refine .two (h.clocked hcall) (h.aligned hcall) (h.current hcall 4 rfl rfl) hs rfl (by decide) trivial trivial
    ⟨trivial, trivial, trivial, (by decide : (0x21 : BitVec 16) ≠ 0xFFFF),
      fun _ => flagsExact_of_none rfl⟩ fun s' hs' => ?_
  obtain ⟨hreg', hmem'⟩ :=
    s.operate_byte (show TwoOp.xor.compares = false from rfl) (0x40 : BitVec 8) 0x21
  have hvalue : s' = s.operate .xor .byte (0x40 : BitVec 8) (.mem 0x21) := hs'
  rw [← hvalue, hmem] at hmem'
  rw [← hvalue] at hreg'
  have hother (a : BitVec 16) (ha : a ≠ 0x21) : s'.mem a = b.cpu.mem a := by
    rw [hmem', Function.update_of_ne ha]
  have hprinting : Printing b₀ org i text 8 k q (t + 1) ⟨s', b.sent⟩ := by
    refine ⟨?_, ?_, ?_, fun n h0 h13 h15 => ?_, fun a ha => ?_, ?_, ?_, h.sent⟩
    · rw [hreg', hreg, if_pos rfl]
      rfl
    · rw [hreg', hreg, if_neg (by decide), h.count]
    · rw [hreg', hreg, if_neg (by decide), h.next]
    · rw [hreg', hreg, if_neg h0, h.regs n h0 h13 h15]
    · rw [hother a fun hc => ha (Or.inl hc), h.mem a ha]
    · rw [hmem', Function.update_self, h.port, toggled, toggled, Function.iterate_succ_apply']
      rfl
    · rw [hother _ (by decide), h.empty]
  exact arrive hcall hprinting hprinting

/-- `MOV.B @R15+, &UCA0TXBUF`: the next character goes out. -/
theorem send (hcall : PrintCall b₀ org i text) (h : Printing b₀ org i text 8 k q t b)
    (hq : q < text.length) : b.Leads (Printing b₀ org i text 10 k (q + 1) t) := by
  obtain ⟨instr, hinstr⟩ : ∃ instr, instr =
      Instruction.two .mov .byte (.autoIncrement 15 (by decide)) (.absolute 0x67) := ⟨_, rfl⟩
  obtain ⟨s, hs⟩ : ∃ s, s = b.cpu.advanced instr := ⟨_, rfl⟩
  have hreg := h.advanced instr
  have hmem := b.cpu.mem_advanced instr
  rw [← hs] at hreg hmem
  have hpointer : s.reg 15 = b₀.cpu.reg 15 + BitVec.ofNat 16 q := by
    rw [hreg, if_neg (by decide), h.next]
  have hchar : s.mem (s.reg 15) = text[q] := by
    rw [hmem, hpointer, h.mem _ (hcall.apart q hq).2, hcall.chars q hq]
  have hinterior : s.reg 15 ≠ 0xFFFF := hpointer ▸ (hcall.apart q hq).1
  refine .two (h.clocked hcall) (h.aligned hcall) (h.current hcall 5 rfl rfl) (hinstr ▸ hs) rfl (by decide) trivial
    trivial ⟨by decide, hinterior, trivial, (by decide : (0x67 : BitVec 16) ≠ 0xFFFF),
      fun _ => flagsExact_of_none rfl⟩ fun s' hs' => ?_
  obtain ⟨hreg', hmem'⟩ := (s.writeReg 15 (s.reg 15 + 1)).operate_byte
    (show TwoOp.mov.compares = false from rfl) text[q] 0x67
  have hvalue : s' = (s.writeReg 15 (s.reg 15 + 1)).operate .mov .byte text[q] (.mem 0x67) := by
    rw [hs', ← hchar]
    exact congrArg (fun v : BitVec 8 => (s.writeReg 15 (s.reg 15 + 1)).operate .mov .byte v _)
      (setWidth_joinBytes _ _)
  rw [← hvalue, Processor.mem_writeReg, hmem] at hmem'
  rw [← hvalue] at hreg'
  have hregs (n : Fin 16) : s'.reg n = if n = 15 then s.reg 15 + 1 else s.reg n := by
    rw [hreg', Processor.reg_writeReg _ (by decide) (by decide)]
  have hbuffer : s'.mem 0x67 = text[q] := by
    rw [hmem', Function.update_self]
    rfl
  have hother (a : BitVec 16) (ha : a ≠ 0x67) : s'.mem a = b.cpu.mem a := by
    rw [hmem', Function.update_of_ne ha]
  have hdevice (a : BitVec 16) (ha : a ∈ [0x03, 0x26, 0x41, 0x58, 0x160]) :
      s'.mem a = b₀.cpu.mem a := by
    have hfree := hcall.not_written ha
    rw [hother a fun hc => hfree (Or.inr (Or.inl hc)), h.mem a hfree]
  have htransmits : s'.Transmits := by
    rw [Processor.Transmits, hdevice 0x26 (by simp), hdevice 0x41 (by simp),
      hdevice 0x03 (by simp), hbuffer]
    exact ⟨hcall.connected.1, hcall.connected.2, hcall.ready,
      hcall.nonzero _ (List.getElem_mem hq)⟩
  have hwire : s'.wire = [text[q]] := by rw [Processor.wire, if_pos htransmits, hbuffer]
  have hdevices : s'.devices = s'.writeMem .byte 0x67 0 := by
    have htimer : s'.clearTimer = s' := by
      rw [Processor.clearTimer, hdevice 0x160 (by simp), hcall.timer]
      rfl
    rw [Processor.devices, htimer, Processor.transmit, if_pos htransmits]
  have hafter (a : BitVec 16) (ha : a ≠ 0x67) :
      (s'.writeMem .byte 0x67 0).mem a = b.cpu.mem a :=
    (Function.update_of_ne ha _ _).trans (hother a ha)
  rw [hdevices, hwire]
  refine .here ⟨?_, ?_, ?_, fun n h0 h13 h15 => ?_, fun a ha => ?_, ?_, ?_, ?_⟩
  · rw [Processor.reg_writeMem, hregs, if_neg (by decide), hreg, if_pos rfl, hinstr]
    rfl
  · rw [Processor.reg_writeMem, hregs, if_neg (by decide), hreg, if_neg (by decide), h.count]
  · rw [Processor.reg_writeMem, hregs, if_pos rfl, hpointer, BitVec.add_assoc, BitVec.ofNat_add]
    rfl
  · rw [Processor.reg_writeMem, hregs, if_neg h15, hreg, if_neg h0, h.regs n h0 h13 h15]
  · rw [hafter a fun hc => ha (Or.inr (Or.inl hc)), h.mem a ha]
  · rw [hafter _ (by decide), h.port]
  · exact Function.update_self (0x67 : BitVec 16) (0 : BitVec 8) s'.mem
  · rw [h.sent, List.append_assoc, List.take_succ_eq_append_getElem hq]

/-! ### The delay loop -/

/-- In the delay loop, so much still to be counted. -/
def Delaying (b₀ : Board) (org i : BitVec 16) (text : List (BitVec 8)) (k q t n : ℕ) (b : Board) :
    Prop :=
  Printing b₀ org i text 15 k q t b ∧ n ≤ 5000 ∧ (b.cpu.wordAt i).toNat + n = 5000

/-- `MOV #0, &i` and `JMP` to the test. -/
theorem setUp (hcall : PrintCall b₀ org i text) (h : Printing b₀ org i text 10 k q t b) :
    b.Leads (Delaying b₀ org i text k q t 5000) := by
  refine (h.counts hcall 6 rfl rfl rfl (by decide) (flagsExact_of_none rfl)).trans
    fun b' hb' => ?_
  rcases hb' with ⟨h', hword⟩
  refine (h'.jump hcall 7 15 rfl rfl (by decide) (by decide)).mono fun b'' hb'' => ?_
  rcases hb'' with ⟨h'', hmem⟩
  have hzero : b''.cpu.wordAt i = 0 := by
    rw [Processor.wordAt, hmem]
    exact hword
  exact ⟨h'', le_rfl, by rw [hzero]; rfl⟩

/-- `CMP #5000, &i` and `JL`. -/
theorem test (hcall : PrintCall b₀ org i text) (h : Printing b₀ org i text 15 k q t b)
    (hcount : (b.cpu.wordAt i).toNat ≤ 5000) :
    b.Leads fun b' =>
      Printing b₀ org i text (if (b.cpu.wordAt i).toNat < 5000 then 13 else 19) k q t b' ∧
        b'.cpu.wordAt i = b.cpu.wordAt i := by
  obtain ⟨s, hs⟩ : ∃ s, s = b.cpu.advanced (.two .cmp .word (.immediate 5000) (.absolute i)) :=
    ⟨_, rfl⟩
  have hlow : (s.wordOf (.mem i)).setWidth 16 = b.cpu.wordAt i := by
    rw [BitVec.setWidth_eq, hs]
    exact Processor.wordAt_advanced _ _ i
  have hsmall : (b.cpu.wordAt i).toNat < 0x8000 := by omega
  refine (h.compare hcall 9 rfl rfl rfl hs rfl rfl trivial hcall.counter
    ⟨trivial, trivial, trivial, hcall.counter.ne_last, fun _ => ?_⟩).trans
      fun b' hb' => ?_
  · refine flagsExact_compare _ (show (5000 : BitVec 16).toNat < 0x8000 by decide) ?_
    rw [← hlow, BitVec.setWidth_eq] at hsmall
    exact hsmall
  rcases hb' with ⟨h', hmem, hsr⟩
  have hword : b'.cpu.wordAt i = b.cpu.wordAt i := by rw [Processor.wordAt, hmem]; rfl
  have hless : conditionHolds b'.cpu.sr 6 = true ↔ (b.cpu.wordAt i).toNat < 5000 := by
    have hflags : b'.cpu.sr = TwoOp.cmp.flags b.cpu.sr (5000 : BitVec 16) (b.cpu.wordAt i) := by
      rw [hsr, ← hlow]
      rfl
    rw [hflags]
    exact less_iff _ (by decide) hsmall
  have h18 : Printing b₀ org i text 18 k q t b' := h'
  refine (h18.jump hcall 10 13 rfl rfl (by decide) (by decide)).mono fun b'' hb'' => ?_
  rcases hb'' with ⟨h'', hmem'⟩
  refine ⟨?_, by rw [← hword, Processor.wordAt, hmem']; rfl⟩
  by_cases hlt : (b.cpu.wordAt i).toNat < 5000
  · rw [if_pos (hless.mpr hlt)] at h''
    rwa [if_pos hlt]
  · rw [if_neg (mt hless.mp hlt)] at h''
    rwa [if_neg hlt]

/-- Once round the delay loop. -/
theorem delay_step (hcall : PrintCall b₀ org i text) (n : ℕ) (b : Board)
    (h : Delaying b₀ org i text k q t (n + 1) b) : b.Leads (Delaying b₀ org i text k q t n) := by
  obtain ⟨hprinting, hn, hsum⟩ := h
  refine (hprinting.test hcall (by omega)).trans fun b' hb' => ?_
  rcases hb' with ⟨h', hword⟩
  rw [if_pos (by omega)] at h'
  refine (h'.counts hcall 8 rfl rfl rfl (by decide) (flagsExact_increment _ _)).mono
    fun b'' ⟨h'', hword'⟩ => ⟨h'', by omega, ?_⟩
  have hnext : b''.cpu.wordAt i = b.cpu.wordAt i + 1 := by rw [hword', hword]; rfl
  rw [hnext, BitVec.toNat_add]
  simp only [BitVec.reduceToNat]
  omega

/-- The delay. -/
theorem delay (hcall : PrintCall b₀ org i text) (h : Printing b₀ org i text 10 k q t b) :
    b.Leads (Printing b₀ org i text 19 k q t) := by
  refine ((h.setUp hcall).trans fun b' h' => Progress.Leads.loop (delay_step hcall) 5000 h').trans
    fun b' hb' => ?_
  rcases hb' with ⟨h', _, hsum⟩
  refine (h'.test hcall (by omega)).mono fun b'' hb'' => ?_
  rcases hb'' with ⟨h'', _⟩
  rwa [if_neg (by omega)] at h''

/-! ### The outer loop -/

/-- `ADD #1, R13`: one more character. -/
theorem advance (hcall : PrintCall b₀ org i text) (h : Printing b₀ org i text 19 k q t b) :
    b.Leads (Printing b₀ org i text 20 (k + 1) q t) := by
  obtain ⟨s, hs⟩ : ∃ s, s = b.cpu.advanced (.two .add .word (.constant .one) (.register 13)) :=
    ⟨_, rfl⟩
  have hreg := h.advanced (.two .add .word (.constant .one) (.register 13))
  have hmem := b.cpu.mem_advanced (.two .add .word (.constant .one) (.register 13))
  rw [← hs] at hreg hmem
  refine .two (h.clocked hcall) (h.aligned hcall) (h.current hcall 11 rfl rfl) hs rfl (by decide) trivial trivial
    ⟨trivial, trivial, ⟨by decide, by decide, fun hc => absurd hc (by decide)⟩, trivial,
      fun _ => flagsExact_increment _ _⟩ fun s' hs' => ?_
  obtain ⟨hreg', hmem'⟩ := s.operate_reg (Constant.one.value.setWidth Width.word.bits)
    (show TwoOp.add.compares = false from rfl) (show (13 : Fin 16) ≠ 2 by decide) (by decide)
  have hvalue : s' = s.operate .add .word (Constant.one.value.setWidth Width.word.bits) (.reg 13) :=
    hs'
  rw [← hvalue] at hreg' hmem'
  have hprinting : Printing b₀ org i text 20 (k + 1) q t ⟨s', b.sent⟩ := by
    refine h.moves hcall ?_ ?_ (fun n h0 h13 => ?_) (fun a _ _ => ?_)
    · rw [hreg', if_neg (by decide), hreg, if_pos rfl]
      rfl
    · have hcount : s.reg 13 = BitVec.ofNat 16 k := by rw [hreg, if_neg (by decide), h.count]
      rw [hreg', if_pos rfl, hcount, BitVec.ofNat_add]
      exact (BitVec.setWidth_eq _).trans
        (congrArg₂ (· + ·) (BitVec.setWidth_eq _) (BitVec.setWidth_eq _))
    · rw [hreg', if_neg h13, hreg, if_neg h0]
    · rw [hmem', hmem]
  exact arrive hcall hprinting hprinting

/-- `CMP R14, R13` and `JL`: another character, or the end. -/
theorem again (hcall : PrintCall b₀ org i text) (h : Printing b₀ org i text 20 k q t b)
    (hk : k ≤ text.length) :
    b.Leads (Printing b₀ org i text (if k < text.length then 2 else 22) k q t) := by
  obtain ⟨s, hs⟩ : ∃ s, s =
      b.cpu.advanced (.two .cmp .word (.register 14 (by decide)) (.register 13)) := ⟨_, rfl⟩
  have hshort := hcall.short
  have hreg := h.advanced (.two .cmp .word (.register 14 (by decide)) (.register 13))
  rw [← hs] at hreg
  have hcount : s.reg 13 = BitVec.ofNat 16 k := by rw [hreg, if_neg (by decide), h.count]
  have hlength : s.reg 14 = BitVec.ofNat 16 text.length := by
    rw [hreg, if_neg (by decide), h.regs 14 (by decide) (by decide) (by decide), hcall.length]
  have htoNat (n : ℕ) (hn : n ≤ text.length) : (BitVec.ofNat 16 n).toNat = n := by
    rw [BitVec.toNat_ofNat]
    omega
  have hv : (s.reg 14).toNat = text.length := by rw [hlength, htoNat _ le_rfl]
  have hd : (s.reg 13).toNat = k := by rw [hcount, htoNat _ hk]
  refine (h.compare hcall 12 rfl rfl rfl hs rfl rfl trivial trivial
    ⟨by decide, trivial, ⟨by decide, by decide, fun _ hc => absurd hc (by decide)⟩, trivial,
      fun _ => flagsExact_compare _ (v := s.reg 14) ?_ (d := s.reg 13) ?_⟩).trans
    fun b' hb' => ?_
  · omega
  · omega
  rcases hb' with ⟨h', _, hsr⟩
  have hless : conditionHolds b'.cpu.sr 6 = true ↔ k < text.length := by
    have hflags : b'.cpu.sr = TwoOp.cmp.flags b.cpu.sr (s.reg 14) (s.reg 13) := by
      rw [hsr]
      exact congrArg₂ (TwoOp.cmp.flags b.cpu.sr) (BitVec.setWidth_eq _) (BitVec.setWidth_eq _)
    rw [hflags, less_iff _ (by omega) (by omega), hv, hd]
  have h21 : Printing b₀ org i text 21 k q t b' := h'
  refine (h21.jump hcall 13 2 rfl rfl (by decide) (by decide)).mono fun b'' hb'' => ?_
  rcases hb'' with ⟨h'', _⟩
  by_cases hlt : k < text.length
  · rw [if_pos (hless.mpr hlt)] at h''
    rwa [if_pos hlt]
  · rw [if_neg (mt hless.mp hlt)] at h''
    rwa [if_neg hlt]

/-- Once round the outer loop. -/
theorem turn (hcall : PrintCall b₀ org i text) (h : Printing b₀ org i text 20 k k k b)
    (hk : k < text.length) : b.Leads (Printing b₀ org i text 20 (k + 1) (k + 1) (k + 1)) := by
  refine (h.again hcall hk.le).trans fun b₁ h₁ => ?_
  rw [if_pos hk] at h₁
  refine (h₁.poll hcall).trans fun b₂ h₂ => (h₂.toggle hcall).trans fun b₃ h₃ => ?_
  exact (h₃.send hcall hk).trans fun b₄ h₄ => (h₄.delay hcall).trans fun b₅ h₅ => h₅.advance hcall

/-- All the characters. -/
theorem all (hcall : PrintCall b₀ org i text) (h : Printing b₀ org i text 20 0 0 0 b) :
    b.Leads (Printing b₀ org i text 22 text.length text.length text.length) := by
  refine (Progress.Leads.loop (I := fun n b => n ≤ text.length ∧
    Printing b₀ org i text 20 (text.length - n) (text.length - n) (text.length - n) b)
    (fun n b ⟨hn, hb⟩ => ?_) text.length ⟨le_rfl, by rwa [Nat.sub_self]⟩).trans
      fun b' hb' => ?_
  · refine (hb.turn hcall (by omega)).mono fun b' h' => ⟨by omega, ?_⟩
    rwa [show text.length - (n + 1) + 1 = text.length - n by omega] at h'
  · rcases hb' with ⟨_, h'⟩
    rw [Nat.sub_zero] at h'
    refine (h'.again hcall le_rfl).mono fun b'' h'' => ?_
    rwa [if_neg (lt_irrefl _)] at h''

end Printing

/-! ## The call -/

/-- What a call of `print` leaves: the text on the wire, the LED toggled for each character,
the return address popped, and the rest of the memory and the registers but R13 and R15 as
they were. -/
structure Printed (b₀ : Board) (i : BitVec 16) (text : List (BitVec 8)) (b : Board) : Prop where
  sent : b.sent = b₀.sent ++ text
  pc : b.cpu.pc = b₀.cpu.wordAt b₀.cpu.sp
  sp : b.cpu.sp = b₀.cpu.sp + 2
  regs : ∀ n, n ≠ 0 → n ≠ 1 → n ≠ 13 → n ≠ 15 → b.cpu.reg n = b₀.cpu.reg n
  mem : ∀ a, ¬ Written i a → b.cpu.mem a = b₀.cpu.mem a
  port : b.cpu.mem 0x21
    = if text.length % 2 = 0 then b₀.cpu.mem 0x21 else b₀.cpu.mem 0x21 ^^^ 0x40
  empty : b.cpu.mem 0x67 = 0

theorem toggled_eq (t : ℕ) (out : BitVec 8) :
    toggled t out = if t % 2 = 0 then out else out ^^^ 0x40 := by
  induction t with
  | zero => rfl
  | succ t ih =>
    have hstep : toggled (t + 1) out = toggled t out ^^^ 0x40 :=
      Function.iterate_succ_apply' _ t out
    rw [hstep, ih]
    split_ifs with h h' h'
    · omega
    · rfl
    · rw [BitVec.xor_assoc, BitVec.xor_self, BitVec.xor_zero]
    · omega

/-- `RET`. -/
theorem Printing.ret (hcall : PrintCall b₀ org i text)
    (h : Printing b₀ org i text 22 text.length text.length text.length b) :
    b.Leads (Printed b₀ i text) := by
  obtain ⟨instr, hinstr⟩ : ∃ instr, instr =
      Instruction.two .mov .word (.autoIncrement 1 (by decide)) (.register 0) := ⟨_, rfl⟩
  obtain ⟨s, hs⟩ : ∃ s, s = b.cpu.advanced instr := ⟨_, rfl⟩
  have hreg := h.advanced instr
  have hmem := b.cpu.mem_advanced instr
  rw [← hs] at hreg hmem
  have hsp : s.reg 1 = b₀.cpu.sp := by
    rw [hreg, if_neg (by decide), h.regs 1 (by decide) (by decide) (by decide)]
    rfl
  have hslot : s.wordAt (s.reg 1) = b₀.cpu.wordAt b₀.cpu.sp := by
    rw [hsp, Processor.wordAt, Processor.wordAt, hmem, h.mem _ hcall.slot.1,
      h.mem _ hcall.slot.2]
  have hstack : Aligned (s.reg 1) := hsp ▸ hcall.stack
  refine .two (h.clocked hcall) (h.aligned hcall) (h.current hcall 14 rfl rfl) (hinstr ▸ hs) rfl (by decide) hstack
    trivial ⟨by decide, hstack.ne_last,
      ⟨by decide, by decide, fun hc => absurd hc (by decide)⟩, trivial,
      fun _ => flagsExact_of_none rfl⟩ fun s' hs' => ?_
  obtain ⟨hreg', hmem'⟩ := (s.writeReg 1 (s.reg 1 + 2)).operate_reg
    ((s.wordAt (s.reg 1)).setWidth Width.word.bits) (show TwoOp.mov.compares = false from rfl)
    (show (0 : Fin 16) ≠ 2 by decide) (by decide)
  have hvalue : s' = (s.writeReg 1 (s.reg 1 + 2)).operate .mov .word
      ((s.wordAt (s.reg 1)).setWidth Width.word.bits) (.reg 0) := hs'
  rw [← hvalue] at hreg' hmem'
  rw [Processor.mem_writeReg, hmem] at hmem'
  have hregs (n : Fin 16) (hn : n ≠ 0) :
      s'.reg n = if n = 1 then s.reg 1 + 2 else s.reg n := by
    rw [hreg', if_neg hn, Processor.reg_writeReg _ (by decide) (by decide)]
  have hquiet : s'.Quiet := by
    rw [Processor.Quiet, hmem']
    exact h.quiet hcall
  rw [hquiet.devices, hquiet.wire, List.append_nil]
  refine .here ⟨?_, ?_, ?_, fun n h0 h1 h13 h15 => ?_, fun a ha => ?_, ?_, ?_⟩
  · rw [h.sent, List.take_length]
  · rw [Processor.pc, hreg', if_pos rfl, ← hslot]
    exact (BitVec.setWidth_eq _).trans (BitVec.setWidth_eq _)
  · rw [Processor.sp, hregs 1 (by decide), if_pos rfl, hsp]
  · rw [hregs n h0, if_neg h1, hreg, if_neg h0, h.regs n h0 h13 h15]
  · rw [hmem', h.mem a ha]
  · rw [hmem', h.port, toggled_eq]
  · rw [hmem', h.empty]

/-- The board prints. -/
theorem PrintCall.leads (hcall : PrintCall b₀ org i text) (hpc : b₀.cpu.pc = org) :
    b₀.Leads (Printed b₀ i text) :=
  (Printing.start hcall hpc).trans fun _ h₁ => (h₁.enter hcall).trans fun _ h₂ =>
    (h₂.all hcall).trans fun _ h₃ => h₃.ret hcall

/-- **The emulator prints.**  From a call of `print` the loop of `main` reaches its return,
with exactly the text sent. -/
theorem mainLoop_prints {emu : Emulator} (hruns : Runs emu)
    (hcall : PrintCall (boardView emu) org i text) (hpc : emu.pc = org) :
    ∃ n e, mainLoops n emu = some e ∧ Printed (boardView emu) i text (boardView e) ∧ Runs e :=
  (hcall.leads hpc).mainLoops hruns fun _ hb => hcall.keeps_clock hb.mem

/-- The words of `print` from the start of the code memory on. -/
def printWords (i : BitVec 16) : List (ℕ × BitVec 16) :=
  (instructions.writeAll (printCode i)).zipIdx.map fun w => (0xC000 + 2 * w.2, w.1)

/-- A call of `print` on `"Hi"`: the transmitter is connected and ready. -/
def printState : Emulator :=
  ((({ startState with running := true }).setWords (printWords 0x200 ++
    [(0xD000, 0x6948), (0x02, 0x0200), (0x26, 0x0004), (0x40, 0x0400)])).setReg 14 2).setReg 15 0xD000

theorem printCall_printState : PrintCall (boardView printState) 0xC000 0x200 [0x48, 0x69] where
  loaded := by
    have h : ∀ j (h : j < (instructions.writeAll (printCode 0x200)).length),
      (boardView printState).cpu.wordAt (0xC000 + 2 * BitVec.ofNat 16 j)
        = (instructions.writeAll (printCode 0x200))[j] := by decide +kernel
    exact h
  code := by
    rintro a ⟨j, hj, ha⟩
    have hfree : ∀ j < (instructions.writeAll (printCode 0x200)).length,
      ¬ Written 0x200 (0xC000 + 2 * BitVec.ofNat 16 j) ∧
        ¬ Written 0x200 (0xC000 + 2 * BitVec.ofNat 16 j + 1) := by decide +kernel
    rcases ha with rfl | rfl
    · exact (hfree j hj).1
    · exact (hfree j hj).2
  aligned := by decide
  counter := by decide
  stack := by decide +kernel
  short := by decide
  length := by decide +kernel
  chars := by decide +kernel
  nonzero := by simp
  apart := by decide +kernel
  slot := by decide +kernel
  devices := by simp
  connected := by decide +kernel
  ready := by decide +kernel
  clocked := by decide +kernel
  timer := by decide +kernel
  empty := by decide +kernel

theorem runs_printState : Runs printState := by decide +kernel

/-- `"Hi"` is printed. -/
theorem mainLoop_prints_hi : ∃ n e, mainLoops n printState = some e ∧
    Printed (boardView printState) 0x200 [0x48, 0x69] (boardView e) ∧ Runs e :=
  mainLoop_prints runs_printState printCall_printState (by decide +kernel)

end Msp430
