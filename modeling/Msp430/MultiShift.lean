/-
# Multi-word shifts

RRA on the most significant word of a number and then RRC on each lower word, over cells
that share no byte.  Each of the two saves the carry before it overwrites it, so that the
chain is that of `ShiftRight.chain`, entered with the sign: `shift_chain` says that it
leaves the floor of the half, and the lowest bit in the carry flag.
-/
import Msp430.Arith.ShiftRight
import Msp430.MultiWord
import Msp430.Shifts
import Msp430.OperandsII

namespace Msp430

/-! ## The operand block of a word instruction -/

/-- The operand block leaves the cells, an auto-incremented pointer apart. -/
theorem load16_operandsII (emu : Emulator) (w : BitVec 16) {p : Ptr} (hp : p.Holds)
    (hbw : bwFlag w = .word) (hinc : autoIncrementsII w = true → p ≠ .reg (lowReg w)) :
    (operandsII emu w).emu.load16 p = emu.load16 p := by
  rw [operandsII_emu]
  cases p with
  | reg n =>
    obtain ⟨h0, h2⟩ := hp.ne
    have hn : ¬ (autoIncrementsII w && n == lowReg w) = true := by
      rw [Bool.and_eq_true, beq_iff_eq]
      rintro ⟨hi, rfl⟩
      exact hinc hi rfl
    show regsII emu w n = emu.regs n
    rw [regsII, if_neg (by simp [masksOperand, hbw]), unmaskedII, if_neg h0, if_neg hn,
      regs_lookupII_of_ne emu w h2]
    simp
  | mem a => rfl
  | bogus => exact absurd hp id

/-! ## The digit a rotation stores -/

/-- RRA rotates the sign in where RRC rotates the carry in. -/
theorem rraValue_word (v : BitVec 16) :
    rraValue .word v = rrcValue .word (v >>> 15 != 0) v := rfl

/-- RRC shifts a digit. -/
theorem toNat_rrcValue (c : Bool) (v : BitVec 16) :
    (rrcValue .word c v).toNat = ShiftRight.shiftDigit 0x8000 v.toNat c := by
  have hv := v.isLt
  unfold ShiftRight.shiftDigit
  cases c with
  | false => simp [rrcValue, Nat.shiftRight_eq_div_pow]
  | true =>
    have hor := Nat.two_pow_add_eq_or_of_lt (show v.toNat / 2 < 2 ^ 15 by omega) 1
    simp only [rrcValue, if_true, BitVec.toNat_or, BitVec.toNat_ushiftRight,
      Nat.shiftRight_eq_div_pow, pow_one, Bool.toNat_true, mul_one]
    rw [show (0x8000 : BitVec 16).toNat = 2 ^ 15 * 1 from rfl, Nat.or_comm, ← hor]
    omega

theorem sign_eq (v : BitVec 16) : (v >>> 15 != 0) = decide (0x8000 ≤ v.toNat) := by
  have hv := v.isLt
  rw [Bool.eq_iff_iff, bne_iff_ne, decide_eq_true_iff, Ne, ← BitVec.toNat_inj,
    BitVec.toNat_ushiftRight, Nat.shiftRight_eq_div_pow]
  show ¬ v.toNat / 2 ^ 15 = 0 ↔ _
  omega

/-! ## One instruction -/

/-- The next instruction is the word form of the single-operand `opcode` on the cell `d`,
and auto-increments none of `cells`. -/
def RotatesAt (emu : Emulator) (opcode : Fin 8) (cells : List Ptr) (d : Ptr) : Prop :=
  formatId (fetch emu).1 = 1 ∧ opcodeII (fetch emu).1 = opcode ∧ bwFlag (fetch emu).1 = .word ∧
    (operandsII (fetch emu).2 (fetch emu).1).sourceAddress = d ∧
    (autoIncrementsII (fetch emu).1 = true → Ptr.reg (lowReg (fetch emu).1) ∉ cells)

/-- The bit that the word form of RRA or RRC moves in at the top. -/
def bitIn (opcode : Fin 8) (carry : Bool) (v : BitVec 16) : Bool :=
  if opcode = 2 then decide (0x8000 ≤ v.toNat) else carry

/-- **One instruction of a chain**: the digit in the cell is shifted, its lowest bit is in
the carry flag, and the other cells keep their words. -/
theorem cpuStep_rotatesAt (emu : Emulator) (opcode : Fin 8) (cells : List Ptr) (d : Ptr)
    (h : RotatesAt emu opcode cells d) (hop : opcode = 0 ∨ opcode = 2)
    (hcells : ∀ p ∈ cells, p.Holds) (hd : d ∈ cells) :
    ((cpuStep emu).load16 d).toNat
        = ShiftRight.shiftDigit 0x8000 (emu.load16 d).toNat
          (bitIn opcode emu.sr.carry (emu.load16 d)) ∧
      (cpuStep emu).sr.carry = (emu.load16 d).toNat.testBit 0 ∧
      ∀ p ∈ cells, p.Disjoint d → (cpuStep emu).load16 p = emu.load16 p := by
  obtain ⟨hf, hopc, hbw, hsrc, hinc⟩ := h
  obtain ⟨w, hw⟩ : ∃ w, w = (fetch emu).1 := ⟨_, rfl⟩
  obtain ⟨e, he⟩ : ∃ e, e = (operandsII (fetch emu).2 w).emu := ⟨_, rfl⟩
  rw [← hw] at hf hopc hbw hsrc hinc
  -- what the operand block hands over
  have hcell {p : Ptr} (hp : p ∈ cells) : e.load16 p = emu.load16 p := by
    rw [he, load16_operandsII _ w (hcells p hp) hbw (fun hi hc => hinc hi (hc ▸ hp)),
      load16_fetch emu (hcells p hp)]
  have hsr : e.sr = emu.sr := by
    rw [he, operandsII_emu]
    rfl
  have hstep : ∃ v, cpuStep emu
      = { e.store16 d (rrcValue .word (bitIn opcode emu.sr.carry (emu.load16 d)) (emu.load16 d))
          with sr := e.sr.shifted .word ((emu.load16 d).getLsbD 0) v } := by
    rw [cpuStep, ← hw, decode_formatII _ w false hf]
    simp only [decodeFormatII, Bool.false_eq_true, if_false, hsrc, hopc, hbw, ← he]
    rcases hop with rfl | rfl
    · exact ⟨_, by rw [executeII, execRrc_eq, hcell hd, hsr]; rfl⟩
    · exact ⟨_, by rw [executeII, execRra_eq, hcell hd, rraValue_word, sign_eq]; rfl⟩
  obtain ⟨v, hstep⟩ := hstep
  rw [hstep]
  refine ⟨?_, ?_, ?_⟩
  · rw [load16_with_sr, Emulator.load16_store16, toNat_rrcValue]
  · exact (BitVec.testBit_toNat _).symm
  · intro p hp hpd
    rw [load16_with_sr, load16_store16_of_disjoint _ _ hpd, hcell hp]

/-! ## Chains -/

/-- The instructions to come rotate the cells in turn. -/
def RotateChain (cells : List Ptr) : Emulator → List (Fin 8 × Ptr) → Prop
  | _, [] => True
  | emu, (opcode, d) :: l =>
    RotatesAt emu opcode cells d ∧ RotateChain cells (cpuStep emu) l

instance (emu : Emulator) (opcode : Fin 8) (cells : List Ptr) (d : Ptr) :
    Decidable (RotatesAt emu opcode cells d) :=
  inferInstanceAs (Decidable (_ ∧ _))

instance decidableRotateChain (cells : List Ptr) :
    ∀ emu l, Decidable (RotateChain cells emu l)
  | _, [] => isTrue trivial
  | emu, (opcode, d) :: l =>
    haveI := decidableRotateChain cells (cpuStep emu) l
    inferInstanceAs (Decidable (RotatesAt emu opcode cells d ∧ _))

/-- RRC on each cell. -/
def rrcOn (ds : List Ptr) : List (Fin 8 × Ptr) := ds.map fun d => (0, d)

/-- The words in the cells, as digits. -/
def digits (emu : Emulator) (ds : List Ptr) : List ℕ := ds.map fun d => (emu.load16 d).toNat

theorem digits_congr {emu emu' : Emulator} {ds : List Ptr}
    (h : ∀ d ∈ ds, emu'.load16 d = emu.load16 d) : digits emu' ds = digits emu ds := by
  apply List.map_congr_left
  intro d hd
  rw [h d hd]

theorem digits_lt (emu : Emulator) (ds : List Ptr) :
    ∀ x ∈ digits emu ds, x < 2 * 0x8000 := by
  intro x hx
  obtain ⟨d, -, rfl⟩ := List.mem_map.mp hx
  exact (emu.load16 d).isLt

/-- **A run of RRC is a chain of shifts**, and leaves the cells beside it. -/
theorem run_rrc {cells : List Ptr} (hcells : ∀ p ∈ cells, p.Holds) (ds : List Ptr)
    (emu : Emulator) (hchain : RotateChain cells emu (rrcOn ds)) (hsub : ∀ d ∈ ds, d ∈ cells)
    (hdis : ds.Pairwise Ptr.Disjoint) :
    (digits (cpuStep^[ds.length] emu) ds, (cpuStep^[ds.length] emu).sr.carry)
        = ShiftRight.chain 0x8000 (digits emu ds) emu.sr.carry ∧
      ∀ q ∈ cells, (∀ d ∈ ds, q.Disjoint d) →
        (cpuStep^[ds.length] emu).load16 q = emu.load16 q := by
  induction ds generalizing emu with
  | nil => exact ⟨rfl, fun q _ _ => rfl⟩
  | cons d ds ih =>
    obtain ⟨hop, hrest⟩ := hchain
    have hd : d ∈ cells := hsub d List.mem_cons_self
    obtain ⟨hr, hc, hkeep⟩ := cpuStep_rotatesAt emu 0 cells d hop (Or.inl rfl) hcells hd
    rw [List.pairwise_cons] at hdis
    obtain ⟨hfirst, hdis⟩ := hdis
    have hsub' : ∀ q ∈ ds, q ∈ cells := fun q hq => hsub q (List.mem_cons_of_mem _ hq)
    obtain ⟨ihchain, ihkeep⟩ := ih (cpuStep emu) hrest hsub' hdis
    -- the later cells have not been touched yet, and `d` is not touched again
    have hlater : digits (cpuStep emu) ds = digits emu ds :=
      digits_congr fun q hq => hkeep q (hsub' q hq) (hfirst q hq).symm
    have hfinal := ihkeep d hd hfirst
    rw [List.length_cons, Function.iterate_succ_apply]
    constructor
    · rw [hlater, hc] at ihchain
      simp only [digits, List.map_cons, ShiftRight.chain] at ihchain ⊢
      rw [hfinal, hr, ← ihchain]
      rfl
    · intro q hq hqd
      rw [ihkeep q hq fun p hp => hqd p (List.mem_cons_of_mem _ hp),
        hkeep q hq (hqd d List.mem_cons_self)]

/-- The number that the words in the cells spell in two's complement, most significant
word first. -/
def signedNumber (emu : Emulator) (ds : List Ptr) : ℤ :=
  Int.bmod (ShiftRight.number (2 ^ 16) (digits emu ds)) (2 ^ (16 * ds.length))

/-- **RRA on the top word and RRC on the lower ones halve the number**, rounding down, and
leave its lowest bit in the carry flag. -/
theorem shift_chain (emu : Emulator) (d : Ptr) (ds : List Ptr)
    (hchain : RotateChain (d :: ds) emu ((2, d) :: rrcOn ds))
    (hcells : ∀ q ∈ d :: ds, q.Holds) (hdis : (d :: ds).Pairwise Ptr.Disjoint) :
    let emu' := cpuStep^[ds.length + 1] emu
    signedNumber emu' (d :: ds) = signedNumber emu (d :: ds) / 2 ∧
      (emu'.sr.carry = true ↔ signedNumber emu (d :: ds) % 2 = 1) := by
  intro emu'
  obtain ⟨hop, hrest⟩ := hchain
  have hd : d ∈ d :: ds := List.mem_cons_self
  have hsub : ∀ q ∈ ds, q ∈ d :: ds := fun q hq => List.mem_cons_of_mem _ hq
  obtain ⟨hr, hc, hkeep⟩ := cpuStep_rotatesAt emu 2 (d :: ds) d hop (Or.inr rfl) hcells hd
  rw [List.pairwise_cons] at hdis
  obtain ⟨hrun, hrunkeep⟩ := run_rrc hcells ds (cpuStep emu) hrest hsub hdis.2
  have hlater : digits (cpuStep emu) ds = digits emu ds :=
    digits_congr fun q hq => hkeep q (hsub q hq) (hdis.1 q hq).symm
  have hfinal := hrunkeep d hd hdis.1
  -- the whole chain, entered with the sign of the top word
  have hwhole : (digits emu' (d :: ds), emu'.sr.carry)
      = ShiftRight.chain 0x8000 (digits emu (d :: ds))
        (decide (0x8000 ≤ (emu.load16 d).toNat)) := by
    rw [hlater, hc] at hrun
    simp only [digits, List.map_cons, ShiftRight.chain] at hrun ⊢
    rw [← hrun]
    show ((emu'.load16 d).toNat :: _, _) = _
    rw [show emu'.load16 d = (cpuStep emu).load16 d from hfinal, hr]
    rfl
  have hpow : (2 * 0x8000) ^ ((digits emu ds).length + 1) = 2 ^ (16 * (d :: ds).length) := by
    rw [digits, List.length_map, List.length_cons, pow_mul, show 2 * 0x8000 = 2 ^ 16 by norm_num]
  have hshift := ShiftRight.bmod_chain (digits_lt emu (d :: ds))
  simp only [List.map_cons, digits] at hshift hwhole hpow
  rw [← hwhole, hpow] at hshift
  exact hshift

/-- `RRA R5` and `RRC 2(R4)` at the program counter, `0x80030001` in `R5` and the word at
`0x0204`. -/
def shiftStart : Emulator :=
  ((startState.setWords
    [(0xC000, 0x1105), (0xC002, 0x1014), (0xC004, 0x0002), (0x0204, 1)]).setReg 4 0x0202).setReg
    5 0x8003

/-- A negative odd number in a register and a memory word. -/
theorem shift_chain_two :
    let emu' := cpuStep^[2] shiftStart
    let cells := [Ptr.reg 5, Ptr.mem 0x0204]
    signedNumber emu' cells = signedNumber shiftStart cells / 2 ∧
      (emu'.sr.carry = true ↔ signedNumber shiftStart cells % 2 = 1) :=
  shift_chain shiftStart (.reg 5) [.mem 0x0204] (by decide) (by decide) (by decide)

end Msp430
