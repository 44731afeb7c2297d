/-
# Multi-word addition and subtraction

A chain of word-form ADDC or SUBC instructions, from the least to the most significant
word, over cells that share no byte.  One instruction of the chain is one step of
`RippleCarry.chain` with the carry rule of the code; the rule of ADDC tests a sign-extended
source and leaves the carry-in out, the rule of SUBC tests two sign-extended numbers.
`addc_chain_iff` and `subc_chain_iff` say exactly for which words the chain is right.
-/
import Msp430.Arith.RippleCarry
import Msp430.ReadOnly

namespace Msp430

/-! ## Cells -/

/-- The cells that hold the words of a number: the registers R4 … R15 and memory. -/
def Ptr.Holds : Ptr → Prop
  | .reg n => 4 ≤ n
  | .mem _ => True
  | .bogus => False

instance (p : Ptr) : Decidable p.Holds :=
  match p with
  | .reg n => inferInstanceAs (Decidable (4 ≤ n))
  | .mem _ => inferInstanceAs (Decidable True)
  | .bogus => inferInstanceAs (Decidable False)

/-- A register that holds a word of a number is neither the program counter nor the
status register. -/
theorem Ptr.Holds.ne {n : Fin 16} (h : (Ptr.reg n).Holds) : n ≠ 0 ∧ n ≠ 2 := by
  revert n
  decide

/-- Fetching an instruction leaves the cells. -/
theorem load16_fetch (emu : Emulator) {p : Ptr} (hp : p.Holds) :
    (fetch emu).2.load16 p = emu.load16 p := by
  cases p with
  | reg n =>
    simp [fetch, Emulator.load16, hp.ne.1]
  | mem a => rfl
  | bogus => exact absurd hp id

/-- The operand block of a word instruction leaves the cells, an auto-incremented pointer
apart. -/
theorem load16_operandsI (emu : Emulator) (w : BitVec 16) {p : Ptr} (hp : p.Holds)
    (hbw : bwFlag w = .word) (hinc : autoIncrements w = true → p ≠ .reg (sourceReg w)) :
    (operandsI emu w false).emu.load16 p = emu.load16 p := by
  rw [operandsI_emu]
  cases p with
  | reg n =>
    obtain ⟨h0, h2⟩ := hp.ne
    have hn : ¬ (autoIncrements w = true ∧ n = sourceReg w) := fun hc =>
      hinc hc.1 (by rw [hc.2])
    show regsI emu w false n = emu.regs n
    rw [regsI_of_ne emu w n h0 h2 hn, if_neg]
    simp [masksDestination, hbw]
  | mem a => rfl
  | bogus => exact absurd hp id

/-! ## Chains of instructions -/

/-- The next instruction is the word form of `opcode` on the source cell `s` and the
destination cell `d`, and auto-increments none of `cells`. -/
def OperatesOn (emu : Emulator) (opcode : Fin 16) (cells : List Ptr) (s d : Ptr) : Prop :=
  formatId (fetch emu).1 = opcode ∧ bwFlag (fetch emu).1 = .word ∧
    (operandsI (fetch emu).2 (fetch emu).1 false).sourceAddr = some s ∧
    (operandsI (fetch emu).2 (fetch emu).1 false).destinationAddr = d ∧
    (autoIncrements (fetch emu).1 = true → Ptr.reg (sourceReg (fetch emu).1) ∉ cells)

/-- The instructions to come operate on the pairs `(source, destination)` in turn. -/
def Chain (opcode : Fin 16) (cells : List Ptr) : Emulator → List (Ptr × Ptr) → Prop
  | _, [] => True
  | emu, (s, d) :: ps => OperatesOn emu opcode cells s d ∧ Chain opcode cells (cpuStep emu) ps

instance (emu : Emulator) (opcode : Fin 16) (cells : List Ptr) (s d : Ptr) :
    Decidable (OperatesOn emu opcode cells s d) :=
  inferInstanceAs (Decidable (_ ∧ _))

instance decidableChain (opcode : Fin 16) (cells : List Ptr) :
    ∀ emu ps, Decidable (Chain opcode cells emu ps)
  | _, [] => isTrue trivial
  | emu, (s, d) :: ps =>
    haveI := decidableChain opcode cells (cpuStep emu) ps
    inferInstanceAs (Decidable (OperatesOn emu opcode cells s d ∧ _))

/-- All cells of a list of pairs. -/
def cellsOf (ps : List (Ptr × Ptr)) : List Ptr := ps.flatMap fun p => [p.1, p.2]

/-- The source of an instruction of a chain. -/
theorem sourceValueI_of_sourceAddr (emu : Emulator) (w : BitVec 16) {s : Ptr} (hs : s.Holds)
    (h : (operandsI emu w false).sourceAddr = some s) : sourceValueI emu w = emu.load16 s := by
  rw [operandsI_sourceAddr] at h
  cases hc : constantI w with
  | some c => simp [hc] at h
  | none =>
    have hcell : sourceCellI emu w = s := by simpa [hc] using h
    rw [sourceValueI, hc]
    by_cases h0 : asFlag w = 0
    · have hreg : s = .reg (sourceReg w) := by rw [← hcell, sourceCellI, h0]
      rw [hreg] at hs ⊢
      obtain ⟨hn0, hn2⟩ := hs.ne
      simp [h0, hn0, regs_lookupsI, hn2, Emulator.load16]
    · simp [h0, hcell]

/-- **One instruction of a chain**: the destination holds the result, the flags are those
of the operands, and the other cells keep their words. -/
theorem cpuStep_operatesOn (emu : Emulator) (opcode : Fin 16) (cells : List Ptr) (s d : Ptr)
    (h : OperatesOn emu opcode cells s d) (hop : Writes opcode)
    (hcells : ∀ p ∈ cells, p.Holds) (hs : s ∈ cells) (hd : d ∈ cells) :
    let r := aluResult opcode (emu.load16 s) (emu.load16 d) emu.sr.carry
    (cpuStep emu).load16 d = r ∧
      (cpuStep emu).sr = flagsI opcode .word emu.sr (emu.load16 s) (emu.load16 d) r ∧
      ∀ p ∈ cells, p.Disjoint d → (cpuStep emu).load16 p = emu.load16 p := by
  obtain ⟨hf, hbw, hsrc, hdst, hinc⟩ := h
  intro r
  obtain ⟨w, hw⟩ : ∃ w, w = (fetch emu).1 := ⟨_, rfl⟩
  obtain ⟨e, he⟩ : ∃ e, e = (fetch emu).2 := ⟨_, rfl⟩
  rw [← hw, ← he] at hsrc hdst
  rw [← hw] at hf hbw hinc
  have hsr : e.sr = emu.sr := by rw [he]; rfl
  -- what the operand block hands over
  have hcell {p : Ptr} (hp : p ∈ cells) :
      (operandsI e w false).emu.load16 p = emu.load16 p := by
    rw [load16_operandsI e w (hcells p hp) hbw (fun hi hc => hinc hi (hc ▸ hp)), he,
      load16_fetch emu (hcells p hp)]
  have hval : (operandsI e w false).sourceValue = emu.load16 s := by
    rw [operandsI_sourceValue, sourceValueI_of_sourceAddr e w (hcells s hs) hsrc, he,
      load16_fetch emu (hcells s hs)]
  have hstep : cpuStep emu = executeI (operandsI e w false).emu opcode .word (emu.load16 s) d := by
    have h4 : 4 ≤ formatId w := by
      rw [hf]
      exact four_le_of_writes hop
    rw [cpuStep, ← hw, ← he, decode_formatI e w false h4]
    simp only [decodeFormatI, Bool.false_eq_true, if_false, hval, hdst, hf, hbw]
  have hstore := executeI_eq_storeResult (operandsI e w false).emu opcode .word (emu.load16 s)
    d hop
  have hr : (cpuStep emu).load16 d = r := by
    rw [hstep, load16_executeI _ _ _ _ _ hop, hcell hd, sr_operandsI, hsr]
  refine ⟨hr, ?_, ?_⟩
  · have hflags := sr_executeI_eq (operandsI e w false).emu opcode .word (emu.load16 s) d hop
    rwa [← hstep, hr, hcell hd, sr_operandsI, hsr] at hflags
  · intro p hp hpd
    rw [hstep, hstore, load16_with_sr, storeResult, load16_store16_of_disjoint _ _ hpd,
      hcell hp]

/-! ## The run of a chain -/

/-- An opcode that adds with carry: the result is the destination plus a reading of the
source plus the carry flag, the new carry flag a rule of the two numbers. -/
structure AddsWithCarry (opcode : Fin 16) (reading : BitVec 16 → BitVec 16)
    (rule : ℕ → ℕ → Bool → Bool) : Prop where
  writes : Writes opcode
  result : ∀ s d c, aluResult opcode s d c = d + reading s + BitVec.ofNat 16 c.toNat
  carry : ∀ sr s d r, (flagsI opcode .word sr s d r).carry
    = rule d.toNat (reading s).toNat sr.carry

/-- The digits of a list of pairs: the word at the destination, the reading of the word at
the source. -/
def digitsOf (emu : Emulator) (reading : BitVec 16 → BitVec 16) (ps : List (Ptr × Ptr)) :
    List (ℕ × ℕ) :=
  ps.map fun p => ((emu.load16 p.2).toNat, (reading (emu.load16 p.1)).toNat)

/-- The digits of the destinations. -/
def destinationDigits (emu : Emulator) (ps : List (Ptr × Ptr)) : List ℕ :=
  ps.map fun p => (emu.load16 p.2).toNat

/-- The digits of the sources. -/
def sourceDigits (emu : Emulator) (ps : List (Ptr × Ptr)) : List ℕ :=
  ps.map fun p => (emu.load16 p.1).toNat

/-- The number that words spell, least significant first. -/
def numberOf (words : List ℕ) : ℕ := Nat.ofDigits (2 ^ 16) words

theorem mem_cellsOf {ps : List (Ptr × Ptr)} {p : Ptr × Ptr} (h : p ∈ ps) :
    p.1 ∈ cellsOf ps ∧ p.2 ∈ cellsOf ps := by
  constructor
  · exact List.mem_flatMap.mpr ⟨p, h, by simp⟩
  · exact List.mem_flatMap.mpr ⟨p, h, by simp⟩

/-- The digits only depend on the words in the cells. -/
theorem digitsOf_congr {emu emu' : Emulator} (reading : BitVec 16 → BitVec 16)
    {ps : List (Ptr × Ptr)} (h : ∀ q ∈ cellsOf ps, emu'.load16 q = emu.load16 q) :
    digitsOf emu' reading ps = digitsOf emu reading ps := by
  refine List.map_congr_left fun p hp => ?_
  rw [h p.1 (mem_cellsOf hp).1, h p.2 (mem_cellsOf hp).2]

/-- **A chain of instructions is a ripple-carry chain** with the carry rule of the code,
and leaves the cells that are no destination. -/
theorem run_chain {opcode : Fin 16} {reading : BitVec 16 → BitVec 16}
    {rule : ℕ → ℕ → Bool → Bool} (hadd : AddsWithCarry opcode reading rule)
    {cells : List Ptr} (hcells : ∀ p ∈ cells, p.Holds) (ps : List (Ptr × Ptr))
    (emu : Emulator) (hchain : Chain opcode cells emu ps)
    (hsub : ∀ q ∈ cellsOf ps, q ∈ cells) (hdis : (cellsOf ps).Pairwise Ptr.Disjoint) :
    (destinationDigits (cpuStep^[ps.length] emu) ps, (cpuStep^[ps.length] emu).sr.carry)
        = RippleCarry.chain (2 ^ 16) rule (digitsOf emu reading ps) emu.sr.carry ∧
      ∀ q ∈ cells, (∀ p ∈ ps, q.Disjoint p.2) →
        (cpuStep^[ps.length] emu).load16 q = emu.load16 q := by
  induction ps generalizing emu with
  | nil => exact ⟨rfl, fun q _ _ => rfl⟩
  | cons p ps ih =>
    obtain ⟨s, d⟩ := p
    obtain ⟨hop, hrest⟩ := hchain
    have hs : s ∈ cells := hsub s (by simp [cellsOf])
    have hd : d ∈ cells := hsub d (by simp [cellsOf])
    obtain ⟨hr, hsr, hkeep⟩ := cpuStep_operatesOn emu opcode cells s d hop hadd.writes hcells
      hs hd
    have hsub' : ∀ q ∈ cellsOf ps, q ∈ cells := fun q hq =>
      hsub q (List.mem_cons_of_mem _ (List.mem_cons_of_mem _ hq))
    have hdis' : (s :: d :: cellsOf ps).Pairwise Ptr.Disjoint := hdis
    rw [List.pairwise_cons, List.pairwise_cons] at hdis'
    obtain ⟨-, hdq, hdis'⟩ := hdis'
    obtain ⟨ihchain, ihkeep⟩ := ih (cpuStep emu) hrest hsub' hdis'
    -- the later cells have not been touched yet, and `d` is not touched again
    have hlater : ∀ q ∈ cellsOf ps, (cpuStep emu).load16 q = emu.load16 q := fun q hq =>
      hkeep q (hsub' q hq) (hdq q hq).symm
    have hfinal : (cpuStep^[ps.length] (cpuStep emu)).load16 d = (cpuStep emu).load16 d :=
      ihkeep d hd fun p hp => hdq p.2 (mem_cellsOf hp).2
    rw [digitsOf_congr reading hlater] at ihchain
    rw [List.length_cons, Function.iterate_succ_apply]
    constructor
    · have hdigit : ((cpuStep emu).load16 d).toNat
          = ((emu.load16 d).toNat + (reading (emu.load16 s)).toNat + emu.sr.carry.toNat)
            % 2 ^ 16 := by
        rw [hr, hadd.result, BitVec.toNat_add, BitVec.toNat_add, BitVec.toNat_ofNat]
        have := Bool.toNat_le emu.sr.carry
        omega
      have hcarry : (cpuStep emu).sr.carry
          = rule (emu.load16 d).toNat (reading (emu.load16 s)).toNat emu.sr.carry := by
        rw [hsr, hadd.carry]
      simp only [destinationDigits, digitsOf, List.map_cons, RippleCarry.chain] at ihchain ⊢
      rw [hfinal, hdigit, ← hcarry, ← ihchain]
    · intro q hq hqd
      rw [ihkeep q hq fun p hp => hqd p (List.mem_cons_of_mem _ hp),
        hkeep q hq (hqd (s, d) List.mem_cons_self)]

/-! ## ADDC -/

/-- The carry that the words below the `i`-th really produce. -/
def carryAt (emu : Emulator) (reading : BitVec 16 → BitVec 16) (ps : List (Ptr × Ptr))
    (i : ℕ) : Bool :=
  RippleCarry.carryInto (2 ^ 16) (digitsOf emu reading ps) emu.sr.carry i

/-- The carry rule of ADDC. -/
def addcRule (d s : ℕ) (_ : Bool) : Bool := decide (0x8000 ≤ s ∨ 2 ^ 16 ≤ d + s)

theorem addc_addsWithCarry : AddsWithCarry 0x6 id addcRule where
  writes := by decide
  result := fun _ _ _ => rfl
  carry := fun sr s d r => isCarried_zero_sign d s

/-- The chain of ADDC leaves the sum of the two numbers and the carry flag, and the carry
flag their carry. -/
def AddsRight (emu : Emulator) (ps : List (Ptr × Ptr)) : Prop :=
  let emu' := cpuStep^[ps.length] emu
  let a := numberOf (destinationDigits emu ps)
  let b := numberOf (sourceDigits emu ps)
  let c := emu.sr.carry.toNat
  numberOf (destinationDigits emu' ps) = (a + b + c) % 2 ^ (16 * ps.length) ∧
    (emu'.sr.carry = true ↔ 2 ^ (16 * ps.length) ≤ a + b + c)

/-- The words at which the carry rule of ADDC is right: a source word with its top bit set
carries, and a sum that carries only for the carry-in does not occur below. -/
def AddcExact (d s : ℕ) (c : Bool) : Prop :=
  ¬ (0x8000 ≤ s ∧ d + s + c.toNat < 2 ^ 16) ∧ ¬ (s < 0x8000 ∧ d + s = 0xFFFF ∧ c = true)

instance (d s : ℕ) (c : Bool) : Decidable (AddcExact d s c) :=
  inferInstanceAs (Decidable (_ ∧ _))

theorem addcRule_eq_iff (d s : ℕ) (c : Bool) :
    addcRule d s c = RippleCarry.carryOut (2 ^ 16) d s c ↔ AddcExact d s c := by
  rw [addcRule, RippleCarry.carryOut, decide_eq_decide, AddcExact]
  cases c with
  | false =>
    simp only [Bool.toNat_false, Bool.false_eq_true, and_false, not_false_eq_true, and_true]
    omega
  | true =>
    simp only [Bool.toNat_true, and_true]
    omega

theorem digitsOf_digits (emu : Emulator) (reading : BitVec 16 → BitVec 16)
    (ps : List (Ptr × Ptr)) : RippleCarry.Digits (2 ^ 16) (digitsOf emu reading ps) := by
  intro p hp
  obtain ⟨q, -, rfl⟩ := List.mem_map.mp hp
  exact ⟨BitVec.isLt _, BitVec.isLt _⟩

theorem left_digitsOf (emu : Emulator) (reading : BitVec 16 → BitVec 16)
    (ps : List (Ptr × Ptr)) :
    RippleCarry.left (2 ^ 16) (digitsOf emu reading ps)
      = numberOf (destinationDigits emu ps) := by
  rw [RippleCarry.left, digitsOf, List.map_map]
  rfl

theorem length_digitsOf (emu : Emulator) (reading : BitVec 16 → BitVec 16)
    (ps : List (Ptr × Ptr)) : (digitsOf emu reading ps).length = ps.length :=
  List.length_map _

theorem getElem_digitsOf (emu : Emulator) (reading : BitVec 16 → BitVec 16)
    (ps : List (Ptr × Ptr)) (i : ℕ) (hi : i < ps.length)
    (h : i < (digitsOf emu reading ps).length) :
    (digitsOf emu reading ps)[i]
      = ((emu.load16 ps[i].2).toNat, (reading (emu.load16 ps[i].1)).toNat) := by
  simp [digitsOf]

theorem right_digitsOf_id (emu : Emulator) (ps : List (Ptr × Ptr)) :
    RippleCarry.right (2 ^ 16) (digitsOf emu id ps)
      = numberOf (sourceDigits emu ps) := by
  rw [RippleCarry.right, digitsOf, List.map_map]
  rfl

/-- The carry into a word is that of the sum of the words below it. -/
theorem carryAt_eq (emu : Emulator) (reading : BitVec 16 → BitVec 16)
    (ps : List (Ptr × Ptr)) {i : ℕ} (hi : i ≤ ps.length) :
    carryAt emu reading ps i
      = decide (2 ^ (16 * i) ≤ numberOf (destinationDigits emu (ps.take i))
          + RippleCarry.right (2 ^ 16) (digitsOf emu reading (ps.take i))
          + emu.sr.carry.toNat) := by
  have htake : (digitsOf emu reading ps).take i = digitsOf emu reading (ps.take i) :=
    List.map_take.symm
  rw [carryAt, RippleCarry.carryInto_eq (by norm_num) _ (digitsOf_digits emu reading ps) _ i
    (by rwa [length_digitsOf]), htake, left_digitsOf, pow_mul]

/-- A chain is right exactly when its rule is, word by word. -/
theorem chain_right_iff {opcode : Fin 16} {reading : BitVec 16 → BitVec 16}
    {rule : ℕ → ℕ → Bool → Bool} (hadd : AddsWithCarry opcode reading rule)
    (emu : Emulator) (ps : List (Ptr × Ptr)) (hchain : Chain opcode (cellsOf ps) emu ps)
    (hcells : ∀ q ∈ cellsOf ps, q.Holds) (hdis : (cellsOf ps).Pairwise Ptr.Disjoint) :
    let emu' := cpuStep^[ps.length] emu
    let sum := numberOf (destinationDigits emu ps)
      + RippleCarry.right (2 ^ 16) (digitsOf emu reading ps) + emu.sr.carry.toNat
    (numberOf (destinationDigits emu' ps) = sum % 2 ^ (16 * ps.length) ∧
        (emu'.sr.carry = true ↔ 2 ^ (16 * ps.length) ≤ sum))
      ↔ ∀ i (h : i < ps.length),
          rule (emu.load16 ps[i].2).toNat (reading (emu.load16 ps[i].1)).toNat
              (carryAt emu reading ps i)
            = RippleCarry.carryOut (2 ^ 16) (emu.load16 ps[i].2).toNat
              (reading (emu.load16 ps[i].1)).toNat (carryAt emu reading ps i) := by
  obtain ⟨hrun, -⟩ := run_chain hadd hcells ps emu hchain (fun q hq => hq) hdis
  have hiff := RippleCarry.chain_right_iff (by norm_num) rule (digitsOf emu reading ps)
    (digitsOf_digits emu reading ps) emu.sr.carry
  have hpow : (2 ^ 16) ^ (digitsOf emu reading ps).length = 2 ^ (16 * ps.length) := by
    rw [length_digitsOf, ← pow_mul]
  rw [← hrun, left_digitsOf, hpow] at hiff
  intro emu' sum
  refine hiff.trans ?_
  constructor
  · intro h i hi
    have hget := h i (by rwa [length_digitsOf])
    rwa [getElem_digitsOf emu reading ps i hi] at hget
  · intro h i hi
    have hi' : i < ps.length := by rwa [length_digitsOf] at hi
    rw [getElem_digitsOf emu reading ps i hi']
    exact h i hi'

/-- **Multi-word addition is right exactly when** at every word the carry rule of ADDC is
right on the carry that the lower words really produce. -/
theorem addc_chain_iff (emu : Emulator) (ps : List (Ptr × Ptr))
    (hchain : Chain 0x6 (cellsOf ps) emu ps) (hcells : ∀ q ∈ cellsOf ps, q.Holds)
    (hdis : (cellsOf ps).Pairwise Ptr.Disjoint) :
    AddsRight emu ps
      ↔ ∀ i (h : i < ps.length), AddcExact (emu.load16 ps[i].2).toNat
          (emu.load16 ps[i].1).toNat (carryAt emu id ps i) := by
  have hiff := chain_right_iff addc_addsWithCarry emu ps hchain hcells hdis
  rw [right_digitsOf_id] at hiff
  simp only [addcRule_eq_iff, id_eq] at hiff
  exact hiff

/-! ## SUBC -/

/-- The carry rule of SUBC, on the destination and the complement of the source. -/
def subcRule (d y : ℕ) (_ : Bool) : Bool := decide (0x8000 ≤ d ∨ 0x8000 ≤ y)

theorem subc_addsWithCarry : AddsWithCarry 0x7 (fun s => ~~~s) subcRule where
  writes := by decide
  result := fun _ _ _ => rfl
  carry := fun sr s d r => isCarried_sign_sign d (~~~s)

/-- The chain of SUBC leaves the difference of the two numbers, and in the carry flag
whether there was no borrow. -/
def SubtractsRight (emu : Emulator) (ps : List (Ptr × Ptr)) : Prop :=
  let emu' := cpuStep^[ps.length] emu
  let a := numberOf (destinationDigits emu ps)
  let b := numberOf (sourceDigits emu ps)
  (numberOf (destinationDigits emu' ps) : ℤ)
      = ((a : ℤ) - b) % 2 ^ (16 * ps.length) ∧
    (emu'.sr.carry = true ↔ b ≤ a)

/-- The words at which the carry rule of SUBC is right: a borrow occurs only from a
destination word with a clear top bit and for a source word with a set one. -/
def SubcExact (d s : ℕ) (c : Bool) : Prop :=
  d + c.toNat ≤ s → d < 0x8000 ∧ 0x8000 ≤ s

instance (d s : ℕ) (c : Bool) : Decidable (SubcExact d s c) :=
  inferInstanceAs (Decidable (_ → _))

theorem subcRule_eq_iff (d s : BitVec 16) (c : Bool) :
    subcRule d.toNat (~~~s).toNat c
        = RippleCarry.carryOut (2 ^ 16) d.toNat (~~~s).toNat c
      ↔ SubcExact d.toNat s.toNat c := by
  have hd := d.isLt
  have hs := s.isLt
  rw [subcRule, RippleCarry.carryOut, decide_eq_decide, SubcExact, BitVec.toNat_not]
  have hc := Bool.toNat_le c
  omega

/-- The complements of the source words. -/
theorem right_digitsOf_not (emu : Emulator) (ps : List (Ptr × Ptr)) :
    RippleCarry.right (2 ^ 16) (digitsOf emu (fun s => ~~~s) ps)
        + numberOf (sourceDigits emu ps) + 1
      = 2 ^ (16 * ps.length) := by
  have hcompl := RippleCarry.ofDigits_complement (B := 2 ^ 16) (sourceDigits emu ps)
    (fun x hx => by
      obtain ⟨p, -, rfl⟩ := List.mem_map.mp hx
      exact BitVec.isLt _)
  rw [sourceDigits, List.length_map, List.map_map, ← pow_mul] at hcompl
  rw [← hcompl, RippleCarry.right, digitsOf, List.map_map, sourceDigits, numberOf]
  simp only [Function.comp_def, BitVec.toNat_not]

/-- **Multi-word subtraction is right exactly when** a borrow occurs at no word but those
with the destination below `0x8000` and the source not below. -/
theorem subc_chain_iff (emu : Emulator) (ps : List (Ptr × Ptr))
    (hchain : Chain 0x7 (cellsOf ps) emu ps) (hcells : ∀ q ∈ cellsOf ps, q.Holds)
    (hdis : (cellsOf ps).Pairwise Ptr.Disjoint) (hc : emu.sr.carry = true) :
    SubtractsRight emu ps
      ↔ ∀ i (h : i < ps.length), SubcExact (emu.load16 ps[i].2).toNat
          (emu.load16 ps[i].1).toNat (carryAt emu (fun s => ~~~s) ps i) := by
  have hiff := chain_right_iff subc_addsWithCarry emu ps hchain hcells hdis
  have hcompl := right_digitsOf_not emu ps
  simp only [subcRule_eq_iff] at hiff
  rw [← hiff, SubtractsRight, hc]
  obtain ⟨N, hN⟩ : ∃ N, N = 2 ^ (16 * ps.length) := ⟨_, rfl⟩
  have hNZ : (2 : ℤ) ^ (16 * ps.length) = (N : ℤ) := by
    rw [hN]
    push_cast
    rfl
  rw [← hN] at hcompl ⊢
  rw [hNZ]
  -- the complement of `b` and the carry-in make up `N - b`
  have hsub : ((numberOf (destinationDigits emu ps)
        + RippleCarry.right (2 ^ 16) (digitsOf emu (fun s => ~~~s) ps) + 1 : ℕ) : ℤ)
      = (numberOf (destinationDigits emu ps) : ℤ)
        - numberOf (sourceDigits emu ps) + N := by
    omega
  have hmod := congrArg (· % (N : ℤ)) hsub
  simp only [Int.add_emod_right] at hmod
  refine and_congr ?_ (iff_congr Iff.rfl ?_)
  · rw [← hmod]
    norm_cast
  · rw [Bool.toNat_true]
    omega

/-! ## Chains of one word that go wrong, and of two words that go right -/

/-- Two instructions at the program counter, the numbers in `R5:R4` and `R7:R6`. -/
def chainStart (first second r4 r5 r6 r7 : BitVec 16) (carry : Bool) : Emulator :=
  let emu := startState.setWords [(0xC000, first), (0xC002, second)]
  let emu := (((emu.setReg 4 r4).setReg 5 r5).setReg 6 r6).setReg 7 r7
  { emu with sr := { emu.sr with carry := carry } }

/-- `0 + 0x8000` comes out with a carry. -/
theorem addc_chain_wrong :
    ¬ AddsRight (chainStart 0x6406 0 0x8000 0 0 0 false) [(.reg 4, .reg 6)] := by
  rintro ⟨-, hc⟩
  revert hc
  decide

/-- `0 - 1` comes out without a borrow. -/
theorem subc_chain_wrong :
    ¬ SubtractsRight (chainStart 0x7406 0 1 0 0 0 true) [(.reg 4, .reg 6)] := by
  rintro ⟨-, hc⟩
  revert hc
  decide

/-- `0x00030001 + 0x0002FFFF`. -/
theorem addc_chain_iff_two :
    AddsRight (chainStart 0x6406 0x6507 0xFFFF 2 1 3 false)
      [(.reg 4, .reg 6), (.reg 5, .reg 7)] :=
  (addc_chain_iff (chainStart 0x6406 0x6507 0xFFFF 2 1 3 false)
    [(.reg 4, .reg 6), (.reg 5, .reg 7)] (by decide) (by decide) (by decide)).mpr (by decide)

/-- `0x00050001 - 0x00019000`. -/
theorem subc_chain_iff_two :
    SubtractsRight (chainStart 0x7406 0x7507 0x9000 1 1 5 true)
      [(.reg 4, .reg 6), (.reg 5, .reg 7)] :=
  (subc_chain_iff (chainStart 0x7406 0x7507 0x9000 1 1 5 true)
    [(.reg 4, .reg 6), (.reg 5, .reg 7)] (by decide) (by decide) (by decide) rfl).mpr
    (by decide)

end Msp430
