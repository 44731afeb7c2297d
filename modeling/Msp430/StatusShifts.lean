/-
# Shifts of the status register

The nine implemented bits of the status register, and when the word that an instruction has
written to the copy of the status word is what the bit-field struct spells.  RRC, SWPB and RRA
shift the copy and set the flags of the struct, so that their result reads back on few status
words: `shift_status_iff` lists them.
-/
import Msp430.Shifts
import Msp430.ReadOnly

namespace Msp430

/-! ## The nine implemented bits -/

theorem getLsbD_bitIf (b : Bool) (m : BitVec 16) (i : ℕ) :
    (bitIf b m).getLsbD i = (b && m.getLsbD i) := by
  cases b <;> simp [bitIf]

/-- The nine implemented bits of the status register, lowest first. -/
def StatusReg.implemented (sr : StatusReg) : Fin 9 → Bool
  | 0 => sr.carry
  | 1 => sr.zero
  | 2 => sr.negative
  | 3 => sr.gie
  | 4 => sr.cpuoff
  | 5 => sr.oscoff
  | 6 => sr.scg0
  | 7 => sr.scg1
  | 8 => sr.overflow

/-- `sr_to_value` spells the implemented bits. -/
theorem getLsbD_srToValue (sr : StatusReg) (i : Fin 9) :
    (srToValue sr).getLsbD i = sr.implemented i := by
  simp only [srToValue, BitVec.getLsbD_or, getLsbD_bitIf]
  fin_cases i <;> simp [StatusReg.implemented]

/-- The mask of the implemented bits compares nine bits. -/
theorem implemented_eq_iff (x y : BitVec 16) :
    x &&& 0x1FF = y &&& 0x1FF ↔ ∀ i : Fin 9, x.getLsbD i = y.getLsbD i := by
  have hmask : ∀ k : Fin 16, (0x1FF : BitVec 16).getLsbD k = decide (k.val < 9) := by decide
  constructor
  · intro h i
    have hi : (x &&& 0x1FF).getLsbD i = (y &&& 0x1FF).getLsbD i := by rw [h]
    have hm : (0x1FF : BitVec 16).getLsbD i = true := by
      rw [hmask ⟨i, by omega⟩]
      exact decide_eq_true i.isLt
    rwa [BitVec.getLsbD_and, BitVec.getLsbD_and, hm, Bool.and_true, Bool.and_true] at hi
  · intro h
    ext i hi
    have hm := hmask ⟨i, hi⟩
    rw [← BitVec.getLsbD_eq_getElem, ← BitVec.getLsbD_eq_getElem]
    by_cases h9 : i < 9
    · have := h ⟨i, h9⟩
      simp_all
    · simp_all

/-- A bit, as C tests it. -/
theorem and_twoPow_ne_zero (v : BitVec 16) (i : Fin 16) :
    (v &&& BitVec.twoPow 16 i != 0) = v.getLsbD i := by
  have hne : ∀ k : Fin 16, BitVec.twoPow 16 k ≠ 0 := by decide
  rw [BitVec.and_twoPow]
  cases v.getLsbD i
  · rfl
  · simpa using hne i

/-- `set_sr_value` assigns the implemented bits. -/
theorem implemented_setSrValue (emu : Emulator) (v : BitVec 16) (i : Fin 9) :
    (setSrValue emu v).sr.implemented i = v.getLsbD i := by
  fin_cases i
  · exact and_twoPow_ne_zero v 0
  · exact and_twoPow_ne_zero v 1
  · exact and_twoPow_ne_zero v 2
  · exact and_twoPow_ne_zero v 3
  · exact and_twoPow_ne_zero v 4
  · exact and_twoPow_ne_zero v 5
  · exact and_twoPow_ne_zero v 6
  · exact and_twoPow_ne_zero v 7
  · exact and_twoPow_ne_zero v 8

/-- A masked word, bit by bit. -/
theorem and_eq_iff_getLsbD (v m c : BitVec 16) :
    v &&& m = c ↔ ∀ i : Fin 16, (v.getLsbD i && m.getLsbD i) = c.getLsbD i := by
  constructor
  · rintro rfl i
    rw [BitVec.getLsbD_and]
  · intro h
    ext i hi
    rw [← BitVec.getLsbD_eq_getElem, ← BitVec.getLsbD_eq_getElem, BitVec.getLsbD_and]
    exact h ⟨i, hi⟩

/-- A bit under a mask. -/
theorem getLsbD_of_and_eq {v m c : BitVec 16} (h : v &&& m = c) (i : ℕ)
    (hm : m.getLsbD i = true) : v.getLsbD i = c.getLsbD i := by
  rw [← h, BitVec.getLsbD_and, hm, Bool.and_true]

/-! ## Reading back -/

/-- What was written reads back: the nine bits of the word that the instruction has left
in the copy are those of the status register. -/
def StatusWritten (emu' : Emulator) : Prop :=
  srToValue emu'.sr &&& 0x1FF = emu'.regs 2 &&& 0x1FF

/-- Bit by bit. -/
theorem statusWritten_iff (emu' : Emulator) :
    StatusWritten emu' ↔ ∀ i : Fin 9, emu'.sr.implemented i = (emu'.regs 2).getLsbD i := by
  rw [StatusWritten, implemented_eq_iff]
  simp only [getLsbD_srToValue]

/-- The nine bits of `r` are those of the status word `v` with new flags. -/
def ReadsBack (v r : BitVec 16) (c z n : Bool) : Prop :=
  c = r.getLsbD 0 ∧ z = r.getLsbD 1 ∧ n = r.getLsbD 2 ∧
    v.getLsbD 3 = r.getLsbD 3 ∧ v.getLsbD 4 = r.getLsbD 4 ∧ v.getLsbD 5 = r.getLsbD 5 ∧
    v.getLsbD 6 = r.getLsbD 6 ∧ v.getLsbD 7 = r.getLsbD 7 ∧ r.getLsbD 8 = false

/-- What was written reads back, flag by flag, when the instruction has assigned the
flags and nothing else. -/
theorem statusWritten_iff_readsBack (emu' : Emulator) (sr : StatusReg) (bw : Width) (c : Bool)
    (r : BitVec 16) (hr : emu'.regs 2 = r) (hsr : emu'.sr = sr.shifted bw c r) :
    StatusWritten emu' ↔ ReadsBack (srToValue sr) r c (isZero r bw) (isNegative r bw) := by
  have h8 : false = r.getLsbD 8 ↔ r.getLsbD 8 = false := eq_comm
  have hbit (i : Fin 9) : (srToValue sr).getLsbD i = sr.implemented i :=
    getLsbD_srToValue sr i
  rw [statusWritten_iff, hr, hsr, ReadsBack]
  rw [show (srToValue sr).getLsbD 3 = sr.gie from hbit 3,
    show (srToValue sr).getLsbD 4 = sr.cpuoff from hbit 4,
    show (srToValue sr).getLsbD 5 = sr.oscoff from hbit 5,
    show (srToValue sr).getLsbD 6 = sr.scg0 from hbit 6,
    show (srToValue sr).getLsbD 7 = sr.scg1 from hbit 7, ← h8]
  constructor
  · intro h
    exact ⟨h 0, h 1, h 2, h 3, h 4, h 5, h 6, h 7, h 8⟩
  · rintro ⟨h0, h1, h2, h3, h4, h5, h6, h7, h8⟩ i
    fin_cases i
    · exact h0
    · exact h1
    · exact h2
    · exact h3
    · exact h4
    · exact h5
    · exact h6
    · exact h7
    · exact h8

/-- A word is zero when its bits are. -/
theorem beq_zero_iff {n : ℕ} (r : BitVec n) :
    (r == 0) = true ↔ ∀ i : Fin n, r.getLsbD i = false := by
  rw [beq_iff_eq]
  constructor
  · rintro rfl i
    simp
  · intro h
    ext i hi
    rw [← BitVec.getLsbD_eq_getElem, h ⟨i, hi⟩]
    simp

/-! ## Shifted status words

A shift moves every status bit one place down, so that the written bits read back only when
the bits above the flags are all equal to the one shifted in. -/

/-- The top bit, as C tests it. -/
theorem shift_ne_zero_eq_getLsbD (v : BitVec 16) : (v >>> 15 != 0) = v.getLsbD 15 := by
  rw [shift_ne_zero, show v.getLsbD 15 = v.msb from (BitVec.msb_eq_getLsbD_last v).symm,
    BitVec.msb_eq_decide]

/-- The top bit of a masked word's low byte, as C tests it. -/
theorem mask_shift_ne_zero_eq_getLsbD (v : BitVec 16) :
    ((v &&& 0xFF) >>> 7 != 0) = v.getLsbD 7 := by
  rw [Bool.eq_iff_iff, bne_iff_ne, ← Bool.not_eq_false, not_iff_not]
  rw [← beq_iff_eq, beq_zero_iff, Fin.forall_fin_succ]
  simp [Fin.forall_fin_succ]

/-- The zero flag equals a bit of the result only when both are clear. -/
theorem zero_eq_getLsbD_iff {n : ℕ} (r : BitVec n) (z : Bool) (hz : z = true ↔ r = 0)
    (i : ℕ) : z = r.getLsbD i ↔ r.getLsbD i = false ∧ r ≠ 0 := by
  constructor
  · intro h
    have hne : r ≠ 0 := by
      intro h0
      have hbit : r.getLsbD i = true := by rw [← h, hz, h0]
      rw [h0] at hbit
      simp at hbit
    exact ⟨by rw [← h, ← Bool.not_eq_true, hz]; exact hne, hne⟩
  · rintro ⟨hbit, hne⟩
    rw [hbit, ← Bool.not_eq_true, hz]
    exact hne

/-- A word whose bits are those of `v` moved down, with the negative flag `t`. -/
theorem readsBack_word (v r : BitVec 16) (t z : Bool)
    (hr : ∀ i < 9, r.getLsbD i = v.getLsbD (i + 1)) (hz : z = true ↔ r = 0) :
    ReadsBack v r (v.getLsbD 0) z t
      ↔ if t then v &&& 0x3FF = 0x1F8 ∨ v &&& 0x3FF = 0x1FB
        else v &&& 0x3FF = 0x003 ∨ (v &&& 0x3FF = 0 ∧ r ≠ 0) := by
  have hne : r.getLsbD 0 = true ∨ r.getLsbD 3 = true → r ≠ 0 := by
    rintro h rfl
    simp at h
  rw [ReadsBack, zero_eq_getLsbD_iff r z hz]
  simp (disch := omega) only [hr] at hne ⊢
  generalize (r ≠ 0) = p at hne ⊢
  clear hr hz
  -- what is left is about the ten low bits of `v`
  simp only [and_eq_iff_getLsbD, Fin.forall_fin_succ]
  cases t
  · simp at hne ⊢
    grind
  · simp at hne ⊢
    grind

/-- A byte whose bits are those of `v` moved down, with the bit `t` shifted in. -/
theorem readsBack_byte (v r : BitVec 16) (t z : Bool)
    (hr : ∀ i < 7, r.getLsbD i = v.getLsbD (i + 1)) (h7 : r.getLsbD 7 = t)
    (h8 : r.getLsbD 8 = false) (hz : z = true ↔ r.setWidth 8 = 0) :
    ReadsBack v r (v.getLsbD 0) z t
      ↔ if t then v &&& 0xFF = 0xF8 ∨ v &&& 0xFF = 0xFB else v &&& 0xFF = 0x03 := by
  have hne : r.setWidth 8 = 0 ↔ r.getLsbD 0 = false ∧ r.getLsbD 1 = false ∧
      r.getLsbD 2 = false ∧ r.getLsbD 3 = false ∧ r.getLsbD 4 = false ∧
      r.getLsbD 5 = false ∧ r.getLsbD 6 = false ∧ r.getLsbD 7 = false := by
    rw [← beq_iff_eq, beq_zero_iff]
    simp [Fin.forall_fin_succ]
  have h1 : (r.setWidth 8).getLsbD 1 = r.getLsbD 1 := by simp
  rw [ReadsBack, ← h1, zero_eq_getLsbD_iff _ z hz, h1, Ne, hne]
  simp (disch := omega) only [hr, h7, h8]
  clear hr h1 hne hz
  -- what is left is about the eight low bits of `v`
  simp only [and_eq_iff_getLsbD, Fin.forall_fin_succ]
  cases t
  · simp
    grind
  · simp
    grind

/-- The bits of a word shifted right, below a new top bit. -/
theorem getLsbD_shift_or (v : BitVec 16) (t : Bool) {i : ℕ} (hi : i < 15) :
    (v >>> 1 ||| if t then 0x8000 else 0).getLsbD i = v.getLsbD (i + 1) := by
  have htop : ∀ k : Fin 15, (0x8000 : BitVec 16).getLsbD k = false := by decide
  rw [BitVec.getLsbD_or, BitVec.getLsbD_ushiftRight, Nat.add_comm]
  cases t
  · simp
  · rw [if_pos rfl, htop ⟨i, hi⟩, Bool.or_false]

theorem msb_shift_or (v : BitVec 16) (t : Bool) :
    (v >>> 1 ||| if t then 0x8000 else 0).msb = t := by
  rw [BitVec.msb_or, BitVec.msb_ushiftRight]
  cases t <;> rfl

/-- The bits of a byte shifted right, below a new top bit. -/
theorem getLsbD_shift_or_byte (v : BitVec 8) (t : Bool) {i : ℕ} (hi : i < 7) :
    (v >>> 1 ||| if t then 0x80 else 0).getLsbD i = v.getLsbD (i + 1) := by
  have htop : ∀ k : Fin 7, (0x80 : BitVec 8).getLsbD k = false := by decide
  rw [BitVec.getLsbD_or, BitVec.getLsbD_ushiftRight, Nat.add_comm]
  cases t
  · simp
  · rw [if_pos rfl, htop ⟨i, hi⟩, Bool.or_false]

theorem msb_shift_or_byte (v : BitVec 8) (t : Bool) :
    (v >>> 1 ||| if t then 0x80 else 0).msb = t := by
  rw [BitVec.msb_or, BitVec.msb_ushiftRight]
  cases t <;> rfl

/-- **A status word shifted right** with `t` at the top reads back on four words at most,
as far as its ten low bits go. -/
theorem shifted_word_readsBack (v : BitVec 16) (t : Bool) :
    let r := v >>> 1 ||| if t then 0x8000 else 0
    ReadsBack v r (v.getLsbD 0) (isZero r .word) (isNegative r .word)
      ↔ if t then v &&& 0x3FF = 0x1F8 ∨ v &&& 0x3FF = 0x1FB
        else v &&& 0x3FF = 0x003 ∨ (v &&& 0x3FF = 0 ∧ v ≠ 0) := by
  intro r
  rw [isNegative_word, msb_shift_or, readsBack_word v r t _
    (fun i hi => getLsbD_shift_or v t (by omega)) (by rw [isZero, beq_iff_eq])]
  cases t with
  | true => rfl
  | false =>
    simp only [Bool.false_eq_true, if_false]
    refine or_congr_right (and_congr_right fun h => not_congr ?_)
    -- the bit shifted out is clear, so that nothing is lost
    have h0 : v.toNat % 2 = 0 := by
      have hbit := getLsbD_of_and_eq h 0 (by decide)
      rw [BitVec.getLsbD, Nat.testBit_zero] at hbit
      simpa using hbit
    have hr : r = v >>> 1 := BitVec.or_zero
    rw [hr]
    bv_omega

/-- **The low byte of a status word shifted right** with `t` at the top. -/
theorem shifted_byte_readsBack (v : BitVec 16) (t : Bool) :
    let r := joinBytes 0 (v.setWidth 8 >>> 1 ||| if t then 0x80 else 0)
    ReadsBack v r (v.getLsbD 0) (isZero r .byte) (isNegative r .byte)
      ↔ if t then v &&& 0xFF = 0xF8 ∨ v &&& 0xFF = 0xFB else v &&& 0xFF = 0x03 := by
  intro r
  have hr : r.setWidth 8 = v.setWidth 8 >>> 1 ||| if t then 0x80 else 0 :=
    setWidth_joinBytes _ _
  have hlow {i : ℕ} (hi : i < 8) (x : BitVec 16) : (x.setWidth 8).getLsbD i = x.getLsbD i := by
    rw [BitVec.getLsbD_setWidth, decide_eq_true hi, Bool.true_and]
  have hneg : isNegative r .byte = t := by rw [isNegative_byte, hr, msb_shift_or_byte]
  rw [hneg]
  refine readsBack_byte v r t _ ?_ ?_ ?_ ?_
  · intro i hi
    rw [← hlow (by omega), hr, getLsbD_shift_or_byte _ _ hi, hlow (by omega)]
  · rw [← hlow (by decide), hr, ← BitVec.msb_eq_getLsbD_last (w := 8), msb_shift_or_byte]
  · simp [r, joinBytes_zero]
  · rw [isZero, beq_iff_eq]

/-- The mask of RRA looks at the top bit besides the low ten. -/
theorem and_top_eq_iff (v c : BitVec 16) (hc : c &&& 0x83FF = c) :
    v &&& 0x83FF = c ↔ v.getLsbD 15 = c.getLsbD 15 ∧ v &&& 0x3FF = c &&& 0x3FF := by
  have hmask : ∀ k : Fin 16, (0x83FF : BitVec 16).getLsbD k
      = (decide (k.val = 15) || (0x3FF : BitVec 16).getLsbD k) := by decide
  constructor
  · rintro rfl
    exact ⟨getLsbD_of_and_eq rfl 15 (by decide), (BitVec.and_assoc v 0x83FF 0x3FF).symm⟩
  · rintro ⟨h15, hlow⟩
    rw [← hc]
    ext i hi
    rw [← BitVec.getLsbD_eq_getElem, ← BitVec.getLsbD_eq_getElem, BitVec.getLsbD_and,
      BitVec.getLsbD_and, hmask ⟨i, hi⟩]
    by_cases h : i = 15
    · subst h
      rw [h15]
    · have hi' := congrArg (fun x => x.getLsbD i) hlow
      simpa [h] using hi'

theorem rrc_word_readsBack (v : BitVec 16) :
    ReadsBack v (rrcValue .word (v.getLsbD 0) v) (v.getLsbD 0)
        (isZero (rrcValue .word (v.getLsbD 0) v) .word)
        (isNegative (rrcValue .word (v.getLsbD 0) v) .word)
      ↔ v &&& 0x3FF = 0x1FB ∨ (v &&& 0x3FF = 0 ∧ v ≠ 0) := by
  refine (shifted_word_readsBack v (v.getLsbD 0)).trans ?_
  -- the bit shifted in is bit 0, which rules two of the four words out
  have h1F8 (h : v &&& 0x3FF = 0x1F8) : v.getLsbD 0 = false := getLsbD_of_and_eq h 0 (by decide)
  have h1FB (h : v &&& 0x3FF = 0x1FB) : v.getLsbD 0 = true := getLsbD_of_and_eq h 0 (by decide)
  have h003 (h : v &&& 0x3FF = 0x003) : v.getLsbD 0 = true := getLsbD_of_and_eq h 0 (by decide)
  have h000 (h : v &&& 0x3FF = 0) : v.getLsbD 0 = false := getLsbD_of_and_eq h 0 (by decide)
  cases h : v.getLsbD 0 <;> simp only [h] at h1F8 h1FB h003 h000 ⊢ <;> grind

theorem rra_word_readsBack (v : BitVec 16) :
    ReadsBack v (rraValue .word v) (v.getLsbD 0) (isZero (rraValue .word v) .word)
        (isNegative (rraValue .word v) .word)
      ↔ v &&& 0x83FF = 0x81F8 ∨ v &&& 0x83FF = 0x81FB ∨ v &&& 0x83FF = 0x0003
          ∨ (v &&& 0x83FF = 0 ∧ v ≠ 0) := by
  refine (shifted_word_readsBack v (v >>> 15 != 0)).trans ?_
  rw [shift_ne_zero_eq_getLsbD, and_top_eq_iff v _ rfl, and_top_eq_iff v _ rfl,
    and_top_eq_iff v _ rfl, and_top_eq_iff v _ rfl]
  cases v.getLsbD 15 <;> simp

theorem getLsbD_mask_zero (v : BitVec 16) : (v &&& 0xFF).getLsbD 0 = v.getLsbD 0 :=
  (getLsbD_of_and_eq rfl 0 (by decide)).symm

theorem rrc_byte_readsBack (v : BitVec 16) :
    ReadsBack v (rrcValue .byte (v.getLsbD 0) (v &&& 0xFF)) ((v &&& 0xFF).getLsbD 0)
        (isZero (rrcValue .byte (v.getLsbD 0) (v &&& 0xFF)) .byte)
        (isNegative (rrcValue .byte (v.getLsbD 0) (v &&& 0xFF)) .byte)
      ↔ v &&& 0xFF = 0xFB := by
  have hr : rrcValue .byte (v.getLsbD 0) (v &&& 0xFF)
      = joinBytes 0 (v.setWidth 8 >>> 1 ||| if v.getLsbD 0 then 0x80 else 0) := by
    rw [rrcValue, highByte_mask, setWidth_mask]
  rw [hr, getLsbD_mask_zero]
  refine (shifted_byte_readsBack v (v.getLsbD 0)).trans ?_
  -- again bit 0 is shifted in
  have hF8 (h : v &&& 0xFF = 0xF8) : v.getLsbD 0 = false := getLsbD_of_and_eq h 0 (by decide)
  have hFB (h : v &&& 0xFF = 0xFB) : v.getLsbD 0 = true := getLsbD_of_and_eq h 0 (by decide)
  have h03 (h : v &&& 0xFF = 0x03) : v.getLsbD 0 = true := getLsbD_of_and_eq h 0 (by decide)
  cases h : v.getLsbD 0 <;> simp only [h] at hF8 hFB h03 ⊢ <;> grind

theorem rra_byte_readsBack (v : BitVec 16) :
    ReadsBack v (rraValue .byte (v &&& 0xFF)) ((v &&& 0xFF).getLsbD 0)
        (isZero (rraValue .byte (v &&& 0xFF)) .byte)
        (isNegative (rraValue .byte (v &&& 0xFF)) .byte)
      ↔ v &&& 0xFF = 0xF8 ∨ v &&& 0xFF = 0xFB ∨ v &&& 0xFF = 0x03 := by
  have hr : rraValue .byte (v &&& 0xFF)
      = joinBytes 0 (v.setWidth 8 >>> 1 ||| if v.getLsbD 7 then 0x80 else 0) := by
    rw [rraValue, mask_shift_ne_zero_eq_getLsbD, mask_eq_joinBytes, joinBytes_zero,
      joinBytes_zero]
    cases v.getLsbD 7 <;> simp
  rw [hr, getLsbD_mask_zero]
  refine (shifted_byte_readsBack v (v.getLsbD 7)).trans ?_
  -- here the sign is, on which the words already agree
  have hF8 (h : v &&& 0xFF = 0xF8) : v.getLsbD 7 = true := getLsbD_of_and_eq h 7 (by decide)
  have hFB (h : v &&& 0xFF = 0xFB) : v.getLsbD 7 = true := getLsbD_of_and_eq h 7 (by decide)
  have h03 (h : v &&& 0xFF = 0x03) : v.getLsbD 7 = false := getLsbD_of_and_eq h 7 (by decide)
  cases h : v.getLsbD 7 <;> simp only [h] at hF8 hFB h03 ⊢ <;> grind

/-! ## The status register as an operand -/

/-- The static copy as the operand block leaves it to the instruction. -/
def statusOperand (bw : Width) (sr : StatusReg) : BitVec 16 :=
  match bw with
  | .word => srToValue sr
  | .byte => srToValue sr &&& 0xFF

/-- Register 2 as a Format II operand. -/
theorem operandsII_status (emu : Emulator) (w : BitVec 16) (ha : asFlag w = 0)
    (hr : lowReg w = 2) :
    (operandsII emu w).sourceAddress = .reg 2 ∧ (operandsII emu w).emu.sr = emu.sr ∧
      (operandsII emu w).emu.regs 2 = statusOperand (bwFlag w) emu.sr := by
  have hc : constantII w = none := by
    rw [constantII, ha, hr]
    rfl
  refine ⟨?_, ?_, ?_⟩
  · rw [(operandsII_source emu w).1]
    simp [sourceCellII, hc, immediateII, ha, hr]
  · rw [operandsII_emu]
  · rw [operandsII_emu]
    have hinc : autoIncrementsII w = false := by simp [autoIncrementsII, ha]
    cases hbw : bwFlag w <;>
      simp [regsII, unmaskedII, masksOperand, regs_lookupII, hinc, hbw, ha, hr, statusOperand]

/-! ## RRC, SWPB and RRA on the status register -/

/-- The status words that RRC, SWPB or RRA on register 2 leaves standing as written. -/
def ShiftReadsBack (opcode : Fin 8) (bw : Width) (v : BitVec 16) : Prop :=
  match opcode, bw with
  | 0, .word => v &&& 0x3FF = 0x1FB ∨ (v &&& 0x3FF = 0 ∧ v ≠ 0)
  | 0, .byte => v &&& 0xFF = 0xFB
  | 1, .word => v &&& 0xFF = v >>> 8
  | 1, .byte => v &&& 0x1FF = 0
  | 2, .word => v &&& 0x83FF = 0x81F8 ∨ v &&& 0x83FF = 0x81FB ∨ v &&& 0x83FF = 0x0003
      ∨ (v &&& 0x83FF = 0 ∧ v ≠ 0)
  | 2, .byte => v &&& 0xFF = 0xF8 ∨ v &&& 0xFF = 0xFB ∨ v &&& 0xFF = 0x03
  | _, _ => True

theorem swpb_word_readsBack (v : BitVec 16) :
    (∀ i : Fin 9, v.getLsbD i = (swpbValue v).getLsbD i) ↔ v &&& 0xFF = v >>> 8 := by
  rw [and_eq_iff_getLsbD]
  simp [Fin.forall_fin_succ, swpbValue, joinBytes, highByte]
  grind

theorem swpb_byte_readsBack (v : BitVec 16) :
    (∀ i : Fin 9, v.getLsbD i = (swpbValue (v &&& 0xFF)).getLsbD i) ↔ v &&& 0x1FF = 0 := by
  rw [and_eq_iff_getLsbD]
  simp [Fin.forall_fin_succ, swpbValue, joinBytes, highByte]
  grind

/-- **RRC, SWPB and RRA on the status register** read back on few status words. -/
theorem shift_status_iff (emu : Emulator) (w : BitVec 16) (hf : formatId w = 1)
    (hop : opcodeII w = 0 ∨ opcodeII w = 1 ∨ opcodeII w = 2) (ha : asFlag w = 0)
    (hr : lowReg w = 2) :
    StatusWritten (decode emu w false)
      ↔ ShiftReadsBack (opcodeII w) (bwFlag w) (srToValue emu.sr) := by
  obtain ⟨haddr, hsr, hreg⟩ := operandsII_status emu w ha hr
  have hcarry : (srToValue emu.sr).getLsbD 0 = emu.sr.carry := getLsbD_srToValue emu.sr 0
  rw [decode_formatII emu w false hf]
  simp only [decodeFormatII, Bool.false_eq_true, if_false, haddr]
  have hload : (operandsII emu w).emu.load16 (.reg 2) = statusOperand (bwFlag w) emu.sr := hreg
  rcases hop with h | h | h <;> rw [h] <;> simp only [executeII]
  · rw [execRrc_eq, hload, hsr, ← hcarry]
    refine (statusWritten_iff_readsBack _ emu.sr (bwFlag w) _
      (rrcValue (bwFlag w) ((srToValue emu.sr).getLsbD 0) (statusOperand (bwFlag w) emu.sr))
      (by simp) rfl).trans ?_
    cases bwFlag w with
    | word => exact rrc_word_readsBack _
    | byte => exact rrc_byte_readsBack _
  · rw [execSwpb_eq, hload, statusWritten_iff, Emulator.sr_store16, hsr]
    simp only [← getLsbD_srToValue, Emulator.regs_store16, if_true]
    cases bwFlag w with
    | word => exact swpb_word_readsBack _
    | byte => exact swpb_byte_readsBack _
  · rw [execRra_eq, hload, hsr]
    refine (statusWritten_iff_readsBack _ emu.sr (bwFlag w) _
      (rraValue (bwFlag w) (statusOperand (bwFlag w) emu.sr)) (by simp) rfl).trans ?_
    cases bwFlag w with
    | word => exact rra_word_readsBack _
    | byte => exact rra_byte_readsBack _

end Msp430
