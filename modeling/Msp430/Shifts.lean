/-
# The single-operand instructions in closed form

RRC, SWPB, RRA and SXT (`formatII.c`) as one store of a value computed from the old one,
with new flags.
-/
import Msp430.Stack

namespace Msp430

/-- The word RRC stores: shifted right, the carry in the top bit of the width. -/
def rrcValue (bw : Width) (carry : Bool) (v : BitVec 16) : BitVec 16 :=
  match bw with
  | .word => v >>> 1 ||| if carry then 0x8000 else 0
  | .byte => joinBytes (highByte v) (v.setWidth 8 >>> 1 ||| if carry then 0x80 else 0)

/-- The word SWPB stores. -/
def swpbValue (v : BitVec 16) : BitVec 16 := joinBytes (v.setWidth 8) (highByte v)

/-- The word RRA stores.  The byte form shifts the whole word, and the sign it extends is
any bit from the seventh up. -/
def rraValue (bw : Width) (v : BitVec 16) : BitVec 16 :=
  match bw with
  | .word => v >>> 1 ||| if v >>> 15 != 0 then 0x8000 else 0
  | .byte => v >>> 1 ||| if v >>> 7 != 0 then 0x0080 else 0

/-- The word SXT stores. -/
def sxtValue (v : BitVec 16) : BitVec 16 :=
  if v &&& 0x0080 != 0 then v ||| 0xFF00 else v &&& 0x00FF

/-- The status register after RRC or RRA has stored `r`. -/
def StatusReg.shifted (sr : StatusReg) (bw : Width) (carry : Bool) (r : BitVec 16) :
    StatusReg :=
  { sr with carry := carry, zero := isZero r bw, negative := isNegative r bw, overflow := false }

/-! ## Stores under a new status register -/

theorem store16_with_sr (emu : Emulator) (sr : StatusReg) (p : Ptr) (v : BitVec 16) :
    { emu with sr := sr }.store16 p v = { emu.store16 p v with sr := sr } := by
  cases p <;> rfl

theorem store8_with_sr (emu : Emulator) (sr : StatusReg) (p : Ptr) (b : BitVec 8) :
    { emu with sr := sr }.store8 p b = { emu.store8 p b with sr := sr } := by
  cases p <;> rfl

/-- The second of two byte stores at one location counts. -/
theorem store8_store8 (emu : Emulator) (p : Ptr) (b c : BitVec 8) :
    (emu.store8 p b).store8 p c = emu.store8 p c := by
  rw [Emulator.store8_eq_store16, Emulator.load16_store8, highByte_joinBytes,
    Emulator.store8_eq_store16, Emulator.store16_store16, ← Emulator.store8_eq_store16]

/-! ## The closed forms -/

/-- SWPB. -/
theorem execSwpb_eq (emu : Emulator) (p : Ptr) :
    execSwpb emu p = emu.store16 p (swpbValue (emu.load16 p)) := by
  have hhigh (v : BitVec 16) : ((v &&& 0xFF00) >>> 8).setWidth 8 = highByte v := by
    rw [mask_high_eq_joinBytes]
    exact highByte_joinBytes (highByte v) 0
  simp only [execSwpb, swpbValue, joinBytes, hhigh, setWidth_mask]

/-- The lowest bit, as C tests it. -/
theorem and_one_ne_zero {n : ℕ} (v : BitVec (n + 1)) : (v &&& 1 != 0) = v.getLsbD 0 := by
  have hone : (1 : BitVec (n + 1)) = BitVec.twoPow (n + 1) 0 := BitVec.twoPow_zero.symm
  have hne : BitVec.twoPow (n + 1) 0 ≠ 0 := by simp [← BitVec.toNat_inj]
  rw [hone, BitVec.and_twoPow]
  cases v.getLsbD 0
  · rfl
  · simpa using hne

/-- RRC. -/
theorem execRrc_eq (emu : Emulator) (bw : Width) (p : Ptr) :
    execRrc emu bw p
      = { emu.store16 p (rrcValue bw emu.sr.carry (emu.load16 p)) with
          sr := emu.sr.shifted bw ((emu.load16 p).getLsbD 0)
            (rrcValue bw emu.sr.carry (emu.load16 p)) } := by
  have hword (x : BitVec 16) : x ||| 0 = x := BitVec.or_zero
  have hbyte (x : BitVec 8) : x ||| 0 = x := BitVec.or_zero
  cases bw with
  | word =>
    rw [← and_one_ne_zero]
    cases h : emu.sr.carry <;>
      simp only [execRrc, h, rrcValue, store16_with_sr, load16_with_sr,
        Emulator.load16_store16, Emulator.store16_store16, Bool.false_eq_true, if_true,
        if_false, hword] <;> rfl
  | byte =>
    have hlow : (emu.load16 p).getLsbD 0 = (emu.load8 p).getLsbD 0 := by
      simp [Emulator.load8_eq]
    rw [hlow, ← and_one_ne_zero]
    simp only [rrcValue]
    rw [← Emulator.load8_eq, ← Emulator.store8_eq_store16]
    cases h : emu.sr.carry <;>
      simp only [execRrc, h, store8_with_sr, load16_with_sr, load8_with_sr,
        Emulator.load8_store8, Emulator.load16_store8, store8_store8, Bool.false_eq_true,
        if_true, if_false, hbyte] <;> rfl

/-- RRA. -/
theorem execRra_eq (emu : Emulator) (bw : Width) (p : Ptr) :
    execRra emu bw p
      = { emu.store16 p (rraValue bw (emu.load16 p)) with
          sr := emu.sr.shifted bw ((emu.load16 p).getLsbD 0)
            (rraValue bw (emu.load16 p)) } := by
  have hword (x : BitVec 16) : x ||| 0 = x := BitVec.or_zero
  rw [← and_one_ne_zero]
  cases bw with
  | word =>
    cases h : (emu.load16 p >>> 15 != 0) <;>
      simp only [execRra, h, rraValue, store16_with_sr, load16_with_sr,
        Emulator.load16_store16, Emulator.store16_store16, Bool.false_eq_true, if_true,
        if_false, hword] <;> rfl
  | byte =>
    cases h : (emu.load16 p >>> 7 != 0) <;>
      simp only [execRra, h, rraValue, store16_with_sr, load16_with_sr,
        Emulator.load16_store16, Emulator.store16_store16, Bool.false_eq_true, if_true,
        if_false, hword] <;> rfl

/-- SXT: the flags, set from the stored word. -/
theorem execSxt_eq (emu : Emulator) (p : Ptr) :
    execSxt emu p
      = { emu.store16 p (sxtValue (emu.load16 p)) with
          sr := { emu.sr with
            negative := isNegative (sxtValue (emu.load16 p)) .word
            zero := isZero (sxtValue (emu.load16 p)) .word
            carry := !isZero (sxtValue (emu.load16 p)) .word
            overflow := false } } := by
  cases h : (emu.load16 p &&& 0x0080 != 0) <;>
    simp only [execSxt, h, sxtValue, Emulator.load16_store16, Emulator.sr_store16, if_true,
      if_false, Bool.false_eq_true]

/-! ## The four together -/

/-- The word that opcode 0 … 3 stores. -/
def shiftValue (opcode : Fin 8) (bw : Width) (carry : Bool) (v : BitVec 16) : BitVec 16 :=
  match opcode with
  | 0x0 => rrcValue bw carry v
  | 0x1 => swpbValue v
  | 0x2 => rraValue bw v
  | 0x3 => sxtValue v
  | _ => v

/-- The status register that opcode 0 … 3 leaves, the operand being `v`. -/
def shiftFlags (opcode : Fin 8) (bw : Width) (sr : StatusReg) (v : BitVec 16) : StatusReg :=
  let r := shiftValue opcode bw sr.carry v
  match opcode with
  | 0x0 => sr.shifted bw (v.getLsbD 0) r
  | 0x2 => sr.shifted bw (v.getLsbD 0) r
  | 0x3 => { sr with
      negative := isNegative r .word
      zero := isZero r .word
      carry := !isZero r .word
      overflow := false }
  | _ => sr

/-- **Opcode 0 … 3 stores one word and sets flags.** -/
theorem executeII_shift (emu : Emulator) {opcode : Fin 8} (bw : Width) (v : BitVec 16)
    (p : Ptr) (h : opcode ≤ 3) :
    executeII emu opcode bw v p
      = { emu.store16 p (shiftValue opcode bw emu.sr.carry (emu.load16 p)) with
          sr := shiftFlags opcode bw emu.sr (emu.load16 p) } := by
  have hcases : opcode = 0 ∨ opcode = 1 ∨ opcode = 2 ∨ opcode = 3 := by
    revert opcode
    decide
  rcases hcases with rfl | rfl | rfl | rfl
  · exact execRrc_eq emu bw p
  · show execSwpb emu p = _
    rw [execSwpb_eq]
    exact (store16_sr emu p _).symm
  · exact execRra_eq emu bw p
  · exact execSxt_eq emu p

end Msp430
