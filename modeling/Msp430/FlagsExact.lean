/-
# When the flags of the code are the documented ones

The logical operations always leave the documented flags.  An addition or a subtraction
leaves them when its operands are among those whose carry comes out right (`CarryExact`) and, for
a subtraction, the source is not the least number of its width, whose negative the code adds.
-/
import Msp430.SumFlags
import Msp430.View

namespace Msp430

/-- The operands on which the carry that the code sets for an addition is the documented one. -/
def CarryExact (op : TwoOp) (bw : Width) (carry : Bool) (v d : BitVec 16) : Prop :=
  let low (x : BitVec 16) : ℕ := (x.setWidth 8).toNat
  let cancel : Prop := (highByte d).toNat + (highByte v).toInt = 0
  match op, bw with
  | .add, .word => v.toNat < 0x8000 ∨ 2 ^ 16 ≤ d.toNat + v.toNat
  | .add, .byte => cancel ∨ 2 ^ 8 ≤ low d + low v
  | .addc, .word => (v.toNat < 0x8000 ∧ ¬ (carry = true ∧ d.toNat + v.toNat + 1 = 2 ^ 16)) ∨
      (0x8000 ≤ v.toNat ∧ 2 ^ 16 ≤ d.toNat + v.toNat + carry.toNat)
  | .addc, .byte => (cancel ∧ ¬ (carry = true ∧ low d + low v + 1 = 2 ^ 8)) ∨
      (¬ cancel ∧ 2 ^ 8 ≤ low d + low v + carry.toNat)
  | .subc, .word => v.toNat < d.toNat + carry.toNat ∨ (d.toNat < 0x8000 ∧ 0x8000 ≤ v.toNat)
  | .subc, .byte => low v < low d ∨
      (d.toInt ≤ v.toInt ∨ v.toInt + 257 ≤ d.toInt ↔ carry = true ∧ low v = low d)
  | .sub, .word => v.toNat ≤ d.toNat
  | .sub, .byte => low v ≤ low d ∨ (highByte v = 0 ∧ highByte d = 1 ∧ carry = false)
  | .cmp, .word => v.toNat ≤ d.toNat ∨ d.toNat < 0x8000
  | .cmp, .byte => low v ≤ low d ∨ (0xFF00 < v.toNat ∧ highByte d = 0)
  | _, _ => True

instance (op : TwoOp) (bw : Width) (carry : Bool) (v d : BitVec 16) :
    Decidable (CarryExact op bw carry v d) := by
  unfold CarryExact
  dsimp only
  split <;> infer_instance

/-- The code's flags are the documented ones: the carry is, and the negative of the source of a
subtraction exists. -/
def FlagsExact (op : TwoOp) (bw : Width) (carry : Bool) (v d : BitVec 16) : Prop :=
  CarryExact op bw carry v d ∧ (op = .sub ∨ op = .cmp → -2 ^ (bw.bits - 1) < signedLow bw v)

instance (op : TwoOp) (bw : Width) (carry : Bool) (v d : BitVec 16) :
    Decidable (FlagsExact op bw carry v d) := inferInstanceAs (Decidable (_ ∧ _))

/-- **The carry of the table is the documented one exactly on these operands.** -/
theorem sumCarries_iff {op : TwoOp} {bw : Width} {v : BitVec 16} {carry : Bool}
    {x : BitVec bw.bits × Bool} (hx : op.summand (v.setWidth bw.bits) carry = some x)
    (d : BitVec 16) :
    (SumCarries op.code bw carry v d ↔
        2 ^ bw.bits ≤ (d.setWidth bw.bits).toNat + x.1.toNat + x.2.toNat)
      ↔ CarryExact op bw carry v d := by
  have hv := v.isLt
  have hd := d.isLt
  have hlow := (v.setWidth 8).isLt
  have hword (x : BitVec 16) : (x.setWidth Width.word.bits).toNat = x.toNat :=
    congrArg BitVec.toNat (BitVec.setWidth_eq x)
  have hnot : (~~~(v.setWidth Width.word.bits)).toNat = 0xFFFF - v.toNat :=
    BitVec.toNat_not.trans (congrArg (0xFFFF - ·) (hword v))
  have hnot' : (~~~(v.setWidth Width.byte.bits)).toNat = 0xFF - (v.setWidth 8).toNat :=
    BitVec.toNat_not
  have hbyte (x : BitVec 16) : (x.setWidth Width.byte.bits).toNat = (x.setWidth 8).toNat := rfl
  cases op <;> simp only [TwoOp.summand, Option.some.injEq, reduceCtorEq] at hx <;> subst hx <;>
    cases bw <;> simp only [hword, hbyte, hnot, hnot'] <;>
    simp only [SumCarries, TwoOp.code, CarryExact, Width.bits, Bool.toNat_false, Bool.toNat_true,
      BitVec.lt_def]
  case add.word => omega
  case add.byte => omega
  case addc.word => cases carry <;> simp <;> omega
  case addc.byte => cases carry <;> simp <;> omega
  case subc.word => cases carry <;> simp <;> omega
  case subc.byte => cases carry <;> simp <;> omega
  case sub.word =>
    rw [true_iff]
    omega
  case sub.byte =>
    clear hword hnot hnot' hbyte
    cases carry <;> grind
  case cmp.word =>
    clear hword hnot hnot' hbyte
    grind
  case cmp.byte =>
    clear hword hnot hnot' hbyte
    grind

/-! ## Sums -/

theorem setWidth_bits_not (bw : Width) (v : BitVec 16) :
    (~~~v).setWidth bw.bits = ~~~(v.setWidth bw.bits) := by
  cases bw with
  | word => exact (BitVec.setWidth_eq _).trans (congrArg (~~~ ·) (BitVec.setWidth_eq v).symm)
  | byte => exact setWidth_not v

/-- The negative of a number is its complement and one. -/
theorem signedLow_neg {bw : Width} {v : BitVec 16} (h : -2 ^ (bw.bits - 1) < signedLow bw v) :
    signedLow bw (-v) = signedLow bw (~~~v) + 1 := by
  cases bw with
  | word =>
    simp only [signedLow, Width.bits, BitVec.setWidth_eq, BitVec.toInt_eq_toNat_cond,
      BitVec.toNat_neg, BitVec.toNat_not] at h ⊢
    have := v.isLt
    omega
  | byte =>
    have hneg := setWidth_neg v
    have hnot := setWidth_not v
    simp only [signedLow, Width.bits, hneg, hnot, BitVec.toInt_eq_toNat_cond,
      BitVec.toNat_neg, BitVec.toNat_not] at h ⊢
    have := (v.setWidth 8).isLt
    omega

/-- The operations with a summand are those that add. -/
theorem TwoOp.adds_iff {n : ℕ} (op : TwoOp) (v : BitVec n) (c : Bool) :
    (op.summand v c).isSome ↔ Adds op.code := by
  cases op <;> simp [TwoOp.summand, TwoOp.code, Adds]

/-- Where the negative of the source exists, the sum overflows as documented. -/
theorem sumOverflows_iff {op : TwoOp} {bw : Width} {v : BitVec 16} {carry : Bool}
    {x : BitVec bw.bits × Bool} (hx : op.summand (v.setWidth bw.bits) carry = some x)
    (hmin : op = .sub ∨ op = .cmp → -2 ^ (bw.bits - 1) < signedLow bw v) (d : BitVec 16) :
    SumOverflows bw d (addend op.code v carry).1 (addend op.code v carry).2 ↔
      (2 ^ (bw.bits - 1) ≤ (d.setWidth bw.bits).toInt + x.1.toInt + x.2.toNat ∨
        (d.setWidth bw.bits).toInt + x.1.toInt + x.2.toNat < -2 ^ (bw.bits - 1)) := by
  have hsub : op = .sub ∨ op = .cmp →
      signedLow bw d + signedLow bw (-v) + (false.toNat : ℤ)
        = (d.setWidth bw.bits).toInt + (~~~(v.setWidth bw.bits)).toInt + (true.toNat : ℤ) := by
    intro hop
    rw [signedLow_neg (hmin hop), ← setWidth_bits_not]
    simp only [signedLow, Bool.toNat_false, Bool.toNat_true]
    push_cast
    ring
  cases op <;> simp only [TwoOp.summand, Option.some.injEq, reduceCtorEq] at hx <;>
    subst hx
  · rfl
  · rfl
  · rw [← setWidth_bits_not]
    rfl
  · simp only [SumOverflows, ← hsub (Or.inl rfl)]
    rfl
  · simp only [SumOverflows, ← hsub (Or.inr rfl)]
    rfl

/-- The number that the code arrives at. -/
theorem sumOf_summand {n : ℕ} {op : TwoOp} {v : BitVec n} {carry : Bool} {x : BitVec n × Bool}
    (hx : op.summand v carry = some x) (d : BitVec n) :
    sumOf op.code carry v d = d + x.1 + BitVec.ofNat n x.2.toNat := by
  have hsub : d - v = d + ~~~v + BitVec.ofNat n 1 :=
    (add_not_add_one d v).symm.trans (BitVec.add_assoc _ _ _).symm
  have hneg : d + -v + BitVec.ofNat n 0 = d - v :=
    (BitVec.add_zero _).trans (BitVec.sub_eq_add_neg d v).symm
  cases op <;> simp only [TwoOp.summand, Option.some.injEq, reduceCtorEq] at hx <;> subst hx
  · rfl
  · rfl
  · rfl
  · exact hneg.trans hsub
  · exact hneg.trans hsub

/-- **The code's flags are the documented ones where they are exact.** -/
theorem sr_executeI_exact (emu : Emulator) {op : TwoOp} (bw : Width) (v : BitVec 16) (p : Ptr)
    (h : FlagsExact op bw emu.sr.carry v (emu.load16 p)) :
    (executeI emu op.code bw v p).sr
      = op.flags emu.sr (v.setWidth bw.bits) ((emu.load16 p).setWidth bw.bits) := by
  rw [sr_executeI_operands, operandFlags, TwoOp.flags]
  cases hx : op.summand (v.setWidth bw.bits) emu.sr.carry with
  | none =>
    have hadds : ¬ Adds op.code := by
      rw [← TwoOp.adds_iff op (v.setWidth bw.bits) emu.sr.carry, hx]
      simp
    rw [if_neg hadds]
  | some x =>
    obtain ⟨hcarry, hmin⟩ := h
    have hadds : Adds op.code :=
      (TwoOp.adds_iff op _ _).mp (Option.isSome_iff_exists.mpr ⟨x, hx⟩)
    rw [if_pos hadds, decide_eq_decide.mpr ((sumCarries_iff hx (emu.load16 p)).mpr hcarry),
      decide_eq_decide.mpr (sumOverflows_iff hx hmin (emu.load16 p))]
    simp only [sumOf_summand hx]
    rfl

end Msp430
