/-
# Instructions and their encoding

The instruction set as syntax: two-operand and single-operand instructions over the
addressing modes, and jumps.  An instruction that does not exist cannot be written down: the
register that a mode may name is part of the operand.  `instructions` writes an instruction
as its words and reads it back through the field functions of the decoder; it reads every
word that some documented format has (`readable_iff`).
-/
import Msp430.Codec
import Msp430.Encodings

namespace Msp430

/-! ## Operands -/

/-- The constants that the registers R2 and R3 generate. -/
inductive Constant : Type where
  | zero : Constant
  | one : Constant
  | two : Constant
  | minusOne : Constant
  | four : Constant
  | eight : Constant
  deriving DecidableEq, Repr

namespace Constant

/-- The register of a constant. -/
def reg : Constant → Fin 16
  | four | eight => 2
  | _ => 3

/-- The mode of a constant. -/
def mode : Constant → Fin 4
  | zero => 0
  | one => 1
  | two | four => 2
  | minusOne | eight => 3

def value : Constant → BitVec 16
  | zero => 0
  | one => 1
  | two => 2
  | minusOne => -1
  | four => 4
  | eight => 8

/-- The constant of a register and a mode. -/
def read (r : Fin 16) (m : Fin 4) : Option Constant :=
  if r = 3 then
    match m with
    | 0 => some zero
    | 1 => some one
    | 2 => some two
    | 3 => some minusOne
  else if r = 2 then
    match m with
    | 2 => some four
    | 3 => some eight
    | _ => none
  else none

theorem read_iff (r : Fin 16) (m : Fin 4) (c : Constant) :
    read r m = some c ↔ r = c.reg ∧ m = c.mode := by
  revert r m
  cases c <;> decide

/-- The constant generator of the decoder. -/
theorem generatedConstant_eq (r : Fin 16) (m : Fin 4) :
    generatedConstant r m = (read r m).map value := by
  revert r m
  decide

end Constant

/-- A register that holds a base or a pointer with increment: neither the program counter
nor one that generates constants. -/
def Base (n : Fin 16) : Prop := n ≠ 0 ∧ n ≠ 2 ∧ n ≠ 3

instance (n : Fin 16) : Decidable (Base n) := inferInstanceAs (Decidable (_ ∧ _))

/-- The operand of a single-operand instruction, the source of a two-operand one. -/
inductive Operand : Type where
  | register (n : Fin 16) (h : n ≠ 3) : Operand
  | indexed (n : Fin 16) (x : BitVec 16) (h : Base n) : Operand
  | symbolic (x : BitVec 16) : Operand
  | absolute (x : BitVec 16) : Operand
  | indirect (n : Fin 16) (h : n ≠ 2 ∧ n ≠ 3) : Operand
  | autoIncrement (n : Fin 16) (h : Base n) : Operand
  | immediate (x : BitVec 16) : Operand
  | constant (c : Constant) : Operand
  deriving DecidableEq

/-- The destination of a two-operand instruction. -/
inductive Target : Type where
  | register (n : Fin 16) : Target
  | indexed (n : Fin 16) (x : BitVec 16) (h : n ≠ 0 ∧ n ≠ 2) : Target
  | symbolic (x : BitVec 16) : Target
  | absolute (x : BitVec 16) : Target
  deriving DecidableEq

namespace Operand

/-- The register field of an operand. -/
def reg : Operand → Fin 16
  | register n _ | indexed n _ _ | indirect n _ | autoIncrement n _ => n
  | symbolic _ | immediate _ => 0
  | absolute _ => 2
  | constant c => c.reg

/-- The mode of an operand. -/
def mode : Operand → Fin 4
  | register _ _ => 0
  | indexed _ _ _ | symbolic _ | absolute _ => 1
  | indirect _ _ => 2
  | autoIncrement _ _ | immediate _ => 3
  | constant c => c.mode

/-- The extension word of an operand. -/
def extension : Operand → List (BitVec 16)
  | indexed _ x _ | symbolic x | absolute x | immediate x => [x]
  | _ => []

/-- Read an operand that has an extension word. -/
def readExtended (r : Fin 16) (m : Fin 4) (x : BitVec 16) : Operand :=
  if m = 3 then .immediate x
  else if h : Base r then .indexed r x h
  else if r = 0 then .symbolic x
  else .absolute x

/-- Read an operand: its register and mode are given, its extension word comes next. -/
def read (r : Fin 16) (m : Fin 4) (ws : List (BitVec 16)) :
    Option (Operand × List (BitVec 16)) :=
  match Constant.read r m with
  | some c => some (.constant c, ws)
  | none =>
    if fieldExtended r m then
      match ws with
      | [] => none
      | x :: ws => some (readExtended r m x, ws)
    else if m = 0 then
      if h : r ≠ 3 then some (.register r h, ws) else none
    else if m = 2 then
      if h : r ≠ 2 ∧ r ≠ 3 then some (.indirect r h, ws) else none
    else if h : Base r then some (.autoIncrement r h, ws)
    else none

/-- The constants apart, an operand is none. -/
theorem read_constant_eq_none (o : Operand) (h : ∀ c, o ≠ .constant c) :
    Constant.read o.reg o.mode = none := by
  have hread : ∀ r : Fin 16, ∀ m : Fin 4,
      (r = 3 → False) → (r = 2 → m = 0 ∨ m = 1) → Constant.read r m = none := by decide
  cases o with
  | constant c => exact absurd rfl (h c)
  | register n hn => exact hread n 0 hn (fun _ => Or.inl rfl)
  | indexed n x hn => exact hread n 1 hn.2.2 (fun h2 => absurd h2 hn.2.1)
  | symbolic x => rfl
  | absolute x => rfl
  | indirect n hn => exact hread n 2 hn.2 (fun h2 => absurd h2 hn.1)
  | autoIncrement n hn => exact hread n 3 hn.2.2 (fun h2 => absurd h2 hn.2.1)
  | immediate x => rfl

/-- The extension word is there when the fields say so. -/
theorem fieldExtended_eq (o : Operand) :
    fieldExtended o.reg o.mode = !o.extension.isEmpty := by
  have hplain : ∀ r : Fin 16, (r ≠ 3 → fieldExtended r 1 = true) ∧
      fieldExtended r 0 = false ∧ fieldExtended r 2 = false ∧
      (r ≠ 0 → fieldExtended r 3 = false) := by decide
  cases o with
  | register n hn => exact (hplain n).2.1
  | indexed n x hn => exact (hplain n).1 hn.2.2
  | symbolic x => rfl
  | absolute x => rfl
  | indirect n hn => exact (hplain n).2.2.1
  | autoIncrement n hn => exact (hplain n).2.2.2 hn.1
  | immediate x => rfl
  | constant c => cases c <;> rfl

theorem length_extension (o : Operand) :
    o.extension.length = (fieldExtended o.reg o.mode).toNat := by
  rw [fieldExtended_eq]
  cases o <;> rfl

/-- An operand is read from its fields and its extension word. -/
theorem read_write (o : Operand) (ws : List (BitVec 16)) :
    read o.reg o.mode (o.extension ++ ws) = some (o, ws) := by
  have hext := o.fieldExtended_eq
  cases o with
  | constant c =>
    have hc := (Constant.read_iff _ _ c).mpr ⟨rfl, rfl⟩
    simp [read, reg, mode, hc, extension]
  | register n hn =>
    have hc := read_constant_eq_none (register n hn) (by simp)
    simp_all [read, reg, mode, extension]
  | indexed n x hn =>
    have hc := read_constant_eq_none (indexed n x hn) (by simp)
    simp_all [read, reg, mode, extension, readExtended]
  | symbolic x => rfl
  | absolute x => rfl
  | indirect n hn =>
    have hc := read_constant_eq_none (indirect n hn) (by simp)
    simp_all [read, reg, mode, extension]
  | autoIncrement n hn =>
    have hc := read_constant_eq_none (autoIncrement n hn) (by simp)
    simp_all [read, reg, mode, extension]
  | immediate x => rfl

/-- An operand with an extension word has the fields it was read from. -/
theorem readExtended_fields {r : Fin 16} {m : Fin 4} (hc : Constant.read r m = none)
    (hext : fieldExtended r m = true) (x : BitVec 16) :
    (readExtended r m x).reg = r ∧ (readExtended r m x).mode = m ∧
      (readExtended r m x).extension = [x] := by
  have hfields : ∀ r : Fin 16, ∀ m : Fin 4, Constant.read r m = none →
      fieldExtended r m = true → (m = 3 ∧ r = 0) ∨ (m = 1 ∧ m ≠ 3) := by decide
  have hbase : ∀ r : Fin 16, Constant.read r 1 = none → ¬ Base r → r ≠ 0 → r = 2 := by decide
  rcases hfields r m hc hext with ⟨rfl, rfl⟩ | ⟨rfl, hm⟩
  · exact ⟨rfl, rfl, rfl⟩
  · unfold readExtended
    rw [if_neg hm]
    split_ifs with hb h0
    · exact ⟨rfl, rfl, rfl⟩
    · exact ⟨h0.symm, rfl, rfl⟩
    · exact ⟨(hbase r hc hb h0).symm, rfl, rfl⟩

/-- **Operands are read exactly from what is written for them.** -/
theorem read_iff (r : Fin 16) (m : Fin 4) (ws rest : List (BitVec 16)) (o : Operand) :
    read r m ws = some (o, rest) ↔ r = o.reg ∧ m = o.mode ∧ ws = o.extension ++ rest := by
  refine ⟨fun h => ?_, ?_⟩
  · unfold read at h
    cases hc : Constant.read r m with
    | some c =>
      obtain ⟨hr, hm⟩ := (Constant.read_iff r m c).mp hc
      simp only [hc, Option.some.injEq, Prod.mk.injEq] at h
      obtain ⟨rfl, rfl⟩ := h
      exact ⟨hr, hm, rfl⟩
    | none =>
      simp only [hc] at h
      by_cases hext : fieldExtended r m = true
      · rw [if_pos hext] at h
        cases ws with
        | nil => exact absurd h (by simp)
        | cons x ws =>
          simp only [Option.some.injEq, Prod.mk.injEq] at h
          obtain ⟨rfl, rfl⟩ := h
          obtain ⟨hr, hm, hx⟩ := readExtended_fields hc hext x
          rw [hr, hm, hx]
          exact ⟨rfl, rfl, rfl⟩
      · rw [if_neg hext] at h
        have hthree : ∀ r : Fin 16, ∀ m : Fin 4, m ≠ 0 → m ≠ 2 → Base r →
            fieldExtended r m ≠ true → m = 3 := by decide
        split_ifs at h with h0 h3 h2 h23 hb
        · simp only [Option.some.injEq, Prod.mk.injEq] at h
          obtain ⟨rfl, rfl⟩ := h
          exact ⟨rfl, h0, rfl⟩
        · simp only [Option.some.injEq, Prod.mk.injEq] at h
          obtain ⟨rfl, rfl⟩ := h
          exact ⟨rfl, h2, rfl⟩
        · simp only [Option.some.injEq, Prod.mk.injEq] at h
          obtain ⟨rfl, rfl⟩ := h
          exact ⟨rfl, hthree r m h0 h2 hb hext, rfl⟩
  · rintro ⟨rfl, rfl, rfl⟩
    exact o.read_write rest

end Operand

namespace Target

/-- The register field of a destination. -/
def reg : Target → Fin 16
  | register n | indexed n _ _ => n
  | symbolic _ => 0
  | absolute _ => 2

/-- The mode of a destination. -/
def mode : Target → Bool
  | register _ => false
  | _ => true

/-- The extension word of a destination. -/
def extension : Target → List (BitVec 16)
  | register _ => []
  | indexed _ x _ | symbolic x | absolute x => [x]

/-- Read a destination: its register and mode are given, its extension word comes next. -/
def read (r : Fin 16) (m : Bool) (ws : List (BitVec 16)) :
    Option (Target × List (BitVec 16)) :=
  match m, ws with
  | false, ws => some (.register r, ws)
  | true, [] => none
  | true, x :: ws =>
    if h : r ≠ 0 ∧ r ≠ 2 then some (.indexed r x h, ws)
    else if r = 0 then some (.symbolic x, ws)
    else some (.absolute x, ws)

theorem length_extension (t : Target) : t.extension.length = t.mode.toNat := by
  cases t <;> rfl

/-- **Destinations are read exactly from what is written for them.** -/
theorem read_iff (r : Fin 16) (m : Bool) (ws rest : List (BitVec 16)) (t : Target) :
    read r m ws = some (t, rest) ↔ r = t.reg ∧ m = t.mode ∧ ws = t.extension ++ rest := by
  constructor
  · intro h
    cases m with
    | false =>
      simp only [read, Option.some.injEq, Prod.mk.injEq] at h
      obtain ⟨rfl, rfl⟩ := h
      exact ⟨rfl, rfl, rfl⟩
    | true =>
      cases ws with
      | nil => exact absurd h (by simp [read])
      | cons x ws =>
        simp only [read] at h
        split_ifs at h with hn h0
        · simp only [Option.some.injEq, Prod.mk.injEq] at h
          obtain ⟨rfl, rfl⟩ := h
          exact ⟨rfl, rfl, rfl⟩
        · simp only [Option.some.injEq, Prod.mk.injEq] at h
          obtain ⟨rfl, rfl⟩ := h
          exact ⟨h0, rfl, rfl⟩
        · simp only [Option.some.injEq, Prod.mk.injEq] at h
          obtain ⟨rfl, rfl⟩ := h
          exact ⟨by_contra fun h2 => hn ⟨h0, h2⟩, rfl, rfl⟩
  · rintro ⟨rfl, rfl, rfl⟩
    cases t with
    | register n => rfl
    | indexed n x hn => exact dif_pos hn
    | symbolic x => rfl
    | absolute x => rfl

end Target

/-! ## Operations -/

/-- The two-operand operations. -/
inductive TwoOp : Type where
  | mov | add | addc | subc | sub | cmp | dadd | bit | bic | bis | xor | and
  deriving DecidableEq, Repr

/-- The single-operand operations. -/
inductive OneOp : Type where
  | rrc | swpb | rra | sxt | push | call | reti
  deriving DecidableEq, Repr

namespace TwoOp

/-- The opcode. -/
def code : TwoOp → Fin 16
  | mov => 0x4
  | add => 0x5
  | addc => 0x6
  | subc => 0x7
  | sub => 0x8
  | cmp => 0x9
  | dadd => 0xA
  | bit => 0xB
  | bic => 0xC
  | bis => 0xD
  | xor => 0xE
  | and => 0xF

/-- The operation of an opcode. -/
def read : Fin 16 → Option TwoOp
  | 0x4 => some mov
  | 0x5 => some add
  | 0x6 => some addc
  | 0x7 => some subc
  | 0x8 => some sub
  | 0x9 => some cmp
  | 0xA => some dadd
  | 0xB => some bit
  | 0xC => some bic
  | 0xD => some bis
  | 0xE => some xor
  | 0xF => some and
  | _ => none

theorem read_iff (k : Fin 16) (op : TwoOp) : read k = some op ↔ k = op.code := by
  revert k
  cases op <;> decide

theorem read_eq_none_iff (k : Fin 16) : read k = none ↔ k < 4 := by
  revert k
  decide

theorem four_le_code (op : TwoOp) : 4 ≤ op.code := by
  cases op <;> decide

end TwoOp

namespace OneOp

/-- The opcode. -/
def code : OneOp → Fin 8
  | rrc => 0
  | swpb => 1
  | rra => 2
  | sxt => 3
  | push => 4
  | call => 5
  | reti => 6

/-- The operation of an opcode. -/
def read : Fin 8 → Option OneOp
  | 0 => some rrc
  | 1 => some swpb
  | 2 => some rra
  | 3 => some sxt
  | 4 => some push
  | 5 => some call
  | 6 => some reti
  | 7 => none

theorem read_iff (k : Fin 8) (op : OneOp) : read k = some op ↔ k = op.code := by
  revert k
  cases op <;> decide

theorem read_eq_none_iff (k : Fin 8) : read k = none ↔ k = 7 := by
  revert k
  decide

end OneOp

/-! ## Instruction words -/

/-- A two-operand word: opcode, source, `Ad`, `B/W`, `As`, destination. -/
def wordI (op src : BitVec 4) (ad byte : Bool) (as : BitVec 2) (dst : BitVec 4) : BitVec 16 :=
  op ++ src ++ BitVec.ofBool ad ++ BitVec.ofBool byte ++ as ++ dst

/-- A single-operand word: `[0001][00CC][CBAA][SSSS]`. -/
def wordII (high : BitVec 6) (op : BitVec 3) (byte : Bool) (as : BitVec 2) (r : BitVec 4) :
    BitVec 16 :=
  high ++ op ++ BitVec.ofBool byte ++ as ++ r

/-- A jump word: `[001][CCC][offset]`. -/
def wordIII (high condition : BitVec 3) (offset : BitVec 10) : BitVec 16 :=
  high ++ condition ++ offset

/-- A word is made of the fields of the two-operand format. -/
theorem wordI_extract (w : BitVec 16) :
    wordI (w.extractLsb' 12 4) (w.extractLsb' 8 4) (w.getLsbD 7) (w.getLsbD 6)
      (w.extractLsb' 4 2) (w.extractLsb' 0 4) = w := by
  unfold wordI
  ext i hi
  simp only [← BitVec.getLsbD_eq_getElem, BitVec.getLsbD_append, BitVec.getLsbD_extractLsb',
    BitVec.getLsbD_ofBool]
  interval_cases i <;> simp

/-- A word is made of the fields of the single-operand format. -/
theorem wordII_extract (w : BitVec 16) :
    wordII (w.extractLsb' 10 6) (w.extractLsb' 7 3) (w.getLsbD 6) (w.extractLsb' 4 2)
      (w.extractLsb' 0 4) = w := by
  unfold wordII
  ext i hi
  simp only [← BitVec.getLsbD_eq_getElem, BitVec.getLsbD_append, BitVec.getLsbD_extractLsb',
    BitVec.getLsbD_ofBool]
  interval_cases i <;> simp

/-- A word is made of the fields of the jump format. -/
theorem wordIII_extract (w : BitVec 16) :
    wordIII (w.extractLsb' 13 3) (w.extractLsb' 10 3) (w.extractLsb' 0 10) = w := by
  unfold wordIII
  ext i hi
  simp only [← BitVec.getLsbD_eq_getElem, BitVec.getLsbD_append, BitVec.getLsbD_extractLsb']
  interval_cases i <;> simp

theorem getLsbD_wordI (op src : BitVec 4) (ad byte : Bool) (as : BitVec 2) (dst : BitVec 4)
    (i : ℕ) :
    (wordI op src ad byte as dst).getLsbD i
      = if i < 4 then dst.getLsbD i
        else if i < 6 then as.getLsbD (i - 4)
        else if i < 7 then byte
        else if i < 8 then ad
        else if i < 12 then src.getLsbD (i - 8)
        else op.getLsbD (i - 12) := by
  simp only [wordI, BitVec.getLsbD_append, BitVec.getLsbD_ofBool]
  grind

theorem getLsbD_wordII (high : BitVec 6) (op : BitVec 3) (byte : Bool) (as : BitVec 2)
    (r : BitVec 4) (i : ℕ) :
    (wordII high op byte as r).getLsbD i
      = if i < 4 then r.getLsbD i
        else if i < 6 then as.getLsbD (i - 4)
        else if i < 7 then byte
        else if i < 10 then op.getLsbD (i - 7)
        else high.getLsbD (i - 10) := by
  simp only [wordII, BitVec.getLsbD_append, BitVec.getLsbD_ofBool]
  grind

theorem getLsbD_wordIII (high condition : BitVec 3) (offset : BitVec 10) (i : ℕ) :
    (wordIII high condition offset).getLsbD i
      = if i < 10 then offset.getLsbD i
        else if i < 13 then condition.getLsbD (i - 10)
        else high.getLsbD (i - 13) := by
  simp only [wordIII, BitVec.getLsbD_append]
  grind

/-- The fields of a two-operand word. -/
theorem extract_wordI (op src : BitVec 4) (ad byte : Bool) (as : BitVec 2)
    (dst : BitVec 4) :
    let w := wordI op src ad byte as dst
    w.extractLsb' 12 4 = op ∧ w.extractLsb' 8 4 = src ∧ w.getLsbD 7 = ad ∧
      w.getLsbD 6 = byte ∧ w.extractLsb' 4 2 = as ∧ w.extractLsb' 0 4 = dst := by
  refine ⟨?_, ?_, ?_, ?_, ?_, ?_⟩
  · ext i hi
    rw [BitVec.getElem_extractLsb', getLsbD_wordI]
    grind
  · ext i hi
    rw [BitVec.getElem_extractLsb', getLsbD_wordI]
    grind
  · rw [getLsbD_wordI]
    rfl
  · rw [getLsbD_wordI]
    rfl
  · ext i hi
    rw [BitVec.getElem_extractLsb', getLsbD_wordI]
    grind
  · ext i hi
    rw [BitVec.getElem_extractLsb', getLsbD_wordI]
    grind

/-- The fields of a single-operand word. -/
theorem extract_wordII (high : BitVec 6) (op : BitVec 3) (byte : Bool) (as : BitVec 2)
    (r : BitVec 4) :
    let w := wordII high op byte as r
    w.extractLsb' 10 6 = high ∧ w.extractLsb' 7 3 = op ∧ w.getLsbD 6 = byte ∧
      w.extractLsb' 4 2 = as ∧ w.extractLsb' 0 4 = r := by
  refine ⟨?_, ?_, ?_, ?_, ?_⟩
  · ext i hi
    rw [BitVec.getElem_extractLsb', getLsbD_wordII]
    grind
  · ext i hi
    rw [BitVec.getElem_extractLsb', getLsbD_wordII]
    grind
  · rw [getLsbD_wordII]
    rfl
  · ext i hi
    rw [BitVec.getElem_extractLsb', getLsbD_wordII]
    grind
  · ext i hi
    rw [BitVec.getElem_extractLsb', getLsbD_wordII]
    grind

/-- The fields of a jump word. -/
theorem extract_wordIII (high condition : BitVec 3) (offset : BitVec 10) :
    let w := wordIII high condition offset
    w.extractLsb' 13 3 = high ∧ w.extractLsb' 10 3 = condition ∧
      w.extractLsb' 0 10 = offset := by
  refine ⟨?_, ?_, ?_⟩
  · ext i hi
    rw [BitVec.getElem_extractLsb', getLsbD_wordIII]
    grind
  · ext i hi
    rw [BitVec.getElem_extractLsb', getLsbD_wordIII]
    grind
  · ext i hi
    rw [BitVec.getElem_extractLsb', getLsbD_wordIII]
    grind

/-- The format of a word, by the six bits above a single-operand opcode. -/
theorem formatId_eq_one_iff (w : BitVec 16) :
    formatId w = 1 ∧ w.extractLsb' 10 2 = 0 ↔ w.extractLsb' 10 6 = 0b000100 := by
  have hsplit : ∀ b : BitVec 6,
      ((b.extractLsb' 2 4).toFin = (1 : Fin 16) ∧ b.extractLsb' 0 2 = 0) ↔ b = 0b000100 := by
    decide
  rw [← hsplit, formatId]
  have hhigh : (w.extractLsb' 10 6).extractLsb' 2 4 = w.extractLsb' 12 4 := by
    ext i hi
    simp only [BitVec.getElem_extractLsb', BitVec.getLsbD_extractLsb']
    grind
  have hlow : (w.extractLsb' 10 6).extractLsb' 0 2 = w.extractLsb' 10 2 := by
    ext i hi
    simp only [BitVec.getElem_extractLsb', BitVec.getLsbD_extractLsb']
    grind
  rw [hhigh, hlow]

/-- The jumps are the words that begin with `001`. -/
theorem formatId_jump_iff (w : BitVec 16) :
    2 ≤ formatId w ∧ formatId w ≤ 3 ↔ w.extractLsb' 13 3 = 0b001 := by
  have hsplit : ∀ b : BitVec 4,
      ((2 : Fin 16) ≤ b.toFin ∧ b.toFin ≤ (3 : Fin 16)) ↔ b.extractLsb' 1 3 = 0b001 := by
    decide
  have hhigh : (w.extractLsb' 12 4).extractLsb' 1 3 = w.extractLsb' 13 3 := by
    ext i hi
    simp only [BitVec.getElem_extractLsb', BitVec.getLsbD_extractLsb']
    grind
  rw [← hhigh, ← hsplit, formatId]

/-! ## Instructions -/

/-- An instruction. -/
inductive Instruction : Type where
  | two (op : TwoOp) (bw : Width) (src : Operand) (dst : Target) : Instruction
  | one (op : OneOp) (bw : Width) (operand : Operand) : Instruction
  | jump (condition : Fin 8) (offset : BitVec 10) : Instruction
  deriving DecidableEq

namespace Instruction

/-- The first word of an instruction. -/
def word : Instruction → BitVec 16
  | two op bw src dst =>
    wordI (.ofFin op.code) (.ofFin src.reg) dst.mode (bw == .byte) (.ofFin src.mode)
      (.ofFin dst.reg)
  | one op bw operand =>
    wordII 0b000100 (.ofFin op.code) (bw == .byte) (.ofFin operand.mode) (.ofFin operand.reg)
  | jump condition offset => wordIII 0b001 (.ofFin condition) offset

/-- The extension words, the source's first. -/
def extension : Instruction → List (BitVec 16)
  | two _ _ src dst => src.extension ++ dst.extension
  | one _ _ operand => operand.extension
  | jump _ _ => []

/-- The words of an instruction. -/
def words (i : Instruction) : List (BitVec 16) := i.word :: i.extension

/-- Read an instruction through the fields of its first word. -/
def read : List (BitVec 16) → Option (Instruction × List (BitVec 16))
  | [] => none
  | w :: ws =>
    match TwoOp.read (formatId w) with
    | some op => do
      let (src, ws) ← Operand.read (sourceReg w) (asFlag w) ws
      let (dst, ws) ← Target.read (lowReg w) (adFlag w) ws
      some (two op (bwFlag w) src dst, ws)
    | none =>
      if formatId w = 1 then
        if w.extractLsb' 10 2 = 0 then do
          let op ← OneOp.read (opcodeII w)
          let (operand, ws) ← Operand.read (lowReg w) (asFlag w) ws
          some (one op (bwFlag w) operand, ws)
        else none
      else if formatId w = 0 then none
      else some (jump (jumpCondition w) (w.extractLsb' 0 10), ws)

/-- The fields of a two-operand instruction, as the decoder reads them. -/
theorem fields_two (op : TwoOp) (bw : Width) (src : Operand) (dst : Target) :
    let w := (two op bw src dst).word
    formatId w = op.code ∧ sourceReg w = src.reg ∧ adFlag w = dst.mode ∧ bwFlag w = bw ∧
      asFlag w = src.mode ∧ lowReg w = dst.reg := by
  obtain ⟨hop, hsrc, had, hbw, has, hdst⟩ := extract_wordI (.ofFin op.code) (.ofFin src.reg)
    dst.mode (bw == .byte) (.ofFin src.mode) (.ofFin dst.reg)
  refine ⟨congrArg BitVec.toFin hop, congrArg BitVec.toFin hsrc, had, ?_,
    congrArg BitVec.toFin has, congrArg BitVec.toFin hdst⟩
  rw [bwFlag, word, hbw]
  cases bw <;> rfl

/-- The fields of a single-operand instruction. -/
theorem fields_one (op : OneOp) (bw : Width) (operand : Operand) :
    let w := (one op bw operand).word
    (formatId w = 1 ∧ w.extractLsb' 10 2 = 0) ∧ opcodeII w = op.code ∧ bwFlag w = bw ∧
      asFlag w = operand.mode ∧ lowReg w = operand.reg := by
  obtain ⟨hhigh, hop, hbw, has, hreg⟩ := extract_wordII 0b000100 (.ofFin op.code)
    (bw == .byte) (.ofFin operand.mode) (.ofFin operand.reg)
  refine ⟨(formatId_eq_one_iff _).mpr hhigh, congrArg BitVec.toFin hop, ?_,
    congrArg BitVec.toFin has, congrArg BitVec.toFin hreg⟩
  rw [bwFlag, word, hbw]
  cases bw <;> rfl

/-- The fields of a jump. -/
theorem fields_jump (condition : Fin 8) (offset : BitVec 10) :
    let w := (jump condition offset).word
    (2 ≤ formatId w ∧ formatId w ≤ 3) ∧ jumpCondition w = condition ∧
      w.extractLsb' 0 10 = offset := by
  obtain ⟨hhigh, hcond, hoffset⟩ := extract_wordIII 0b001 (.ofFin condition) offset
  exact ⟨(formatId_jump_iff _).mpr hhigh, congrArg BitVec.toFin hcond, hoffset⟩

/-- A two-operand word is the word of what its fields say. -/
theorem word_two {w : BitVec 16} {op : TwoOp} {src : Operand} {dst : Target}
    (hop : formatId w = op.code) (hsrc : sourceReg w = src.reg) (has : asFlag w = src.mode)
    (hdst : lowReg w = dst.reg) (had : adFlag w = dst.mode) :
    (two op (bwFlag w) src dst).word = w := by
  have hbyte : (bwFlag w == .byte) = w.getLsbD 6 := by
    rw [bwFlag]
    cases w.getLsbD 6 <;> rfl
  rw [word, ← hop, ← hsrc, ← has, ← hdst, ← had, hbyte]
  exact wordI_extract w

/-- A single-operand word is the word of what its fields say. -/
theorem word_one {w : BitVec 16} {op : OneOp} {operand : Operand}
    (hformat : formatId w = 1 ∧ w.extractLsb' 10 2 = 0) (hop : opcodeII w = op.code)
    (hreg : lowReg w = operand.reg) (has : asFlag w = operand.mode) :
    (one op (bwFlag w) operand).word = w := by
  have hbyte : (bwFlag w == .byte) = w.getLsbD 6 := by
    rw [bwFlag]
    cases w.getLsbD 6 <;> rfl
  rw [word, ← hop, ← hreg, ← has, hbyte, ← (formatId_eq_one_iff w).mp hformat]
  exact wordII_extract w

/-- A jump word is the word of what its fields say. -/
theorem word_jump {w : BitVec 16} (hformat : 2 ≤ formatId w ∧ formatId w ≤ 3) :
    (jump (jumpCondition w) (w.extractLsb' 0 10)).word = w := by
  rw [word, ← (formatId_jump_iff w).mp hformat]
  exact wordIII_extract w

/-- What is read, by the format of the word. -/
theorem read_two {w : BitVec 16} {op : TwoOp} (h : formatId w = op.code)
    (ws rest : List (BitVec 16)) (i : Instruction) :
    read (w :: ws) = some (i, rest) ↔
      ∃ src dst, i = two op (bwFlag w) src dst ∧ sourceReg w = src.reg ∧
        asFlag w = src.mode ∧ lowReg w = dst.reg ∧ adFlag w = dst.mode ∧
        ws = src.extension ++ (dst.extension ++ rest) := by
  simp only [read, (TwoOp.read_iff _ op).mpr h, Option.bind_eq_bind, Option.bind_eq_some_iff,
    Prod.exists, Operand.read_iff, Target.read_iff, Option.some.injEq, Prod.mk.injEq]
  constructor
  · rintro ⟨src, ws', ⟨hsrc, has, rfl⟩, dst, ws'', ⟨hdst, had, rfl⟩, rfl, rfl⟩
    exact ⟨src, dst, rfl, hsrc, has, hdst, had, rfl⟩
  · rintro ⟨src, dst, rfl, hsrc, has, hdst, had, rfl⟩
    exact ⟨src, _, ⟨hsrc, has, rfl⟩, dst, _, ⟨hdst, had, rfl⟩, rfl, rfl⟩

theorem read_one {w : BitVec 16} (h : formatId w = 1 ∧ w.extractLsb' 10 2 = 0)
    (ws rest : List (BitVec 16)) (i : Instruction) :
    read (w :: ws) = some (i, rest) ↔
      ∃ op operand, i = one op (bwFlag w) operand ∧ opcodeII w = op.code ∧
        lowReg w = operand.reg ∧ asFlag w = operand.mode ∧
        ws = operand.extension ++ rest := by
  have hnone : TwoOp.read (formatId w) = none := by
    rw [h.1]
    rfl
  simp only [read, hnone, if_pos h.1, if_pos h.2, Option.bind_eq_bind,
    Option.bind_eq_some_iff, Prod.exists, OneOp.read_iff, Operand.read_iff,
    Option.some.injEq, Prod.mk.injEq]
  constructor
  · rintro ⟨op, hop, operand, ws', ⟨hreg, has, rfl⟩, rfl, rfl⟩
    exact ⟨op, operand, rfl, hop, hreg, has, rfl⟩
  · rintro ⟨op, operand, rfl, hop, hreg, has, rfl⟩
    exact ⟨op, hop, operand, _, ⟨hreg, has, rfl⟩, rfl, rfl⟩

theorem read_jump {w : BitVec 16} (h : 2 ≤ formatId w ∧ formatId w ≤ 3)
    (ws : List (BitVec 16)) :
    read (w :: ws) = some (jump (jumpCondition w) (w.extractLsb' 0 10), ws) := by
  have hlow : ∀ f : Fin 16, 2 ≤ f ∧ f ≤ 3 → TwoOp.read f = none ∧ f ≠ 1 ∧ f ≠ 0 := by decide
  obtain ⟨hnone, h1, h0⟩ := hlow _ h
  simp only [read, hnone, if_neg h1, if_neg h0]

/-- Other words are not read. -/
theorem read_other {w : BitVec 16} (h2 : TwoOp.read (formatId w) = none)
    (h1 : ¬ (formatId w = 1 ∧ w.extractLsb' 10 2 = 0))
    (h3 : ¬ (2 ≤ formatId w ∧ formatId w ≤ 3)) (ws : List (BitVec 16)) :
    read (w :: ws) = none := by
  have hlow : ∀ f : Fin 16, TwoOp.read f = none → ¬ (2 ≤ f ∧ f ≤ 3) → f ≠ 1 → f = 0 := by
    decide
  simp only [read, h2]
  by_cases hone : formatId w = 1
  · rw [if_pos hone, if_neg fun hc => h1 ⟨hone, hc⟩]
  · rw [if_neg hone, if_pos (hlow _ h2 h3 hone)]

/-- **Instructions are read exactly from the words that are written for them.** -/
theorem read_iff (ws rest : List (BitVec 16)) (i : Instruction) :
    read ws = some (i, rest) ↔ ws = i.words ++ rest := by
  constructor
  · intro h
    cases ws with
    | nil => exact absurd h (by simp [read])
    | cons w ws =>
      rw [words, List.cons_append]
      cases hop : TwoOp.read (formatId w) with
      | some op =>
        have hcode := (TwoOp.read_iff _ op).mp hop
        obtain ⟨src, dst, rfl, hsrc, has, hdst, had, rfl⟩ := (read_two hcode ws rest i).mp h
        rw [word_two hcode hsrc has hdst had, extension, List.append_assoc]
      | none =>
        by_cases h1 : formatId w = 1 ∧ w.extractLsb' 10 2 = 0
        · obtain ⟨op, operand, rfl, hcode, hreg, has, rfl⟩ := (read_one h1 ws rest i).mp h
          rw [word_one h1 hcode hreg has, extension]
        · by_cases h3 : 2 ≤ formatId w ∧ formatId w ≤ 3
          · rw [read_jump h3, Option.some.injEq, Prod.mk.injEq] at h
            obtain ⟨rfl, rfl⟩ := h
            rw [word_jump h3]
            rfl
          · rw [read_other hop h1 h3] at h
            exact absurd h (by simp)
  · rintro rfl
    cases i with
    | two op bw src dst =>
      obtain ⟨hop, hsrc, had, hbw, has, hdst⟩ := fields_two op bw src dst
      refine (read_two hop _ rest _).mpr ⟨src, dst, ?_, hsrc, has, hdst, had, ?_⟩
      · rw [hbw]
      · simp only [extension, List.append_eq, List.append_assoc]
    | one op bw operand =>
      obtain ⟨hformat, hop, hbw, has, hreg⟩ := fields_one op bw operand
      refine (read_one hformat _ rest _).mpr ⟨op, operand, ?_, hop, hreg, has, rfl⟩
      rw [hbw]
    | jump condition offset =>
      obtain ⟨hformat, hcond, hoffset⟩ := fields_jump condition offset
      have hread := read_jump hformat rest
      rw [hcond, hoffset] at hread
      exact hread

end Instruction

/-- **The instructions as a prefix code.** -/
def instructions : Codec Instruction (BitVec 16) where
  write := Instruction.words
  read := Instruction.read
  read_iff := fun ws i rest => Instruction.read_iff ws rest i

namespace Instruction

@[simp] theorem length_words (i : Instruction) : i.words.length = 1 + i.extension.length := by
  rw [words, List.length_cons, Nat.add_comm]

/-- The extension words are those that the encoding announces; a jump has none. -/
theorem length_extension (i : Instruction) :
    i.extension.length
      = if 2 ≤ formatId i.word ∧ formatId i.word ≤ 3 then 0 else extensionWords i.word := by
  cases i with
  | two op bw src dst =>
    obtain ⟨hop, hsrc, had, -, has, -⟩ := fields_two op bw src dst
    have hfour := op.four_le_code
    have hhigh : ∀ f : Fin 16, 4 ≤ f → ¬ (2 ≤ f ∧ f ≤ 3) ∧ f ≠ 1 := by decide
    obtain ⟨h3, h1⟩ := hhigh _ (hop ▸ hfour)
    rw [if_neg h3, extensionWords, if_neg h1, hsrc, has, had, extension, List.length_append,
      Operand.length_extension, Target.length_extension]
  | one op bw operand =>
    obtain ⟨hformat, -, -, has, hreg⟩ := fields_one op bw operand
    have h3 : ¬ (2 ≤ formatId (one op bw operand).word ∧
        formatId (one op bw operand).word ≤ 3) := by
      rw [hformat.1]
      decide
    rw [if_neg h3, extensionWords, if_pos hformat.1, hreg, has, extension,
      Operand.length_extension]
  | jump condition offset =>
    rw [if_pos (fields_jump condition offset).1]
    rfl

/-- Every register and mode is that of an operand, and every extension word fits. -/
theorem exists_operand (r : Fin 16) (m : Fin 4) : ∃ o : Operand, r = o.reg ∧ m = o.mode := by
  have hcases : ∀ r : Fin 16, ∀ m : Fin 4, (∃ c : Constant, r = c.reg ∧ m = c.mode) ∨
      (m = 0 ∧ r ≠ 3) ∨ (m = 1 ∧ (Base r ∨ r = 0 ∨ r = 2)) ∨ (m = 2 ∧ r ≠ 2 ∧ r ≠ 3) ∨
      (m = 3 ∧ (Base r ∨ r = 0)) := by
    have hread : ∀ r : Fin 16, ∀ m : Fin 4, (Constant.read r m).isSome ∨
        (m = 0 ∧ r ≠ 3) ∨ (m = 1 ∧ (Base r ∨ r = 0 ∨ r = 2)) ∨ (m = 2 ∧ r ≠ 2 ∧ r ≠ 3) ∨
        (m = 3 ∧ (Base r ∨ r = 0)) := by decide
    intro r m
    refine (hread r m).imp_left fun h => ?_
    obtain ⟨c, hc⟩ := Option.isSome_iff_exists.mp h
    exact ⟨c, (Constant.read_iff r m c).mp hc⟩
  rcases hcases r m with ⟨c, rfl, rfl⟩ | ⟨rfl, h⟩ | ⟨rfl, h | rfl | rfl⟩ | ⟨rfl, h⟩ |
    ⟨rfl, h | rfl⟩
  · exact ⟨.constant c, rfl, rfl⟩
  · exact ⟨.register r h, rfl, rfl⟩
  · exact ⟨.indexed r 0 h, rfl, rfl⟩
  · exact ⟨.symbolic 0, rfl, rfl⟩
  · exact ⟨.absolute 0, rfl, rfl⟩
  · exact ⟨.indirect r h, rfl, rfl⟩
  · exact ⟨.autoIncrement r h, rfl, rfl⟩
  · exact ⟨.immediate 0, rfl, rfl⟩

theorem exists_target (r : Fin 16) (m : Bool) : ∃ t : Target, r = t.reg ∧ m = t.mode := by
  cases m with
  | false => exact ⟨.register r, rfl, rfl⟩
  | true =>
    by_cases h0 : r = 0
    · exact ⟨.symbolic 0, h0, rfl⟩
    · by_cases h2 : r = 2
      · exact ⟨.absolute 0, h2, rfl⟩
      · exact ⟨.indexed r 0 ⟨h0, h2⟩, rfl, rfl⟩

/-- **The words of instructions are the documented ones.** -/
theorem documented_iff (w : BitVec 16) : (∃ i : Instruction, i.word = w) ↔ ¬ Undocumented w := by
  constructor
  · rintro ⟨i, rfl⟩
    rw [Undocumented]
    cases i with
    | two op bw src dst =>
      have hhigh : ∀ f : Fin 16, 4 ≤ f → f ≠ 0 ∧ f ≠ 1 := by decide
      obtain ⟨h0, h1⟩ := hhigh _ ((fields_two op bw src dst).1 ▸ op.four_le_code)
      exact not_or.mpr ⟨h0, fun h => h1 h.1⟩
    | one op bw operand =>
      obtain ⟨hformat, hop, -⟩ := fields_one op bw operand
      rw [hformat.1, hformat.2, hop]
      cases op <;> decide
    | jump condition offset =>
      have hhigh : ∀ f : Fin 16, 2 ≤ f ∧ f ≤ 3 → f ≠ 0 ∧ f ≠ 1 := by decide
      obtain ⟨h0, h1⟩ := hhigh _ (fields_jump condition offset).1
      exact not_or.mpr ⟨h0, fun h => h1 h.1⟩
  · intro h
    rw [Undocumented, not_or, not_and] at h
    rcases formatId_cases w with h0 | h1 | h3 | h4
    · exact absurd h0 h.1
    · have hbits := not_or.mp (h.2 h1)
      obtain ⟨op, hop⟩ := Option.ne_none_iff_exists'.mp
        (fun hn => hbits.2 ((OneOp.read_eq_none_iff _).mp hn))
      obtain ⟨o, hr, hm⟩ := exists_operand (lowReg w) (asFlag w)
      exact ⟨_, word_one ⟨h1, not_not.mp hbits.1⟩ ((OneOp.read_iff _ op).mp hop) hr hm⟩
    · exact ⟨_, word_jump h3⟩
    · obtain ⟨op, hop⟩ := Option.ne_none_iff_exists'.mp
        (fun hn => absurd ((TwoOp.read_eq_none_iff _).mp hn) (not_lt.mpr h4))
      obtain ⟨o, hr, hm⟩ := exists_operand (sourceReg w) (asFlag w)
      obtain ⟨t, htr, htm⟩ := exists_target (lowReg w) (adFlag w)
      exact ⟨_, word_two ((TwoOp.read_iff _ op).mp hop) hr hm htr htm⟩

end Instruction

end Msp430
