/-
# The bytes that an instruction touches

Every load and store of `fetch`, of the operand blocks and of the execute switches, as the
offsets in `MEMSPACE` of the bytes it reads or writes.  A `uint16_t *` touches two bytes
whatever the width of the instruction: the source of a byte instruction is read as a word, and
so is the old destination value of the opcodes that compute their flags from it.

`usesOnly_cpuStep` and `usesOnly_disassemble` say that the lists are complete: what stands at
any other offset neither matters nor changes.
-/
import Msp430.Footprint
import Msp430.Transparency

namespace Msp430

open Footprint

/-! ## The bytes -/

/-- The offsets of the bytes behind a pointer that is read or written at a width. -/
def Ptr.bytes : Ptr → Width → List ℕ
  | .mem a, .word => [a, a + 1]
  | .mem a, .byte => [a]
  | _, _ => []

/-- `fetch` reads the word at the program counter. -/
def fetchBytes (emu : Emulator) : List ℕ := (getAddrPtr emu.pc).bytes .word

/-- The source operand of `decode_formatI`: the extension word, and the word at the address
formed.  An immediate is the word fetched. -/
def sourceBytesI (emu : Emulator) (w : BitVec 16) : List ℕ :=
  if (constantI w).isSome then []
  else match asFlag w with
    | 0 => []
    | 1 => fetchBytes emu ++ (sourceCellI emu w).bytes .word
    | _ => (sourceCellI emu w).bytes .word

/-- The extension word of the destination. -/
def extensionBytesI (emu : Emulator) (w : BitVec 16) : List ℕ :=
  if adFlag w then (getAddrPtr (emu.pc + sourceAdvance w)).bytes .word else []

/-- The switch of `decode_formatI`: the cases that keep `original_dst_value` read a word in
either width, the others read and write at the width of the instruction, and DADD does neither. -/
def executeBytesI (opcode : Fin 16) (bw : Width) (p : Ptr) : List ℕ :=
  if opcode ∈ [0x5, 0x6, 0x7, 0x8, 0x9] then p.bytes .word
  else if opcode ∈ [0x4, 0xB, 0xC, 0xD, 0xE, 0xF] then p.bytes bw
  else []

/-- `decode_formatI`. -/
def decodeBytesI (emu : Emulator) (w : BitVec 16) (disassemble : Bool) : List ℕ :=
  sourceBytesI emu w ++ extensionBytesI emu w ++
    if disassemble then [] else executeBytesI (formatId w) (bwFlag w) (destinationI emu w false)

/-- The operand of `decode_formatII`; the symbolic address is formed and not read. -/
def sourceBytesII (emu : Emulator) (w : BitVec 16) : List ℕ :=
  if (constantII w).isSome then []
  else match asFlag w with
    | 0 => []
    | 1 => fetchBytes emu ++ if lowReg w = 0 then [] else (sourceCellII emu w).bytes .word
    | 2 => (sourceCellII emu w).bytes .word
    | 3 => if lowReg w = 0 then fetchBytes emu else (sourceCellII emu w).bytes .word

/-- The switch of `decode_formatII`, after the operand block: only RRC looks at the width, PUSH
writes the word on the stack in either. -/
def executeBytesII (emu : Emulator) (opcode : Fin 8) (bw : Width) (p : Ptr) : List ℕ :=
  match opcode with
  | 0x0 => p.bytes bw
  | 0x1 | 0x2 | 0x3 => p.bytes .word
  | 0x4 => (getAddrPtr (emu.sp - 2)).bytes .word
  | 0x5 => (getAddrPtr (emu.sp - 2)).bytes .word ++ p.bytes .word
  | _ => []

/-- `decode_formatII`. -/
def decodeBytesII (emu : Emulator) (w : BitVec 16) (disassemble : Bool) : List ℕ :=
  sourceBytesII emu w ++
    if disassemble then []
    else executeBytesII (operandsII emu w).emu (opcodeII w) (bwFlag w) (sourceCellII emu w)

/-- `decode`; a jump touches no byte. -/
def decodeBytes (emu : Emulator) (w : BitVec 16) (disassemble : Bool) : List ℕ :=
  if formatId w = 1 then decodeBytesII emu w disassemble
  else if 4 ≤ formatId w then decodeBytesI emu w disassemble
  else []

/-- `decode(emu, fetch(emu), EXECUTE)`. -/
def cpuBytes (emu : Emulator) : List ℕ :=
  fetchBytes emu ++ decodeBytes (fetch emu).2 (fetch emu).1 false

/-- One turn of the loop of `disassemble`. -/
def lineBytes (emu : Emulator) : List ℕ :=
  fetchBytes emu ++ decodeBytes (fetch emu).2 (fetch emu).1 true

/-! ## Loads and stores under another memory -/

/-- `MEMSPACE` as the memory of the machine state. -/
def memspace : Cells Emulator ℕ (BitVec 8) where
  get := Emulator.mem
  set := fun emu m => { emu with mem := m }
  get_set := fun _ _ => rfl
  set_get := fun _ => rfl
  set_set := fun _ _ _ => rfl

theorem mem_bytes_iff (p : Ptr) (bw : Width) (a : ℕ) : a ∈ p.bytes bw ↔ Touches p bw a := by
  cases p <;> cases bw <;> simp [Ptr.bytes, Touches]

/-- The byte at a location is one of the two of the word there. -/
theorem bytes_subset (p : Ptr) (bw : Width) : ∀ a ∈ p.bytes bw, a ∈ p.bytes .word := by
  intro a ha
  rw [mem_bytes_iff] at ha ⊢
  exact ha.word

section Memory

variable {emu : Emulator} {m : ℕ → BitVec 8} {p : Ptr}

theorem load16_memspace (hm : ∀ a ∈ p.bytes .word, m a = emu.mem a) :
    (memspace.set emu m).load16 p = emu.load16 p := by
  cases p with
  | reg n => rfl
  | mem a =>
    show joinBytes (m (a + 1)) (m a) = joinBytes (emu.mem (a + 1)) (emu.mem a)
    rw [hm (a + 1) (by simp [Ptr.bytes]), hm a (by simp [Ptr.bytes])]
  | bogus => rfl

theorem load8_memspace (hm : ∀ a ∈ p.bytes .byte, m a = emu.mem a) :
    (memspace.set emu m).load8 p = emu.load8 p := by
  cases p with
  | reg n => rfl
  | mem a => exact hm a (by simp [Ptr.bytes])
  | bogus => rfl

theorem store16_memspace (emu : Emulator) (m : ℕ → BitVec 8) (p : Ptr) (v : BitVec 16) :
    (memspace.set emu m).store16 p v
      = memspace.set (emu.store16 p v) (overlay (p.bytes .word) (emu.store16 p v).mem m) := by
  cases p with
  | reg n => rfl
  | mem a =>
    refine congrArg (memspace.set emu) ?_
    funext b
    by_cases h : b = a + 1 <;> by_cases h' : b = a <;>
      simp [overlay, Ptr.bytes, Emulator.store16, Emulator.setByte, memspace, h, h']
  | bogus => rfl

theorem store8_memspace (emu : Emulator) (m : ℕ → BitVec 8) (p : Ptr) (b : BitVec 8) :
    (memspace.set emu m).store8 p b
      = memspace.set (emu.store8 p b) (overlay (p.bytes .byte) (emu.store8 p b).mem m) := by
  cases p with
  | reg n => rfl
  | mem a =>
    refine congrArg (memspace.set emu) ?_
    funext c
    by_cases h : c = a <;>
      simp [overlay, Ptr.bytes, Emulator.store8, Emulator.setByte, memspace, h]
  | bogus => rfl

end Memory

/-! ## Steps that read one cell and write it -/

section OneCell

variable {f : Emulator → Emulator} {p : Ptr}

/-- A step that reads a word, stores a word there and sets flags. -/
theorem usesOnly_word (v : BitVec 16 → StatusReg → BitVec 16)
    (flags : BitVec 16 → StatusReg → StatusReg)
    (hf : ∀ emu, f emu = { emu.store16 p (v (emu.load16 p) emu.sr) with
      sr := flags (emu.load16 p) emu.sr }) (emu : Emulator) :
    UsesOnly memspace f emu (p.bytes .word) := by
  intro m hm
  have hload := load16_memspace (p := p) hm
  rw [hf, hf, hload]
  have hstore := store16_memspace emu m p (v (emu.load16 p) emu.sr)
  exact congrArg (fun e : Emulator => { e with sr := flags (emu.load16 p) emu.sr }) hstore

/-- A step that reads a byte, stores a byte there and sets flags. -/
theorem usesOnly_byte (v : BitVec 8 → StatusReg → BitVec 8)
    (flags : BitVec 8 → StatusReg → StatusReg)
    (hf : ∀ emu, f emu = { emu.store8 p (v (emu.load8 p) emu.sr) with
      sr := flags (emu.load8 p) emu.sr }) (emu : Emulator) :
    UsesOnly memspace f emu (p.bytes .byte) := by
  intro m hm
  have hload := load8_memspace (p := p) hm
  rw [hf, hf, hload]
  have hstore := store8_memspace emu m p (v (emu.load8 p) emu.sr)
  exact congrArg (fun e : Emulator => { e with sr := flags (emu.load8 p) emu.sr }) hstore

/-- A step that leaves the memory. -/
theorem usesOnly_of_keeps {l : List ℕ} {emu : Emulator}
    (hf : ∀ m, (∀ a ∈ l, m a = emu.mem a) → f (memspace.set emu m) = memspace.set (f emu) m)
    (hmem : (f emu).mem = emu.mem) : UsesOnly memspace f emu l := by
  intro m hm
  rw [hf m hm]
  congr 1
  funext a
  unfold overlay
  split_ifs with ha
  · exact (hm a ha).trans (congrFun hmem a).symm
  · rfl

end OneCell

/-! ## The execute switches -/

/-- The opcodes that store read and write no more than the word at the destination. -/
theorem usesOnly_writes {opcode : Fin 16} (h : Writes opcode) (bw : Width) (s : BitVec 16)
    (p : Ptr) (emu : Emulator) :
    UsesOnly memspace (fun e => executeI e opcode bw s p) emu (p.bytes .word) := by
  obtain ⟨result, hresult⟩ : ∃ r : BitVec 16 → StatusReg → BitVec 16,
      ∀ e : Emulator, (executeI e opcode bw s p).load16 p = r (e.load16 p) e.sr := by
    cases bw with
    | word =>
      exact ⟨fun d sr => aluResult opcode s d sr.carry,
        fun e => load16_executeI e opcode .word s p h⟩
    | byte =>
      exact ⟨fun d sr => joinBytes (highByte d)
          (aluResult opcode (s.setWidth 8) (d.setWidth 8) sr.carry),
        fun e => load16_executeI e opcode .byte s p h⟩
  refine usesOnly_word result (fun d sr => flagsI opcode bw sr s d (result d sr)) ?_ emu
  intro e
  have hstored : storeResult e opcode bw s p = e.store16 p (result (e.load16 p) e.sr) := by
    rw [← hresult, load16_executeI e opcode bw s p h]
    cases bw with
    | word => rfl
    | byte => rw [storeResult, Emulator.store8_eq_store16, Emulator.load8_eq]
  have heq := executeI_eq_storeResult e opcode bw s p h
  rw [sr_executeI_eq e opcode bw s p h, hresult, hstored] at heq
  exact heq

/-- The byte forms that do not keep the old word. -/
theorem usesOnly_byteForm {opcode : Fin 16} (h : opcode ∈ [0x4, 0xC, 0xD, 0xE, 0xF])
    (s : BitVec 16) (p : Ptr) (emu : Emulator) :
    UsesOnly memspace (fun e => executeI e opcode .byte s p) emu (p.bytes .byte) := by
  fin_cases h
  · exact usesOnly_byte (fun _ _ => s.setWidth 8) (fun _ sr => sr)
      (fun e => (store8_sr e p _).symm) emu
  · exact usesOnly_byte (fun d _ => d &&& (~~~s).setWidth 8) (fun _ sr => sr)
      (fun e => (store8_sr e p _).symm) emu
  · exact usesOnly_byte (fun d _ => d ||| s.setWidth 8) (fun _ sr => sr)
      (fun e => (store8_sr e p _).symm) emu
  · refine usesOnly_byte (fun d _ => d ^^^ s.setWidth 8) (fun d sr => { sr with
      overflow := d >>> 7 != 0 && s.setWidth 8 >>> 7 != 0
      negative := (d ^^^ s.setWidth 8) >>> 7 != 0
      zero := d ^^^ s.setWidth 8 == 0
      carry := d ^^^ s.setWidth 8 != 0 }) (fun e => ?_) emu
    show execXor e .byte s p = _
    simp only [execXor, Emulator.load8_store8, Emulator.sr_store8]
  · refine usesOnly_byte (fun d _ => d &&& s.setWidth 8) (fun d sr => { sr with
      negative := (d &&& s.setWidth 8) >>> 7 != 0
      zero := d &&& s.setWidth 8 == 0
      carry := d &&& s.setWidth 8 != 0
      overflow := false }) (fun e => ?_) emu
    show execAnd e .byte s p = _
    simp only [execAnd, Emulator.load8_store8, Emulator.sr_store8]

/-- **The switch of `decode_formatI`.** -/
theorem usesOnly_executeI (opcode : Fin 16) (bw : Width) (s : BitVec 16) (p : Ptr)
    (emu : Emulator) :
    UsesOnly memspace (fun e => executeI e opcode bw s p) emu (executeBytesI opcode bw p) := by
  unfold executeBytesI
  by_cases hkeep : opcode ∈ [0x5, 0x6, 0x7, 0x8, 0x9]
  · rw [if_pos hkeep]
    by_cases hw : Writes opcode
    · exact usesOnly_writes hw bw s p emu
    · -- CMP
      obtain rfl : opcode = 0x9 := by revert opcode; decide
      refine usesOnly_of_keeps (fun m hm => ?_) rfl
      show execCmp _ _ _ _ = memspace.set (execCmp emu bw s p) m
      have hload := load16_memspace (p := p) hm
      have hload8 := load8_memspace (p := p) fun a ha => hm a (bytes_subset p .byte a ha)
      simp only [execCmp, hload, hload8]
      rfl
  · rw [if_neg hkeep]
    by_cases hrest : opcode ∈ [0x4, 0xB, 0xC, 0xD, 0xE, 0xF]
    · rw [if_pos hrest]
      by_cases hbit : opcode = 0xB
      · subst hbit
        cases bw with
        | word =>
          refine usesOnly_of_keeps (fun m hm => ?_) rfl
          show execBit (memspace.set emu m) .word s p = memspace.set (execBit emu .word s p) m
          simp only [execBit, load16_memspace (p := p) hm]
          rfl
        | byte =>
          refine usesOnly_of_keeps (fun m hm => ?_) rfl
          show execBit (memspace.set emu m) .byte s p = memspace.set (execBit emu .byte s p) m
          simp only [execBit, load8_memspace (p := p) hm]
          rfl
      · cases bw with
        | word => exact usesOnly_writes (by revert opcode; decide) .word s p emu
        | byte => exact usesOnly_byteForm (by revert opcode; decide) s p emu
    · rw [if_neg hrest]
      have hw : ¬ Writes opcode := by revert opcode; decide
      have hc : ¬ (opcode = 0x9 ∨ opcode = 0xB) := by revert opcode; decide
      refine usesOnly_of_keeps (fun m _ => ?_) ?_
      · show executeI _ _ _ _ _ = memspace.set (executeI emu opcode bw s p) m
        rw [executeI_of_not _ _ _ _ _ hw hc, executeI_of_not _ _ _ _ _ hw hc]
      · show (executeI emu opcode bw s p).mem = emu.mem
        rw [executeI_of_not _ _ _ _ _ hw hc]

/-- RRC in byte form reads and writes the low byte. -/
theorem usesOnly_rrcByte (v : BitVec 16) (p : Ptr) (emu : Emulator) :
    UsesOnly memspace (fun e => executeII e 0x0 .byte v p) emu (p.bytes .byte) := by
  refine usesOnly_byte (fun d sr => d >>> 1 ||| if sr.carry then 0x80 else 0)
    (fun d sr => sr.shifted .byte (d.getLsbD 0)
      (joinBytes 0 (d >>> 1 ||| if sr.carry then 0x80 else 0))) (fun e => ?_) emu
  have hlow : (e.load16 p).getLsbD 0 = (e.load8 p).getLsbD 0 := by simp [Emulator.load8_eq]
  show execRrc e .byte p = _
  rw [execRrc_eq, hlow]
  simp only [rrcValue, StatusReg.shifted, isZero, isNegative, setWidth_joinBytes,
    ← Emulator.load8_eq, ← Emulator.store8_eq_store16]

/-- PUSH writes the word on the stack. -/
theorem usesOnly_push (bw : Width) (v : BitVec 16) (emu : Emulator) :
    UsesOnly memspace (fun e => execPush e bw v) emu
      ((getAddrPtr (emu.sp - 2)).bytes .word) := by
  intro m hm
  obtain ⟨e, he⟩ : ∃ e, e = emu.setReg 1 (emu.sp - 2) := ⟨_, rfl⟩
  have hset : (memspace.set emu m).setReg 1 (emu.sp - 2) = memspace.set e m := by
    rw [he]
    rfl
  have hload : (memspace.set e m).load16 (getAddrPtr (emu.sp - 2))
      = e.load16 (getAddrPtr (emu.sp - 2)) :=
    load16_memspace fun a ha => by rw [hm a ha, he]; rfl
  have hsp : (memspace.set emu m).sp = emu.sp := rfl
  show execPush _ _ _ = memspace.set (execPush emu bw v) (overlay _ (execPush emu bw v).mem m)
  rw [execPush_eq, execPush_eq, hsp, hset, ← he]
  cases bw with
  | word => exact store16_memspace _ _ _ v
  | byte =>
    simp only [Emulator.store8_eq_store16, hload]
    exact store16_memspace _ _ _ _

/-- CALL writes the return address on the stack and reads its operand after that. -/
theorem usesOnly_call (p : Ptr) (emu : Emulator) :
    UsesOnly memspace (fun e => execCall e p) emu
      ((getAddrPtr (emu.sp - 2)).bytes .word ++ p.bytes .word) := by
  obtain ⟨e, he⟩ : ∃ e : Emulator → Emulator, e = fun e => execPush e .word e.pc := ⟨_, rfl⟩
  have hpush : UsesOnly memspace e emu ((getAddrPtr (emu.sp - 2)).bytes .word) := by
    intro m hm
    have := usesOnly_push .word emu.pc emu m hm
    rw [he]
    exact this
  have hread (s : Emulator) :
      UsesOnly memspace (fun t => t.setReg 0 (t.load16 p)) s (p.bytes .word) := by
    refine usesOnly_of_keeps (fun m hm => ?_) rfl
    show (memspace.set s m).setReg 0 ((memspace.set s m).load16 p) = _
    rw [load16_memspace hm]
    rfl
  have hcall : (fun e => execCall e p) = (fun t => t.setReg 0 (t.load16 p)) ∘ e := by
    funext t
    rw [he, Function.comp_apply, execCall_eq, execPush_eq]
  rw [hcall]
  exact hpush.comp (hread _)

/-- **The switch of `decode_formatII`.** -/
theorem usesOnly_executeII (opcode : Fin 8) (bw : Width) (v : BitVec 16) (p : Ptr)
    (emu : Emulator) :
    UsesOnly memspace (fun e => executeII e opcode bw v p) emu
      (executeBytesII emu opcode bw p) := by
  have hshift (opcode : Fin 8) (ho : opcode ≤ 3) :
      UsesOnly memspace (fun e => executeII e opcode bw v p) emu (p.bytes .word) :=
    usesOnly_word (fun d sr => shiftValue opcode bw sr.carry d)
      (fun d sr => shiftFlags opcode bw sr d) (fun e => executeII_shift e bw v p ho) emu
  have hnone (opcode : Fin 8) (ho : 6 ≤ opcode) :
      UsesOnly memspace (fun e => executeII e opcode bw v p) emu [] := by
    have hid (e : Emulator) : executeII e opcode bw v p = e := by
      obtain rfl | rfl : opcode = 6 ∨ opcode = 7 := by revert opcode; decide
      · rfl
      · rfl
    refine usesOnly_of_keeps (fun m _ => ?_) (congrArg _ (hid emu))
    rw [hid, hid]
  have hcases : opcode = 0 ∨ opcode = 1 ∨ opcode = 2 ∨ opcode = 3 ∨ opcode = 4 ∨ opcode = 5 ∨
      6 ≤ opcode := by
    revert opcode
    decide
  rcases hcases with rfl | rfl | rfl | rfl | rfl | rfl | ho
  · cases bw with
    | word => exact hshift 0 (by decide)
    | byte => exact usesOnly_rrcByte v p emu
  · exact hshift 1 (by decide)
  · exact hshift 2 (by decide)
  · exact hshift 3 (by decide)
  · exact usesOnly_push bw v emu
  · exact usesOnly_call p emu
  · have hbytes : executeBytesII emu opcode bw p = [] := by
      obtain rfl | rfl : opcode = 6 ∨ opcode = 7 := by revert opcode; decide
      · rfl
      · rfl
    rw [hbytes]
    exact hnone opcode ho

/-! ## The operand blocks -/

section Operands

variable {emu : Emulator} {m : ℕ → BitVec 8} {w : BitVec 16}

/-- The register cells do not depend on the memory. -/
theorem regsI_memspace (disassemble : Bool) :
    regsI (memspace.set emu m) w disassemble = regsI emu w disassemble := by
  funext n
  simp only [regsI, unmaskedI, regs_lookupsI]
  rfl

/-- The source operand, where the bytes it is read from are the same. -/
theorem sourceValueI_memspace (hm : ∀ a ∈ sourceBytesI emu w, m a = emu.mem a) :
    sourceValueI (memspace.set emu m) w = sourceValueI emu w := by
  unfold sourceBytesI at hm
  unfold sourceValueI
  cases hc : constantI w with
  | some c => rfl
  | none =>
    rw [hc, if_neg (show ¬ (none : Option (BitVec 16)).isSome = true by decide)] at hm
    rcases asFlag_cases w with h | h | h | h <;> simp only [h] at hm ⊢
    · simp only [regs_lookupsI]
      rfl
    · have hext : sourceExtension (memspace.set emu m) = sourceExtension emu :=
        load16_memspace fun a ha => hm a (List.mem_append_left _ ha)
      have hcell : sourceCellI (memspace.set emu m) w = sourceCellI emu w := by
        simp only [sourceCellI, h, hext]
        rfl
      rw [hcell]
      exact load16_memspace fun a ha => hm a (List.mem_append_right _ ha)
    · have hcell : sourceCellI (memspace.set emu m) w = sourceCellI emu w := by
        simp only [sourceCellI, h]
        rfl
      rw [hcell]
      exact load16_memspace hm
    · have hcell : sourceCellI (memspace.set emu m) w = sourceCellI emu w := by
        simp only [sourceCellI, h]
        rfl
      rw [hcell]
      exact load16_memspace hm

/-- The destination, where its extension word is the same. -/
theorem destinationI_memspace (disassemble : Bool)
    (hm : ∀ a ∈ extensionBytesI emu w, m a = emu.mem a) :
    destinationI (memspace.set emu m) w disassemble = destinationI emu w disassemble := by
  unfold extensionBytesI at hm
  unfold destinationI
  cases ha : adFlag w with
  | false => rfl
  | true =>
    rw [ha, if_pos rfl] at hm
    have hext : destinationExtension (memspace.set emu m) w = destinationExtension emu w :=
      load16_memspace hm
    rw [hext, regsI_memspace]
    rfl

/-- **Format I.** -/
theorem usesOnly_decodeFormatI (emu : Emulator) (w : BitVec 16) (disassemble : Bool) :
    UsesOnly memspace (fun e => decodeFormatI e w disassemble) emu
      (decodeBytesI emu w disassemble) := by
  have hemu (m : ℕ → BitVec 8) : (operandsI (memspace.set emu m) w disassemble).emu
      = memspace.set (operandsI emu w disassemble).emu m := by
    rw [operandsI_emu, operandsI_emu, regsI_memspace]
    rfl
  cases disassemble with
  | true =>
    refine usesOnly_of_keeps (fun m _ => ?_) (mem_operandsI emu w true)
    exact hemu m
  | false =>
    intro m hm
    have hsource : ∀ a ∈ sourceBytesI emu w, m a = emu.mem a := fun a ha =>
      hm a (List.mem_append_left _ (List.mem_append_left _ ha))
    have hextension : ∀ a ∈ extensionBytesI emu w, m a = emu.mem a := fun a ha =>
      hm a (List.mem_append_left _ (List.mem_append_right _ ha))
    have hdecode (e : Emulator) : decodeFormatI e w false
        = executeI (operandsI e w false).emu (formatId w) (bwFlag w) (sourceValueI e w)
            (destinationI e w false) := by
      rw [decodeFormatI, operandsI_sourceValue, operandsI_destinationAddr]
      rfl
    have hexec : UsesOnly memspace _ _ (decodeBytesI emu w false) :=
      (usesOnly_executeI (formatId w) (bwFlag w) (sourceValueI emu w)
        (destinationI emu w false) (operandsI emu w false).emu).mono
          fun a ha => List.mem_append_right _ ha
    have hmem : (operandsI emu w false).emu.mem = emu.mem := mem_operandsI emu w false
    show decodeFormatI (memspace.set emu m) w false = _
    rw [hdecode, hemu, sourceValueI_memspace hsource, destinationI_memspace false hextension]
    refine (hexec m fun a ha => (hm a ha).trans (congrFun hmem a).symm).trans ?_
    dsimp only
    rw [← hdecode]

/-- The register cells of Format II do not depend on the memory either. -/
theorem regsII_memspace : regsII (memspace.set emu m) w = regsII emu w := by
  funext n
  simp only [regsII, unmaskedII, regs_lookupII]
  rfl

/-- The extension word of Format II, where there is one. -/
theorem extensionII_memspace (hc : constantII w = none)
    (hx : asFlag w = 1 ∨ asFlag w = 3 ∧ lowReg w = 0)
    (hm : ∀ a ∈ sourceBytesII emu w, m a = emu.mem a) :
    extensionII (memspace.set emu m) = extensionII emu := by
  refine load16_memspace fun a ha => hm a ?_
  rw [sourceBytesII, hc, if_neg (show ¬ (none : Option (BitVec 16)).isSome = true by decide)]
  rcases hx with h | ⟨h, h0⟩
  · simp only [h]
    exact List.mem_append_left _ ha
  · simp only [h, if_pos h0]
    exact ha

/-- What Format II resolves, where the bytes it is read from are the same. -/
theorem sourceCellII_memspace (hm : ∀ a ∈ sourceBytesII emu w, m a = emu.mem a) :
    sourceCellII (memspace.set emu m) w = sourceCellII emu w := by
  unfold sourceCellII
  by_cases hc : ((constantII w).isSome || immediateII w) = true
  · rw [if_pos hc, if_pos hc]
  · rw [if_neg hc, if_neg hc]
    rcases asFlag_cases w with h | h | h | h <;> simp only [h]
    · rw [extensionII_memspace (constantII_eq_none hc) (Or.inl h) hm]
      rfl
    · rfl
    · rfl

theorem bogusII_memspace (hm : ∀ a ∈ sourceBytesII emu w, m a = emu.mem a) :
    bogusII (memspace.set emu m) w = bogusII emu w := by
  unfold bogusII
  cases hc : constantII w with
  | some c => rfl
  | none =>
    by_cases hi : immediateII w = true
    · have hx : asFlag w = 3 ∧ lowReg w = 0 := by simpa [immediateII, hc] using hi
      simp only [if_pos hi]
      exact extensionII_memspace hc (Or.inr hx) hm
    · simp only [if_neg hi]
      rfl

theorem sourceValueII_memspace (hm : ∀ a ∈ sourceBytesII emu w, m a = emu.mem a) :
    sourceValueII (memspace.set emu m) w = sourceValueII emu w := by
  unfold sourceValueII
  cases hc : constantII w with
  | some c => rfl
  | none =>
    by_cases hi : immediateII w = true
    · have hx : asFlag w = 3 ∧ lowReg w = 0 := by simpa [immediateII, hc] using hi
      simp only [if_pos hi]
      exact extensionII_memspace hc (Or.inr hx) hm
    by_cases h0 : asFlag w = 0
    · simp only [if_neg hi, if_pos h0, regs_lookupII]
      rfl
    by_cases hs : asFlag w = 1 ∧ lowReg w = 0
    · simp only [if_neg hi, if_neg h0, if_pos hs]
      rfl
    simp only [if_neg hi, if_neg h0, if_neg hs, sourceCellII_memspace hm]
    -- the operand is in memory, and its word is read
    refine load16_memspace fun a ha => hm a ?_
    rw [sourceBytesII, hc, if_neg (show ¬ (none : Option (BitVec 16)).isSome = true by decide)]
    rcases asFlag_cases w with h | h | h | h <;> simp only [h]
    · exact absurd h h0
    · rw [if_neg (fun hr => hs ⟨h, hr⟩)]
      exact List.mem_append_right _ ha
    · exact ha
    · rw [if_neg (fun hr => hi (by simp [immediateII, hc, h, hr]))]
      exact ha

/-- **Format II.** -/
theorem usesOnly_decodeFormatII (emu : Emulator) (w : BitVec 16) (disassemble : Bool) :
    UsesOnly memspace (fun e => decodeFormatII e w disassemble) emu
      (decodeBytesII emu w disassemble) := by
  have hmem : (operandsII emu w).emu.mem = emu.mem := by rw [operandsII_emu]
  have hemu (m : ℕ → BitVec 8) (hm : ∀ a ∈ sourceBytesII emu w, m a = emu.mem a) :
      (operandsII (memspace.set emu m) w).emu = memspace.set (operandsII emu w).emu m := by
    rw [operandsII_emu, operandsII_emu, regsII_memspace, bogusII_memspace hm]
    rfl
  have hsource (m : ℕ → BitVec 8)
      (hm : ∀ a ∈ decodeBytesII emu w disassemble, m a = emu.mem a) :
      ∀ a ∈ sourceBytesII emu w, m a = emu.mem a := fun a ha => hm a (List.mem_append_left _ ha)
  cases disassemble with
  | true => exact usesOnly_of_keeps (fun m hm => hemu m (hsource m hm)) hmem
  | false =>
    intro m hm
    have hdecode (e : Emulator) : decodeFormatII e w false
        = executeII (operandsII e w).emu (opcodeII w) (bwFlag w) (sourceValueII e w)
            (sourceCellII e w) := by
      rw [decodeFormatII, (operandsII_source e w).1, (operandsII_source e w).2]
      rfl
    have hexec : UsesOnly memspace _ _ (decodeBytesII emu w false) :=
      (usesOnly_executeII (opcodeII w) (bwFlag w) (sourceValueII emu w)
        (sourceCellII emu w) (operandsII emu w).emu).mono
          fun a ha => List.mem_append_right _ ha
    show decodeFormatII (memspace.set emu m) w false = _
    rw [hdecode, hemu m (hsource m hm), sourceValueII_memspace (hsource m hm),
      sourceCellII_memspace (hsource m hm)]
    refine (hexec m fun a ha => (hm a ha).trans (congrFun hmem a).symm).trans ?_
    dsimp only
    rw [← hdecode]

end Operands

/-! ## Instructions and listings -/

theorem usesOnly_decode (emu : Emulator) (w : BitVec 16) (disassemble : Bool) :
    UsesOnly memspace (fun e => decode e w disassemble) emu
      (decodeBytes emu w disassemble) := by
  unfold decodeBytes
  rcases formatId_cases w with h | h | h | h
  · have hkeep : ¬ (4 : Fin 16) ≤ formatId w := by rw [h]; decide
    rw [if_neg (by rw [h]; decide), if_neg hkeep]
    refine usesOnly_of_keeps (fun m _ => ?_) ?_
    · rw [decode_invalid _ _ _ h, decode_invalid _ _ _ h]
      rfl
    · rw [decode_invalid _ _ _ h]
  · rw [if_pos h]
    have hfun : (fun e => decode e w disassemble) = fun e => decodeFormatII e w disassemble :=
      funext fun e => decode_formatII e w disassemble h
    rw [hfun]
    exact usesOnly_decodeFormatII emu w disassemble
  · have hkeep : ¬ (4 : Fin 16) ≤ formatId w := fun hc => absurd (le_trans hc h.2) (by decide)
    rw [if_neg (formatId_ne_one h.1), if_neg hkeep]
    have hjump (e : Emulator) : decode e w disassemble = decodeFormatIII e w disassemble :=
      decode_formatIII e w disassemble h
    refine usesOnly_of_keeps (fun m _ => ?_) ?_
    · rw [hjump, hjump, decodeFormatIII, decodeFormatIII,
        show (memspace.set emu m).sr = emu.sr from rfl]
      split_ifs <;> rfl
    · rw [hjump, decodeFormatIII]
      split_ifs <;> rfl
  · rw [if_neg (formatId_ne_one (le_trans (by decide) h)), if_pos h]
    have hfun : (fun e => decode e w disassemble) = fun e => decodeFormatI e w disassemble :=
      funext fun e => decode_formatI e w disassemble h
    rw [hfun]
    exact usesOnly_decodeFormatI emu w disassemble

/-- An instruction or a line of a listing, fetched and decoded. -/
theorem usesOnly_fetched (emu : Emulator) (disassemble : Bool) :
    UsesOnly memspace (fun e => decode (fetch e).2 (fetch e).1 disassemble) emu
      (fetchBytes emu ++ decodeBytes (fetch emu).2 (fetch emu).1 disassemble) := by
  intro m hm
  have hword : (fetch (memspace.set emu m)).1 = (fetch emu).1 :=
    load16_memspace fun a ha => hm a (List.mem_append_left _ ha)
  have hdecode : UsesOnly memspace _ _
      (fetchBytes emu ++ decodeBytes (fetch emu).2 (fetch emu).1 disassemble) :=
    (usesOnly_decode (fetch emu).2 (fetch emu).1 disassemble).mono
      fun a ha => List.mem_append_right _ ha
  show decode (fetch (memspace.set emu m)).2 (fetch (memspace.set emu m)).1 disassemble = _
  rw [hword]
  exact hdecode m hm

/-- **An instruction uses no byte but those listed.** -/
theorem usesOnly_cpuStep (emu : Emulator) : UsesOnly memspace cpuStep emu (cpuBytes emu) :=
  usesOnly_fetched emu false

/-- **A line of a listing uses no byte but those listed.** -/
theorem usesOnly_disassembleLine (emu : Emulator) :
    UsesOnly memspace disassembleLine emu (lineBytes emu) :=
  usesOnly_fetched emu true

/-- `disassemble`: what its lines touch. -/
def disassembleBytes (emu : Emulator) (start : BitVec 16) (times : BitVec 8) : List ℕ :=
  gather disassembleLine lineBytes times.toNat (listingStart emu start)

/-- **A listing uses no byte but those listed.** -/
theorem usesOnly_disassemble (emu : Emulator) (start : BitVec 16) (times : BitVec 8) :
    UsesOnly memspace (fun e => disassemble e start times) emu
      (disassembleBytes emu start times) := by
  intro m hm
  have hrun := UsesOnly.iterate usesOnly_disassembleLine times.toNat (listingStart emu start) m hm
  show disassemble (memspace.set emu m) start times = _
  rw [disassemble_eq,
    show listingStart (memspace.set emu m) start = memspace.set (listingStart emu start) m from rfl,
    hrun]
  rfl

end Msp430
