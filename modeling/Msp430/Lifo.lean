/-
# Pushes and the pops that undo them

`k` PUSH instructions followed by the `k` POPs of the same widths in reverse order.  PUSH
moves the stack pointer by two in both widths, `MOV.B @SP+, Rn` by one, so that a byte POP
leaves the stack pointer below the word it has read.  `lifo_iff` says that the stack is
last-in first-out exactly for the sequences without a byte form.
-/
import Msp430.Calls

namespace Msp430

/-! ## Programs of pushes and pops -/

/-- The operands of the pushes: the registers R4 … R15, immediates and constants. -/
def PushesValue (w : BitVec 16) : Prop :=
  (asFlag w = 0 ∧ 4 ≤ lowReg w) ∨ immediateII w = true ∨ (constantII w).isSome = true

instance (w : BitVec 16) : Decidable (PushesValue w) :=
  inferInstanceAs (Decidable (_ ∨ _))

/-- A PUSH, with the extension word of an immediate, and the POP that undoes it. -/
structure PushPop where
  push : BitVec 16
  extension : BitVec 16
  pop : BitVec 16
  pushes : Pushes push
  value : PushesValue push
  pops : Pops pop
  target : lowReg pop ≠ 0 ∧ lowReg pop ≠ 1 ∧ lowReg pop ≠ 2
  width : bwFlag pop = bwFlag push

/-- The words of the PUSH. -/
def PushPop.code (x : PushPop) : List (BitVec 16) :=
  if extendedII x.push then [x.push, x.extension] else [x.push]

/-- The pushes of a list in order, then the pops in reverse order. -/
def program (xs : List PushPop) : List (BitVec 16) :=
  xs.flatMap PushPop.code ++ xs.reverse.map PushPop.pop

theorem program_cons (x : PushPop) (xs : List PushPop) :
    program (x :: xs) = x.code ++ (program xs ++ [x.pop]) := by
  simp [program]

/-! ## Words of code -/

/-- The `i`-th word of the code at `a`. -/
def codeWord (a : BitVec 16) (i : ℕ) : Ptr := getAddrPtr (a + BitVec.ofNat 16 (2 * i))

/-- The words stand at `a`. -/
def CodeAt (emu : Emulator) (a : BitVec 16) (ws : List (BitVec 16)) : Prop :=
  ∀ i (h : i < ws.length), emu.load16 (codeWord a i) = ws[i]

instance (emu : Emulator) (a : BitVec 16) (ws : List (BitVec 16)) :
    Decidable (CodeAt emu a ws) :=
  inferInstanceAs (Decidable (∀ i (h : i < ws.length), emu.load16 (codeWord a i) = ws[i]))

theorem codeWord_zero (a : BitVec 16) : codeWord a 0 = getAddrPtr a := by
  simp [codeWord]

/-- Words counted from a word. -/
theorem codeWord_add (a : BitVec 16) (i j : ℕ) :
    codeWord (a + BitVec.ofNat 16 (2 * i)) j = codeWord a (i + j) := by
  rw [codeWord, codeWord, Nat.mul_add, BitVec.ofNat_add, BitVec.add_assoc]

theorem CodeAt.left {emu : Emulator} {a : BitVec 16} {xs ys : List (BitVec 16)}
    (h : CodeAt emu a (xs ++ ys)) : CodeAt emu a xs := by
  intro i hi
  rw [h i (by rw [List.length_append]; omega), List.getElem_append_left hi]

theorem CodeAt.right {emu : Emulator} {a : BitVec 16} {xs ys : List (BitVec 16)}
    (h : CodeAt emu a (xs ++ ys)) : CodeAt emu (a + BitVec.ofNat 16 (2 * xs.length)) ys := by
  intro i hi
  rw [codeWord_add, h (xs.length + i) (by rw [List.length_append]; omega),
    List.getElem_append_right (Nat.le_add_right _ _)]
  simp

/-- The first word of the code at the program counter is the next instruction. -/
theorem CodeAt.fetch {emu : Emulator} {w : BitVec 16} {ws : List (BitVec 16)}
    (h : CodeAt emu emu.pc (w :: ws)) : (fetch emu).1 = w := by
  have := h 0 (by simp)
  rwa [codeWord_zero] at this

/-- The words of the code and the first `k` words of the stack share no byte. -/
def Spares (emu : Emulator) (len k : ℕ) : Prop :=
  ∀ i < len, ∀ j, 0 < j → j ≤ k → (codeWord emu.pc i).Disjoint (stackSlot emu.sp j)

/-- A state that has changed memory in the first `k` words below `top` only. -/
def KeepsMemory (emu emu' : Emulator) (top : BitVec 16) (k : ℕ) : Prop :=
  ∀ a, (∀ j, 0 < j → j ≤ k → ¬ Touches (stackSlot top j) .word a) → emu'.mem a = emu.mem a

theorem KeepsMemory.load16 {emu emu' : Emulator} {top a : BitVec 16} {k : ℕ}
    (h : KeepsMemory emu emu' top k)
    (hdis : ∀ j, 0 < j → j ≤ k → (getAddrPtr a).Disjoint (stackSlot top j)) :
    emu'.load16 (getAddrPtr a) = emu.load16 (getAddrPtr a) := by
  have hbyte (b : ℕ) (hb : b = a.toNat ∨ b = a.toNat + 1) : emu'.mem b = emu.mem b := by
    refine h b fun j hj hjk htouch => ?_
    have hd : a.toNat + 1 < (Descending.slot top j).toNat
        ∨ (Descending.slot top j).toNat + 1 < a.toNat := hdis j hj hjk
    have ht : b = (Descending.slot top j).toNat ∨ b = (Descending.slot top j).toNat + 1 :=
      htouch
    omega
  simp only [getAddrPtr, Emulator.load16]
  rw [hbyte _ (Or.inl rfl), hbyte _ (Or.inr rfl)]

/-! ## One PUSH and one POP -/

/-- A pushed value does not come from the stack, the program counter or a register that is
auto-incremented. -/
theorem PushesValue.plain {w : BitVec 16} (h : PushesValue w) :
    autoIncrementsII w = false ∧ (asFlag w = 0 → lowReg w ≠ 0 ∧ lowReg w ≠ 1) := by
  rcases h with ⟨ha, hr⟩ | himm | hc
  · refine ⟨by simp [autoIncrementsII, ha], fun _ => ⟨?_, ?_⟩⟩
    · rintro h0
      rw [h0] at hr
      exact absurd hr (by decide)
    · rintro h1
      rw [h1] at hr
      exact absurd hr (by decide)
  · simp only [immediateII, Bool.and_eq_true, beq_iff_eq] at himm
    obtain ⟨⟨-, ha⟩, hr⟩ := himm
    refine ⟨by simp [autoIncrementsII, hr], fun h0 => ?_⟩
    rw [ha] at h0
    exact absurd h0 (by decide)
  · refine ⟨by simp [autoIncrementsII, Option.isSome_iff_ne_none.mp hc], fun h0 => ⟨?_, ?_⟩⟩
    · intro hr
      rw [constantII, h0, hr] at hc
      exact absurd hc (by decide)
    · intro hr
      rw [constantII, h0, hr] at hc
      exact absurd hc (by decide)

/-- A pushed value is not in memory, an immediate apart. -/
theorem PushesValue.operandAddress_eq {w : BitVec 16} (h : PushesValue w) (emu : Emulator) :
    operandAddress emu w = none := by
  unfold operandAddress
  rcases h with ⟨ha, -⟩ | himm | hc
  · simp only [ha]
    split_ifs <;> rfl
  · rw [himm, Bool.or_true, if_pos rfl]
  · rw [hc, Bool.true_or, if_pos rfl]

/-- The program counter and the stack pointer after the operand block of a PUSH. -/
theorem regsII_of_pushesValue (emu : Emulator) {w : BitVec 16} (h : PushesValue w) :
    regsII emu w 0 = emu.pc + advanceII w ∧ regsII emu w 1 = emu.sp := by
  obtain ⟨hinc, hplain⟩ := h.plain
  have hmask (n : Fin 16) (hn : n = 0 ∨ n = 1) :
      (masksOperand w && n == lowReg w) = false := by
    rw [Bool.and_eq_false_imp]
    intro hm
    simp only [masksOperand, Bool.and_eq_true, beq_iff_eq] at hm
    obtain ⟨h0, h1⟩ := hplain hm.2
    rw [beq_eq_false_iff_ne]
    rcases hn with rfl | rfl
    · exact Ne.symm h0
    · exact Ne.symm h1
  constructor
  · rw [regsII, hmask 0 (Or.inl rfl), unmaskedII, regs_lookupII_of_ne _ _ (by decide), hinc]
    simp [Emulator.pc]
  · rw [regsII, hmask 1 (Or.inr rfl), unmaskedII, regs_lookupII_of_ne _ _ (by decide), hinc]
    simp [Emulator.sp]

/-- **One PUSH**: past its words, two bytes down, and only the new top of the stack written. -/
theorem push_step (x : PushPop) (emu : Emulator) (hw : (fetch emu).1 = x.push) :
    (cpuStep emu).pc = emu.pc + BitVec.ofNat 16 (2 * x.code.length) ∧
      (cpuStep emu).sp = emu.sp - 2 ∧ KeepsMemory emu (cpuStep emu) emu.sp 1 ∧
      (bwFlag x.push = .word →
        (cpuStep emu).load16 (stackSlot emu.sp 1) = operandValue (fetch emu).2 x.push) := by
  obtain ⟨hpc, hsp⟩ := regsII_of_pushesValue (fetch emu).2 x.value
  have hslot : Descending.slot emu.sp 1 = emu.sp - 2 := rfl
  have hstep : cpuStep emu = execPush (operandsII (fetch emu).2 x.push).emu (bwFlag x.push)
      (operandValue (fetch emu).2 x.push) := by
    rw [cpuStep, hw, decode_pushes _ _ x.pushes,
      sourceValueII_of_none (x.value.operandAddress_eq _)]
  have hspe : (operandsII (fetch emu).2 x.push).emu.sp = emu.sp := by
    rw [operandsII_emu]
    exact hsp
  rw [hstep]
  refine ⟨?_, ?_, ?_, ?_⟩
  · rw [Emulator.pc, regs_execPush, if_neg (by decide), operandsII_emu]
    simp only [hpc, PushPop.code, advanceII]
    have hnext : (fetch emu).2.pc = emu.pc + 2 := rfl
    rw [hnext, BitVec.add_assoc]
    split_ifs <;> rfl
  · rw [Emulator.sp, regs_execPush, if_pos rfl, hspe]
  · intro a ha
    have hnot := ha 1 Nat.one_pos le_rfl
    rw [stackSlot, hslot, ← hspe] at hnot
    rw [mem_execPush _ _ _ _ fun ht => hnot ht.word, operandsII_emu]
    rfl
  · intro hbw
    rw [execPush_eq, hbw, hspe]
    exact Emulator.load16_store16 _ _ _

/-- **One POP**: past its word, two bytes up or one, and nothing written. -/
theorem pop_step (x : PushPop) (emu : Emulator) (hw : (fetch emu).1 = x.pop) :
    (cpuStep emu).pc = emu.pc + 2 ∧
      (cpuStep emu).sp = emu.sp + increment (bwFlag x.push) ∧ (cpuStep emu).mem = emu.mem ∧
      (cpuStep emu).regs (lowReg x.pop)
        = truncated (bwFlag x.push) (emu.load16 (getStackPtr emu)) := by
  obtain ⟨hmem, hregs⟩ := decode_pops (fetch emu).2 x.pop x.pops
  obtain ⟨h0, h1, -⟩ := x.target
  rw [cpuStep, hw]
  refine ⟨?_, ?_, hmem, ?_⟩
  · rw [Emulator.pc, hregs, if_neg (Ne.symm h0), if_neg (by decide)]
    rfl
  · rw [Emulator.sp, hregs, if_neg (Ne.symm h1), if_pos rfl, x.width]
    rfl
  · rw [hregs, if_pos rfl, x.width]
    rfl

/-! ## The run of a program -/

/-- The number of byte forms. -/
def byteForms (xs : List PushPop) : ℕ := xs.countP fun x => bwFlag x.push == .byte

theorem byteForms_eq_zero_iff (xs : List PushPop) :
    byteForms xs = 0 ↔ ∀ x ∈ xs, bwFlag x.push = .word := by
  rw [byteForms, List.countP_eq_zero]
  refine forall_congr' fun x => imp_congr_right fun _ => ?_
  cases bwFlag x.push <;> decide

/-- The value that the PUSH at the program counter pushes. -/
def pushedValue (emu : Emulator) : BitVec 16 := operandValue (fetch emu).2 (fetch emu).1

/-- Each POP gives its register what the matching PUSH has pushed: the `i`-th PUSH is step
`i`, and after as many steps as are left without the last `i` its POP is done. -/
def PopsPushed (emu : Emulator) (xs : List PushPop) : Prop :=
  ∀ i (h : i < xs.length), (cpuStep^[2 * xs.length - i] emu).regs (lowReg xs[i].pop)
    = truncated (bwFlag xs[i].push) (pushedValue (cpuStep^[i] emu))

/-- Slots counted from the next slot. -/
theorem stackSlot_sub_two (top : BitVec 16) (j : ℕ) :
    stackSlot (top - 2) j = stackSlot top (j + 1) := by
  have h := Descending.slot_slot top 1 j
  rw [Nat.add_comm] at h
  rw [stackSlot, stackSlot, ← h]
  rfl

/-- The PUSH stands at the beginning of its code. -/
theorem fetch_of_code {x : PushPop} {emu : Emulator} (h : CodeAt emu emu.pc x.code) :
    (fetch emu).1 = x.push := by
  unfold PushPop.code at h
  split_ifs at h
  · exact h.fetch
  · exact h.fetch

/-- The stack pointer after a PUSH, the rest of the program and the POP. -/
theorem sp_of_pair (sp : BitVec 16) (x : PushPop) (xs : List PushPop) :
    sp - 2 - BitVec.ofNat 16 (byteForms xs) + increment (bwFlag x.push)
      = sp - BitVec.ofNat 16 (byteForms (x :: xs)) := by
  rw [byteForms, byteForms, List.countP_cons]
  generalize xs.countP _ = c
  cases bwFlag x.push with
  | word =>
    simp only [increment]
    rw [if_neg (by decide), Nat.add_zero]
    bv_omega
  | byte =>
    simp only [increment]
    rw [if_pos (by decide), BitVec.ofNat_add]
    bv_omega

/-- Behind a PUSH the rest of the code still stands, and it spares the rest of the stack. -/
theorem code_after_push {x : PushPop} {ws : List (BitVec 16)} {k : ℕ} {emu e : Emulator}
    (hcode : CodeAt emu emu.pc (x.code ++ ws))
    (hspare : Spares emu (x.code ++ ws).length (k + 1))
    (hpc : e.pc = emu.pc + BitVec.ofNat 16 (2 * x.code.length)) (hsp : e.sp = emu.sp - 2)
    (hmem : KeepsMemory emu e emu.sp 1) : CodeAt e e.pc ws ∧ Spares e ws.length k := by
  rw [List.length_append] at hspare
  constructor
  · intro i hi
    rw [← hcode.right i hi, hpc, codeWord_add]
    exact hmem.load16 fun j hj hj1 => hspare _ (by omega) j hj (by omega)
  · intro i hi j hj hjk
    rw [hpc, hsp, codeWord_add, stackSlot_sub_two]
    exact hspare _ (by omega) (j + 1) (by omega) (by omega)

/-- A pair around a program in which every POP gets what its PUSH has pushed. -/
theorem popsPushed_cons {x : PushPop} {xs : List PushPop} {emu : Emulator}
    (htail : PopsPushed (cpuStep emu) xs)
    (hhead : (cpuStep^[2 * (xs.length + 1)] emu).regs (lowReg x.pop)
      = truncated (bwFlag x.push) (pushedValue emu)) : PopsPushed emu (x :: xs) := by
  intro i hi
  cases i with
  | zero => exact hhead
  | succ i =>
    have hlt : i < xs.length := by simpa using hi
    have hstep := htail i hlt
    rw [← Function.iterate_succ_apply, ← Function.iterate_succ_apply] at hstep
    rw [List.length_cons, List.getElem_cons_succ, ← hstep]
    congr 2
    omega

/-- **The run of a program.**  It falls through to the word behind it, leaves the stack
pointer as many bytes low as it has byte forms, and writes to the stack alone; without a
byte form every POP gets what its PUSH has pushed. -/
theorem run_program (xs : List PushPop) (emu : Emulator)
    (hcode : CodeAt emu emu.pc (program xs))
    (hspare : Spares emu (program xs).length xs.length) (hroom : 2 * xs.length < 2 ^ 16) :
    (cpuStep^[2 * xs.length] emu).pc
        = emu.pc + BitVec.ofNat 16 (2 * (program xs).length) ∧
      (cpuStep^[2 * xs.length] emu).sp = emu.sp - BitVec.ofNat 16 (byteForms xs) ∧
      KeepsMemory emu (cpuStep^[2 * xs.length] emu) emu.sp xs.length ∧
      ((∀ x ∈ xs, bwFlag x.push = .word) → PopsPushed emu xs) := by
  -- the outermost pair first: the induction hypothesis is the run between its two words
  induction xs generalizing emu with
  | nil => exact ⟨by simp [program], by simp [byteForms], fun _ _ => rfl, fun _ _ h => by simp at h⟩
  | cons x xs ih =>
    rw [program_cons] at hcode hspare ⊢
    rw [List.length_cons] at hspare hroom ⊢
    obtain ⟨hpc, hsp, hmem, hval⟩ := push_step x emu (fetch_of_code hcode.left)
    obtain ⟨e, he⟩ : ∃ e, e = cpuStep emu := ⟨_, rfl⟩
    rw [← he] at hpc hsp hmem hval
    obtain ⟨hcode₁, hspare₁⟩ := code_after_push hcode hspare hpc hsp hmem
    rw [List.length_append, List.length_singleton] at hspare₁
    obtain ⟨ihpc, ihsp, ihmem, ihval⟩ := ih e hcode₁.left
      (fun i hi => hspare₁ i (by omega)) (by omega)
    obtain ⟨e', he'⟩ : ∃ e', e' = cpuStep^[2 * xs.length] e := ⟨_, rfl⟩
    rw [← he'] at ihpc ihsp ihmem
    -- the pairs in between leave the POP and the pushed word
    have hpop : (fetch e').1 = x.pop := by
      have hlast := hcode₁ (program xs).length (by simp)
      rw [List.getElem_concat_length rfl] at hlast
      rw [← hlast]
      show e'.load16 (getAddrPtr e'.pc) = _
      rw [ihpc]
      exact ihmem.load16 fun j hj hjk => hspare₁ _ (by omega) j hj hjk
    have hword : e'.load16 (stackSlot emu.sp 1) = e.load16 (stackSlot emu.sp 1) := by
      refine ihmem.load16 fun j hj hjk => ?_
      rw [hsp, stackSlot_sub_two]
      exact stackSlot_disjoint emu.sp Nat.one_pos (by omega) (by omega)
    obtain ⟨hpc', hsp', hmem', hreg'⟩ := pop_step x e' hpop
    have hiter : cpuStep^[2 * (xs.length + 1)] emu = cpuStep e' := by
      rw [Nat.mul_add, Function.iterate_succ_apply', Function.iterate_succ_apply, ← he, he']
    rw [hiter]
    refine ⟨?_, ?_, ?_, ?_⟩
    · rw [hpc', ihpc, hpc]
      simp only [List.length_append, List.length_singleton, Nat.mul_add, BitVec.ofNat_add,
        BitVec.add_assoc]
      rfl
    · rw [hsp', ihsp, hsp, sp_of_pair]
    · intro a ha
      rw [hmem', ihmem a, hmem a]
      · exact fun j hj hj1 => ha j hj (by omega)
      · intro j hj hjk
        rw [hsp, stackSlot_sub_two]
        exact ha (j + 1) (by omega) (by omega)
    · intro hwords
      have hx := hwords x List.mem_cons_self
      have hxs : ∀ y ∈ xs, bwFlag y.push = .word := fun y hy =>
        hwords y (List.mem_cons_of_mem _ hy)
      -- without byte forms in between the POP finds the word that the PUSH has stored
      have hnone := (byteForms_eq_zero_iff xs).mpr hxs
      have htop : getStackPtr e' = stackSlot emu.sp 1 := by
        rw [getStackPtr, ihsp, hnone, hsp]
        simp [stackSlot, Descending.slot, getAddrPtr]
      apply popsPushed_cons (he ▸ ihval hxs)
      rw [hiter, hreg', htop, hword, hval hx, pushedValue, fetch_of_code hcode.left]

/-! ## Last in, first out -/

/-- The stack is last-in first-out over a program: every POP gets what its PUSH has pushed,
the stack pointer comes back, and the guest's memory is unchanged outside the `2 * k` bytes
below it. -/
def LifoRight (emu : Emulator) (xs : List PushPop) : Prop :=
  PopsPushed emu xs ∧ (cpuStep^[2 * xs.length] emu).sp = emu.sp ∧
    ∀ a < 0x10000,
      (∀ j, 0 < j → j ≤ 2 * xs.length → (emu.sp - BitVec.ofNat 16 j).toNat ≠ a) →
        (cpuStep^[2 * xs.length] emu).mem a = emu.mem a

/-- A stack beside some code leaves room in the address space. -/
theorem room_of_spares (emu : Emulator) (xs : List PushPop)
    (h : Spares emu (program xs).length xs.length) : 2 * xs.length < 2 ^ 16 := by
  cases xs with
  | nil => decide
  | cons x xs =>
    have hpos : 0 < (program (x :: xs)).length := by simp [program]
    refine Descending.lt_of_apart (by decide) emu.sp emu.pc fun j hj hjk => ?_
    have hd := h 0 hpos j hj hjk
    rwa [codeWord_zero] at hd

/-- A guest byte of the `j`-th word below the stack pointer is one of the `2 * j` bytes
below it. -/
theorem exists_of_touches (sp : BitVec 16) {j a : ℕ} (hj : 0 < j) (hj' : 2 * j < 2 ^ 16)
    (ha : a < 0x10000) (h : Touches (stackSlot sp j) .word a) :
    ∃ i, 0 < i ∧ i ≤ 2 * j ∧ (sp - BitVec.ofNat 16 i).toNat = a := by
  have ht : a = (Descending.slot sp j).toNat ∨ a = (Descending.slot sp j).toNat + 1 := h
  rcases ht with rfl | rfl
  · exact ⟨2 * j, by omega, le_rfl, rfl⟩
  · refine ⟨2 * j - 1, by omega, by omega, ?_⟩
    rw [Descending.slot] at ha ⊢
    bv_omega

/-- **The stack is last-in first-out exactly for programs without a byte form**: a byte
POP leaves the stack pointer one byte low. -/
theorem lifo_iff (emu : Emulator) (xs : List PushPop) (hcode : CodeAt emu emu.pc (program xs))
    (hspare : Spares emu (program xs).length xs.length) :
    LifoRight emu xs ↔ ∀ x ∈ xs, bwFlag x.push = .word := by
  have hroom := room_of_spares emu xs hspare
  obtain ⟨-, hsp, hmem, hval⟩ := run_program xs emu hcode hspare hroom
  constructor
  · rintro ⟨-, hback, -⟩
    rw [hsp] at hback
    have hle : byteForms xs ≤ xs.length := List.countP_le_length
    have hsub : BitVec.ofNat 16 (byteForms xs) = 0 := by bv_omega
    have hnat := congrArg BitVec.toNat hsub
    rw [BitVec.toNat_ofNat, Nat.mod_eq_of_lt (by omega)] at hnat
    exact (byteForms_eq_zero_iff xs).mp hnat
  · intro hwords
    refine ⟨hval hwords, ?_, ?_⟩
    · have hzero := (byteForms_eq_zero_iff xs).mpr hwords
      rw [hsp, hzero]
      exact BitVec.sub_zero _
    · intro a ha hout
      refine hmem a fun j hj hjk htouch => ?_
      obtain ⟨i, hi, hij, hia⟩ := exists_of_touches emu.sp hj (by omega) ha htouch
      exact hout i hi (by omega) hia

/-! ## A program with a byte form, and one without -/

/-- `PUSH.B R4` with `MOV.B @SP+, R5`. -/
def bytePair : PushPop where
  push := 0x1244
  extension := 0
  pop := 0x4175
  pushes := by decide
  value := by decide
  pops := by decide
  target := by decide
  width := by decide

/-- `PUSH R4` with `MOV @SP+, R5`. -/
def wordPair : PushPop where
  push := 0x1204
  extension := 0
  pop := 0x4135
  pushes := by decide
  value := by decide
  pops := by decide
  target := by decide
  width := by decide

/-- A byte pushed and popped leaves the stack pointer at `0x3FF`. -/
theorem lifo_wrong :
    ¬ LifoRight (startState.setWords [(0xC000, 0x1244), (0xC002, 0x4175)]) [bytePair] := by
  rintro ⟨-, hsp, -⟩
  revert hsp
  decide

/-- A word pushed and popped. -/
theorem lifo_iff_word :
    LifoRight (startState.setWords [(0xC000, 0x1204), (0xC002, 0x4135)]) [wordPair] := by
  refine (lifo_iff (startState.setWords [(0xC000, 0x1204), (0xC002, 0x4135)]) [wordPair]
    (by decide) ?_).mpr ?_
  · intro i hi j hj hjk
    obtain rfl : j = 1 := le_antisymm hjk hj
    have hlt : i < 2 := hi
    interval_cases i <;> decide
  · intro x hx
    rw [List.mem_singleton.mp hx]
    rfl

end Msp430
