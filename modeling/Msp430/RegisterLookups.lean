/-
# The registers that a command looks up

`get_reg_ptr` returns the null pointer for a number that is no register, and its callers
dereference what they get.  `set` asks `reg_name_to_num` first; `dump` passes its answer on,
and a second word that begins like a register's name but is none becomes register 255.
`lookups_known_iff` says that no other line looks such a register up.
-/
import Msp430.CommandAccesses
import Msp430.RunState

namespace Msp430

open CString Footprint

/-! ## The lookups -/

/-- A number for which `get_reg_ptr` has a register. -/
def KnownRegister (reg : BitVec 8) : Prop := reg < 16

instance (reg : BitVec 8) : Decidable (KnownRegister reg) := inferInstanceAs (Decidable (_ < _))

/-- A register number as the `uint8_t` that `get_reg_ptr` takes. -/
def registerArgument (n : Fin 16) : BitVec 8 := BitVec.ofNat 8 n

/-- What the decoders look up: the register fields of the word. -/
def wordLookups (w : BitVec 16) : List (BitVec 8) :=
  if formatId w = 1 then [registerArgument (lowReg w)]
  else if 4 ≤ formatId w then [registerArgument (sourceReg w), registerArgument (lowReg w)]
  else []

/-- `disassemble`. -/
def listingLookups (emu : Emulator) (start : BitVec 16) (times : BitVec 8) : List (BitVec 8) :=
  gather disassembleLine (fun e => wordLookups (fetch e).1) times.toNat (listingStart emu start)

/-- `step`: the instructions, and the line that is listed after them. -/
def stepLookups (emu : Emulator) (steps : BitVec 32) : List (BitVec 8) :=
  gather machineStep (fun e => wordLookups (fetch e).1) steps.toNat emu ++
    listingLookups (machineStep^[steps.toNat] emu) (machineStep^[steps.toNat] emu).pc 1

/-- `reg_name_to_num(str)` as a `uint8_t`: its `-1` is 255. -/
def nameArgument (name : Str) : BitVec 8 :=
  match regNameToNum name with
  | some n => registerArgument n
  | none => -1

/-- The word begins like the name of a register, as `dump` tests it. -/
def NamedLikeRegister (word : Str) : Prop :=
  word.head? = some 0x25 ∨ word.head? = some 0x72 ∨ word.head? = some 0x52

instance (word : Str) : Decidable (NamedLikeRegister word) :=
  inferInstanceAs (Decidable (_ ∨ _))

/-- `dump`. -/
def dumpLookups (line : Str) : List (BitVec 8) :=
  if NamedLikeRegister (secondWord line) then [nameArgument (secondWord line)] else []

/-- `set`: a known register other than the status register is looked up, and listed after. -/
def setLookups (emu : Emulator) (line : Str) : List (BitVec 8) :=
  match regNameToNum (secondWord line) with
  | some n =>
    let emu := setRegister emu n (setValue line)
    (if n = 2 then [] else [registerArgument n]) ++ listingLookups emu emu.pc 1
  | none => []

/-- `exec_cmd`: the arguments of every call of `get_reg_ptr`. -/
def commandLookups (emu : Emulator) (line : Str) : List (BitVec 8) :=
  match command line with
  | .reset => listingLookups (emu.setReg 0 0xC000) 0xC000 1
  | .step steps => stepLookups emu steps
  | .dis => listingLookups emu (disArguments emu line).2 ((disArguments emu line).1.setWidth 8)
  | .dump => dumpLookups line
  | .set => setLookups emu line
  | .regs => listingLookups emu emu.pc 1
  | _ => []

/-- The words of the line fit the buffers that they are scanned into. -/
def WordsFit (line : Str) : Prop :=
  command line ≠ .overlong ∧ (command line = .dump → (secondWord line).length < 100) ∧
    (command line = .set → (secondWord line).length < 50)

instance (line : Str) : Decidable (WordsFit line) := inferInstanceAs (Decidable (_ ∧ _ ∧ _))

/-! ## Which of them are registers -/

/-- The four bits of a register field. -/
theorem knownRegister_argument (n : Fin 16) : KnownRegister (registerArgument n) := by
  revert n
  decide

theorem known_wordLookups (w : BitVec 16) : ∀ reg ∈ wordLookups w, KnownRegister reg := by
  unfold wordLookups
  split_ifs
  · simp [knownRegister_argument]
  · simp [knownRegister_argument]
  · simp

/-- **The decoders look up registers only.** -/
theorem known_listingLookups (emu : Emulator) (start : BitVec 16) (times : BitVec 8) :
    ∀ reg ∈ listingLookups emu start times, KnownRegister reg := by
  rw [listingLookups, forall_gather_iff]
  exact fun _ _ => known_wordLookups _

theorem known_stepLookups (emu : Emulator) (steps : BitVec 32) :
    ∀ reg ∈ stepLookups emu steps, KnownRegister reg := by
  rw [stepLookups, List.forall_mem_append, forall_gather_iff]
  exact ⟨fun _ _ => known_wordLookups _, known_listingLookups _ _ _⟩

/-- `set` asks for a name before it looks it up. -/
theorem known_setLookups (emu : Emulator) (line : Str) :
    ∀ reg ∈ setLookups emu line, KnownRegister reg := by
  unfold setLookups
  cases regNameToNum (secondWord line) with
  | none => simp
  | some n =>
    dsimp only
    rw [List.forall_mem_append]
    refine ⟨?_, known_listingLookups _ _ _⟩
    split_ifs
    · simp
    · simp [knownRegister_argument]

/-- A name that is none becomes a number that is none. -/
theorem knownRegister_nameArgument_iff (name : Str) :
    KnownRegister (nameArgument name) ↔ (regNameToNum name).isSome = true := by
  unfold nameArgument
  cases regNameToNum name with
  | none => exact iff_of_false (by decide) (by simp)
  | some n => exact iff_of_true (knownRegister_argument n) rfl

theorem known_dumpLookups_iff (line : Str) : (∀ reg ∈ dumpLookups line, KnownRegister reg) ↔
    (NamedLikeRegister (secondWord line) → (regNameToNum (secondWord line)).isSome = true) := by
  unfold dumpLookups
  split_ifs with h
  · simp [h, knownRegister_nameArgument_iff]
  · simp [h]

/-- `dump` finds its address unless it looks up what is no register. -/
theorem isSome_dumpStart_iff (emu : Emulator) (line : Str) : (dumpStart emu line).isSome = true
    ↔ ∀ reg ∈ dumpLookups line, KnownRegister reg := by
  rw [known_dumpLookups_iff, NamedLikeRegister, dumpStart]
  cases (secondWord line).head? with
  | none => simp
  | some c =>
    have hdigit : 0x30 ≤ c ∧ c ≤ 0x39 → ¬ (c = 0x25 ∨ c = 0x72 ∨ c = 0x52) := by
      revert c
      decide
    simp only [Option.some.injEq]
    split_ifs with h h'
    · exact iff_of_true rfl fun hn => absurd hn (hdigit h)
    · rw [Option.isSome_map]
      exact ⟨fun hs _ => hs, fun hs => hs h'⟩
    · exact iff_of_true rfl fun hn => absurd hn h'

/-- **The host survives a line** whose words fit exactly when it looks up registers only. -/
theorem isSome_execCmd_iff (emu : Emulator) (line : Str) (hfit : WordsFit line) :
    (execCmd emu line).isSome = true ↔ ∀ reg ∈ commandLookups emu line, KnownRegister reg := by
  obtain ⟨hcmd, hdump, hset⟩ := hfit
  rw [execCmd_eq]
  unfold commandLookups
  cases hc : command line with
  | overlong => exact absurd hc hcmd
  | dump =>
    simp only [Command.exec]
    rw [execDump, if_neg (not_le.mpr (hdump hc)), Option.isSome_map, isSome_dumpStart_iff]
  | set =>
    refine iff_of_true ?_ (known_setLookups emu line)
    simp only [Command.exec]
    rw [execSet, if_neg (not_le.mpr (hset hc))]
    split <;> rfl
  | reset => exact iff_of_true rfl (known_listingLookups _ _ _)
  | step steps => exact iff_of_true rfl (known_stepLookups _ _)
  | dis => exact iff_of_true rfl (known_listingLookups _ _ _)
  | regs => exact iff_of_true rfl (known_listingLookups _ _ _)
  | quit => exact iff_of_true rfl (by simp)
  | run => exact iff_of_true rfl (by simp)
  | addBreak => exact iff_of_true rfl (by simp)
  | bps => exact iff_of_true rfl (by simp)
  | help => exact iff_of_true rfl (by simp)
  | invalid => exact iff_of_true rfl (by simp)

/-- A `dump` of a word that begins like a register's name and is none. -/
def DumpsNoRegister (line : Str) : Prop :=
  command line = .dump ∧ NamedLikeRegister (secondWord line) ∧
    regNameToNum (secondWord line) = none

instance (line : Str) : Decidable (DumpsNoRegister line) :=
  inferInstanceAs (Decidable (_ ∧ _ ∧ _))

/-- Every lookup is one of a register, and the null pointer is never dereferenced. -/
def LooksUpKnown (emu : Emulator) (line : Str) : Prop :=
  (∀ reg ∈ commandLookups emu line, KnownRegister reg) ∧ (execCmd emu line).isSome = true

/-- **A line looks up registers only, unless** it dumps from a word that begins like a
register's name and is none. -/
theorem lookups_known_iff (emu : Emulator) (line : Str) (hfit : WordsFit line) :
    LooksUpKnown emu line ↔ ¬ DumpsNoRegister line := by
  rw [LooksUpKnown, isSome_execCmd_iff emu line hfit, and_self, DumpsNoRegister]
  unfold commandLookups
  cases hcmd : command line with
  | overlong => exact absurd hcmd hfit.1
  | dump =>
    dsimp only
    rw [known_dumpLookups_iff, Option.isSome_iff_ne_none]
    tauto
  | reset => simpa using known_listingLookups _ _ _
  | step steps => simpa using known_stepLookups _ _
  | dis => simpa using known_listingLookups _ _ _
  | set => simpa using known_setLookups _ _
  | regs => simpa using known_listingLookups _ _ _
  | quit => simp
  | run => simp
  | addBreak => simp
  | bps => simp
  | help => simp
  | invalid => simp

/-- `dump r16`. -/
theorem dump_unknown_register :
    ¬ ∀ emu line, WordsFit line → LooksUpKnown emu line := by
  intro h
  have hcrash := (h startState (bytes "dump r16") (by decide)).1
  revert hcrash
  decide

/-- `dump r15` and `set r16 1`. -/
theorem lookups_known_iff_named :
    LooksUpKnown startState (bytes "dump r15") ∧ LooksUpKnown startState (bytes "set r16 1") :=
  ⟨(lookups_known_iff startState (bytes "dump r15") (by decide)).mpr (by decide),
    (lookups_known_iff startState (bytes "set r16 1") (by decide)).mpr (by decide)⟩

end Msp430
