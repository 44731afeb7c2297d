/-
# The top of the memory

`MEMSPACE` has exactly `0x10000` bytes, and an address is 16 bits wide; but a word at `0xFFFF`
has its second byte behind the end, and `dump` reads 32 bytes from wherever it starts.  This
module says which instructions, listings and commands stay inside: all that touch no word at
`0xFFFF`, by the program counter, an operand or the stack pointer, and start no dump above
`0xFFE0`.
-/
import Msp430.RunState

namespace Msp430

open CString Footprint

/-! ## Words at the top -/

/-- The offsets lie in `MEMSPACE`. -/
def Inside (l : List ℕ) : Prop := ∀ a ∈ l, a < 0x10000

/-- A byte that is touched lies in `MEMSPACE`. -/
def Access.Inside : Access → Prop
  | .byte a => a < 0x10000
  | .register _ => True

/-- The bytes among the accesses lie in `MEMSPACE`. -/
def BytesInside (l : List Access) : Prop := ∀ x ∈ l, x.Inside

/-- A pointer into memory that a 16-bit address leads to. -/
def Ptr.FromGuest (p : Ptr) : Prop := ∀ a, p = .mem a → a < 0x10000

theorem fromGuest_getAddrPtr (a : BitVec 16) : (getAddrPtr a).FromGuest := by
  intro b hb
  cases hb
  exact a.isLt

theorem inside_append_iff (l l' : List ℕ) : Inside (l ++ l') ↔ Inside l ∧ Inside l' :=
  List.forall_mem_append

theorem bytesInside_append_iff (l l' : List Access) :
    BytesInside (l ++ l') ↔ BytesInside l ∧ BytesInside l' :=
  List.forall_mem_append

theorem bytesInside_bytesTouched_iff (l : List ℕ) : BytesInside (bytesTouched l) ↔ Inside l := by
  simp [BytesInside, Inside, bytesTouched, Access.Inside]

/-- **A word is inside unless it is the one at the top.** -/
theorem inside_word_iff {p : Ptr} (hp : p.FromGuest) :
    Inside (p.bytes .word) ↔ p ≠ .mem 0xFFFF := by
  cases p with
  | reg n => simp [Inside, Ptr.bytes]
  | mem a =>
    have ha := hp a rfl
    simp only [Inside, Ptr.bytes, List.forall_mem_cons, List.not_mem_nil, false_implies,
      implies_true, and_true, ne_eq, Ptr.mem.injEq]
    omega
  | bogus => simp [Inside, Ptr.bytes]

/-- A byte is always inside. -/
theorem inside_byte {p : Ptr} (hp : p.FromGuest) : Inside (p.bytes .byte) := by
  cases p with
  | reg n => simp [Inside, Ptr.bytes]
  | mem a =>
    have ha := hp a rfl
    simpa [Inside, Ptr.bytes] using ha
  | bogus => simp [Inside, Ptr.bytes]

theorem getAddrPtr_ne_top_iff (a : BitVec 16) : getAddrPtr a ≠ .mem 0xFFFF ↔ a ≠ 0xFFFF := by
  rw [getAddrPtr, ne_eq, Ptr.mem.injEq, ne_eq, ← BitVec.toNat_inj]
  rfl

theorem inside_fetchBytes_iff (emu : Emulator) : Inside (fetchBytes emu) ↔ emu.pc ≠ 0xFFFF := by
  rw [fetchBytes, inside_word_iff (fromGuest_getAddrPtr _), getAddrPtr_ne_top_iff]

/-! ## Format I -/

/-- The source operand is no word at the top, nor is its extension word. -/
def SourceBelowTop (emu : Emulator) (w : BitVec 16) : Prop :=
  constantI w = none → asFlag w ≠ 0 →
    (asFlag w = 1 → emu.pc ≠ 0xFFFF) ∧ sourceCellI emu w ≠ .mem 0xFFFF

/-- The extension word of the destination is not at the top. -/
def ExtensionBelowTop (emu : Emulator) (w : BitVec 16) : Prop :=
  adFlag w = true → emu.pc + sourceAdvance w ≠ 0xFFFF

/-- A destination at the top is that of DADD, which touches nothing, or of an instruction that
works on the byte alone. -/
def DestinationBelowTop (emu : Emulator) (w : BitVec 16) : Prop :=
  destinationI emu w false = .mem 0xFFFF →
    formatId w = 0xA ∨ bwFlag w = .byte ∧ formatId w ∉ [0x5, 0x6, 0x7, 0x8, 0x9]

theorem fromGuest_sourceCellI (emu : Emulator) (w : BitVec 16) : (sourceCellI emu w).FromGuest := by
  by_cases h : asFlag w = 0
  · intro a ha
    rw [sourceCellI] at ha
    simp [h] at ha
  · obtain ⟨a, ha⟩ := exists_sourceCellI emu w h
    rw [ha]
    exact fromGuest_getAddrPtr a

theorem fromGuest_destinationI (emu : Emulator) (w : BitVec 16) (disassemble : Bool) :
    (destinationI emu w disassemble).FromGuest := by
  unfold destinationI
  split_ifs
  · exact fromGuest_getAddrPtr _
  · exact fromGuest_getAddrPtr _
  · exact fromGuest_getAddrPtr _
  · intro a ha
    cases ha

theorem inside_sourceBytesI_iff (emu : Emulator) (w : BitVec 16) :
    Inside (sourceBytesI emu w) ↔ SourceBelowTop emu w := by
  have hcell := inside_word_iff (fromGuest_sourceCellI emu w)
  unfold sourceBytesI SourceBelowTop
  cases hc : constantI w with
  | some c => simp [Inside]
  | none =>
    rcases asFlag_cases w with h | h | h | h
    · simp [h, Inside]
    · simp [h, inside_append_iff, inside_fetchBytes_iff, hcell]
    · simp [h, hcell]
    · simp [h, hcell]

theorem inside_extensionBytesI_iff (emu : Emulator) (w : BitVec 16) :
    Inside (extensionBytesI emu w) ↔ ExtensionBelowTop emu w := by
  unfold extensionBytesI ExtensionBelowTop
  cases adFlag w with
  | false => simp [Inside]
  | true =>
    rw [if_pos rfl, inside_word_iff (fromGuest_getAddrPtr _), getAddrPtr_ne_top_iff]
    simp

theorem inside_executeBytesI_iff (emu : Emulator) {w : BitVec 16} (hw : 4 ≤ formatId w) :
    Inside (executeBytesI (formatId w) (bwFlag w) (destinationI emu w false)) ↔
      DestinationBelowTop emu w := by
  have hguest := fromGuest_destinationI emu w false
  unfold executeBytesI DestinationBelowTop
  by_cases hkeep : formatId w ∈ [0x5, 0x6, 0x7, 0x8, 0x9]
  · have ha : formatId w ≠ 0xA := by
      intro h
      rw [h] at hkeep
      exact absurd hkeep (by decide)
    rw [if_pos hkeep, inside_word_iff hguest]
    simp [hkeep, ha]
  · rw [if_neg hkeep]
    by_cases hrest : formatId w ∈ [0x4, 0xB, 0xC, 0xD, 0xE, 0xF]
    · have ha : formatId w ≠ 0xA := by
        intro h
        rw [h] at hrest
        exact absurd hrest (by decide)
      rw [if_pos hrest]
      cases bwFlag w with
      | word =>
        rw [inside_word_iff hguest]
        simp [ha]
      | byte => exact iff_of_true (inside_byte hguest) fun _ => Or.inr ⟨rfl, hkeep⟩
    · have ha : formatId w = 0xA := by
        revert hw hkeep hrest
        generalize formatId w = f
        revert f
        decide
      rw [if_neg hrest]
      exact iff_of_true (by simp [Inside]) fun _ => Or.inl ha

/-! ## Format II -/

/-- The operand is no word at the top, nor is its extension word; a symbolic operand is not
read. -/
def OperandBelowTop (emu : Emulator) (w : BitVec 16) : Prop :=
  constantII w = none → asFlag w ≠ 0 →
    (asFlag w = 1 ∨ immediateII w = true → emu.pc ≠ 0xFFFF) ∧
      (¬ (asFlag w = 1 ∧ lowReg w = 0) → sourceCellII emu w ≠ .mem 0xFFFF)

/-- The switch of Format II: of the instructions that go through `source_address` only RRC.B
works on the byte alone; PUSH and CALL write a word on the stack. -/
def SwitchBelowTop (emu : Emulator) (w : BitVec 16) : Prop :=
  match opcodeII w with
  | 0x0 => sourceCellII emu w = .mem 0xFFFF → bwFlag w = .byte
  | 0x1 | 0x2 | 0x3 => sourceCellII emu w ≠ .mem 0xFFFF
  | 0x4 => regsII emu w 1 - 2 ≠ 0xFFFF
  | 0x5 => regsII emu w 1 - 2 ≠ 0xFFFF ∧ sourceCellII emu w ≠ .mem 0xFFFF
  | _ => True

theorem fromGuest_sourceCellII (emu : Emulator) (w : BitVec 16) :
    (sourceCellII emu w).FromGuest := by
  by_cases hc : ((constantII w).isSome || immediateII w) = true
  · intro a ha
    rw [sourceCellII, if_pos hc] at ha
    cases ha
  by_cases h : asFlag w = 0
  · intro a ha
    rw [sourceCellII, if_neg hc] at ha
    simp [h] at ha
  · obtain ⟨a, ha⟩ := exists_sourceCellII emu w hc h
    rw [ha]
    exact fromGuest_getAddrPtr a

theorem inside_sourceBytesII_iff (emu : Emulator) (w : BitVec 16) :
    Inside (sourceBytesII emu w) ↔ OperandBelowTop emu w := by
  have hcell := inside_word_iff (fromGuest_sourceCellII emu w)
  unfold sourceBytesII OperandBelowTop
  cases hc : constantII w with
  | some c => simp [Inside]
  | none =>
    rcases asFlag_cases w with h | h | h | h
    · simp [h, Inside]
    · by_cases h0 : lowReg w = 0
      · simp [h, h0, inside_fetchBytes_iff]
      · simp [h, h0, inside_append_iff, inside_fetchBytes_iff, hcell]
    · simp [h, hcell, immediateII]
    · by_cases h0 : lowReg w = 0
      · have hi : immediateII w = true := by simp [immediateII, hc, h, h0]
        have hbogus : sourceCellII emu w = .bogus := by simp [sourceCellII, hi]
        simp [h, h0, hi, inside_fetchBytes_iff, hbogus]
      · simp [h, h0, hcell, immediateII]

theorem inside_executeBytesII_iff (emu : Emulator) (w : BitVec 16) :
    Inside (executeBytesII (operandsII emu w).emu (opcodeII w) (bwFlag w) (sourceCellII emu w)) ↔
      SwitchBelowTop emu w := by
  have hcell := inside_word_iff (fromGuest_sourceCellII emu w)
  have hsp : (operandsII emu w).emu.sp = regsII emu w 1 := by rw [operandsII_emu]; rfl
  have hstack := inside_word_iff (fromGuest_getAddrPtr (regsII emu w 1 - 2))
  rw [getAddrPtr_ne_top_iff] at hstack
  unfold SwitchBelowTop executeBytesII
  rw [hsp]
  generalize opcodeII w = opcode
  have hcases : opcode = 0 ∨ (opcode = 1 ∨ opcode = 2 ∨ opcode = 3) ∨ opcode = 4 ∨ opcode = 5 ∨
      opcode = 6 ∨ opcode = 7 := by
    revert opcode
    decide
  rcases hcases with rfl | (rfl | rfl | rfl) | rfl | rfl | rfl | rfl
  · -- RRC
    cases bwFlag w with
    | word => simpa using hcell
    | byte => simpa using inside_byte (fromGuest_sourceCellII emu w)
  · exact hcell
  · exact hcell
  · exact hcell
  · exact hstack
  · exact (inside_append_iff _ _).trans (and_congr hstack hcell)
  · simp [Inside]
  · simp [Inside]

/-! ## Instructions and listings -/

/-- No word at the top is touched when an instruction is decoded, to be executed or listed. -/
def DecodeBelowTop (emu : Emulator) (w : BitVec 16) (disassemble : Bool) : Prop :=
  if formatId w = 1 then
    OperandBelowTop emu w ∧ (disassemble = false → SwitchBelowTop emu w)
  else if 4 ≤ formatId w then
    SourceBelowTop emu w ∧ ExtensionBelowTop emu w ∧
      (disassemble = false → DestinationBelowTop emu w)
  else True

/-- No word at the top is touched when an instruction is fetched and decoded. -/
def FetchedBelowTop (emu : Emulator) (disassemble : Bool) : Prop :=
  emu.pc ≠ 0xFFFF ∧ DecodeBelowTop (fetch emu).2 (fetch emu).1 disassemble

theorem inside_decodeBytes_iff (emu : Emulator) (w : BitVec 16) (disassemble : Bool) :
    Inside (decodeBytes emu w disassemble) ↔ DecodeBelowTop emu w disassemble := by
  unfold decodeBytes DecodeBelowTop
  by_cases h1 : formatId w = 1
  · rw [if_pos h1, if_pos h1, decodeBytesII, inside_append_iff, inside_sourceBytesII_iff]
    refine and_congr_right fun _ => ?_
    cases disassemble with
    | true => simp [Inside]
    | false => simpa using inside_executeBytesII_iff emu w
  · rw [if_neg h1, if_neg h1]
    by_cases h4 : 4 ≤ formatId w
    · rw [if_pos h4, if_pos h4, decodeBytesI, inside_append_iff, inside_append_iff,
        inside_sourceBytesI_iff, inside_extensionBytesI_iff, and_assoc]
      refine and_congr_right fun _ => and_congr_right fun _ => ?_
      cases disassemble with
      | true => simp [Inside]
      | false => simpa using inside_executeBytesI_iff emu h4
    · rw [if_neg h4, if_neg h4]
      simp [Inside]

/-- **An instruction stays inside exactly when it touches no word at the top.** -/
theorem inside_cpuBytes_iff (emu : Emulator) :
    Inside (cpuBytes emu) ↔ FetchedBelowTop emu false := by
  rw [cpuBytes, inside_append_iff, inside_fetchBytes_iff, inside_decodeBytes_iff]
  rfl

/-- What stands behind the memory neither matters to such an instruction nor changes. -/
theorem cpuStep_memspace {emu : Emulator} (h : FetchedBelowTop emu false) {m : ℕ → BitVec 8}
    (hm : ∀ a < 0x10000, m a = emu.mem a) :
    cpuStep (memspace.set emu m)
      = memspace.set (cpuStep emu) fun a => if a < 0x10000 then (cpuStep emu).mem a else m a := by
  have hinside := (inside_cpuBytes_iff emu).mpr h
  have huses := usesOnly_cpuStep emu
  rw [huses m fun a ha => hm a (hinside a ha)]
  congr 1
  funext a
  unfold overlay
  by_cases ha : a ∈ cpuBytes emu
  · rw [if_pos ha, if_pos (hinside a ha)]
    rfl
  · rw [if_neg ha]
    split_ifs with hlt
    · exact (hm a hlt).trans (huses.frame ha).symm
    · rfl

/-- **So does a line of a listing.** -/
theorem inside_lineBytes_iff (emu : Emulator) :
    Inside (lineBytes emu) ↔ FetchedBelowTop emu true := by
  rw [lineBytes, inside_append_iff, inside_fetchBytes_iff, inside_decodeBytes_iff]
  rfl

/-- The lines of a listing touch no word at the top. -/
def ListingBelowTop (emu : Emulator) (start : BitVec 16) (times : BitVec 8) : Prop :=
  ∀ k < times.toNat, FetchedBelowTop (disassembleLine^[k] (listingStart emu start)) true

theorem inside_listingAccesses_iff (emu : Emulator) (start : BitVec 16) (times : BitVec 8) :
    BytesInside (listingAccesses emu start times) ↔ ListingBelowTop emu start times := by
  rw [listingAccesses, bytesInside_bytesTouched_iff, Inside, disassembleBytes, forall_gather_iff]
  exact forall₂_congr fun k _ => inside_lineBytes_iff _

/-- The handlers are reached through their pointers. -/
theorem inside_machineAccesses_iff (emu : Emulator) :
    BytesInside (machineAccesses emu) ↔ FetchedBelowTop emu false := by
  have hhandlers (e : Emulator) : BytesInside (handlerAccesses e) := by
    unfold handlerAccesses
    split_ifs <;> simp [BytesInside, Access.Inside]
  rw [machineAccesses, bytesInside_append_iff, bytesInside_bytesTouched_iff, inside_cpuBytes_iff]
  exact and_iff_left (hhandlers _)

/-! ## Commands and messages -/

/-- A breakpoint that is hit lists its instruction. -/
def BreakpointBelowTop (emu : Emulator) : Prop :=
  (List.range emu.numBps).any (fun i => emu.pc == emu.bpAddresses i) = true →
    ListingBelowTop { emu with running := false, debugMode := true } emu.pc 1

/-- The instructions of a `step`, and the line behind them. -/
def StepBelowTop (emu : Emulator) (steps : BitVec 32) : Prop :=
  (∀ k < steps.toNat, FetchedBelowTop (machineStep^[k] emu) false) ∧
    ListingBelowTop (machineStep^[steps.toNat] emu) (machineStep^[steps.toNat] emu).pc 1

/-- A dump starts low enough. -/
def DumpBelowTop (emu : Emulator) (line : Str) : Prop :=
  100 ≤ (secondWord line).length ∨ ∀ r, dumpStart emu line = some r → r.1 ≤ 0xFFE0

/-- `set` lists after a register, and stores a word at an address. -/
def SetBelowTop (emu : Emulator) (line : Str) : Prop :=
  50 ≤ (secondWord line).length ∨
    match regNameToNum (secondWord line) with
    | some n =>
      ListingBelowTop (setRegister emu n (setValue line)) (setRegister emu n (setValue line)).pc 1
    | none => (strtol (secondWord line)).setWidth 16 ≠ (0xFFFF : BitVec 16)

/-- A command touches no word at the top and starts no dump too high. -/
def CommandBelowTop (emu : Emulator) (line : Str) : Prop :=
  match command line with
  | .reset => ListingBelowTop (emu.setReg 0 0xC000) 0xC000 1
  | .step steps => StepBelowTop emu steps
  | .dis => ListingBelowTop emu (disArguments emu line).2 ((disArguments emu line).1.setWidth 8)
  | .dump => DumpBelowTop emu line
  | .set => SetBelowTop emu line
  | .regs => ListingBelowTop emu emu.pc 1
  | _ => True

/-- A message touches no word at the top and starts no dump too high. -/
def MessageBelowTop (h : Host) (m : Message) : Prop :=
  h.upload.inProgress = true ∨
    match m.byteAt 0 with
    | 0x02 => h.emu.running = true →
        ListingBelowTop { h.emu with running := false, debugMode := true } h.emu.pc 1
    | 0x04 => m.bytes.length ≤ 1000 → h.emu.running = false → h.emu.debugMode = true →
        CommandBelowTop h.emu m.line
    | _ => True

/-- **A dump stays inside exactly when it starts at `0xFFE0` or below.** -/
theorem inside_dumpBytes_iff (start : BitVec 16) : Inside (dumpBytes start) ↔ start ≤ 0xFFE0 := by
  have hlt := start.isLt
  rw [BitVec.le_def]
  show _ ↔ start.toNat ≤ 0xFFE0
  unfold Inside dumpBytes
  constructor
  · intro h
    have := h (start.toNat + 31) (List.mem_map.mpr ⟨31, by decide, rfl⟩)
    omega
  · intro h a ha
    obtain ⟨i, hi, rfl⟩ := List.mem_map.mp ha
    have := List.mem_range.mp hi
    omega

/-- **A command.** -/
theorem inside_commandAccesses_iff (emu : Emulator) (line : Str) :
    BytesInside (commandAccesses emu line) ↔ CommandBelowTop emu line := by
  have hnil : BytesInside [] := fun _ ha => absurd ha List.not_mem_nil
  unfold commandAccesses CommandBelowTop
  cases command line with
  | reset => exact inside_listingAccesses_iff _ _ _
  | step steps =>
    show BytesInside (stepAccesses emu steps) ↔ StepBelowTop emu steps
    rw [stepAccesses, bytesInside_append_iff, inside_listingAccesses_iff, StepBelowTop]
    refine and_congr_left fun _ => ?_
    rw [BytesInside, forall_gather_iff]
    exact forall₂_congr fun k _ => inside_machineAccesses_iff _
  | dis => exact inside_listingAccesses_iff _ _ _
  | dump =>
    show BytesInside (dumpAccesses emu line) ↔ _
    unfold dumpAccesses DumpBelowTop
    by_cases hlen : 100 ≤ (secondWord line).length
    · simp [hlen, hnil]
    · rw [if_neg hlen]
      cases dumpStart emu line with
      | none => simp [hnil]
      | some r =>
        show BytesInside (bytesTouched (dumpBytes r.1)) ↔ _
        rw [bytesInside_bytesTouched_iff, inside_dumpBytes_iff]
        simp [hlen]
  | set =>
    show BytesInside (setAccesses emu line) ↔ _
    unfold setAccesses SetBelowTop
    by_cases hlen : 50 ≤ (secondWord line).length
    · simp [hlen, hnil]
    · rw [if_neg hlen]
      cases regNameToNum (secondWord line) with
      | none =>
        show BytesInside (bytesTouched _) ↔ _
        rw [bytesInside_bytesTouched_iff, inside_word_iff (fromGuest_getAddrPtr _),
          getAddrPtr_ne_top_iff]
        simp [hlen]
      | some n =>
        show BytesInside (listingAccesses _ _ _) ↔ _
        rw [inside_listingAccesses_iff]
        simp [hlen]
  | regs => exact inside_listingAccesses_iff _ _ _
  | _ => simp [hnil]

/-- **A message.** -/
theorem inside_receiveAccesses_iff (h : Host) (m : Message) :
    BytesInside (receiveAccesses h m) ↔ MessageBelowTop h m := by
  have hnil : BytesInside [] := fun _ ha => absurd ha List.not_mem_nil
  unfold MessageBelowTop
  by_cases hup : h.upload.inProgress = true
  · rw [receiveAccesses, if_pos hup]
    exact iff_of_true hnil (Or.inl hup)
  rw [or_iff_right hup]
  by_cases h2 : m.byteAt 0 = 0x02
  · rw [receiveAccesses, if_neg hup, h2]
    cases hrun : h.emu.running with
    | false => simp [hnil]
    | true =>
      simp only [if_true, true_implies]
      exact inside_listingAccesses_iff _ _ _
  by_cases h4 : m.byteAt 0 = 0x04
  · rw [receiveAccesses, if_neg hup, h4]
    by_cases hlen : 1000 < m.bytes.length
    · simp [hlen, hnil]
    · have hfits : m.bytes.length ≤ 1000 := by omega
      cases hrun : h.emu.running <;> cases hdebug : h.emu.debugMode <;>
        simp [hlen, hfits, hnil, inside_commandAccesses_iff]
  · rw [receiveAccesses_of_other h2 h4]
    refine iff_of_true hnil ?_
    split
    · exact absurd ‹_› h2
    · exact absurd ‹_› h4
    · trivial

/-! ## Runs of the program -/

/-- What a step of the program touches. -/
def Program.touches (p : Program) : ProgramStep → List Access
  | .message m => receiveAccesses p.host m
  | .initialise tmpBin =>
    if p.main = .waiting ∧ p.host.webFirmwareUploaded ∧ tmpBin.length ≤ 0x4000 then
      listingAccesses (loadImage (setUp p.host.emu) 0xC000 tmpBin) 0xC000 1
    else []
  | .main =>
    match p.main with
    | .waiting => []
    | .head =>
      if p.host.emu.quit || !p.host.emu.running then [] else breakpointAccesses p.host.emu
    | .decode => machineAccesses p.host.emu

/-- What a run of the program touches. -/
def Program.touchedBy (p : Program) : List ProgramStep → List Access
  | [] => []
  | a :: as => p.touches a ++ match p.step a with
    | none => []
    | some p' => p'.touchedBy as

/-- A step of the program touches no word at the top and starts no dump too high. -/
def StepBelow (p : Program) : ProgramStep → Prop
  | .message m => MessageBelowTop p.host m
  | .initialise tmpBin =>
    p.main = .waiting ∧ p.host.webFirmwareUploaded = true ∧ tmpBin.length ≤ 0x4000 →
      ListingBelowTop (loadImage (setUp p.host.emu) 0xC000 tmpBin) 0xC000 1
  | .main =>
    match p.main with
    | .waiting => True
    | .head =>
      p.host.emu.quit = false → p.host.emu.running = true → BreakpointBelowTop p.host.emu
    | .decode => FetchedBelowTop p.host.emu false

/-- Every step of a run does so. -/
def RunBelow (p : Program) : List ProgramStep → Prop
  | [] => True
  | a :: as => StepBelow p a ∧ match p.step a with
    | none => True
    | some p' => RunBelow p' as

/-- **One step.** -/
theorem inside_touches_iff (p : Program) (a : ProgramStep) :
    BytesInside (p.touches a) ↔ StepBelow p a := by
  have hnil : BytesInside [] := fun _ ha => absurd ha List.not_mem_nil
  cases a with
  | message m => exact inside_receiveAccesses_iff p.host m
  | initialise tmpBin =>
    simp only [Program.touches, StepBelow]
    split_ifs with hready
    · rw [inside_listingAccesses_iff]
      exact ⟨fun h _ => h, fun h => h hready⟩
    · exact iff_of_true hnil fun h => absurd h hready
  | main =>
    simp only [Program.touches, StepBelow]
    cases p.main with
    | waiting => simp [hnil]
    | head =>
      cases hquit : p.host.emu.quit <;> cases hrun : p.host.emu.running <;> simp [hnil]
      unfold breakpointAccesses BreakpointBelowTop
      split_ifs with hhit
      · rw [inside_listingAccesses_iff]
        exact ⟨fun h _ => h, fun h => h hhit⟩
      · exact iff_of_true hnil fun h => absurd h hhit
    | decode => exact inside_machineAccesses_iff _

/-- **A run touches only bytes of the memory exactly when no step of it touches a word at the
top or starts a dump too high.** -/
theorem inside_run_iff (p : Program) (as : List ProgramStep) :
    BytesInside (p.touchedBy as) ↔ RunBelow p as := by
  have hnil : BytesInside [] := fun _ ha => absurd ha List.not_mem_nil
  induction as generalizing p with
  | nil => exact iff_of_true hnil trivial
  | cons a as ih =>
    rw [Program.touchedBy, RunBelow, bytesInside_append_iff, inside_touches_iff]
    refine and_congr_right fun _ => ?_
    cases p.step a with
    | none => exact iff_of_true hnil trivial
    | some p' => exact ih p'

/-- **The firmware `MOV &0xFFFF, R5`**: its operand is read as a word, and the second byte of
that is behind the memory. -/
theorem word_behind_memory :
    ¬ ∀ as, BytesInside (startProgram.touchedBy as) := by
  intro hclaim
  obtain ⟨fw, hfw⟩ : ∃ fw : List (BitVec 8), fw = [0x15, 0x42, 0xFF, 0xFF] := ⟨_, rfl⟩
  have hfit : fw.length ≤ 0x4000 := by rw [hfw]; decide
  obtain ⟨h, hfile, hup, -, -⟩ := step_elfFile (p := startProgram) rfl hfit
  have hrun := hclaim [.message (elfFile fw), .initialise fw]
  rw [Program.touchedBy, hfile, bytesInside_append_iff] at hrun
  have hinit := ((bytesInside_append_iff _ _).mp hrun.2).1
  rw [inside_touches_iff] at hinit
  have hline := hinit ⟨rfl, hup, hfit⟩ 0 (by decide)
  obtain ⟨e, he⟩ : ∃ e, e = listingStart (loadImage (setUp h.emu) 0xC000 fw) 0xC000 := ⟨_, rfl⟩
  obtain ⟨-, hdecode⟩ : FetchedBelowTop e true := by
    rw [he]
    exact hline
  have hword : (fetch e).1 = 0x4215 := by
    have hlow : e.mem 0xC000 = 0x15 := by rw [he, hfw]; rfl
    have hhigh : e.mem 0xC001 = 0x42 := by rw [he, hfw]; rfl
    have hpc : e.pc = 0xC000 := by rw [he]; rfl
    rw [fetch, hpc]
    show joinBytes (e.mem 0xC001) (e.mem 0xC000) = 0x4215
    rw [hlow, hhigh]
    decide
  have hextension : sourceExtension (fetch e).2 = 0xFFFF := by
    have hlow : e.mem 0xC002 = 0xFF := by rw [he, hfw]; rfl
    have hhigh : e.mem 0xC003 = 0xFF := by rw [he, hfw]; rfl
    have hpc : (fetch e).2.pc = 0xC002 := by rw [he]; rfl
    rw [sourceExtension, hpc]
    show joinBytes (e.mem 0xC003) (e.mem 0xC002) = 0xFFFF
    rw [hlow, hhigh]
    decide
  rw [hword, DecodeBelowTop, if_neg (by decide), if_pos (by decide)] at hdecode
  have hcell : sourceCellI (fetch e).2 0x4215 = .mem 0xFFFF := by
    show getAddrPtr (sourceExtension (fetch e).2) = .mem 0xFFFF
    rw [hextension]
    rfl
  exact (hdecode.1 (by decide) (by decide)).2 hcell

end Msp430
