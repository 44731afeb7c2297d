/-
# The table of breakpoints

`break` appends to a table of 100 entries.  Each address is scanned by a 32-bit write to an
entry of 16 bits, so that its upper half falls on the next entry, or behind the last one on
`current_bp`.  `breakpoint_table` says that nothing comes of it: over any lines, and whatever
the machine does between them, the table is a log of the addresses that were entered.
-/
import Msp430.Numerals
import Msp430.Session

namespace Msp430

open BoundedLog CString

/-! ## The table -/

/-- `num_bps` with `bp_addresses`. -/
def Emulator.table (emu : Emulator) : ℕ × (ℕ → BitVec 16) := (emu.numBps, emu.bpAddresses)

/-- The entries that count. -/
def breakpoints (emu : Emulator) : List (BitVec 16) := entries emu.bpAddresses emu.numBps

theorem breakpoints_congr {emu emu' : Emulator} (h : emu'.table = emu.table) :
    breakpoints emu' = breakpoints emu := by
  obtain ⟨hnum, hbps⟩ := Prod.mk.inj h
  rw [breakpoints, hnum, hbps, ← breakpoints]

/-- **A running CPU stops exactly at the entries.** -/
theorem stops_iff {emu : Emulator} (hrun : emu.running = true) :
    (handleBreakpoints emu).running = false ↔ emu.pc ∈ breakpoints emu := by
  have hany : (List.range emu.numBps).any (fun i => emu.pc == emu.bpAddresses i) = true
      ↔ emu.pc ∈ breakpoints emu := by
    rw [breakpoints, mem_entries]
    simp [eq_comm (a := emu.pc)]
  rw [handleBreakpoints]
  split_ifs with hat
  · refine iff_of_true ?_ (hany.mp hat)
    rcases keepsModes_disassemble { emu with running := false, debugMode := true } emu.pc 1 with
      hmodes | hmodes
    · exact congrArg Prod.fst hmodes
    · exact congrArg Prod.fst hmodes
  · exact iff_of_false (by rw [hrun]; decide) (mt hany.mpr hat)

/-! ## What leaves the table alone -/

section Table

theorem outside_table : Outside Emulator.table := ⟨fun _ _ _ _ _ => rfl⟩

theorem aside_table : Aside Emulator.table := ⟨fun _ _ _ _ _ _ => rfl⟩

theorem table_decode (emu : Emulator) (w : BitVec 16) (disassemble : Bool) :
    (decode emu w disassemble).table = emu.table := by
  rw [outside_table.decode]
  split_ifs <;> rfl

theorem table_machineStep (emu : Emulator) : (machineStep emu).table = emu.table :=
  (aside_table.handlePeripherals _).trans (table_decode (fetch emu).2 _ _)

theorem table_disassemble (emu : Emulator) (start : BitVec 16) (times : BitVec 8) :
    (disassemble emu start times).table = emu.table := by
  have hline (e : Emulator) : (disassembleLine e).table = e.table := table_decode (fetch e).2 _ _
  rw [disassemble_eq]
  exact Trail.view_iterate hline times.toNat (listingStart emu start)

theorem table_handleBreakpoints (emu : Emulator) : (handleBreakpoints emu).table = emu.table := by
  unfold handleBreakpoints
  split_ifs
  · exact table_disassemble _ _ _
  · rfl

theorem table_pauseRun (emu : Emulator) : (pauseRun emu).table = emu.table := by
  unfold pauseRun
  split_ifs
  · exact table_disassemble _ _ _
  · rfl

theorem table_getRegPtr (emu : Emulator) (n : Fin 16) : (getRegPtr emu n).table = emu.table := by
  unfold getRegPtr
  split_ifs <;> rfl

theorem table_setRegister (emu : Emulator) (n : Fin 16) (v : BitVec 16) :
    (setRegister emu n v).table = emu.table := by
  unfold setRegister
  split_ifs
  · rfl
  · exact table_getRegPtr emu n

theorem table_execDump {emu emu' : Emulator} {line : Str} (h : execDump emu line = some emu') :
    emu'.table = emu.table := by
  unfold execDump at h
  split_ifs at h
  obtain ⟨⟨start, e⟩, hstart, rfl⟩ := Option.map_eq_some_iff.mp h
  rcases dumpStart_cases hstart with rfl | ⟨n, rfl⟩
  · rfl
  · exact table_getRegPtr emu n

theorem table_execSet {emu emu' : Emulator} {line : Str} (h : execSet emu line = some emu') :
    emu'.table = emu.table := by
  unfold execSet at h
  split_ifs at h
  cases hname : regNameToNum (secondWord line) with
  | none =>
    simp only [hname, Option.some.injEq] at h
    rw [← h]
    exact outside_table.store16 _ _ _
  | some n =>
    simp only [hname, Option.some.injEq] at h
    rw [← h, table_disassemble, table_setRegister]

theorem table_deliver (emu : Emulator) (b : BitVec 8) : (deliver emu b).table = emu.table := by
  unfold deliver
  split_ifs <;> rfl

/-- A command that is no `break` leaves the table. -/
theorem table_execCmd {emu emu' : Emulator} {line : Str} (hline : command line ≠ .addBreak)
    (h : execCmd emu line = some emu') : emu'.table = emu.table := by
  rw [execCmd_eq] at h
  cases hc : command line <;> rw [hc] at h
  case overlong => cases h
  case reset =>
    obtain rfl := Option.some.inj h
    exact table_disassemble (emu.setReg 0 0xC000) _ _
  case step steps =>
    obtain rfl := Option.some.inj h
    exact (table_disassemble _ _ _).trans
      (Trail.view_iterate table_machineStep steps.toNat emu)
  case dis =>
    obtain rfl := Option.some.inj h
    exact table_disassemble _ _ _
  case dump => exact table_execDump h
  case set => exact table_execSet h
  case addBreak => exact absurd hc hline
  case bps =>
    obtain rfl := Option.some.inj h
    rw [execBps_eq]
    rfl
  case regs =>
    obtain rfl := Option.some.inj h
    exact table_disassemble _ _ _
  all_goals
    obtain rfl := Option.some.inj h
    rfl

end Table

/-! ## What a line enters -/

/-- The address of a well-formed `break` command. -/
def breakAddress (line : Str) : Option (BitVec 32) :=
  if command line = .addBreak then (scanHex (arguments line)).map Prod.fst else none

/-- `break s`. -/
def breakLine (s : Str) : Str := bytes "break" ++ (bytes " " ++ s)

/-- The address that a line spells. -/
theorem breakAddress_breakLine {s : Str} {n : ℕ} (hs : HexSpelling s n) (hn : n < 2 ^ 64) :
    breakAddress (breakLine s) = some (BitVec.ofNat 32 n) := by
  have hfirst : scanWord (breakLine s) = some (bytes "break", bytes " " ++ s) :=
    scanWord_word (by decide) (by decide) (by simp [bytes, isSpace])
  have hcommand : command (breakLine s) = .addBreak :=
    command_of_word hfirst (by decide) (by decide) (by simp)
  rw [breakAddress, if_pos hcommand, arguments, hfirst, Option.map_some, Option.getD_some,
    hs.scanHex_eq _ isSpace_blank, Option.map_some, scanned_eq hn]

/-- The addresses that lines enter, in order. -/
def addressesIn (lines : List Str) : List (BitVec 32) := lines.filterMap breakAddress

/-- The entries that they should make: the low halves of the first 100. -/
def entriesFor (lines : List Str) : List (BitVec 16) :=
  ((addressesIn lines).take maxBreakpoints).map (·.setWidth 16)

/-- **The write makes one entry**: its other half is no entry, and the count is not damaged. -/
theorem breakpoints_addBreakpoint {emu : Emulator} (h : emu.numBps < maxBreakpoints)
    (addr : BitVec 32) :
    breakpoints (addBreakpoint emu addr) = breakpoints emu ++ [addr.setWidth 16] := by
  rw [breakpoints, addBreakpoint_eq h, breakpoints,
    ← entries_storePair _ _ _ ((addr >>> 16).setWidth 16)]
  apply entries_congr
  intro i hi
  exact if_pos (Nat.lt_of_lt_of_le hi h)

/-- `break` records the low half of its address. -/
theorem breakpoints_execBreak (emu : Emulator) (line : Str) :
    breakpoints (execBreak emu line)
      = ((scanHex (arguments line)).map fun r =>
          record maxBreakpoints (breakpoints emu) (r.1.setWidth 16)).getD (breakpoints emu) := by
  have hlen : (breakpoints emu).length = emu.numBps := length_entries _ _
  rw [execBreak]
  split_ifs with hfull
  · cases scanHex (arguments line) with
    | none => rfl
    | some r => exact (record_of_le (hlen ▸ hfull) _).symm
  · cases scanHex (arguments line) with
    | none => rfl
    | some r =>
      have hroom : emu.numBps < maxBreakpoints := Nat.not_le.mp hfull
      exact (breakpoints_addBreakpoint hroom r.1).trans (if_pos (hlen ▸ hroom)).symm

/-- **A line records what it enters.** -/
theorem breakpoints_execCmd {emu emu' : Emulator} {line : Str} (h : execCmd emu line = some emu') :
    breakpoints emu'
      = ((breakAddress line).map fun addr =>
          record maxBreakpoints (breakpoints emu) (addr.setWidth 16)).getD (breakpoints emu) := by
  by_cases hline : command line = .addBreak
  · rw [execCmd_eq, hline] at h
    obtain rfl := Option.some.inj h
    rw [breakAddress, if_pos hline, Option.map_map]
    exact breakpoints_execBreak emu line
  · rw [breakAddress, if_neg hline]
    exact breakpoints_congr (table_execCmd hline h)

/-! ## Runs -/

/-- An event of a session, where a line is executed whether or not the CPU stands in the
debugger. -/
def underDebugger (emu : Emulator) : SessionEvent → Option Emulator
  | .command line => execCmd emu line
  | ev => perform emu ev

/-- The line of an event. -/
def SessionEvent.line : SessionEvent → Option Str
  | .command line => some line
  | _ => none

/-- The lines of a run. -/
def linesIn (evs : List SessionEvent) : List Str := evs.filterMap SessionEvent.line

/-- **One event** records what its line enters, and without a line it leaves the table. -/
theorem breakpoints_underDebugger (emu : Emulator) (ev : SessionEvent) (emu' : Emulator)
    (h : underDebugger emu ev = some emu') :
    breakpoints emu'
      = (((ev.line.bind breakAddress).map (·.setWidth 16)).map
          (record maxBreakpoints (breakpoints emu))).getD (breakpoints emu) := by
  cases ev with
  | command line =>
    rw [breakpoints_execCmd h, Option.map_map]
    rfl
  | play =>
    obtain rfl := Option.some.inj h
    rfl
  | pause =>
    obtain rfl := Option.some.inj h
    exact breakpoints_congr (table_pauseRun emu)
  | input b =>
    obtain rfl := Option.some.inj h
    exact breakpoints_congr (table_deliver emu b)
  | head =>
    change perform emu .head = some emu' at h
    rw [perform] at h
    split_ifs at h
    · obtain rfl := Option.some.inj h
      rfl
    · obtain rfl := Option.some.inj h
      exact breakpoints_congr (table_handleBreakpoints emu)
  | body =>
    obtain rfl := Option.some.inj h
    exact breakpoints_congr (table_machineStep emu)

/-- **The table after a run**: the one from before with the entries made, as far as there is
room. -/
theorem breakpoints_run {emu emu' : Emulator} {evs : List SessionEvent}
    (hcount : emu.numBps ≤ maxBreakpoints) (h : evs.foldlM underDebugger emu = some emu') :
    breakpoints emu'
      = (breakpoints emu ++ (addressesIn (linesIn evs)).map (·.setWidth 16)).take
          maxBreakpoints := by
  have hlog : breakpoints emu = (breakpoints emu).take maxBreakpoints :=
    (List.take_of_length_le (by rwa [breakpoints, length_entries])).symm
  rw [log_of_run breakpoints_underDebugger hlog h, addressesIn, linesIn,
    List.filterMap_filterMap, List.map_filterMap]

/-- Earlier entries stay. -/
theorem breakpoints_prefix {emu emu' : Emulator} {evs : List SessionEvent}
    (hcount : emu.numBps ≤ maxBreakpoints) (h : evs.foldlM underDebugger emu = some emu') :
    breakpoints emu <+: breakpoints emu' := by
  rw [breakpoints_run hcount h, List.prefix_take_iff]
  exact ⟨List.prefix_append _ _, by rwa [breakpoints, length_entries]⟩

/-- The table is the log of what the lines enter, and a running CPU with this table stops
exactly at its entries. -/
structure KeepsEntered (lines : List Str) (emu : Emulator) : Prop where
  count : emu.numBps ≤ maxBreakpoints
  entries : entries emu.bpAddresses emu.numBps = entriesFor lines
  stops : ∀ e : Emulator, e.numBps = emu.numBps → e.bpAddresses = emu.bpAddresses →
    e.running = true → ((handleBreakpoints e).running = false ↔ e.pc ∈ entriesFor lines)

/-- **The table keeps what was entered**, over any lines and whatever happens between them. -/
theorem breakpoint_table {emu emu' : Emulator} {evs : List SessionEvent} (hempty : emu.numBps = 0)
    (h : evs.foldlM underDebugger emu = some emu') : KeepsEntered (linesIn evs) emu' := by
  have hnone : breakpoints emu = [] := by rw [breakpoints, hempty]; rfl
  have htable : breakpoints emu' = entriesFor (linesIn evs) := by
    rw [breakpoints_run (by omega) h, hnone, List.nil_append, entriesFor, List.map_take]
  have hlen : emu'.numBps = (breakpoints emu').length := (length_entries _ _).symm
  refine ⟨?_, htable, fun e hnum hbps hrun => ?_⟩
  · rw [hlen, htable, entriesFor, List.length_map]
    exact List.length_take_le _ _
  · rw [stops_iff hrun, ← htable, breakpoints_congr (Prod.ext hnum hbps)]

/-- Two addresses, the second wider than an entry, and the lines that list them. -/
theorem breakpoint_table_two :
    KeepsEntered [bytes "break C000", bytes "break 1FFFE", bytes "bps", bytes "break"]
      (execBps (addBreakpoint (addBreakpoint startState 0xC000) 0x1FFFE)) := by
  have hrun : [.command (bytes "break C000"), .command (bytes "break 1FFFE"),
      .command (bytes "bps"), .command (bytes "break")].foldlM underDebugger startState
        = some (execBps (addBreakpoint (addBreakpoint startState 0xC000) 0x1FFFE)) := rfl
  exact breakpoint_table rfl hrun

/-! ## The program -/

/-- A session is such a run: the lines that come while the CPU runs are dropped. -/
theorem underDebugger_of_session {emu emu' : Emulator} {evs : List SessionEvent}
    (h : session emu evs = some emu') :
    ∃ evs' : List SessionEvent, evs'.foldlM underDebugger emu = some emu' := by
  induction evs generalizing emu with
  | nil => exact ⟨[], h⟩
  | cons ev evs ih =>
    rw [session, List.foldlM_cons] at h
    obtain ⟨e, hev, hrest⟩ := Option.bind_eq_some_iff.mp h
    obtain ⟨evs', hevs'⟩ := ih hrest
    have hcons (hdone : underDebugger emu ev = some e) :
        ∃ evs' : List SessionEvent, evs'.foldlM underDebugger emu = some emu' :=
      ⟨ev :: evs', by rw [List.foldlM_cons, hdone]; exact hevs'⟩
    cases ev with
    | command line =>
      rw [perform] at hev
      split_ifs at hev
      · exact hcons hev
      · obtain rfl := Option.some.inj hev
        exact ⟨evs', hevs'⟩
    | _ => exact hcons hev

/-- Initialising the machine leaves the table. -/
theorem table_initialise {tmpBin : List (BitVec 8)} {emu emu' : Emulator}
    (h : initialise tmpBin emu = some emu') : emu'.table = emu.table := by
  rw [(initialise_eq h).2, table_disassemble]
  cases emu
  rfl

/-- **In no state of the program** does the count exceed the table. -/
theorem count_of_program {p : Program}
    (h : Reachability.ReachedBy Program.step Reachability.AnyStep startProgram p) :
    p.host.emu.numBps ≤ maxBreakpoints := by
  apply h.invariant (I := fun p => p.host.emu.numBps ≤ maxBreakpoints)
  · exact Nat.zero_le _
  · intro q a q' hq _ hstep
    have hkeep (htable : q'.host.emu.table = q.host.emu.table) :
        q'.host.emu.numBps ≤ maxBreakpoints := (congrArg Prod.fst htable).trans_le hq
    cases a with
    | message m =>
      simp only [Program.step] at hstep
      split_ifs at hstep
      obtain ⟨h', hreceive, rfl⟩ := Option.map_eq_some_iff.mp hstep
      obtain ⟨evs, hevs⟩ := session_of_receive hreceive
      obtain ⟨evs', hevs'⟩ := underDebugger_of_session hevs
      have hlen := congrArg List.length (breakpoints_run hq hevs')
      rw [breakpoints, length_entries] at hlen
      exact hlen.trans_le (List.length_take_le _ _)
    | initialise tmpBin =>
      simp only [Program.step] at hstep
      split_ifs at hstep
      obtain ⟨emu, hinit, rfl⟩ := Option.map_eq_some_iff.mp hstep
      exact hkeep (table_initialise hinit)
    | main =>
      cases hmain : q.main with
      | waiting =>
        simp only [Program.step, hmain, Option.some.injEq] at hstep
        exact hstep ▸ hq
      | head =>
        simp only [Program.step, hmain] at hstep
        split_ifs at hstep
        · exact Option.some.inj hstep ▸ hq
        · obtain rfl := Option.some.inj hstep
          exact hkeep (table_handleBreakpoints _)
      | decode =>
        simp only [Program.step, hmain, Option.some.injEq] at hstep
        obtain rfl := hstep
        exact hkeep (table_machineStep _)

end Msp430
