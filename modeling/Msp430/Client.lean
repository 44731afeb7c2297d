/-
# What a client sees

The web page is not in the repository.  The client here is a reader of the frame formats of
`emu_server.h`: console text, serial text, and control packets for the pins and for the panel of
registers.  It sees nothing but what the emulator has printed, in order and without loss:
`client_reads` carries the queue and the wire format through to the state of the client.
-/
import Msp430.EmuServer

namespace Msp430

open CString Fifo

/-! ## Reading frames -/

/-- What a reader of the frames shows. -/
structure Client where
  console : Str
  serial : Str
  pins : Fin 8 → Bool
  panel : Fin 16 → Str

/-- A client that has read nothing. -/
def Client.start : Client := ⟨[], [], fun _ => false, fun _ => []⟩

/-- A control packet of `emu_server.h`: a pin, a register, or all registers. -/
def Client.control (c : Client) (opcode : BitVec 8) (data : Str) : Client :=
  let code := opcode.toNat
  if code < 0x10 then
    { c with pins := Function.update c.pins (Fin.ofNat 8 (code / 2)) (code % 2 == 0) }
  else if code < 0x20 then
    { c with panel := Function.update c.panel (Fin.ofNat 16 (code - 0x10)) data }
  else if code = 0x20 then { c with panel := fun _ => data }
  else c

/-- The data of a control packet, behind its length. -/
def controlData : List (BitVec 8) → Str
  | [] => []
  | length :: data => data.take length.toNat

/-- The message of a control packet. -/
def Client.readControl (c : Client) : List (BitVec 8) → Client
  | [] => c
  | opcode :: rest => c.control opcode (controlData rest)

/-- A frame is read as `emu_server.h` lays it out: the kind, and the text or the control packet. -/
def Client.read (c : Client) : List (BitVec 8) → Client
  | [] => c
  | kind :: message =>
    if kind = 0x01 then { c with console := c.console ++ message.takeWhile (· != 0) }
    else if kind = 0x02 then { c with serial := c.serial ++ message.takeWhile (· != 0) }
    else c.readControl message

/-! ## What the operations show -/

/-- What an operation is to show to a client. -/
def Operation.shown (c : Client) : Operation → Client
  | .printConsole buf => { c with console := c.console ++ buf.takeWhile (· != 0) }
  | .printSerial buf => { c with serial := c.serial ++ buf.takeWhile (· != 0) }
  | .sendControl opcode data => c.control opcode (data.getD [])
  | .serverWriteable p1 => { c with pins := pinsShown p1 c.pins }

/-- The operation is one that the program makes beside the callback: its control packets are
not those of the pins, and their data has a length that a byte can hold. -/
def Operation.Plain : Operation → Prop
  | .sendControl opcode data => 0x10 ≤ opcode.toNat ∧ (data.getD []).length < 256
  | _ => True

instance (op : Operation) : Decidable op.Plain :=
  match op with
  | .sendControl opcode data =>
    inferInstanceAs (Decidable (0x10 ≤ opcode.toNat ∧ (data.getD []).length < 256))
  | .printConsole _ | .printSerial _ | .serverWriteable _ => inferInstanceAs (Decidable True)

section Reading

variable (c : Client)

theorem takeWhile_terminated (s : Str) :
    (terminated s).takeWhile (· != 0) = s.takeWhile (· != 0) := by
  have hall : ∀ x ∈ s.takeWhile (· != 0), (x != 0) = true :=
    List.all_eq_true.mp (List.all_takeWhile)
  rw [terminated, List.takeWhile_append_of_pos hall]
  exact List.append_nil _

/-- A control packet carries its data. -/
theorem read_controlMessage {opcode : BitVec 8} {data : Option (List (BitVec 8))}
    (hlen : (data.getD []).length < 256) :
    c.read (0x00 :: controlMessage opcode data) = c.control opcode (data.getD []) := by
  cases data with
  | none => rfl
  | some data =>
    have hread : controlData (BitVec.ofNat 8 data.length :: data) = data := by
      rw [Option.getD_some] at hlen
      rw [controlData, BitVec.toNat_ofNat, Nat.mod_eq_of_lt hlen, List.take_length]
    exact congrArg (c.control opcode) hread

/-- The packet of a pin. -/
theorem control_pin (n : Fin 8) :
    c.control (p1OnPacket n) [] = { c with pins := Function.update c.pins n true } ∧
      c.control (p1OffPacket n) [] = { c with pins := Function.update c.pins n false } := by
  have hon : ∀ n : Fin 8, (p1OnPacket n).toNat < 0x10 ∧
      Fin.ofNat 8 ((p1OnPacket n).toNat / 2) = n ∧
      ((p1OnPacket n).toNat % 2 == 0) = true := by decide
  have hoff : ∀ n : Fin 8, (p1OffPacket n).toNat < 0x10 ∧
      Fin.ofNat 8 ((p1OffPacket n).toNat / 2) = n ∧
      ((p1OffPacket n).toNat % 2 == 0) = false := by decide
  constructor
  · obtain ⟨hlt, hpin, heven⟩ := hon n
    simp only [Client.control, if_pos hlt, hpin, heven]
  · obtain ⟨hlt, hpin, hodd⟩ := hoff n
    simp only [Client.control, if_pos hlt, hpin, hodd]

/-- A client that knows of a pin what the callback knows. -/
theorem foldl_pinFrames (p1 : Port1) (on : Fin 8 → Bool) (n : Fin 8) (hn : c.pins n = on n) :
    (pinFrames p1 on n).foldl Client.read c
      = { c with pins := Function.update c.pins n (pinsShown p1 on n) } := by
  have hkeep : pinsShown p1 on n = on n →
      c = { c with pins := Function.update c.pins n (pinsShown p1 on n) } := by
    intro h
    rw [h, ← hn, Function.update_eq_self]
  rw [pinFrames]
  cases hdir : p1.dir n with
  | false => exact hkeep (by rw [pinsShown, hdir]; rfl)
  | true =>
    have hshown : pinsShown p1 on n = p1.out n := by rw [pinsShown, hdir]; rfl
    by_cases hsame : p1.out n = on n
    · rw [if_pos rfl, if_pos hsame]
      exact hkeep (hshown.trans hsame)
    · rw [if_pos rfl, if_neg hsame, hshown]
      cases hout : p1.out n with
      | false => exact (control_pin c n).2
      | true => exact (control_pin c n).1

/-- The pins one after the other. -/
theorem foldl_flatMap_pinFrames (p1 : Port1) (on : Fin 8 → Bool) {l : List (Fin 8)}
    (hl : l.Nodup) (hpins : ∀ n ∈ l, c.pins n = on n) :
    (l.flatMap (pinFrames p1 on)).foldl Client.read c
      = { c with pins := fun n => if n ∈ l then pinsShown p1 on n else c.pins n } := by
  induction l generalizing c with
  | nil => simp
  | cons n l ih =>
    rw [List.nodup_cons] at hl
    obtain ⟨hn, hrest⟩ := List.forall_mem_cons.mp hpins
    rw [List.flatMap_cons, List.foldl_append, foldl_pinFrames c p1 on n hn, ih _ hl.2]
    · congr 1
      funext m
      by_cases hm : m = n
      · subst hm
        simp [hl.1]
      · simp [hm]
    · intro m hm
      have hne : m ≠ n := fun hc => hl.1 (hc ▸ hm)
      rw [← hrest m hm]
      exact Function.update_of_ne hne _ _

/-- **The frames of an operation show what it is to show.** -/
theorem foldl_read_events {op : Operation} (hop : op.Plain) :
    (puts (op.events c.pins)).foldl Client.read c = op.shown c ∧
      (op.shown c).pins = op.pins c.pins := by
  cases op with
  | printConsole buf =>
    refine ⟨?_, rfl⟩
    show c.read (0x01 :: terminated buf) = _
    rw [Client.read, if_pos rfl, takeWhile_terminated]
    rfl
  | printSerial buf =>
    refine ⟨?_, rfl⟩
    show c.read (0x02 :: terminated buf) = _
    rw [Client.read, if_neg (by decide), if_pos rfl, takeWhile_terminated]
    rfl
  | sendControl opcode data =>
    obtain ⟨hcode, hlen⟩ := hop
    refine ⟨read_controlMessage c hlen, ?_⟩
    simp only [Operation.shown, Client.control, if_neg (not_lt.mpr hcode)]
    split_ifs <;> rfl
  | serverWriteable p1 =>
    refine ⟨?_, rfl⟩
    show (puts (((List.finRange 8).flatMap (pinFrames p1 c.pins)).map .put)).foldl Client.read c = _
    rw [puts_map_put, foldl_flatMap_pinFrames c p1 c.pins (List.nodup_finRange 8) fun _ _ => rfl]
    simp [Operation.shown]

/-- The frames of a sequence of operations. -/
theorem foldl_read_operations {ops : List Operation} (hops : ∀ op ∈ ops, op.Plain) :
    (puts (events c.pins ops)).foldl Client.read c = ops.foldl Operation.shown c := by
  induction ops generalizing c with
  | nil => rfl
  | cons op ops ih =>
    obtain ⟨hop, hops⟩ := List.forall_mem_cons.mp hops
    obtain ⟨hread, hpins⟩ := foldl_read_events c hop
    rw [events, puts_append, List.foldl_append, hread, List.foldl_cons, ← hpins, ih _ hops]

end Reading

/-! ## The three streams -/

/-- The console text of an operation. -/
def Operation.consoleText : Operation → Str
  | .printConsole buf => buf.takeWhile (· != 0)
  | _ => []

/-- The serial text of an operation. -/
def Operation.serialText : Operation → Str
  | .printSerial buf => buf.takeWhile (· != 0)
  | _ => []

/-- A control packet leaves the texts. -/
theorem texts_control (c : Client) (opcode : BitVec 8) (data : Str) :
    (c.control opcode data).console = c.console ∧ (c.control opcode data).serial = c.serial := by
  simp only [Client.control]
  split_ifs <;> exact ⟨rfl, rfl⟩

/-- What the operations print. -/
theorem texts_shown (c : Client) (ops : List Operation) :
    (ops.foldl Operation.shown c).console = c.console ++ ops.flatMap Operation.consoleText ∧
      (ops.foldl Operation.shown c).serial = c.serial ++ ops.flatMap Operation.serialText := by
  induction ops generalizing c with
  | nil => exact ⟨(List.append_nil _).symm, (List.append_nil _).symm⟩
  | cons op ops ih =>
    have hop : (op.shown c).console = c.console ++ op.consoleText ∧
        (op.shown c).serial = c.serial ++ op.serialText := by
      cases op with
      | printConsole buf => exact ⟨rfl, (List.append_nil _).symm⟩
      | printSerial buf => exact ⟨(List.append_nil _).symm, rfl⟩
      | sendControl opcode data =>
        obtain ⟨hconsole, hserial⟩ := texts_control c opcode (data.getD [])
        exact ⟨hconsole.trans (List.append_nil _).symm, hserial.trans (List.append_nil _).symm⟩
      | serverWriteable p1 => exact ⟨(List.append_nil _).symm, (List.append_nil _).symm⟩
    obtain ⟨hconsole, hserial⟩ := ih (op.shown c)
    rw [List.foldl_cons, hconsole, hserial, hop.1, hop.2, List.flatMap_cons, List.flatMap_cons,
      List.append_assoc, List.append_assoc]
    exact ⟨rfl, rfl⟩

/-- What a client shows of a text it goes on showing. -/
theorem prefix_foldl_read (c : Client) (frames : List (List (BitVec 8))) :
    c.console <+: (frames.foldl Client.read c).console ∧
      c.serial <+: (frames.foldl Client.read c).serial := by
  induction frames generalizing c with
  | nil => exact ⟨List.prefix_rfl, List.prefix_rfl⟩
  | cons frame frames ih =>
    have hread : c.console <+: (c.read frame).console ∧ c.serial <+: (c.read frame).serial := by
      cases frame with
      | nil => exact ⟨List.prefix_rfl, List.prefix_rfl⟩
      | cons kind message =>
        rw [Client.read]
        split_ifs
        · exact ⟨List.prefix_append _ _, List.prefix_rfl⟩
        · exact ⟨List.prefix_rfl, List.prefix_append _ _⟩
        · cases message with
          | nil => exact ⟨List.prefix_rfl, List.prefix_rfl⟩
          | cons opcode rest =>
            obtain ⟨hconsole, hserial⟩ := texts_control c opcode (controlData rest)
            rw [Client.readControl, hconsole, hserial]
            exact ⟨List.prefix_rfl, List.prefix_rfl⟩
    obtain ⟨hconsole, hserial⟩ := ih (c.read frame)
    exact ⟨hread.1.trans hconsole, hread.2.trans hserial⟩

/-- The server has the pins down as a client is shown them. -/
theorem Carries.pins_operations {c c' : Connection} {q : Queue (List (BitVec 8))} (client : Client)
    {ops : List Operation} (h : Carries c q client.pins) (hplain : ∀ op ∈ ops, op.Plain)
    (hlen : ∀ k ≤ ops.length,
      (q.after (Msp430.events client.pins (ops.take k))).pending.length < 2 ^ 32)
    (hrun : ops.foldlM Msp430.operate c = some c') :
    c'.p1On = (ops.foldl Operation.shown client).pins := by
  induction ops generalizing c q client with
  | nil =>
    obtain rfl : c = c' := Option.some.inj hrun
    exact h.pins
  | cons op ops ih =>
    obtain ⟨hop, hplain⟩ := List.forall_mem_cons.mp hplain
    obtain ⟨c₁, hc₁, h₁⟩ := h.operate op (hlen 0 (Nat.zero_le _))
    obtain ⟨-, hpins⟩ := foldl_read_events client hop
    rw [List.foldlM_cons, hc₁] at hrun
    rw [← hpins] at h₁
    refine ih (op.shown client) h₁ hplain (fun k hk => ?_) hrun
    rw [hpins, ← after_append]
    exact hlen (k + 1) (by simpa using hk)

/-- The client that reads everything, pending packets as well, is as the operations show it. -/
theorem client_shows (s : Server) {ops : List Operation} (hplain : ∀ op ∈ ops, op.Plain)
    (hlen : ∀ k ≤ ops.length, (queueAfter (ops.take k)).pending.length < 2 ^ 32) :
    ∃ c, ops.foldlM operate (connect s) = some c ∧
      (c.wire ++ (queueAfter ops).pending).foldl Client.read .start
        = ops.foldl Operation.shown .start ∧
      c.p1On = (ops.foldl Operation.shown .start).pins := by
  have hstart : Carries (connect s) Queue.empty Client.start.pins :=
    ⟨pending_initPacketQueue s, rfl, rfl⟩
  obtain ⟨c, on, hc, h⟩ := hstart.operations ops hlen
  have hall : c.wire ++ (queueAfter ops).pending = puts (events Client.start.pins ops) := by
    rw [h.wire]
    exact sent_append_pending Queue.empty _
  refine ⟨c, hc, ?_, hstart.pins_operations Client.start hplain hlen hc⟩
  rw [hall, foldl_read_operations Client.start hplain]

/-- **A client sees what the operations show**: at any time the beginning of what has been
printed to the console and to the serial interface, and with the packets that are pending all
of it, the pins as the server has them down, and the panel as the control packets leave it. -/
theorem client_reads (s : Server) (ops : List Operation) (hplain : ∀ op ∈ ops, op.Plain)
    (hlen : ∀ k ≤ ops.length, (queueAfter (ops.take k)).pending.length < 2 ^ 32) :
    ∃ c, ops.foldlM operate (connect s) = some c ∧
      (c.wire.foldl Client.read .start).console <+: ops.flatMap Operation.consoleText ∧
      (c.wire.foldl Client.read .start).serial <+: ops.flatMap Operation.serialText ∧
      ∃ client, client = (c.wire ++ (queueAfter ops).pending).foldl Client.read .start ∧
        client = ops.foldl Operation.shown .start ∧
        client.console = ops.flatMap Operation.consoleText ∧
        client.serial = ops.flatMap Operation.serialText ∧ client.pins = c.p1On := by
  obtain ⟨c, hc, hread, hpins⟩ := client_shows s hplain hlen
  obtain ⟨hconsole, hserial⟩ := texts_shown Client.start ops
  obtain ⟨hfirst, hsecond⟩ :=
    prefix_foldl_read (c.wire.foldl Client.read .start) (queueAfter ops).pending
  rw [← List.foldl_append, hread] at hfirst hsecond
  rw [hconsole] at hfirst
  rw [hserial] at hsecond
  exact ⟨c, hc, hfirst, hsecond, _, hread.symm, rfl, hconsole, hserial, hpins.symm⟩

/-- A line, a register, a pin that goes on and a character. -/
def lineOperations : List Operation :=
  [.printConsole (CString.bytes "ok"), .sendControl 0x10 (some (CString.bytes "C000")),
   .serverWriteable pinThreeOn, .printSerial [0x48]]

/-- What a client sees of them. -/
theorem client_reads_line : ∃ c, lineOperations.foldlM operate (connect clearedServer) = some c ∧
    (c.wire.foldl Client.read .start).console <+: CString.bytes "ok" ∧
    (c.wire.foldl Client.read .start).serial <+: [0x48] ∧
    ∃ client, client = (c.wire ++ (queueAfter lineOperations).pending).foldl Client.read .start ∧
      client = lineOperations.foldl Operation.shown .start ∧
      client.console = CString.bytes "ok" ∧ client.serial = [0x48] ∧ client.pins = c.p1On :=
  client_reads clearedServer lineOperations (by decide) (by decide)

end Msp430
