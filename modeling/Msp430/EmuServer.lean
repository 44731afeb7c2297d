/-
# Packets to the client (`debugger/websockets/emu_server.cpp`)

What `print_console`, `print_serial` and `send_control` queue, and the callback that libwebsockets
makes when the connection is writable: it writes one packet and queues the changes of the pins.
`wire_fifo` says that the client gets what was queued, in the order in which it was.
-/
import Msp430.Fifo
import Msp430.PacketQueue
import Msp430.Startup

namespace Msp430

open Fifo

/-! ## Queueing -/

/-- `send_control`: the opcode, and with data its length and the data. -/
def sendControl (s : Server) (opcode : BitVec 8) (data : Option (List (BitVec 8))) :
    Option Server :=
  match data with
  | none => packetEnqueue s [opcode] 0x00
  | some data => packetEnqueue s (opcode :: BitVec.ofNat 8 data.length :: data) 0x00

/-- `print_serial`. -/
def printSerial (s : Server) (buf : CString.Str) : Option Server :=
  packetEnqueue s (CString.terminated buf) 0x02

/-- `print_console`. -/
def printConsole (s : Server) (buf : CString.Str) : Option Server :=
  packetEnqueue s (CString.terminated buf) 0x01

/-! ## The writable callback -/

/-- The server with what `lws_write` has been handed, and the flags `p1_0_on … p1_7_on`. -/
structure Connection where
  server : Server
  wire : List (List (BitVec 8))
  p1On : Fin 8 → Bool

/-- The first packet is written and its message freed. -/
def writePacket (c : Connection) : Option Connection :=
  (packetDequeue c.server).bind fun (s, packet) => packet.bind fun p =>
    (frameOf s.buffers p).map fun frame =>
      { c with server := freeMessage s p, wire := c.wire ++ [frame] }

/-- `P1_n_ON_PACKET`. -/
def p1OnPacket (n : Fin 8) : BitVec 8 := BitVec.ofNat 8 (2 * n)

/-- `P1_n_OFF_PACKET`. -/
def p1OffPacket (n : Fin 8) : BitVec 8 := BitVec.ofNat 8 (2 * n + 1)

/-- The block of one pin: a change of its output is queued, an input is passed over. -/
def pinControl (p1 : Port1) (c : Connection) (n : Fin 8) : Option Connection :=
  if p1.dir n then
    if p1.out n then
      if c.p1On n == false then
        (sendControl c.server (p1OnPacket n) none).map fun s =>
          { c with server := s, p1On := Function.update c.p1On n true }
      else some c
    else
      if c.p1On n == true then
        (sendControl c.server (p1OffPacket n) none).map fun s =>
          { c with server := s, p1On := Function.update c.p1On n false }
      else some c
  else some c

/-- `LWS_CALLBACK_SERVER_WRITEABLE`. -/
def serverWriteable (p1 : Port1) (c : Connection) : Option Connection :=
  (if packetQueueEmpty c.server then some c else writePacket c).bind fun c =>
    (List.finRange 8).foldlM (pinControl p1) c

/-! ## Sequences of operations -/

/-- What is done to the queue; the port is as it is when the callback comes. -/
inductive Operation : Type where
  | printConsole (buf : CString.Str) : Operation
  | printSerial (buf : CString.Str) : Operation
  | sendControl (opcode : BitVec 8) (data : Option (List (BitVec 8))) : Operation
  | serverWriteable (p1 : Port1) : Operation

/-- One operation. -/
def operate (c : Connection) : Operation → Option Connection
  | .printConsole buf => (printConsole c.server buf).map fun s => { c with server := s }
  | .printSerial buf => (printSerial c.server buf).map fun s => { c with server := s }
  | .sendControl opcode data =>
    (sendControl c.server opcode data).map fun s => { c with server := s }
  | .serverWriteable p1 => serverWriteable p1 c

/-- The connection when the server starts. -/
def connect (s : Server) : Connection := ⟨initPacketQueue s, [], fun _ => false⟩

/-! ## What should go out -/

/-- The message of a control packet. -/
def controlMessage (opcode : BitVec 8) : Option (List (BitVec 8)) → List (BitVec 8)
  | none => [opcode]
  | some data => opcode :: BitVec.ofNat 8 data.length :: data

/-- The frame that a pin gives rise to, if its output is not what the client knows. -/
def pinFrames (p1 : Port1) (on : Fin 8 → Bool) (n : Fin 8) : List (List (BitVec 8)) :=
  if p1.dir n then
    if p1.out n = on n then []
    else if p1.out n then [[0x00, p1OnPacket n]] else [[0x00, p1OffPacket n]]
  else []

/-- What the client knows of the pins behind the callback. -/
def pinsShown (p1 : Port1) (on : Fin 8 → Bool) (n : Fin 8) : Bool :=
  if p1.dir n then p1.out n else on n

/-- The operation as it looks on a queue of frames: the packet type, then the payload. -/
def Operation.events (on : Fin 8 → Bool) : Operation → List (Event (List (BitVec 8)))
  | .printConsole buf => [.put (0x01 :: CString.terminated buf)]
  | .printSerial buf => [.put (0x02 :: CString.terminated buf)]
  | .sendControl opcode data => [.put (0x00 :: controlMessage opcode data)]
  | .serverWriteable p1 => .take :: ((List.finRange 8).flatMap (pinFrames p1 on)).map .put

/-- The pins behind the operation. -/
def Operation.pins (on : Fin 8 → Bool) : Operation → Fin 8 → Bool
  | .serverWriteable p1 => pinsShown p1 on
  | _ => on

/-- A sequence of operations as it looks on a queue of frames. -/
def events (on : Fin 8 → Bool) : List Operation → List (Event (List (BitVec 8)))
  | [] => []
  | op :: ops => op.events on ++ events (op.pins on) ops

/-- The queue that the operations should leave. -/
def queueAfter (ops : List Operation) : Queue (List (BitVec 8)) :=
  Queue.empty.after (events (fun _ => false) ops)

/-! ## The code's queue is that queue -/

/-- The connection carries the queue. -/
structure Carries (c : Connection) (q : Queue (List (BitVec 8))) (on : Fin 8 → Bool) : Prop where
  pending : Pending c.server q.pending
  wire : c.wire = q.sent
  pins : c.p1On = on

section Carries

variable {c : Connection} {q : Queue (List (BitVec 8))} {on : Fin 8 → Bool}

/-- Queueing one item. -/
theorem Carries.packetEnqueue (h : Carries c q on) (item : List (BitVec 8)) (opcode : BitVec 8) :
    ∃ s, packetEnqueue c.server item opcode = some s ∧
      Carries { c with server := s } (q.step (.put (opcode :: item))) on := by
  obtain ⟨s, hs, hpending⟩ := h.pending.packetEnqueue item opcode
  exact ⟨s, hs, hpending, h.wire, h.pins⟩

theorem Carries.sendControl (h : Carries c q on) (opcode : BitVec 8)
    (data : Option (List (BitVec 8))) :
    ∃ s, sendControl c.server opcode data = some s ∧
      Carries { c with server := s } (q.step (.put (0x00 :: controlMessage opcode data))) on := by
  cases data <;> exact h.packetEnqueue _ _

/-- **Writing** takes one frame out, if there is one. -/
theorem Carries.writePacket (h : Carries c q on) (hlen : q.pending.length < 2 ^ 32) :
    ∃ c', (if packetQueueEmpty c.server then some c else writePacket c) = some c' ∧
      Carries c' (q.step .take) on := by
  have hempty := h.pending.packetQueueEmpty_iff hlen
  cases hq : q.pending with
  | nil =>
    refine ⟨c, if_pos (hempty.mpr hq), ?_⟩
    simpa [Queue.step, hq] using h
  | cons f fs =>
    have hcons := h.pending
    rw [hq] at hcons hlen
    obtain ⟨s, p, hdequeue, hframe, hrest⟩ := hcons.packetDequeue hlen
    refine ⟨{ c with server := freeMessage s p, wire := c.wire ++ [f] }, ?_, ?_⟩
    · rw [if_neg (by simp [hempty, hq]), Msp430.writePacket, hdequeue]
      simp [hframe]
    · simp only [Queue.step, hq]
      exact ⟨hrest, congrArg (· ++ [f]) h.wire, h.pins⟩

/-- One pin. -/
theorem Carries.pinControl (h : Carries c q on) (p1 : Port1) (n : Fin 8) :
    ∃ c', pinControl p1 c n = some c' ∧
      Carries c' (q.after ((pinFrames p1 on n).map .put))
        (Function.update on n (pinsShown p1 on n)) := by
  have hon : c.p1On n = on n := by rw [h.pins]
  unfold Msp430.pinControl pinFrames pinsShown
  rw [hon]
  cases hdir : p1.dir n with
  | false => exact ⟨c, rfl, by simpa [Queue.after] using h⟩
  | true =>
    cases hout : p1.out n <;> cases hn : on n
    · exact ⟨c, rfl, by simpa [Queue.after, ← hn] using h⟩
    · obtain ⟨s, hs, hc⟩ := h.sendControl (p1OffPacket n) none
      refine ⟨_, congrArg (Option.map _) hs, ?_⟩
      exact ⟨hc.pending, hc.wire, by rw [h.pins]; rfl⟩
    · obtain ⟨s, hs, hc⟩ := h.sendControl (p1OnPacket n) none
      refine ⟨_, congrArg (Option.map _) hs, ?_⟩
      exact ⟨hc.pending, hc.wire, by rw [h.pins]; rfl⟩
    · exact ⟨c, rfl, by simpa [Queue.after, ← hn] using h⟩

/-- A pin looks at its own flag alone. -/
theorem pinFrames_congr (p1 : Port1) {on on' : Fin 8 → Bool} {n : Fin 8} (h : on' n = on n) :
    pinFrames p1 on' n = pinFrames p1 on n ∧ pinsShown p1 on' n = pinsShown p1 on n := by
  unfold pinFrames pinsShown
  rw [h]
  exact ⟨rfl, rfl⟩

/-- The pins one after the other. -/
theorem Carries.pinControls (h : Carries c q on) (p1 : Port1) {l : List (Fin 8)}
    (hl : l.Nodup) :
    ∃ c', l.foldlM (Msp430.pinControl p1) c = some c' ∧
      Carries c' (q.after ((l.flatMap (pinFrames p1 on)).map .put))
        (fun n => if n ∈ l then pinsShown p1 on n else on n) := by
  induction l generalizing c q on with
  | nil => exact ⟨c, rfl, by simpa [Queue.after] using h⟩
  | cons n l ih =>
    rw [List.nodup_cons] at hl
    obtain ⟨c₁, hc₁, h₁⟩ := h.pinControl p1 n
    obtain ⟨c₂, hc₂, h₂⟩ := ih h₁ hl.2
    -- the other pins do not see that this one has changed
    have hothers {m : Fin 8} (hm : m ∈ l) :
        Function.update on n (pinsShown p1 on n) m = on m := by
      refine Function.update_of_ne ?_ _ _
      rintro rfl
      exact hl.1 hm
    have hframes : l.flatMap (pinFrames p1 (Function.update on n (pinsShown p1 on n)))
        = l.flatMap (pinFrames p1 on) := by
      rw [List.flatMap_def, List.flatMap_def,
        List.map_congr_left fun m hm => (pinFrames_congr p1 (hothers hm)).1]
    refine ⟨c₂, ?_, ?_⟩
    · rw [List.foldlM_cons, hc₁]
      exact hc₂
    · rw [hframes] at h₂
      rw [List.flatMap_cons, List.map_append, after_append]
      refine { h₂ with pins := h₂.pins.trans ?_ }
      funext m
      by_cases hm : m ∈ l
      · simp only [hm, List.mem_cons, or_true, if_true]
        exact (pinFrames_congr p1 (hothers hm)).2
      · by_cases hmn : m = n
        · simp [hmn, hl.1]
        · simp [hm, hmn]

/-- **One operation**: the code does to its queue what the events do to the frames. -/
theorem Carries.operate (h : Carries c q on) (op : Operation)
    (hlen : q.pending.length < 2 ^ 32) :
    ∃ c', operate c op = some c' ∧ Carries c' (q.after (op.events on)) (op.pins on) := by
  cases op with
  | printConsole buf =>
    obtain ⟨s, hs, hc⟩ := h.packetEnqueue (CString.terminated buf) 0x01
    exact ⟨_, congrArg (Option.map _) hs, hc⟩
  | printSerial buf =>
    obtain ⟨s, hs, hc⟩ := h.packetEnqueue (CString.terminated buf) 0x02
    exact ⟨_, congrArg (Option.map _) hs, hc⟩
  | sendControl opcode data =>
    obtain ⟨s, hs, hc⟩ := h.sendControl opcode data
    exact ⟨_, congrArg (Option.map _) hs, hc⟩
  | serverWriteable p1 =>
    obtain ⟨c₁, hc₁, h₁⟩ := h.writePacket hlen
    obtain ⟨c₂, hc₂, h₂⟩ := h₁.pinControls p1 (List.nodup_finRange 8)
    refine ⟨c₂, ?_, ?_⟩
    · rw [Msp430.operate, serverWriteable, hc₁]
      exact hc₂
    · refine { h₂ with pins := h₂.pins.trans ?_ }
      funext n
      rw [if_pos (List.mem_finRange n)]
      rfl

/-- **A sequence of operations.** -/
theorem Carries.operations (h : Carries c q on) (ops : List Operation)
    (hlen : ∀ k ≤ ops.length,
      (q.after (Msp430.events on (ops.take k))).pending.length < 2 ^ 32) :
    ∃ c' on', ops.foldlM Msp430.operate c = some c' ∧
      Carries c' (q.after (Msp430.events on ops)) on' := by
  induction ops generalizing c q on with
  | nil => exact ⟨c, on, rfl, h⟩
  | cons op ops ih =>
    obtain ⟨c₁, hc₁, h₁⟩ := h.operate op (hlen 0 (Nat.zero_le _))
    obtain ⟨c₂, on₂, hc₂, h₂⟩ := ih h₁ fun k hk => by
      rw [← after_append]
      exact hlen (k + 1) (by simpa using hk)
    refine ⟨c₂, on₂, ?_, ?_⟩
    · rw [List.foldlM_cons, hc₁]
      exact hc₂
    · rw [Msp430.events, after_append]
      exact h₂

end Carries

/-! ## The wire -/

/-- **The client gets what was queued, in order, each packet once**: as long as fewer than
`2 ^ 32` packets are pending, the operations come back, what is on the wire is what the
queue has sent, followed by what is pending it is all that was queued, the counter tells
the number of packets pending, and the lock is free. -/
theorem wire_fifo (s : Server) (ops : List Operation)
    (hlen : ∀ k ≤ ops.length, (queueAfter (ops.take k)).pending.length < 2 ^ 32) :
    ∃ c, ops.foldlM operate (connect s) = some c ∧
      c.wire = (queueAfter ops).sent ∧
      c.wire ++ (queueAfter ops).pending = puts (events (fun _ => false) ops) ∧
      c.server.packetsQueued.toNat = (queueAfter ops).pending.length ∧
      c.server.spinLock = false := by
  have hstart : Carries (connect s) Queue.empty (fun _ => false) :=
    ⟨pending_initPacketQueue s, rfl, rfl⟩
  obtain ⟨c, on, hc, h⟩ := hstart.operations ops hlen
  have hall := hlen ops.length le_rfl
  rw [List.take_length] at hall
  refine ⟨c, hc, h.wire, ?_, h.pending.toNat_queued hall, h.pending.unlocked⟩
  rw [h.wire]
  exact sent_append_pending Queue.empty _

/-- Pin 3 of the port is an output and on. -/
def pinThreeOn : Port1 := { clearedPort1 with dir := fun n => n == 3, out := fun n => n == 3 }

/-- A line is queued and written, and the callback queues the pin behind it. -/
theorem wire_fifo_line :
    ∃ c, [.printConsole (CString.bytes "ok"), .serverWriteable pinThreeOn].foldlM operate
        (connect clearedServer) = some c ∧
      c.wire = [[0x01, 0x6F, 0x6B, 0x00]] ∧
      c.wire ++ [[0x00, 0x06]] = [[0x01, 0x6F, 0x6B, 0x00], [0x00, 0x06]] ∧
      c.server.packetsQueued.toNat = 1 ∧ c.server.spinLock = false :=
  wire_fifo clearedServer [.printConsole (CString.bytes "ok"), .serverWriteable pinThreeOn]
    (by decide)

end Msp430
