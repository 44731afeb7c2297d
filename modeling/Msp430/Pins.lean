/-
# The pins that the client shows

The eight blocks of the writable callback against a detector of edges: of all that is ever
queued, the packets of one pin are the edges of that pin's output, whatever the other pins do
and whatever else is queued in between.
-/
import Msp430.EdgeDetector
import Msp430.EmuServer

namespace Msp430

open EdgeDetector Fifo

/-! ## What a pin shows, and what it queues -/

/-- The samples of the port that the callbacks take. -/
def portSamples : List Operation → List Port1
  | [] => []
  | .serverWriteable p1 :: ops => p1 :: portSamples ops
  | _ :: ops => portSamples ops

/-- A pin's output flag, while the pin is an output. -/
def pinSample (n : Fin 8) (p1 : Port1) : Option Bool :=
  if p1.dir n then some (p1.out n) else none

/-- The level that a control packet of the pin sets. -/
def pinLevel (n : Fin 8) (frame : List (BitVec 8)) : Option Bool :=
  if frame = [0x00, p1OnPacket n] then some true
  else if frame = [0x00, p1OffPacket n] then some false
  else none

/-- The control packets of the pin among the frames. -/
def pinPackets (n : Fin 8) (frames : List (List (BitVec 8))) : List Bool :=
  frames.filterMap (pinLevel n)

/-- Outside the callback the program sends control packets with data only. -/
def Operation.Performed : Operation → Prop
  | .sendControl _ none => False
  | _ => True

/-! ## The packets of a pin -/

theorem pinLevel_on (m n : Fin 8) :
    pinLevel n [0x00, p1OnPacket m] = if m = n then some true else none := by
  revert m n
  decide

theorem pinLevel_off (m n : Fin 8) :
    pinLevel n [0x00, p1OffPacket m] = if m = n then some false else none := by
  revert m n
  decide

/-- A frame that is no dataless control packet belongs to no pin. -/
theorem pinLevel_of_ne (n : Fin 8) {frame : List (BitVec 8)} (h : ∀ b, frame ≠ [0x00, b]) :
    pinLevel n frame = none := by
  rw [pinLevel, if_neg (h _), if_neg (h _)]

/-- What one frame contributes. -/
theorem pinPackets_singleton (n : Fin 8) (frame : List (BitVec 8)) :
    pinPackets n [frame] = (pinLevel n frame).toList := by
  cases h : pinLevel n frame <;> simp [pinPackets, h]

/-- One pin's block queues that pin's edge. -/
theorem pinPackets_pinFrames (p1 : Port1) (on : Fin 8 → Bool) (m n : Fin 8) :
    pinPackets n (pinFrames p1 on m)
      = if m = n then edges (on n) [pinSample n p1] else [] := by
  unfold pinFrames pinSample
  by_cases hmn : m = n
  · subst hmn
    rw [if_pos rfl]
    cases hdir : p1.dir m with
    | false => rfl
    | true =>
      cases hout : p1.out m <;> cases hon : on m
      · rfl
      · exact (pinPackets_singleton _ _).trans (by rw [pinLevel_off]; simp [edges])
      · exact (pinPackets_singleton _ _).trans (by rw [pinLevel_on]; simp [edges])
      · rfl
  · rw [if_neg hmn]
    split_ifs
    · rfl
    · rw [pinPackets_singleton, pinLevel_on, if_neg hmn]
      rfl
    · rw [pinPackets_singleton, pinLevel_off, if_neg hmn]
      rfl
    · rfl

/-- A list in which only one element contributes. -/
theorem flatMap_eq_of_unique {α β : Type*} [DecidableEq α] (f : α → List β) {l : List α}
    (hl : l.Nodup) {a : α} (ha : a ∈ l) (h : ∀ b, b ≠ a → f b = []) : l.flatMap f = f a := by
  induction l with
  | nil => exact absurd ha List.not_mem_nil
  | cons b l ih =>
    rw [List.nodup_cons] at hl
    rw [List.flatMap_cons]
    by_cases hb : b = a
    · subst hb
      have hrest : l.flatMap f = [] := by
        rw [List.flatMap_eq_nil_iff]
        intro c hc
        apply h
        rintro rfl
        exact hl.1 hc
      rw [hrest, List.append_nil]
    · rw [h b hb, List.nil_append]
      exact ih hl.2 (List.mem_of_ne_of_mem (Ne.symm hb) ha)

/-- One callback queues, for each pin, that pin's edge. -/
theorem pinPackets_callback (p1 : Port1) (on : Fin 8 → Bool) (n : Fin 8) :
    pinPackets n ((List.finRange 8).flatMap (pinFrames p1 on))
      = edges (on n) [pinSample n p1] := by
  have hpins := flatMap_eq_of_unique (fun m => pinPackets n (pinFrames p1 on m))
    (List.nodup_finRange 8) (List.mem_finRange n) fun m hm => by
      rw [pinPackets_pinFrames, if_neg hm]
  rw [pinPackets, List.filterMap_flatMap]
  refine Eq.trans hpins ?_
  rw [pinPackets_pinFrames, if_pos rfl]

/-- The flag of a pin behind a callback. -/
theorem pinsShown_eq (p1 : Port1) (on : Fin 8 → Bool) (n : Fin 8) :
    pinsShown p1 on n = lastDriven (on n) [pinSample n p1] := by
  unfold pinsShown pinSample
  cases p1.dir n <;> rfl

/-- What an operation other than the callback queues belongs to no pin. -/
theorem pinPackets_put (n : Fin 8) {op : Operation} (hop : op.Performed) {on : Fin 8 → Bool}
    (hpins : portSamples [op] = []) : pinPackets n (puts (op.events on)) = [] := by
  cases op with
  | printConsole buf =>
    refine (pinPackets_singleton n _).trans ?_
    rw [pinLevel_of_ne n fun b h => absurd (List.cons.inj h).1 (by decide)]
    rfl
  | printSerial buf =>
    refine (pinPackets_singleton n _).trans ?_
    rw [pinLevel_of_ne n fun b h => absurd (List.cons.inj h).1 (by decide)]
    rfl
  | sendControl opcode data =>
    cases data with
    | none => exact hop.elim
    | some data =>
      refine (pinPackets_singleton n _).trans ?_
      rw [pinLevel_of_ne n fun b h => by simp [controlMessage] at h]
      rfl
  | serverWriteable p1 => exact absurd hpins (List.cons_ne_nil _ _)

/-- **The packets of a pin are the edges of its samples.** -/
theorem pinPackets_events (n : Fin 8) (on : Fin 8 → Bool) (ops : List Operation)
    (hops : ∀ op ∈ ops, op.Performed) :
    pinPackets n (puts (events on ops))
      = edges (on n) ((portSamples ops).map (pinSample n)) := by
  induction ops generalizing on with
  | nil => rfl
  | cons op ops ih =>
    have hrest := ih (op.pins on) fun op' hop' => hops op' (List.mem_cons_of_mem _ hop')
    have hop := hops op List.mem_cons_self
    rw [events, puts_append, pinPackets, List.filterMap_append, ← pinPackets, ← pinPackets,
      hrest]
    cases op with
    | printConsole buf => exact congrArg (· ++ _) (pinPackets_put n hop rfl)
    | printSerial buf => exact congrArg (· ++ _) (pinPackets_put n hop rfl)
    | sendControl opcode data => exact congrArg (· ++ _) (pinPackets_put n hop rfl)
    | serverWriteable p1 =>
      have hqueued : puts (Operation.events on (.serverWriteable p1))
          = (List.finRange 8).flatMap (pinFrames p1 on) := puts_map_put _
      rw [hqueued, pinPackets_callback]
      show edges (on n) [pinSample n p1] ++ edges (pinsShown p1 on n) _ = _
      rw [pinsShown_eq, ← edges_append]
      rfl

/-! ## The queue behind any number of operations -/

section Carries

variable {c : Connection} {q : Queue (List (BitVec 8))} {on : Fin 8 → Bool}

/-- Writing takes out the first frame or, when the queue looks empty, none. -/
theorem Carries.writePacket_any (h : Carries c q on) :
    ∃ c' q', (if packetQueueEmpty c.server then some c else Msp430.writePacket c) = some c' ∧
      Carries c' q' on ∧ q'.sent ++ q'.pending = q.sent ++ q.pending := by
  cases hempty : packetQueueEmpty c.server with
  | true => exact ⟨c, q, if_pos rfl, h, rfl⟩
  | false =>
    obtain ⟨f, fs, hq⟩ := h.pending.exists_cons hempty
    have hcons := h.pending
    rw [hq] at hcons
    obtain ⟨s, p, hdequeue, hframe, hrest⟩ := hcons.packetDequeue_of_not_empty hempty
    refine ⟨{ c with server := freeMessage s p, wire := c.wire ++ [f] }, ⟨q.sent ++ [f], fs⟩,
      ?_, ⟨hrest, congrArg (· ++ [f]) h.wire, h.pins⟩, ?_⟩
    · rw [if_neg (by decide), Msp430.writePacket, hdequeue]
      simp [hframe]
    · rw [hq, List.append_assoc, List.singleton_append]

/-- One operation, on a queue of any length: it comes back, and what it queues is added. -/
theorem Carries.operate_any (h : Carries c q on) (op : Operation) :
    ∃ c' q', Msp430.operate c op = some c' ∧ Carries c' q' (op.pins on) ∧
      q'.sent ++ q'.pending = q.sent ++ q.pending ++ puts (op.events on) := by
  cases op with
  | printConsole buf =>
    obtain ⟨s, hs, hc⟩ := h.packetEnqueue (CString.terminated buf) 0x01
    exact ⟨_, _, congrArg (Option.map _) hs, hc, sent_append_pending q [.put _]⟩
  | printSerial buf =>
    obtain ⟨s, hs, hc⟩ := h.packetEnqueue (CString.terminated buf) 0x02
    exact ⟨_, _, congrArg (Option.map _) hs, hc, sent_append_pending q [.put _]⟩
  | sendControl opcode data =>
    obtain ⟨s, hs, hc⟩ := h.sendControl opcode data
    exact ⟨_, _, congrArg (Option.map _) hs, hc, sent_append_pending q [.put _]⟩
  | serverWriteable p1 =>
    obtain ⟨c₁, q₁, hc₁, h₁, hkept⟩ := h.writePacket_any
    obtain ⟨c₂, hc₂, h₂⟩ := h₁.pinControls p1 (List.nodup_finRange 8)
    refine ⟨c₂, _, ?_, { h₂ with pins := h₂.pins.trans ?_ }, ?_⟩
    · rw [Msp430.operate, serverWriteable, hc₁]
      exact hc₂
    · funext n
      rw [if_pos (List.mem_finRange n)]
      rfl
    · rw [sent_append_pending, hkept]
      rfl

/-- **Any number of operations**: what is on the wire and what is pending is what they have
queued. -/
theorem Carries.operations_any (h : Carries c q on) (ops : List Operation) :
    ∃ c' q' on', ops.foldlM Msp430.operate c = some c' ∧ Carries c' q' on' ∧
      q'.sent ++ q'.pending = q.sent ++ q.pending ++ puts (Msp430.events on ops) := by
  induction ops generalizing c q on with
  | nil => exact ⟨c, q, on, rfl, h, by rw [Msp430.events, puts, List.append_nil]⟩
  | cons op ops ih =>
    obtain ⟨c₁, q₁, hc₁, h₁, hop⟩ := h.operate_any op
    obtain ⟨c₂, q₂, on₂, hc₂, h₂, hops⟩ := ih h₁
    refine ⟨c₂, q₂, on₂, ?_, h₂, ?_⟩
    · rw [List.foldlM_cons, hc₁]
      exact hc₂
    · rw [hops, hop, Msp430.events, puts_append, List.append_assoc]

end Carries

/-! ## The pins -/

/-- **The client's pins follow the port**, each by itself: whatever operations the program
performs, they come back, and of the frames on the wire and in the queue the packets of a pin
are the edges of that pin's samples; they alternate, beginning with on, and replaying them
gives the last sample taken while the pin was an output. -/
theorem pins_follow (s : Server) (ops : List Operation) (hops : ∀ op ∈ ops, op.Performed) :
    ∃ c pending, ops.foldlM operate (connect s) = some c ∧ Pending c.server pending ∧
      ∀ n, let packets := pinPackets n (c.wire ++ pending)
        let samples := (portSamples ops).map (pinSample n)
        packets = edges false samples ∧ Alternating true packets ∧
          packets.getLastD false = lastDriven false samples := by
  have hstart : Carries (connect s) Queue.empty (fun _ => false) :=
    ⟨pending_initPacketQueue s, rfl, rfl⟩
  obtain ⟨c, q, on, hc, h, hqueued⟩ := hstart.operations_any ops
  refine ⟨c, q.pending, hc, h.pending, fun n => ?_⟩
  have hpackets : pinPackets n (c.wire ++ q.pending)
      = edges false ((portSamples ops).map (pinSample n)) := by
    rw [h.wire, hqueued]
    exact pinPackets_events n (fun _ => false) ops hops
  intro packets samples
  refine ⟨hpackets, ?_, ?_⟩
  · show Alternating true (pinPackets n (c.wire ++ q.pending))
    rw [hpackets]
    exact alternating_edges false _
  · show (pinPackets n (c.wire ++ q.pending)).getLastD false = _
    rw [hpackets]
    exact getLastD_edges false _

/-- Pin 3 goes on, is read as an input for a while and is off when it is an output again;
a line is printed in between. -/
theorem pins_follow_three :
    ∃ c pending, [.serverWriteable pinThreeOn, .printConsole (CString.bytes "ok"),
          .serverWriteable clearedPort1, .serverWriteable { pinThreeOn with out := fun _ => false }
        ].foldlM operate (connect clearedServer) = some c ∧
      Pending c.server pending ∧
      ∀ n, let packets := pinPackets n (c.wire ++ pending)
        let samples := [pinThreeOn, clearedPort1,
          { pinThreeOn with out := fun _ => false }].map (pinSample n)
        packets = edges false samples ∧ Alternating true packets ∧
          packets.getLastD false = lastDriven false samples :=
  pins_follow clearedServer [.serverWriteable pinThreeOn, .printConsole (CString.bytes "ok"),
    .serverWriteable clearedPort1, .serverWriteable { pinThreeOn with out := fun _ => false }]
    (by simp [Operation.Performed])

end Msp430
