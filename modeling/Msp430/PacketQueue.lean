/-
# The queue of outgoing packets (`debugger/websockets/packet_queue.c`)

The list of `struct Packet` behind `pending_packets_head`, with the counter and the lock
beside it.  A packet is queued by walking to the end of the list, `pending_packets_tail`
being set for the first packet only, and taken off at the head.

The functions return `none` where the code does not come back: at a lock that is held, and
on a list without end.
-/
import Msp430.CString
import Msp430.HeapList

namespace Msp430

open HeapList

/-! ## The data -/

/-- `struct Packet` without `next`, which is the link of the list node. -/
structure Packet where
  message : ℕ
  length : ℕ
  opcode : BitVec 8

/-- `struct Server`, with the heap cells of the packets and of their messages. -/
structure Server where
  packets : Heap (Node Packet)
  buffers : Heap (List (BitVec 8))
  pendingPacketsHead : Option ℕ
  pendingPacketsTail : Option ℕ
  packetsQueued : BitVec 32
  spinLock : Bool

/-- The server as it is allocated. -/
def clearedServer : Server := ⟨Heap.empty, Heap.empty, none, none, 0, false⟩

/-- `init_packet_queue`. -/
def initPacketQueue (s : Server) : Server :=
  { s with
    pendingPacketsHead := none, pendingPacketsTail := none, packetsQueued := 0,
    spinLock := false }

/-- `packet_queue_empty`. -/
def packetQueueEmpty (s : Server) : Bool :=
  !(decide (0 < s.packetsQueued) && s.pendingPacketsHead.isSome)

/-- The packet behind which a new one goes: `none` for the empty list, else the end of the
walk from the head. -/
def lastPacket (s : Server) : Option (Option ℕ) :=
  match s.pendingPacketsHead with
  | none => some none
  | some head => (lastFrom s.packets s.packets.top head).map some

/-- The new packet with its copy of the item, linked in behind `last`. -/
def linkPacket (s : Server) (last : Option ℕ) (item : List (BitVec 8)) (opcode : BitVec 8) :
    Server :=
  let packet : Packet := ⟨s.buffers.top, item.length, opcode⟩
  match last with
  | none =>
    { s with
      packets := s.packets.alloc ⟨packet, none⟩
      buffers := s.buffers.alloc item
      pendingPacketsHead := some s.packets.top
      pendingPacketsTail := some s.packets.top }
  | some cur =>
    { s with
      packets := appendAfter s.packets cur packet
      buffers := s.buffers.alloc item }

/-- `packet_enqueue`. -/
def packetEnqueue (s : Server) (item : List (BitVec 8)) (opcode : BitVec 8) : Option Server :=
  if s.spinLock then none
  else
    let s := { s with spinLock := true }
    (lastPacket s).map fun last =>
      let s := linkPacket s last item opcode
      let s := { s with packetsQueued := s.packetsQueued + 1 }
      { s with spinLock := false }

/-- The packet `head` taken off the list as its first one, and what it held. -/
def unlinkPacket (s : Server) (head : Option ℕ) : Option (Server × Packet) :=
  head.bind fun head => (s.packets.cells head).map fun node =>
    ({ s with pendingPacketsHead := node.next, packets := s.packets.free head }, node.val)

/-- `packet_dequeue`.  On the empty queue the result is never assigned, and the lock is not
given back. -/
def packetDequeue (s : Server) : Option (Server × Option Packet) :=
  if s.spinLock then none
  else
    let s := { s with spinLock := true }
    let head := s.pendingPacketsHead
    if packetQueueEmpty s then some (s, none)
    else (unlinkPacket s head).map fun (s, packet) =>
      let s := { s with packetsQueued := s.packetsQueued - 1 }
      ({ s with spinLock := false }, some packet)

/-- `free(p.message)`. -/
def freeMessage (s : Server) (p : Packet) : Server :=
  { s with buffers := s.buffers.free p.message }

/-- `memcpy` from a buffer: its first `n` bytes, if there are as many. -/
def readBuffer (b : Heap (List (BitVec 8))) (a n : ℕ) : Option (List (BitVec 8)) :=
  (b.cells a).bind fun msg => if n ≤ msg.length then some (msg.take n) else none

/-- The bytes that a packet goes out as: its opcode, then its message. -/
def frameOf (b : Heap (List (BitVec 8))) (p : Packet) : Option (List (BitVec 8)) :=
  (readBuffer b p.message p.length).map (p.opcode :: ·)

/-! ## What the packets hold -/

/-- The packets hold the frames, each in a buffer of its own. -/
def Owned (b : Heap (List (BitVec 8))) (ps : List Packet) (fs : List (List (BitVec 8))) : Prop :=
  ps.map (frameOf b) = fs.map some ∧ (ps.map Packet.message).Nodup

section Buffers

variable {b : Heap (List (BitVec 8))} {p : Packet} {f : List (BitVec 8)} {ps : List Packet}
  {fs : List (List (BitVec 8))}

/-- A frame does not see changes elsewhere. -/
theorem frameOf_congr {b' : Heap (List (BitVec 8))} (h : b'.cells p.message = b.cells p.message) :
    frameOf b' p = frameOf b p := by
  rw [frameOf, frameOf, readBuffer, readBuffer, h]

theorem frameOf_alloc (h : frameOf b p = some f) (item : List (BitVec 8)) :
    frameOf (b.alloc item) p = some f := by
  cases hc : b.cells p.message with
  | none => simp [frameOf, readBuffer, hc] at h
  | some msg => rw [← h, frameOf_congr ((Heap.cells_alloc hc item).trans hc.symm)]

theorem message_lt_top (h : frameOf b p = some f) : p.message < b.top := by
  cases hc : b.cells p.message with
  | none => simp [frameOf, readBuffer, hc] at h
  | some msg => exact Heap.lt_top hc

theorem Owned.exists_frame (h : Owned b ps fs) (hp : p ∈ ps) : ∃ f, frameOf b p = some f := by
  have hmem : frameOf b p ∈ fs.map some := by
    rw [← h.1]
    exact List.mem_map_of_mem hp
  obtain ⟨f, -, hf⟩ := List.mem_map.mp hmem
  exact ⟨f, hf.symm⟩

/-- A new packet, with its message in a new buffer. -/
theorem Owned.alloc (h : Owned b ps fs) (item : List (BitVec 8)) (opcode : BitVec 8) :
    Owned (b.alloc item) (ps ++ [⟨b.top, item.length, opcode⟩]) (fs ++ [opcode :: item]) := by
  have hold : ps.map (frameOf (b.alloc item)) = ps.map (frameOf b) := by
    refine List.map_congr_left fun p hp => ?_
    obtain ⟨f, hf⟩ := h.exists_frame hp
    rw [hf, frameOf_alloc hf]
  have hnew : frameOf (b.alloc item) ⟨b.top, item.length, opcode⟩ = some (opcode :: item) := by
    simp [frameOf, readBuffer, Heap.cells_alloc_top]
  refine ⟨?_, ?_⟩
  · rw [List.map_append, List.map_append, hold, h.1, List.map_singleton, List.map_singleton, hnew]
  · rw [List.map_append, List.nodup_append]
    refine ⟨h.2, List.nodup_singleton _, fun a ha c hc => ?_⟩
    obtain ⟨p, hp, rfl⟩ := List.mem_map.mp ha
    obtain rfl : c = b.top := by simpa using hc
    obtain ⟨f, hf⟩ := h.exists_frame hp
    exact (message_lt_top hf).ne

/-- The first packet is read and its message given back. -/
theorem Owned.free_head (h : Owned b (p :: ps) (f :: fs)) :
    frameOf b p = some f ∧ Owned (b.free p.message) ps fs := by
  obtain ⟨hframes, hnodup⟩ := h
  rw [List.map_cons, List.nodup_cons] at hnodup
  rw [List.map_cons, List.map_cons, List.cons.injEq] at hframes
  refine ⟨hframes.1, ?_, hnodup.2⟩
  rw [← hframes.2]
  refine List.map_congr_left fun r hr => frameOf_congr (Heap.cells_free_of_ne b ?_)
  intro he
  exact hnodup.1 (he ▸ List.mem_map_of_mem hr)

end Buffers

/-! ## What the server holds -/

/-- The packets in hand and those in the list hold the frames, in this order. -/
def Holds (s : Server) (hand : List Packet) (fs : List (List (BitVec 8))) : Prop :=
  ∃ l, Chain s.packets s.pendingPacketsHead l ∧ Owned s.buffers (hand ++ l.map Prod.snd) fs

section Server

variable {s : Server} {hand : List Packet} {fs : List (List (BitVec 8))}

/-- The walk to the end of the list comes to an end. -/
theorem Holds.exists_lastPacket (h : Holds s hand fs) : ∃ last, lastPacket s = some last := by
  obtain ⟨l, hl, -⟩ := h
  unfold lastPacket
  rcases List.eq_nil_or_concat l with rfl | ⟨k, ⟨b, y⟩, rfl⟩
  · rw [show s.pendingPacketsHead = none from hl]
    exact ⟨_, rfl⟩
  · have hlen := hl.length_le
    rw [List.concat_eq_append] at hl
    rw [List.concat_eq_append, List.length_append, List.length_singleton] at hlen
    cases hhead : s.pendingPacketsHead with
    | none => exact ⟨_, rfl⟩
    | some a =>
      rw [hhead] at hl
      simp only [lastFrom_chain hl (show k.length < s.packets.top by omega)]
      exact ⟨_, rfl⟩

/-- Nothing held, the list is empty. -/
theorem Holds.head_eq_none (h : Holds s [] []) : s.pendingPacketsHead = none := by
  obtain ⟨l, hl, howned⟩ := h
  cases l with
  | nil => exact hl
  | cons y l => exact absurd howned.1 (by simp)

/-- **Queueing** puts the new frame behind the others. -/
theorem Holds.link (h : Holds s hand fs) {last : Option ℕ} (hlast : lastPacket s = some last)
    (item : List (BitVec 8)) (opcode : BitVec 8) :
    Holds (linkPacket s last item opcode) hand (fs ++ [opcode :: item]) := by
  obtain ⟨l, hl, howned⟩ := h
  have hnew := howned.alloc item opcode
  unfold lastPacket at hlast
  rcases List.eq_nil_or_concat l with rfl | ⟨k, ⟨b, y⟩, rfl⟩
  · have hnone : s.pendingPacketsHead = none := hl
    rw [hnone] at hlast
    obtain rfl := Option.some.inj hlast
    refine ⟨[(s.packets.top, ⟨s.buffers.top, item.length, opcode⟩)], ?_, ?_⟩
    · exact ⟨rfl, none, Heap.cells_alloc_top _ _, rfl⟩
    · show Owned (s.buffers.alloc item) _ _
      simpa using hnew
  · have hlen := hl.length_le
    rw [List.concat_eq_append] at hl hnew
    rw [List.concat_eq_append, List.length_append, List.length_singleton] at hlen
    cases hhead : s.pendingPacketsHead with
    | none =>
      rw [hhead] at hl
      cases k with
      | nil => exact absurd hl.1 (by simp)
      | cons z k => exact absurd hl.1 (by simp)
    | some a =>
      rw [hhead] at hl hlast
      simp only [lastFrom_chain hl (show k.length < s.packets.top by omega)] at hlast
      obtain rfl := Option.some.inj hlast
      refine ⟨k ++ [(b, y)] ++ [(s.packets.top, ⟨s.buffers.top, item.length, opcode⟩)], ?_, ?_⟩
      · show Chain (appendAfter s.packets b _) s.pendingPacketsHead _
        rw [hhead]
        exact hl.appendAfter _
      · rw [List.map_append, ← List.append_assoc]
        exact hnew

/-- **Taking off** moves the first packet of the list to the hand. -/
theorem Holds.unlink {f : List (BitVec 8)} (h : Holds s [] (f :: fs)) :
    ∃ s' p, unlinkPacket s s.pendingPacketsHead = some (s', p) ∧ Holds s' [p] (f :: fs) ∧
      s' = { s with pendingPacketsHead := s'.pendingPacketsHead, packets := s'.packets } := by
  obtain ⟨l, hl, howned⟩ := h
  cases l with
  | nil => exact absurd howned.1 (by simp)
  | cons y l =>
    obtain ⟨a, p⟩ := y
    obtain ⟨q, hhead, hcell, htail⟩ := hl.free_head
    refine ⟨{ s with pendingPacketsHead := q, packets := s.packets.free a }, p, ?_, ⟨l, htail, ?_⟩,
      rfl⟩
    · rw [unlinkPacket, hhead, Option.bind_some, hcell]
      rfl
    · exact howned

/-- The packet in hand is read and its message given back. -/
theorem Holds.free_hand {p : Packet} {f : List (BitVec 8)} (h : Holds s [p] (f :: fs)) :
    frameOf s.buffers p = some f ∧ Holds (freeMessage s p) [] fs := by
  obtain ⟨l, hl, howned⟩ := h
  exact ⟨howned.free_head.1, l, hl, howned.free_head.2⟩

end Server

/-! ## The queue between two operations -/

/-- The frames that are pending, the counter and the lock, between two operations. -/
structure Pending (s : Server) (fs : List (List (BitVec 8))) : Prop where
  holds : Holds s [] fs
  queued : s.packetsQueued = BitVec.ofNat 32 fs.length
  unlocked : s.spinLock = false

/-- The counter tells the length of a queue of fewer than `2 ^ 32` packets. -/
theorem Pending.toNat_queued {s : Server} {fs : List (List (BitVec 8))} (h : Pending s fs)
    (hlen : fs.length < 2 ^ 32) : s.packetsQueued.toNat = fs.length := by
  rw [h.queued, BitVec.toNat_ofNat, Nat.mod_eq_of_lt hlen]

theorem pending_initPacketQueue (s : Server) : Pending (initPacketQueue s) [] where
  holds := ⟨[], rfl, rfl, List.nodup_nil⟩
  queued := rfl
  unlocked := rfl

/-- **`packet_enqueue`** comes back and has queued the frame. -/
theorem Pending.packetEnqueue {s : Server} {fs : List (List (BitVec 8))} (h : Pending s fs)
    (item : List (BitVec 8)) (opcode : BitVec 8) :
    ∃ s', packetEnqueue s item opcode = some s' ∧ Pending s' (fs ++ [opcode :: item]) := by
  have hlocked : Holds { s with spinLock := true } [] fs := h.holds
  obtain ⟨last, hlast⟩ := hlocked.exists_lastPacket
  have hlink := hlocked.link hlast item opcode
  have hqueued : (linkPacket { s with spinLock := true } last item opcode).packetsQueued
      = s.packetsQueued := by
    cases last <;> rfl
  rw [Msp430.packetEnqueue, if_neg (by simp [h.unlocked])]
  refine ⟨_, congrArg (Option.map _) hlast, ?_, ?_, rfl⟩
  · exact hlink
  · show (linkPacket { s with spinLock := true } last item opcode).packetsQueued + 1 = _
    rw [hqueued, h.queued, List.length_append, List.length_singleton, BitVec.ofNat_add]
    rfl

/-- `packet_queue_empty` tells whether anything is pending. -/
theorem Pending.packetQueueEmpty_iff {s : Server} {fs : List (List (BitVec 8))}
    (h : Pending s fs) (hlen : fs.length < 2 ^ 32) : packetQueueEmpty s = true ↔ fs = [] := by
  have hcount := h.toNat_queued hlen
  cases fs with
  | nil =>
    have hzero : s.packetsQueued = 0 := h.queued
    simp [packetQueueEmpty, hzero]
  | cons f fs =>
    obtain ⟨s', p, hunlink, -⟩ := h.holds.unlink
    have hpos : s.packetsQueued ≠ 0#32 := by
      intro hzero
      rw [hzero] at hcount
      simp at hcount
    cases hhead : s.pendingPacketsHead with
    | none => simp [unlinkPacket, hhead] at hunlink
    | some a => simp [packetQueueEmpty, hpos, hhead]

/-- A queue that does not look empty is not. -/
theorem Pending.exists_cons {s : Server} {fs : List (List (BitVec 8))} (h : Pending s fs)
    (hempty : packetQueueEmpty s = false) : ∃ f fs', fs = f :: fs' := by
  cases fs with
  | nil =>
    have hnone := h.holds.head_eq_none
    simp [packetQueueEmpty, hnone] at hempty
  | cons f fs' => exact ⟨f, fs', rfl⟩

/-- `packet_dequeue` on a queue that does not look empty comes back with the first packet. -/
theorem Pending.packetDequeue_of_not_empty {s : Server} {f : List (BitVec 8)}
    {fs : List (List (BitVec 8))} (h : Pending s (f :: fs))
    (hempty : packetQueueEmpty s = false) :
    ∃ s' p, packetDequeue s = some (s', some p) ∧ frameOf s'.buffers p = some f ∧
      Pending (freeMessage s' p) fs := by
  have hlook : packetQueueEmpty { s with spinLock := true } = false := hempty
  have hlocked : Holds { s with spinLock := true } [] (f :: fs) := h.holds
  obtain ⟨s', p, hunlink, hhand, hframe⟩ := hlocked.unlink
  obtain ⟨hf, hrest⟩ := hhand.free_hand
  have hqueued : s'.packetsQueued - 1 = BitVec.ofNat 32 fs.length := by
    rw [hframe]
    show s.packetsQueued - 1 = _
    rw [h.queued, List.length_cons, BitVec.ofNat_add]
    exact BitVec.add_sub_cancel _ _
  refine ⟨{ s' with packetsQueued := s'.packetsQueued - 1, spinLock := false }, p, ?_, hf, ?_⟩
  · rw [Msp430.packetDequeue, if_neg (by simp [h.unlocked])]
    simp only [hlook, hunlink]
    rfl
  · exact ⟨hrest, hqueued, rfl⟩

/-- **`packet_dequeue`** on a queue that is not empty comes back with the first packet. -/
theorem Pending.packetDequeue {s : Server} {f : List (BitVec 8)} {fs : List (List (BitVec 8))}
    (h : Pending s (f :: fs)) (hlen : (f :: fs).length < 2 ^ 32) :
    ∃ s' p, packetDequeue s = some (s', some p) ∧ frameOf s'.buffers p = some f ∧
      Pending (freeMessage s' p) fs := by
  have hiff := (h.packetQueueEmpty_iff hlen).not
  exact h.packetDequeue_of_not_empty (by simpa using hiff.mpr (by simp))

end Msp430
