/-
# The two threads at the packet queue

The emulator loop and the web server both call `packet_enqueue`, the web server
`packet_dequeue` as well.  Here their statements are taken one at a time and in any order:
reading `spin_lock`, setting it and clearing it are steps of their own, and so are the walk,
the change of the list and the counter.  Reading the lock clear and setting it being two
steps, both threads can get in; `lock_excludes` says that without that they do not, and that
no packet is then lost, repeated or sent out of turn.
-/
import Msp430.PacketQueue
import Msp430.Reachability
import Msp430.TestAndSet

namespace Msp430

open HeapList Reachability TestAndSet

/-! ## Threads -/

/-- The emulator loop and the web server. -/
inductive Thread : Type where
  | loop : Thread
  | web : Thread
  deriving DecidableEq

instance : Fintype Thread := ⟨{.loop, .web}, by intro t; cases t <;> decide⟩

/-- What a thread is about to do to the queue. -/
inductive QueueCall : Type where
  | enqueue (item : List (BitVec 8)) (opcode : BitVec 8) : QueueCall
  | dequeue : QueueCall

/-- The next statement of a thread, with its locals. -/
inductive Stage : Type where
  /-- Outside of the queue's functions. -/
  | idle : Stage
  /-- `while (s->spin_lock);` -/
  | test (call : QueueCall) : Stage
  /-- `s->spin_lock = true;` -/
  | take (call : QueueCall) : Stage
  /-- Looking for the end of the list. -/
  | search (item : List (BitVec 8)) (opcode : BitVec 8) : Stage
  /-- Linking the new packet in behind `last`. -/
  | link (last : Option ℕ) (item : List (BitVec 8)) (opcode : BitVec 8) : Stage
  /-- `s->packets_queued++;` -/
  | count : Stage
  /-- `s->spin_lock = false;` of `packet_enqueue`. -/
  | release : Stage
  /-- Reading the head, `packet_queue_empty`. -/
  | look : Stage
  /-- `s->pending_packets_head = head->next;` up to `free(head);` -/
  | unlink (head : Option ℕ) : Stage
  /-- `s->packets_queued--;` -/
  | uncount (p : Packet) : Stage
  /-- `s->spin_lock = false;` of `packet_dequeue`. -/
  | unlock (p : Packet) : Stage
  /-- `lws_write` and `free(p.message);` of the callback. -/
  | write (p : Packet) : Stage
  /-- Back in the callback with a result that was never assigned, the lock still set. -/
  | broken : Stage

/-- The first statement behind `s->spin_lock = true;`. -/
def QueueCall.entry : QueueCall → Stage
  | .enqueue item opcode => .search item opcode
  | .dequeue => .look

/-- The threads, the server, what went out, and the frames in the order in which they were
linked in. -/
structure System where
  server : Server
  stage : Thread → Stage
  wire : List (List (BitVec 8))
  queued : List (List (BitVec 8))

/-- The thread goes on to a stage. -/
def System.goto (st : System) (t : Thread) (σ : Stage) : System :=
  { st with stage := Function.update st.stage t σ }

/-- The next statement of a thread; a thread that waits stays where it is. -/
def runThread (st : System) (t : Thread) : Option System :=
  match st.stage t with
  | .idle => none
  | .test call => some (if st.server.spinLock then st else st.goto t (.take call))
  | .take call =>
    some ({ st with server := { st.server with spinLock := true } }.goto t call.entry)
  | .search item opcode =>
    (lastPacket st.server).map fun last => st.goto t (.link last item opcode)
  | .link last item opcode =>
    some ({ st with
      server := linkPacket st.server last item opcode
      queued := st.queued ++ [opcode :: item] }.goto t .count)
  | .count =>
    some ({ st with
      server := { st.server with packetsQueued := st.server.packetsQueued + 1 } }.goto t .release)
  | .release => some ({ st with server := { st.server with spinLock := false } }.goto t .idle)
  | .look =>
    some (st.goto t
      (if packetQueueEmpty st.server then .broken else .unlink st.server.pendingPacketsHead))
  | .unlink head => (unlinkPacket st.server head).map fun (s, p) =>
    { st with server := s }.goto t (.uncount p)
  | .uncount p =>
    some ({ st with
      server := { st.server with packetsQueued := st.server.packetsQueued - 1 } }.goto t
        (.unlock p))
  | .unlock p =>
    some ({ st with server := { st.server with spinLock := false } }.goto t (.write p))
  | .write p => (frameOf st.server.buffers p).map fun frame =>
    { st with server := freeMessage st.server p, wire := st.wire ++ [frame] }.goto t .idle
  | .broken => none

/-- What happens next: a thread calls `packet_enqueue`, the connection of the web server is
writable, or a thread goes on. -/
inductive SystemStep : Type where
  | enqueue (t : Thread) (item : List (BitVec 8)) (opcode : BitVec 8) : SystemStep
  | writeable : SystemStep
  | run (t : Thread) : SystemStep

/-- One step; the callback calls `packet_dequeue` when it does not find the queue empty. -/
def System.step (st : System) : SystemStep → Option System
  | .enqueue t item opcode =>
    match st.stage t with
    | .idle => some (st.goto t (.test (.enqueue item opcode)))
    | _ => none
  | .writeable =>
    match st.stage .web with
    | .idle =>
      some (if packetQueueEmpty st.server then st else st.goto .web (.test .dequeue))
    | _ => none
  | .run t => runThread st t

/-- The system when the server starts. -/
def System.start (s : Server) : System := ⟨initPacketQueue s, fun _ => .idle, [], []⟩

/-! ## What should hold -/

/-- Where the stage is with respect to the lock. -/
def Stage.phase : Stage → Phase
  | .idle | .write _ | .broken => .outside
  | .test _ => .waiting
  | .take _ => .passed
  | _ => .inside

/-- The packet that the thread has taken off the list and not yet sent. -/
def Stage.hand : Stage → List Packet
  | .uncount p | .unlock p | .write p => [p]
  | _ => []

/-- The threads are not both between `spin_lock = true` and `spin_lock = false`. -/
def Excludes (st : System) : Prop :=
  ¬ ((st.stage .loop).phase = .inside ∧ (st.stage .web).phase = .inside)

/-- What went out, followed by what the web server has in hand and what is in the list, is
what was queued. -/
def NothingLost (st : System) : Prop :=
  ∃ fs, Holds st.server (st.stage .web).hand fs ∧ st.wire ++ fs = st.queued

instance (st : System) : Decidable (Excludes st) := inferInstanceAs (Decidable (¬ (_ ∧ _)))

/-- The lock as the two threads see it. -/
def System.lock (st : System) : Lock Thread := ⟨st.server.spinLock, fun t => (st.stage t).phase⟩

/-- The step does not read the lock clear while the other thread has done so and not yet set
it, and fewer than `2 ^ 32` packets are queued and not yet sent. -/
def Orderly (st : System) (a : SystemStep) : Prop :=
  (∀ t, a = .run t → Careful st.lock t) ∧ st.queued.length < st.wire.length + 2 ^ 32

/-! ## The invariant -/

/-- The packets that the thread has linked in and not yet counted, or holds and has counted
off. -/
def Stage.uncounted : Stage → ℕ
  | .count | .unlock _ | .write _ => 1
  | _ => 0

/-- What the thread has read of the list still holds. -/
def Stage.Found (s : Server) : Stage → Prop
  | .link last _ _ => lastPacket s = some last
  | .unlink head => head = s.pendingPacketsHead
  | _ => True

/-- The thread is about to take a packet off. -/
def Stage.Wants : Stage → Prop
  | .test .dequeue | .take .dequeue | .look | .unlink _ => True
  | _ => False

/-- The stages of `packet_enqueue`. -/
def Stage.enqueues : Stage → Bool
  | .idle | .test (.enqueue _ _) | .take (.enqueue _ _) | .search _ _ | .link _ _ _ | .count
  | .release => true
  | _ => false

/-- The frames `fs` are in hand or in the list, and everything fits together. -/
structure Sound (st : System) (fs : List (List (BitVec 8))) : Prop where
  holds : Holds st.server (st.stage .web).hand fs
  history : st.wire ++ fs = st.queued
  counted : st.server.packetsQueued
      + BitVec.ofNat 32 ((st.stage .loop).uncounted + (st.stage .web).uncounted)
    = BitVec.ofNat 32 fs.length
  safe : Safe st.lock
  found : ∀ t, (st.stage t).Found st.server
  wants : (st.stage .web).Wants → fs ≠ []
  loop : (st.stage .loop).enqueues = true
  web : st.stage .web ≠ .broken

theorem Sound.excludes {st : System} {fs : List (List (BitVec 8))} (h : Sound st fs) :
    Excludes st := by
  rintro ⟨hl, hw⟩
  exact absurd (h.safe.exclusive (l := st.lock) hl hw) (by decide)

theorem Sound.nothingLost {st : System} {fs : List (List (BitVec 8))} (h : Sound st fs) :
    NothingLost st := ⟨fs, h.holds, h.history⟩

theorem sound_start (s : Server) : Sound (.start s) [] where
  holds := ⟨[], rfl, rfl, List.nodup_nil⟩
  history := rfl
  counted := rfl
  safe := by
    constructor
    · rintro i j (h | h) <;> cases h
    · intro i h
      cases h
  found _ := trivial
  wants h := h.elim
  loop := rfl
  web := by
    intro h
    cases h

/-! ### One thread goes on -/

section Goto

variable {st st₁ : System} {t : Thread} {σ : Stage}

@[simp] theorem stage_goto (st : System) (t : Thread) (σ : Stage) : (st.goto t σ).stage t = σ :=
  Function.update_self _ _ _

theorem stage_goto_of_ne (st : System) {t o : Thread} (σ : Stage) (h : o ≠ t) :
    (st.goto t σ).stage o = st.stage o := Function.update_of_ne h _ _

/-- A thread that keeps what it has in hand. -/
theorem hand_goto (hstage : st₁.stage = st.stage) (h : σ.hand = (st.stage t).hand) :
    ((st₁.goto t σ).stage .web).hand = (st.stage .web).hand := by
  by_cases ht : .web = t
  · rw [ht, stage_goto, h]
  · rw [stage_goto_of_ne _ _ ht, hstage]

/-- The lock when a thread goes on. -/
theorem lock_goto (hstage : st₁.stage = st.stage) :
    (st₁.goto t σ).lock = st.lock.move t st₁.server.spinLock σ.phase := by
  unfold System.lock Lock.move
  congr 1
  funext o
  by_cases ho : o = t
  · rw [ho, stage_goto, Function.update_self]
  · rw [stage_goto_of_ne _ _ ho, Function.update_of_ne ho, hstage]

/-- A step that does not concern the lock. -/
theorem lock_goto_same (hstage : st₁.stage = st.stage)
    (hlock : st₁.server.spinLock = st.server.spinLock) (h : σ.phase = (st.stage t).phase) :
    (st₁.goto t σ).lock = st.lock := by
  rw [lock_goto hstage, hlock, h]
  unfold Lock.move System.lock
  congr 1
  exact Function.update_eq_self _ _

theorem found_of_not_inside {s : Server} (h : σ.phase ≠ .inside) : σ.Found s := by
  cases σ <;> first | exact trivial | exact absurd rfl h

theorem found_congr {s s' : Server} (hpackets : s'.packets = s.packets)
    (hhead : s'.pendingPacketsHead = s.pendingPacketsHead) (h : σ.Found s) : σ.Found s' := by
  cases σ with
  | link last item opcode =>
    show lastPacket s' = some last
    rw [lastPacket, hpackets, hhead]
    exact h
  | unlink head => exact Eq.trans h hhead.symm
  | _ => exact trivial

/-- **A thread goes on**: what is left to say is what this step does. -/
theorem Sound.goto {fs fs' : List (List (BitVec 8))} (h : Sound st fs)
    (hstage : st₁.stage = st.stage)
    (holds : Holds st₁.server ((st₁.goto t σ).stage .web).hand fs')
    (history : st₁.wire ++ fs' = st₁.queued)
    (counted : st₁.server.packetsQueued + BitVec.ofNat 32 σ.uncounted
        + BitVec.ofNat 32 fs.length
      = st.server.packetsQueued + BitVec.ofNat 32 (st.stage t).uncounted
        + BitVec.ofNat 32 fs'.length)
    (safe : Safe (st.lock.move t st₁.server.spinLock σ.phase)) (found : σ.Found st₁.server)
    (others : ∀ o, o ≠ t → (st.stage o).Found st₁.server)
    (wants : σ.Wants → fs' ≠ []) (kept : t = .loop → fs ≠ [] → fs' ≠ [])
    (loop : t = .loop → σ.enqueues = true) (web : t = .web → σ ≠ .broken) :
    Sound (st₁.goto t σ) fs' := by
  have hcounted := h.counted
  rw [BitVec.ofNat_add] at hcounted
  refine ⟨holds, history, ?_, ?_, fun o => ?_, ?_, ?_, ?_⟩
  · show st₁.server.packetsQueued + _ = _
    rw [BitVec.ofNat_add]
    cases t with
    | loop =>
      rw [stage_goto, stage_goto_of_ne _ _ (by decide), hstage]
      linear_combination counted + hcounted
    | web =>
      rw [stage_goto, stage_goto_of_ne _ _ (by decide), hstage]
      linear_combination counted + hcounted
  · rw [lock_goto hstage]
    exact safe
  · by_cases ho : o = t
    · rw [ho, stage_goto]
      exact found
    · rw [stage_goto_of_ne _ _ ho, hstage]
      exact others o ho
  · cases t with
    | loop =>
      rw [stage_goto_of_ne _ _ (by decide), hstage]
      exact fun hw => kept rfl (h.wants hw)
    | web =>
      rw [stage_goto]
      exact wants
  · cases t with
    | loop =>
      rw [stage_goto]
      exact loop rfl
    | web =>
      rw [stage_goto_of_ne _ _ (by decide), hstage]
      exact h.loop
  · cases t with
    | loop =>
      rw [stage_goto_of_ne _ _ (by decide), hstage]
      exact h.web
    | web =>
      rw [stage_goto]
      exact web rfl

/-- **A thread goes on and leaves the list alone**, with what it has in hand. -/
theorem Sound.goto_kept {fs : List (List (BitVec 8))} (h : Sound st fs) (s : Server) {τ : Stage}
    (hat : st.stage t = τ) (hpackets : s.packets = st.server.packets)
    (hbuffers : s.buffers = st.server.buffers)
    (hhead : s.pendingPacketsHead = st.server.pendingPacketsHead) (hand : σ.hand = τ.hand)
    (counted : s.packetsQueued + BitVec.ofNat 32 σ.uncounted
      = st.server.packetsQueued + BitVec.ofNat 32 τ.uncounted)
    (safe : Safe (st.lock.move t s.spinLock σ.phase)) (found : σ.Found s)
    (wants : σ.Wants → fs ≠ []) (loop : t = .loop → σ.enqueues = true)
    (web : t = .web → σ ≠ .broken) : Sound ({ st with server := s }.goto t σ) fs := by
  refine h.goto rfl ?_ h.history ?_ safe found
    (fun o _ => found_congr hpackets hhead (h.found o)) wants (fun _ hfs => hfs) loop web
  · rw [hand_goto rfl (by rw [hand, hat])]
    show Holds s _ _
    rw [Holds, hpackets, hbuffers, hhead]
    exact h.holds
  · show s.packetsQueued + _ + _ = _
    rw [counted, hat]

end Goto

/-! ### The steps -/

section Steps

variable {st st' : System} {fs : List (List (BitVec 8))} {t : Thread}

/-- The other thread's findings do not depend on what a thread inside does. -/
theorem Sound.found_others (h : Sound st fs) (hin : (st.stage t).phase = .inside) (s : Server)
    (o : Thread) (ho : o ≠ t) : (st.stage o).Found s := by
  refine found_of_not_inside fun hc => ho ?_
  exact h.safe.exclusive (l := st.lock) hc hin

/-- The step of a thread whose stage has not changed the phase. -/
theorem Sound.safe_same (h : Sound st fs) {σ : Stage} (hσ : σ.phase = (st.stage t).phase) :
    Safe (st.lock.move t st.server.spinLock σ.phase) := by
  have hsame : (st.goto t σ).lock = st.lock := lock_goto_same rfl rfl hσ
  rw [lock_goto rfl] at hsame
  rw [hsame]
  exact h.safe

/-- The stages of the callback are those of the web server. -/
theorem Sound.eq_web (h : Sound st fs) (ht : (st.stage t).enqueues = false) : t = .web := by
  cases t with
  | loop => exact absurd h.loop (by simp [ht])
  | web => rfl

/-- **A call of `packet_enqueue`.** -/
theorem Sound.enqueue (h : Sound st fs) (hidle : st.stage t = .idle) (item : List (BitVec 8))
    (opcode : BitVec 8) : Sound (st.goto t (.test (.enqueue item opcode))) fs := by
  have hphase : (st.stage t).phase = .outside := by rw [hidle]; rfl
  have hsafe := h.safe.step (.arrive hphase) (careful_of_phase hphase (by decide))
  exact h.goto_kept st.server hidle rfl rfl rfl rfl rfl hsafe trivial (fun hw => hw.elim)
    (fun _ => rfl) (fun _ hc => by cases hc)

/-- **The callback** finds the queue not empty. -/
theorem Sound.writeable (h : Sound st fs) (hidle : st.stage .web = .idle)
    (hempty : packetQueueEmpty st.server = false) : Sound (st.goto .web (.test .dequeue)) fs := by
  have hphase : (st.stage .web).phase = .outside := by rw [hidle]; rfl
  have hfs : fs ≠ [] := by
    rintro rfl
    have hholds := h.holds
    rw [hidle] at hholds
    simp [packetQueueEmpty, hholds.head_eq_none] at hempty
  have hsafe := h.safe.step (.arrive hphase) (careful_of_phase hphase (by decide))
  exact h.goto_kept st.server hidle rfl rfl rfl rfl rfl hsafe trivial (fun _ => hfs)
    (fun hc => by cases hc) (fun _ hc => by cases hc)

/-- **The lock is read clear.** -/
theorem Sound.test (h : Sound st fs) {call : QueueCall} (hat : st.stage t = .test call)
    (hfree : st.server.spinLock = false) (hcareful : Careful st.lock t) :
    Sound (st.goto t (.take call)) fs := by
  have hphase : (st.stage t).phase = .waiting := by rw [hat]; rfl
  refine h.goto_kept st.server hat rfl rfl rfl rfl rfl (h.safe.step (.pass hphase hfree) hcareful)
    trivial ?_ ?_ (fun _ hc => by cases hc)
  · intro hw
    cases call with
    | enqueue item opcode => exact hw.elim
    | dequeue =>
      cases t with
      | loop => exact absurd h.loop (by rw [hat]; decide)
      | web => exact h.wants (by rw [hat]; exact trivial)
  · rintro rfl
    have hloop := h.loop
    rw [hat] at hloop
    cases call with
    | enqueue item opcode => rfl
    | dequeue => exact hloop

/-- **The lock is set.** -/
theorem Sound.take (h : Sound st fs) {call : QueueCall} (hat : st.stage t = .take call) :
    Sound ({ st with server := { st.server with spinLock := true } }.goto t call.entry) fs := by
  have hphase : (st.stage t).phase = .passed := by rw [hat]; rfl
  have hsafe : Safe (st.lock.move t true .inside) :=
    h.safe.step (.take hphase) (careful_of_phase hphase (by decide))
  cases call with
  | enqueue item opcode =>
    exact h.goto_kept _ hat rfl rfl rfl rfl rfl hsafe trivial (fun hw => hw.elim) (fun _ => rfl)
      (fun _ hc => by cases hc)
  | dequeue =>
    obtain rfl := h.eq_web (by rw [hat]; rfl)
    exact h.goto_kept _ hat rfl rfl rfl rfl rfl hsafe trivial
      (fun _ => h.wants (by rw [hat]; exact trivial)) (fun hc => by cases hc)
      (fun _ hc => by cases hc)

/-- **The end of the list is found.** -/
theorem Sound.search (h : Sound st fs) {item : List (BitVec 8)} {opcode : BitVec 8}
    (hat : st.stage t = .search item opcode) {last : Option ℕ}
    (hlast : lastPacket st.server = some last) :
    Sound (st.goto t (.link last item opcode)) fs := by
  exact h.goto_kept st.server hat rfl rfl rfl rfl rfl (h.safe_same (by rw [hat]; rfl)) hlast
    (fun hw => hw.elim) (fun _ => rfl) (fun _ hc => by cases hc)

/-- **The packet is linked in.** -/
theorem Sound.link (h : Sound st fs) {last : Option ℕ} {item : List (BitVec 8)}
    {opcode : BitVec 8} (hat : st.stage t = .link last item opcode) :
    Sound ({ st with
      server := linkPacket st.server last item opcode
      queued := st.queued ++ [opcode :: item] }.goto t .count) (fs ++ [opcode :: item]) := by
  have hlast : lastPacket st.server = some last := by
    have hfound := h.found t
    rw [hat] at hfound
    exact hfound
  have hlock : (linkPacket st.server last item opcode).spinLock = st.server.spinLock ∧
      (linkPacket st.server last item opcode).packetsQueued = st.server.packetsQueued := by
    cases last <;> exact ⟨rfl, rfl⟩
  refine h.goto rfl ?_ ?_ ?_ ?_ trivial (fun o ho => h.found_others (by rw [hat]; rfl) _ o ho)
    (fun hw => hw.elim) (fun _ _ => by simp) (fun _ => rfl) (fun _ hc => by cases hc)
  · rw [hand_goto rfl (by rw [hat]; rfl)]
    exact h.holds.link hlast item opcode
  · rw [← List.append_assoc, h.history]
  · rw [hat, hlock.2, List.length_append, List.length_singleton, BitVec.ofNat_add]
    show _ + 1 + _ = _ + 0 + (_ + 1)
    ring
  · rw [hlock.1]
    exact h.safe_same (by rw [hat]; rfl)

/-- **The packet is counted.** -/
theorem Sound.count (h : Sound st fs) (hat : st.stage t = .count) :
    Sound ({ st with
      server := { st.server with packetsQueued := st.server.packetsQueued + 1 } }.goto t
        .release) fs := by
  have hcounted : st.server.packetsQueued + 1 + 0 = st.server.packetsQueued + 1 := add_zero _
  exact h.goto_kept _ hat rfl rfl rfl rfl hcounted (h.safe_same (by rw [hat]; rfl)) trivial
    (fun hw => hw.elim) (fun _ => rfl) (fun _ hc => by cases hc)

/-- **The lock is cleared** by `packet_enqueue`. -/
theorem Sound.release (h : Sound st fs) (hat : st.stage t = .release) :
    Sound ({ st with server := { st.server with spinLock := false } }.goto t .idle) fs := by
  have hphase : (st.stage t).phase = .inside := by rw [hat]; rfl
  have hsafe := h.safe.step (.leave hphase) (careful_of_phase hphase (by decide))
  exact h.goto_kept _ hat rfl rfl rfl rfl rfl hsafe trivial (fun hw => hw.elim) (fun _ => rfl)
    (fun _ hc => by cases hc)

/-! The stages of `packet_dequeue` and of the callback, which the web server alone reaches. -/

/-- **The queue is found not empty**: it has not got shorter since the callback looked. -/
theorem Sound.look (h : Sound st fs) (hat : st.stage .web = .look)
    (hlen : fs.length < 2 ^ 32) :
    packetQueueEmpty st.server = false ∧
      Sound (st.goto .web (.unlink st.server.pendingPacketsHead)) fs := by
  have hfs : fs ≠ [] := h.wants (by rw [hat]; exact trivial)
  have hin : (st.stage .web).phase = .inside := by rw [hat]; rfl
  -- the other thread is outside, so that the counter is right
  have hloop : (st.stage .loop).uncounted = 0 := by
    have hout : (st.stage .loop).phase ≠ .inside := fun hc => h.excludes ⟨hc, hin⟩
    have henq := h.loop
    cases hs : st.stage .loop <;> rw [hs] at hout henq <;>
      first | rfl | exact absurd rfl hout | simp [Stage.enqueues] at henq
  have hcounted := h.counted
  rw [hloop, hat] at hcounted
  have hpending : Pending { st.server with spinLock := false } fs := by
    refine ⟨?_, by rw [← hcounted]; simp [Stage.uncounted], rfl⟩
    have hholds := h.holds
    rw [hat] at hholds
    exact hholds
  have hempty : packetQueueEmpty st.server = false := by
    have hiff := (hpending.packetQueueEmpty_iff hlen).not
    show packetQueueEmpty { st.server with spinLock := false } = false
    simpa using hiff.mpr hfs
  refine ⟨hempty, ?_⟩
  exact h.goto_kept st.server hat rfl rfl rfl rfl rfl (h.safe_same (by rw [hat]; rfl)) rfl
    (fun _ => hfs) (fun hc => by cases hc) (fun _ hc => by cases hc)

/-- **The packet is taken off the list.** -/
theorem Sound.unlink (h : Sound st fs) {head : Option ℕ} (hat : st.stage .web = .unlink head) :
    ∃ s p, unlinkPacket st.server head = some (s, p) ∧
      Sound ({ st with server := s }.goto .web (.uncount p)) fs := by
  have hhead : head = st.server.pendingPacketsHead := by
    have hfound := h.found .web
    rw [hat] at hfound
    exact hfound
  have hin : (st.stage .web).phase = .inside := by rw [hat]; rfl
  have hholds := h.holds
  rw [hat] at hholds
  cases fs with
  | nil => exact absurd rfl (h.wants (by rw [hat]; exact trivial))
  | cons f fs =>
    obtain ⟨s, p, hunlink, hhand, hrest⟩ := Holds.unlink hholds
    refine ⟨s, p, by rw [hhead, hunlink], ?_⟩
    refine h.goto rfl ?_ h.history ?_ ?_ trivial (fun o ho => h.found_others hin _ o ho)
      (fun hw => hw.elim) (fun hc => by cases hc) (fun hc => by cases hc) (fun _ hc => by cases hc)
    · rw [stage_goto]
      exact hhand
    · rw [hat, hrest]
      rfl
    · rw [hrest]
      exact h.safe_same (by rw [hat]; rfl)

/-- **The packet is counted off.** -/
theorem Sound.uncount (h : Sound st fs) {p : Packet} (hat : st.stage .web = .uncount p) :
    Sound ({ st with
      server := { st.server with packetsQueued := st.server.packetsQueued - 1 } }.goto .web
        (.unlock p)) fs := by
  have hcounted : st.server.packetsQueued - 1 + 1 = st.server.packetsQueued + 0 := by ring
  exact h.goto_kept _ hat rfl rfl rfl rfl hcounted (h.safe_same (by rw [hat]; rfl)) trivial
    (fun hw => hw.elim) (fun hc => by cases hc) (fun _ hc => by cases hc)

/-- **The lock is cleared** by `packet_dequeue`. -/
theorem Sound.unlock (h : Sound st fs) {p : Packet} (hat : st.stage .web = .unlock p) :
    Sound ({ st with server := { st.server with spinLock := false } }.goto .web (.write p))
      fs := by
  have hphase : (st.stage .web).phase = .inside := by rw [hat]; rfl
  have hsafe := h.safe.step (.leave hphase) (careful_of_phase hphase (by decide))
  exact h.goto_kept _ hat rfl rfl rfl rfl rfl hsafe trivial (fun hw => hw.elim)
    (fun hc => by cases hc) (fun _ hc => by cases hc)

/-- **The packet is sent.**  The emulator loop may be inside meanwhile. -/
theorem Sound.write (h : Sound st fs) {p : Packet} (hat : st.stage .web = .write p) :
    ∃ frame fs', frameOf st.server.buffers p = some frame ∧
      Sound ({ st with
        server := freeMessage st.server p, wire := st.wire ++ [frame] }.goto .web .idle) fs' := by
  have hholds := h.holds
  rw [hat] at hholds
  cases fs with
  | nil =>
    obtain ⟨l, -, howned⟩ := hholds
    exact absurd howned.1 (by simp [Stage.hand])
  | cons f fs =>
    obtain ⟨hframe, hrest⟩ := Holds.free_hand hholds
    refine ⟨f, fs, hframe, ?_⟩
    refine h.goto rfl ?_ ?_ ?_ (h.safe_same (by rw [hat]; rfl)) trivial
      (fun o _ => found_congr rfl rfl (h.found o)) (fun hw => hw.elim) (fun hc => by cases hc)
      (fun hc => by cases hc) (fun _ hc => by cases hc)
    · rw [stage_goto]
      exact hrest
    · rw [← h.history, List.append_assoc]
      rfl
    · rw [hat, List.length_cons, BitVec.ofNat_add]
      show st.server.packetsQueued + 0 + (_ + 1) = st.server.packetsQueued + 1 + _
      ring

/-! ### All steps -/

/-- **The next statement of a thread.** -/
theorem Sound.run (h : Sound st fs) (hlen : fs.length < 2 ^ 32) (hcareful : Careful st.lock t)
    (hstep : runThread st t = some st') : ∃ fs', Sound st' fs' := by
  unfold runThread at hstep
  cases hat : st.stage t with
  | idle => simp [hat] at hstep
  | test call =>
    simp only [hat, Option.some.injEq] at hstep
    split_ifs at hstep with hlock
    · exact ⟨fs, hstep ▸ h⟩
    · exact ⟨fs, hstep ▸ h.test hat (by simpa using hlock) hcareful⟩
  | take call =>
    simp only [hat, Option.some.injEq] at hstep
    exact ⟨fs, hstep ▸ h.take hat⟩
  | search item opcode =>
    simp only [hat, Option.map_eq_some_iff] at hstep
    obtain ⟨last, hlast, rfl⟩ := hstep
    exact ⟨fs, h.search hat hlast⟩
  | link last item opcode =>
    simp only [hat, Option.some.injEq] at hstep
    exact ⟨_, hstep ▸ h.link hat⟩
  | count =>
    simp only [hat, Option.some.injEq] at hstep
    exact ⟨fs, hstep ▸ h.count hat⟩
  | release =>
    simp only [hat, Option.some.injEq] at hstep
    exact ⟨fs, hstep ▸ h.release hat⟩
  | look =>
    obtain rfl := h.eq_web (by rw [hat]; rfl)
    obtain ⟨hempty, hlook⟩ := h.look hat hlen
    simp only [hat, hempty, Bool.false_eq_true, if_false, Option.some.injEq] at hstep
    exact ⟨fs, hstep ▸ hlook⟩
  | unlink head =>
    obtain rfl := h.eq_web (by rw [hat]; rfl)
    obtain ⟨s, p, hunlink, hsound⟩ := h.unlink hat
    simp only [hat, hunlink, Option.map_some, Option.some.injEq] at hstep
    exact ⟨fs, hstep ▸ hsound⟩
  | uncount p =>
    obtain rfl := h.eq_web (by rw [hat]; rfl)
    simp only [hat, Option.some.injEq] at hstep
    exact ⟨fs, hstep ▸ h.uncount hat⟩
  | unlock p =>
    obtain rfl := h.eq_web (by rw [hat]; rfl)
    simp only [hat, Option.some.injEq] at hstep
    exact ⟨fs, hstep ▸ h.unlock hat⟩
  | write p =>
    obtain rfl := h.eq_web (by rw [hat]; rfl)
    obtain ⟨frame, fs', hframe, hsound⟩ := h.write hat
    simp only [hat, hframe, Option.map_some, Option.some.injEq] at hstep
    exact ⟨fs', hstep ▸ hsound⟩
  | broken => simp [hat] at hstep

/-- **An orderly step keeps the invariant.** -/
theorem Sound.step (h : Sound st fs) {a : SystemStep} (horderly : Orderly st a)
    (hstep : st.step a = some st') : ∃ fs', Sound st' fs' := by
  obtain ⟨hcareful, hlen⟩ := horderly
  rw [← h.history, List.length_append] at hlen
  cases a with
  | enqueue t item opcode =>
    cases hat : st.stage t <;> simp [System.step, hat] at hstep
    exact ⟨fs, hstep ▸ h.enqueue hat item opcode⟩
  | writeable =>
    cases hat : st.stage .web <;> simp [System.step, hat] at hstep
    split_ifs at hstep with hempty
    · exact ⟨fs, hstep ▸ h⟩
    · exact ⟨fs, hstep ▸ h.writeable hat (by simpa using hempty)⟩
  | run t => exact h.run (by omega) (hcareful t rfl) hstep

end Steps

/-! ## The lock -/

/-- **The lock excludes in every orderly run**: where neither thread reads the lock clear
between the other's reading and setting it, the threads are never both inside, and what
went out, in hand and in the list together is what was queued, in order. -/
theorem lock_excludes (s : Server) (st : System)
    (h : ReachedBy System.step Orderly (.start s) st) : Excludes st ∧ NothingLost st := by
  obtain ⟨fs, hfs⟩ := h.invariant (I := fun st => ∃ fs, Sound st fs) ⟨[], sound_start s⟩
    fun _ _ _ ⟨_, hfs⟩ horderly hstep => hfs.step horderly hstep
  exact ⟨hfs.excludes, hfs.nothingLost⟩

/-- The emulator loop is inside, and the web server waits. -/
theorem lock_excludes_waiting :
    ∃ st, (st.stage .loop).phase = .inside ∧ (st.stage .web).phase = .waiting ∧
      Excludes st ∧ NothingLost st := by
  have horderly (st : System) (a : SystemStep) (hcareful : ∀ t, a = .run t → Careful st.lock t)
      (hqueued : st.queued = []) : Orderly st a := ⟨hcareful, by rw [hqueued]; simp⟩
  have h₁ : ReachedBy System.step Orderly (.start clearedServer) _ :=
    .step .start (horderly _ (.enqueue .loop [0x2A] 0x01) (fun _ hc => by cases hc) rfl) rfl
  have h₂ : ReachedBy System.step Orderly (.start clearedServer) _ :=
    .step h₁ (horderly _ (.enqueue .web [0x2B] 0x01) (fun _ hc => by cases hc) rfl) rfl
  have h₃ : ReachedBy System.step Orderly (.start clearedServer) _ :=
    .step h₂ (horderly _ (.run .loop) (fun _ hc => by cases hc; decide) rfl) rfl
  have h₄ : ReachedBy System.step Orderly (.start clearedServer) _ :=
    .step h₃ (horderly _ (.run .loop) (fun _ hc => by cases hc; decide) rfl) rfl
  exact ⟨_, rfl, rfl, lock_excludes clearedServer _ h₄⟩

/-! ## Reading the lock clear at the same time -/

/-- A thread that reads the lock clear is about to set it. -/
theorem step_of_test {st : System} {t : Thread} {call : QueueCall} (hat : st.stage t = .test call)
    (hlock : st.server.spinLock = false) :
    ∃ st', st.step (.run t) = some st' ∧ st'.stage t = .take call ∧
      ∀ o, o ≠ t → st'.stage o = st.stage o := by
  refine ⟨st.goto t (.take call), ?_, stage_goto _ _ _, fun o ho => stage_goto_of_ne _ _ ho⟩
  simp [System.step, runThread, hat, hlock]

/-- A thread that sets the lock is inside, whoever else is. -/
theorem step_of_take {st : System} {t : Thread} {call : QueueCall}
    (hat : st.stage t = .take call) :
    ∃ st', st.step (.run t) = some st' ∧ (st'.stage t).phase = .inside ∧
      ∀ o, o ≠ t → st'.stage o = st.stage o := by
  have hentry : call.entry.phase = .inside := by cases call <;> rfl
  refine ⟨{ st with server := { st.server with spinLock := true } }.goto t call.entry, ?_, ?_,
    fun o ho => stage_goto_of_ne _ _ ho⟩
  · simp [System.step, runThread, hat]
  · rw [stage_goto, hentry]

/-- **Where a step reads the lock clear between the other thread's reading and setting it**,
both threads get in. -/
theorem careless_breaks {s : Server} {st : System}
    (h : ReachedBy System.step AnyStep (.start s) st) {t : Thread}
    (hcareless : ¬ Careful st.lock t) :
    ∃ st', ReachedBy System.step AnyStep (.start s) st' ∧ ¬ Excludes st' := by
  unfold Careful at hcareless
  push Not at hcareless
  obtain ⟨hwait, hfree, o, hot, hpassed⟩ := hcareless
  obtain ⟨call, hat⟩ : ∃ call, st.stage t = .test call := by
    change (st.stage t).phase = .waiting at hwait
    cases hs : st.stage t <;> rw [hs] at hwait <;> first | exact ⟨_, rfl⟩ | cases hwait
  obtain ⟨call', hto⟩ : ∃ call', st.stage o = .take call' := by
    change (st.stage o).phase = .passed at hpassed
    cases hs : st.stage o <;> rw [hs] at hpassed <;> first | exact ⟨_, rfl⟩ | cases hpassed
  obtain ⟨st₁, hstep₁, ht₁, hothers₁⟩ := step_of_test hat hfree
  obtain ⟨st₂, hstep₂, ht₂, hothers₂⟩ := step_of_take ht₁
  have hto₂ : st₂.stage o = .take call' := by rw [hothers₂ o hot, hothers₁ o hot, hto]
  obtain ⟨st₃, hstep₃, ho, hothers₃⟩ := step_of_take hto₂
  have h₃ : ReachedBy System.step AnyStep (.start s) st₃ :=
    .step (.step (.step h trivial hstep₁) trivial hstep₂) trivial hstep₃
  have ht : (st₃.stage t).phase = .inside := by rw [hothers₃ t hot.symm, ht₂]
  -- whichever of the two threads is which
  refine ⟨st₃, h₃, fun hex => hex ?_⟩
  cases t <;> cases o
  · exact absurd rfl hot
  · exact ⟨ht, ho⟩
  · exact ⟨ho, ht⟩
  · exact absurd rfl hot

/-- Both threads read the lock clear, and both set it. -/
theorem both_inside :
    ¬ ∀ s st, ReachedBy System.step AnyStep (.start s) st → Excludes st ∧ NothingLost st := by
  intro h
  have h₁ : ReachedBy System.step AnyStep (.start clearedServer) _ :=
    .step .start trivial (show System.step _ (.enqueue .loop [0x2A] 0x01) = _ from rfl)
  have h₂ : ReachedBy System.step AnyStep (.start clearedServer) _ :=
    .step h₁ trivial (show System.step _ (.enqueue .web [0x2B] 0x01) = _ from rfl)
  have h₃ : ReachedBy System.step AnyStep (.start clearedServer) _ :=
    .step h₂ trivial (show System.step _ (.run .loop) = _ from rfl)
  obtain ⟨st, hst, hex⟩ := careless_breaks h₃ (t := .web) (by decide)
  exact hex (h _ st hst).1

/-- Two packets queued at the same time, of which the list holds one. -/
def lostPacket : List SystemStep :=
  [.enqueue .loop [0x2A] 0x01, .enqueue .web [0x2B] 0x01, .run .loop, .run .web, .run .loop,
    .run .web, .run .loop, .run .web, .run .loop, .run .web, .run .loop, .run .web, .run .loop,
    .run .web]

/-- **A packet is lost**: both threads are back from `packet_enqueue`, and one packet is not
in the list. -/
theorem packet_lost :
    ∃ st, ReachedBy System.step AnyStep (.start clearedServer) st ∧
      (∀ t, st.stage t = .idle) ∧ ¬ NothingLost st := by
  obtain ⟨st, hst⟩ : ∃ st, lostPacket.foldlM System.step (.start clearedServer) = some st :=
    ⟨_, rfl⟩
  have hidle (t : Thread) : st.stage t = .idle := by
    obtain rfl := Option.some.inj hst
    cases t <;> rfl
  have hhead : st.server.pendingPacketsHead = some 1 := by
    obtain rfl := Option.some.inj hst
    rfl
  have hcell : st.server.packets.cells 1 = some ⟨⟨1, 1, 0x01⟩, none⟩ := by
    obtain rfl := Option.some.inj hst
    rfl
  have hhistory : st.wire = [] ∧ st.queued.length = 2 := by
    obtain rfl := Option.some.inj hst
    exact ⟨rfl, rfl⟩
  refine ⟨st, ReachedBy.start.run hst, hidle, ?_⟩
  rintro ⟨fs, ⟨l, hl, howned⟩, hfs⟩
  have hone : l = [(1, ⟨1, 1, 0x01⟩)] := by
    rw [hhead] at hl
    exact hl.unique ⟨rfl, none, hcell, rfl⟩
  have hlen := congrArg List.length howned.1
  rw [hone, hidle, List.length_map, List.length_map] at hlen
  rw [hhistory.1, List.nil_append] at hfs
  rw [hfs, hhistory.2] at hlen
  exact absurd hlen (by decide)

end Msp430
