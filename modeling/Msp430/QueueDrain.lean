/-
# Getting out again

In an orderly run the two threads never wait for ever: `packet_dequeue` never takes the return
that leaves `spin_lock` set, a set lock has a thread behind it that will clear it, and whatever
the threads are doing they can be brought to an end in an orderly way, every packet that has been
queued or is being queued on the wire, in the order of linking (`queue_drains`).
-/
import Msp430.SpinLock

namespace Msp430

open Reachability TestAndSet

/-! ## What is left to do -/

/-- The statements that are left to a thread. -/
def Stage.left : Stage → ℕ
  | .idle | .broken => 0
  | .release | .write _ => 1
  | .count | .unlock _ => 2
  | .link _ _ _ | .uncount _ => 3
  | .search _ _ | .unlink _ => 4
  | .take (.enqueue _ _) | .look => 5
  | .test (.enqueue _ _) | .take .dequeue => 6
  | .test .dequeue => 7

/-- The frame that the thread is about to link in. -/
def Stage.offers : Stage → List (List (BitVec 8))
  | .test (.enqueue item opcode) | .take (.enqueue item opcode) | .search item opcode
  | .link _ item opcode => [opcode :: item]
  | _ => []

/-- The number of packets that the thread is about to queue. -/
def Stage.asks (σ : Stage) : ℕ := σ.offers.length

/-- The packets that the thread is about to send. -/
def Stage.sends : Stage → ℕ
  | .test .dequeue | .take .dequeue | .look | .unlink _ | .uncount _ | .unlock _ | .write _ => 1
  | _ => 0

/-- The frames of the calls of `packet_enqueue` that have not linked them in yet. -/
def System.offers (st : System) : List (List (BitVec 8)) :=
  (st.stage .loop).offers ++ (st.stage .web).offers

/-- A quantity of both threads. -/
def System.total (st : System) (f : Stage → ℕ) : ℕ := f (st.stage .loop) + f (st.stage .web)

/-- The packets queued, those that are being queued included. -/
def System.asked (st : System) : ℕ := st.queued.length + st.total Stage.asks

/-- The packets sent, the one that is being sent included. -/
def System.answered (st : System) : ℕ := st.wire.length + st.total Stage.sends

/-- The statements left in all: a packet in the list takes eight. -/
def System.work (st : System) : ℕ := 8 * (st.asked - st.answered) + st.total Stage.left

theorem total_goto {st st₁ : System} {t : Thread} {σ : Stage} (hstage : st₁.stage = st.stage)
    (f : Stage → ℕ) : (st₁.goto t σ).total f + f (st.stage t) = st.total f + f σ := by
  cases t with
  | loop =>
    rw [System.total, System.total, stage_goto, stage_goto_of_ne _ _ (by decide), hstage]
    omega
  | web =>
    rw [System.total, System.total, stage_goto, stage_goto_of_ne _ _ (by decide), hstage]
    omega

/-- A frame that is linked in is no longer offered. -/
theorem perm_offers_goto {st st₁ : System} {t : Thread} {σ : Stage} (hstage : st₁.stage = st.stage)
    {more : List (List (BitVec 8))} (h : more ++ σ.offers = (st.stage t).offers) :
    (more ++ (st₁.goto t σ).offers).Perm st.offers := by
  cases t with
  | loop =>
    rw [System.offers, System.offers, stage_goto, stage_goto_of_ne _ _ (by decide), hstage, ← h,
      List.append_assoc]
  | web =>
    rw [System.offers, System.offers, stage_goto, stage_goto_of_ne _ _ (by decide), hstage, ← h]
    exact List.perm_append_comm_assoc _ _ _

/-! ## One statement -/

/-- A thread has got on: nothing is lost, nothing is left undone that was asked for. -/
structure Advances (st st' : System) : Prop where
  sound : ∃ fs, Sound st' fs
  held : Held st'.lock
  asked : st'.asked = st.asked
  answered : st'.answered = st.answered
  left : st'.total Stage.left < st.total Stage.left
  linked : ∃ more, st'.queued = st.queued ++ more ∧ (more ++ st'.offers).Perm st.offers
  wire : st.wire.length ≤ st'.wire.length

section Advance

variable {st : System} {fs : List (List (BitVec 8))} {t : Thread}

/-- A thread goes on. -/
theorem advances_goto {st₁ : System} {σ τ : Stage} {fs' more sent : List (List (BitVec 8))}
    (hsound : Sound (st₁.goto t σ) fs') (hheld : Held st.lock) (hat : st.stage t = τ)
    (hstage : st₁.stage = st.stage) (hqueued : st₁.queued = st.queued ++ more)
    (hwire : st₁.wire = st.wire ++ sent) (hoffers : more ++ σ.offers = τ.offers)
    (hsends : sent.length + σ.sends = τ.sends) (hleft : τ.left = σ.left + 1)
    (hlock : st₁.server.spinLock = true →
      σ.phase = .inside ∨ st.server.spinLock = true ∧ τ.phase ≠ .inside) :
    Advances st (st₁.goto t σ) := by
  have hfirst : (st₁.goto t σ).queued.length = st.queued.length + more.length := by
    rw [System.goto, hqueued, List.length_append]
  have hsecond : (st₁.goto t σ).wire.length = st.wire.length + sent.length := by
    rw [System.goto, hwire, List.length_append]
  have htotal (f : Stage → ℕ) : (st₁.goto t σ).total f + f τ = st.total f + f σ := by
    rw [← hat]
    exact total_goto hstage f
  have hasks : more.length + σ.asks = τ.asks := by
    rw [Stage.asks, Stage.asks, ← hoffers, List.length_append]
  exact
    { sound := ⟨fs', hsound⟩
      held := by
        rw [lock_goto hstage]
        apply hheld.move
        rw [← hat] at hlock
        exact hlock
      asked := by
        have hasked := htotal Stage.asks
        rw [System.asked, System.asked, hfirst]
        omega
      answered := by
        have hanswered := htotal Stage.sends
        rw [System.answered, System.answered, hsecond]
        omega
      left := by
        have hless := htotal Stage.left
        omega
      linked := ⟨more, hqueued, perm_offers_goto hstage (hat ▸ hoffers)⟩
      wire := by omega }

/-- **A thread that does not spin gets on**, one statement at a time. -/
theorem Sound.advance (h : Sound st fs) (hheld : Held st.lock) (hlen : fs.length < 2 ^ 32)
    (hcareful : Careful st.lock t) (hbusy : st.stage t ≠ .idle)
    (hfree : (st.stage t).phase = .waiting → st.server.spinLock = false) :
    ∃ st', runThread st t = some st' ∧ Advances st st' := by
  have hnone : st.queued = st.queued ++ [] := (List.append_nil _).symm
  have hunsent : st.wire = st.wire ++ [] := (List.append_nil _).symm
  cases hat : st.stage t with
  | idle => exact absurd hat hbusy
  | test call =>
    have hclear : st.server.spinLock = false := hfree (by rw [hat]; rfl)
    refine ⟨st.goto t (.take call), by simp [runThread, hat, hclear], ?_⟩
    apply advances_goto (h.test hat hclear hcareful) hheld hat rfl hnone hunsent
    case hlock => exact fun hset => absurd (hclear.symm.trans hset) (by decide)
    all_goals cases call <;> rfl
  | take call =>
    refine ⟨_, ?_, advances_goto (h.take hat) hheld hat rfl hnone hunsent ?_ ?_ ?_ fun _ => .inl ?_⟩
    · simp only [runThread, hat]
    all_goals cases call <;> rfl
  | search item opcode =>
    obtain ⟨last, hlast⟩ := h.holds.exists_lastPacket
    refine ⟨_, ?_, advances_goto (h.search hat hlast) hheld hat rfl hnone hunsent rfl rfl rfl
      fun _ => .inl rfl⟩
    simp only [runThread, hat, hlast, Option.map_some]
  | link last item opcode =>
    refine ⟨_, ?_, advances_goto (h.link hat) hheld hat rfl rfl hunsent rfl rfl rfl fun _ => .inl rfl⟩
    simp only [runThread, hat]
  | count =>
    refine ⟨_, ?_, advances_goto (h.count hat) hheld hat rfl hnone hunsent rfl rfl rfl fun _ => .inl rfl⟩
    simp only [runThread, hat]
  | release =>
    refine ⟨_, ?_, advances_goto (h.release hat) hheld hat rfl hnone hunsent rfl rfl rfl
      fun hset => absurd hset Bool.false_ne_true⟩
    simp only [runThread, hat]
  | look =>
    obtain rfl := h.eq_web (by rw [hat]; rfl)
    obtain ⟨hempty, hlook⟩ := h.look hat hlen
    refine ⟨_, ?_, advances_goto hlook hheld hat rfl hnone hunsent rfl rfl rfl fun _ => .inl rfl⟩
    simp only [runThread, hat, hempty, Bool.false_eq_true, if_false]
  | unlink head =>
    obtain rfl := h.eq_web (by rw [hat]; rfl)
    obtain ⟨s, p, hunlink, hsound⟩ := h.unlink hat
    refine ⟨_, ?_, advances_goto hsound hheld hat rfl hnone hunsent rfl rfl rfl fun _ => .inl rfl⟩
    simp only [runThread, hat, hunlink, Option.map_some]
  | uncount p =>
    obtain rfl := h.eq_web (by rw [hat]; rfl)
    refine ⟨_, ?_, advances_goto (h.uncount hat) hheld hat rfl hnone hunsent rfl rfl rfl
      fun _ => .inl rfl⟩
    simp only [runThread, hat]
  | unlock p =>
    obtain rfl := h.eq_web (by rw [hat]; rfl)
    refine ⟨_, ?_, advances_goto (h.unlock hat) hheld hat rfl hnone hunsent rfl rfl rfl
      fun hset => absurd hset Bool.false_ne_true⟩
    simp only [runThread, hat]
  | write p =>
    obtain rfl := h.eq_web (by rw [hat]; rfl)
    obtain ⟨frame, fs', hframe, hsound⟩ := h.write hat
    refine ⟨_, ?_, advances_goto hsound hheld hat rfl hnone rfl rfl rfl rfl
      fun hset => .inr ⟨hset, by rw [Stage.phase]; decide⟩⟩
    simp only [runThread, hat, hframe, Option.map_some]
  | broken =>
    cases t with
    | loop =>
      have henq := h.loop
      rw [hat] at henq
      cases henq
    | web => exact absurd hat h.web

/-- A step that starts a call. -/
theorem held_call {call : QueueCall} (hheld : Held st.lock) (hidle : st.stage t = .idle) :
    Held (st.goto t (.test call)).lock := by
  rw [lock_goto rfl]
  refine hheld.move fun hset => .inr ⟨hset, ?_⟩
  show (st.stage t).phase ≠ .inside
  rw [hidle]
  decide

/-- **An orderly step** leaves a set lock with a thread that will clear it. -/
theorem Sound.held_step (h : Sound st fs) (hheld : Held st.lock) {st' : System} {a : SystemStep}
    (horderly : Orderly st a) (hstep : st.step a = some st') : Held st'.lock := by
  obtain ⟨hcareful, hlen⟩ := horderly
  rw [← h.history, List.length_append] at hlen
  cases a with
  | enqueue t item opcode =>
    cases hat : st.stage t <;> simp [System.step, hat] at hstep
    rw [← hstep]
    exact held_call hheld hat
  | writeable =>
    cases hat : st.stage .web <;> simp [System.step, hat] at hstep
    split_ifs at hstep
    · rwa [← hstep]
    · rw [← hstep]
      exact held_call hheld hat
  | run t =>
    have hrun : runThread st t = some st' := hstep
    by_cases hidle : st.stage t = .idle
    · rw [runThread, hidle] at hrun
      cases hrun
    · by_cases hspin : (st.stage t).phase = .waiting ∧ st.server.spinLock = true
      · obtain ⟨call, hat⟩ : ∃ call, st.stage t = .test call := by
          rcases hspin with ⟨hwaiting, -⟩
          cases hat : st.stage t <;> rw [hat] at hwaiting <;> first | exact ⟨_, rfl⟩ | cases hwaiting
        simp only [runThread, hat, hspin.2, if_true, Option.some.injEq] at hrun
        rwa [← hrun]
      · obtain ⟨st'', hrun'', hadvances⟩ := h.advance hheld (by omega) (hcareful t rfl) hidle
          fun hwaiting => by simpa [hwaiting] using hspin
        rw [hrun, Option.some.injEq] at hrun''
        rw [hrun'']
        exact hadvances.held

/-- While a thread is in a call, a thread can get on without getting in the way. -/
theorem exists_careful (hheld : Held st.lock) (hbusy : ∃ t, st.stage t ≠ .idle) :
    ∃ t, st.stage t ≠ .idle ∧ Careful st.lock t ∧
      ((st.stage t).phase = .waiting → st.server.spinLock = false) := by
  by_cases hpast : ∃ t, st.stage t ≠ .idle ∧ (st.stage t).phase ≠ .waiting
  · rcases hpast with ⟨t, hidle, hphase⟩
    exact ⟨t, hidle, careful_of_phase rfl hphase, fun hwaiting => absurd hwaiting hphase⟩
  · -- everybody is outside or waits: the lock is clear, and nobody has read it
    push Not at hpast
    have hnot (i : Thread) (p : Phase) (hp : p ≠ .outside) (hwaiting : p ≠ .waiting) :
        (st.stage i).phase ≠ p := by
      intro hi
      by_cases hidle : st.stage i = .idle
      · rw [hidle] at hi
        exact hp hi.symm
      · exact hwaiting (hi.symm.trans (hpast i hidle))
    rcases hbusy with ⟨t, hidle⟩
    refine ⟨t, hidle, fun _ _ o _ => hnot o .passed (by decide) (by decide), fun _ => ?_⟩
    cases hset : st.server.spinLock with
    | false => rfl
    | true =>
      obtain ⟨i, hi⟩ := hheld hset
      exact absurd hi (hnot i .inside (by decide) (by decide))

/-- The callback finds what is in the list. -/
theorem Sound.finds (h : Sound st fs) (hidle : ∀ t, st.stage t = .idle) (hlen : fs.length < 2 ^ 32)
    (hfs : fs ≠ []) : packetQueueEmpty st.server = false := by
  have hholds := h.holds
  have hcounted := h.counted
  rw [hidle] at hholds
  rw [hidle, hidle] at hcounted
  have hpending : Pending { st.server with spinLock := false } fs :=
    ⟨hholds, by rw [← hcounted]; simp [Stage.uncounted], rfl⟩
  have hiff := (hpending.packetQueueEmpty_iff hlen).not
  show packetQueueEmpty { st.server with spinLock := false } = false
  simpa using hiff.mpr hfs

end Advance

/-! ## Getting everything out -/

/-- The lock is not damaged, and there is room for the packets that are being queued. -/
structure Drains (start st : System) : Prop where
  sound : ∃ fs, Sound st fs
  held : Held st.lock
  asked : st.asked = start.asked
  linked : ∃ more, st.queued = start.queued ++ more ∧ (more ++ st.offers).Perm start.offers
  room : st.asked < st.wire.length + 2 ^ 32

theorem linked_trans {start st st' : System}
    (h : ∃ more, st.queued = start.queued ++ more ∧ (more ++ st.offers).Perm start.offers)
    (h' : ∃ more, st'.queued = st.queued ++ more ∧ (more ++ st'.offers).Perm st.offers) :
    ∃ more, st'.queued = start.queued ++ more ∧ (more ++ st'.offers).Perm start.offers := by
  obtain ⟨first, hfirst, hleft⟩ := h
  obtain ⟨rest, hrest, hleft'⟩ := h'
  refine ⟨first ++ rest, by rw [hrest, hfirst, List.append_assoc], ?_⟩
  rw [List.append_assoc]
  exact (hleft'.append_left first).trans hleft

/-- Nothing is left to do. -/
def Drained (st : System) : Prop := (∀ t, st.stage t = .idle) ∧ st.wire = st.queued

/-- **One orderly step** on the way. -/
theorem Drains.progress {start st : System} (h : Drains start st) (hleft : ¬ Drained st) :
    ∃ a st', Orderly st a ∧ st.step a = some st' ∧ Drains start st' ∧ st'.work < st.work := by
  obtain ⟨fs, hsound⟩ := h.sound
  have hroom := h.room
  have hlength : st.wire.length + fs.length = st.queued.length := by
    rw [← hsound.history, List.length_append]
  have hle : st.queued.length ≤ st.asked := Nat.le_add_right _ _
  by_cases hbusy : ∃ t, st.stage t ≠ .idle
  · obtain ⟨t, hidle, hcareful, hfree⟩ := exists_careful h.held hbusy
    obtain ⟨st', hrun, hadvances⟩ := hsound.advance h.held (by omega) hcareful hidle hfree
    refine ⟨.run t, st', ⟨fun t' ht' => ?_, by omega⟩, hrun, ?_, ?_⟩
    · cases ht'
      exact hcareful
    · have hasked := hadvances.asked
      have hwire := hadvances.wire
      exact ⟨hadvances.sound, hadvances.held, hasked.trans h.asked,
        linked_trans h.linked hadvances.linked, by omega⟩
    · have hless := hadvances.left
      rw [System.work, System.work, hadvances.asked, hadvances.answered]
      omega
  · push Not at hbusy
    have hfs : fs ≠ [] := by
      rintro rfl
      exact hleft ⟨hbusy, by rw [← hsound.history, List.append_nil]⟩
    have hpos := List.length_pos_iff.mpr hfs
    have hempty := hsound.finds hbusy (by omega) hfs
    have hcall : st.step .writeable = some (st.goto .web (.test .dequeue)) := by
      simp [System.step, hbusy .web, hempty]
    have hidle (f : Stage → ℕ) (hf : f .idle = 0) : st.total f = 0 := by
      rw [System.total, hbusy, hbusy, hf]
    have htotal (f : Stage → ℕ) (hf : f .idle = 0) :
        (st.goto .web (.test .dequeue)).total f = f (.test .dequeue) := by
      have hsum : (st.goto .web (.test .dequeue)).total f + f (st.stage .web)
        = st.total f + f (.test .dequeue) := total_goto rfl f
      rw [hbusy, hf, hidle f hf, Nat.zero_add] at hsum
      exact hsum
    have hasked : (st.goto .web (.test .dequeue)).asked = st.asked := by
      rw [System.asked, System.asked, htotal _ rfl, hidle _ rfl]
      rfl
    refine ⟨.writeable, _, ⟨fun _ hc => (by cases hc), by omega⟩, hcall, ?_, ?_⟩
    · have hoffers : ([] ++ (st.goto .web (.test .dequeue)).offers).Perm st.offers :=
        perm_offers_goto rfl (by rw [hbusy]; rfl)
      exact ⟨⟨fs, hsound.writeable (hbusy .web) hempty⟩, held_call h.held (hbusy .web),
        hasked.trans h.asked, linked_trans h.linked ⟨[], (List.append_nil _).symm, hoffers⟩,
        hasked ▸ hroom⟩
    · have hwire : (st.goto .web (.test .dequeue)).wire = st.wire := rfl
      rw [System.work, System.work, hasked, System.answered, System.answered, System.asked, hwire,
        htotal _ rfl, htotal _ rfl, hidle _ rfl, hidle _ rfl, hidle _ rfl]
      show 8 * (_ + 0 - (_ + 1)) + 7 < _
      omega

/-- What orderly runs keep. -/
theorem sound_held_of_reached {s : Server} {st : System}
    (h : ReachedBy System.step Orderly (.start s) st) :
    (∃ fs, Sound st fs) ∧ Held st.lock := by
  apply h.invariant
  · exact ⟨⟨[], sound_start s⟩, fun hset => absurd hset Bool.false_ne_true⟩
  · rintro st a st' ⟨⟨fs, hsound⟩, hheld⟩ horderly hstep
    exact ⟨hsound.step horderly hstep, hsound.held_step hheld horderly hstep⟩

/-- **The queue drains**: wherever an orderly run has got to, the threads can come back from
their calls in an orderly way, the lock clear, with everything on the wire in the order in which
it has been linked in: what was queued already, and behind it the packets of the calls of
`packet_enqueue` that were under way. -/
theorem queue_drains (s : Server) (st : System)
    (h : ReachedBy System.step Orderly (.start s) st)
    (hfew : st.queued.length + 2 < st.wire.length + 2 ^ 32) :
    ∃ st' more, ReachedBy System.step Orderly st st' ∧ (∀ t, st'.stage t = .idle) ∧
      st'.server.spinLock = false ∧ st'.wire = st'.queued ∧ st'.queued = st.queued ++ more ∧
      more.Perm st.offers := by
  obtain ⟨hsound, hheld⟩ := sound_held_of_reached h
  have hasks (t : Thread) : (st.stage t).asks ≤ 1 := by
    unfold Stage.asks Stage.offers
    split <;> simp
  have hloop := hasks .loop
  have hweb := hasks .web
  have hroom : st.asked < st.wire.length + 2 ^ 32 := by
    rw [System.asked, System.total]
    omega
  have hnone : ∃ more, st.queued = st.queued ++ more ∧ (more ++ st.offers).Perm st.offers :=
    ⟨[], (List.append_nil _).symm, .refl _⟩
  obtain ⟨st', hreached, hdrains, hidle, hall⟩ := exists_reached System.work
    (fun _ hI hgoal => Drains.progress hI hgoal)
    (⟨hsound, hheld, rfl, hnone, hroom⟩ : Drains st st)
  obtain ⟨more, hqueued, hoffers⟩ := hdrains.linked
  refine ⟨st', more, hreached, hidle, ?_, hall, hqueued, ?_⟩
  · cases hset : st'.server.spinLock with
    | false => rfl
    | true =>
      obtain ⟨i, hi⟩ := hdrains.held hset
      have hphase : (st'.stage i).phase = .inside := hi
      rw [hidle] at hphase
      cases hphase
  · -- nothing is offered any more
    have hdone : st'.offers = [] := by
      rw [System.offers, hidle, hidle]
      rfl
    rwa [hdone, List.append_nil] at hoffers

/-- The emulator loop is inside and the web server waits: both packets go out. -/
theorem queue_drains_waiting :
    ∃ st st' more, (st.stage .loop).phase = .inside ∧ (st.stage .web).phase = .waiting ∧
      ReachedBy System.step Orderly st st' ∧ (∀ t, st'.stage t = .idle) ∧
      st'.wire = more ∧ more.Perm [[0x01, 0x2A], [0x01, 0x2B]] := by
  have horderly (st : System) (a : SystemStep) (hcareful : ∀ t, a = .run t → Careful st.lock t)
      (hqueued : st.queued = []) : Orderly st a := ⟨hcareful, by rw [hqueued]; simp⟩
  have h₁ : ReachedBy System.step Orderly (.start clearedServer) _ :=
    .step .start (horderly _ (.enqueue .loop [0x2A] 0x01) (fun _ hc => by cases hc) rfl) rfl
  have h₂ : ReachedBy System.step Orderly (.start clearedServer) _ :=
    .step h₁ (horderly _ (.enqueue .web [0x2B] 0x01) (fun _ hc => by cases hc) rfl) rfl
  have h₃ : ReachedBy System.step Orderly (.start clearedServer) _ :=
    .step h₂ (horderly _ (.run .loop) (fun _ hc => by cases hc; decide) rfl) rfl
  have h₄ : ReachedBy System.step Orderly (.start clearedServer) _ :=
    .step h₃ (horderly _ (.run .loop) (fun _ hc => by cases hc; decide) rfl) rfl
  obtain ⟨st', more, hreached, hidle, -, hall, hqueued, hoffers⟩ :=
    queue_drains clearedServer _ h₄ (by decide)
  exact ⟨_, st', more, rfl, rfl, hreached, hidle, hall.trans hqueued, hoffers⟩

end Msp430
