/-
# The thread of the serial input

`thrd` of `emu_server.cpp` hands a payload to the guest byte by byte: it waits while `RXIFG` is
set, decodes a byte at its cursor, stores it in `UCA0RXBUF`, sets `RXIFG` and waits until the
guest has cleared it.  Nothing in it knows the length of the payload: it stops behind a carriage
return that it has delivered.  A backslash before another character than `h` swallows this one,
and behind `\h` any two characters count as digits.  `inputDecoded_iff_scan` takes the threads
and their turns out of the question: it remains what a scan of the payload delivers.
-/
import Msp430.Interleaving
import Msp430.Numerals

namespace Msp430

open CString Interleaving

/-! ## The thread and the guest -/

/-- `'\\'`. -/
def backslash : BitVec 8 := 0x5C

/-- `'\r'`. -/
def carriageReturn : BitVec 8 := 0x0D

/-- `'h'` or `'H'`. -/
def isEscapeLetter (c : BitVec 8) : Bool := c == 0x68 || c == 0x48

/-- A newline goes out as a carriage return. -/
def lineEnd (c : BitVec 8) : BitVec 8 := if c = 0x0A then carriageReturn else c

/-- `strtoul(s, NULL, 16)`. -/
def strtoul (s : Str) : BitVec 64 :=
  let (negative, s) := splitSign (s.dropWhile isSpace)
  let s := if hexPrefixed s then s.drop 2 else s
  toUnsigned negative (CString.numberOf 16 (digitsOf 16 s))

/-- The byte for the two characters behind `\h`. -/
def escaped (a b : BitVec 8) : BitVec 8 := (strtoul [a, b]).setWidth 8

/-- Where the thread stands in its loop: in front of the first wait, of the store, of setting the
flag, of the second wait, or behind the loop. -/
inductive ReaderStage : Type where
  | ready : ReaderStage
  | storing (thing : BitVec 8) : ReaderStage
  | raising : ReaderStage
  | waiting : ReaderStage
  | done : ReaderStage
  deriving DecidableEq, Repr

/-- The thread and what it shares with the guest: `UCA0RXBUF` and the bit `RXIFG` of `IFG2`.  The
last three say what has happened: the offsets that were read of the payload, the bytes that were
stored, each with the flag as it then was, and the bytes that the guest has read. -/
structure SerialState where
  stage : ReaderStage
  cursor : ℕ
  rxbuf : BitVec 8
  rxifg : Bool
  reads : List ℕ
  placed : List (BitVec 8 × Bool)
  taken : List (BitVec 8)
  deriving DecidableEq, Repr

/-- The body of the loop up to the store, on the memory from the payload on: the byte, the cursor
and the offsets that are read. -/
def decodeAt (m : ℕ → BitVec 8) (p : ℕ) : BitVec 8 × ℕ × List ℕ :=
  if m p = backslash then
    if isEscapeLetter (m (p + 1)) then
      (escaped (m (p + 2)) (m (p + 3)), p + 3, [p, p + 1, p + 2, p + 3])
    else (m p, p + 1, [p, p + 1])
  else (lineEnd (m p), p, [p])

/-- The two parties. -/
inductive Party : Type where
  | thread : Party
  | guest : Party
  deriving DecidableEq, Repr

/-- A turn.  The guest reads the byte when the flag is set, and clears it. -/
def SerialState.turn (m : ℕ → BitVec 8) (s : SerialState) : Party → SerialState
  | .guest => if s.rxifg then { s with taken := s.taken ++ [s.rxbuf], rxifg := false } else s
  | .thread =>
    match s.stage with
    | .ready =>
      if s.rxifg then s
      else
        let (thing, cursor, reads) := decodeAt m s.cursor
        { s with stage := .storing thing, cursor := cursor, reads := s.reads ++ reads }
    | .storing thing =>
      { s with stage := .raising, rxbuf := thing, placed := s.placed ++ [(thing, s.rxifg)] }
    | .raising => { s with stage := .waiting, rxifg := true }
    | .waiting =>
      if s.rxifg then s
      else if s.rxbuf = carriageReturn then { s with stage := .done }
      else { s with stage := .ready, cursor := s.cursor + 1 }
    | .done => s

/-- The thread as it starts, with whatever it finds in the registers. -/
def serialStart (rxbuf : BitVec 8) (rxifg : Bool) : SerialState :=
  ⟨.ready, 0, rxbuf, rxifg, [], [], []⟩

/-- The payload, and what stands behind it in memory. -/
def payloadMemory (payload : Str) (behind : ℕ → BitVec 8) (i : ℕ) : BitVec 8 :=
  payload.getD i (behind i)

/-! ## What the payload should decode to -/

/-- The byte of an escape `\hXX` or `\HXX` with two digits, at the head of the string. -/
def escapeByte : Str → Option (BitVec 8)
  | c :: h :: x :: y :: _ =>
    if c = backslash ∧ isEscapeLetter h = true ∧ isDigit 16 x = true ∧ isDigit 16 y = true then
      some (BitVec.ofNat 8 (CString.numberOf 16 [x, y]))
    else none
  | _ => none

/-- The decoding behind the first `skip` characters. -/
def decodeFrom : ℕ → Str → Str
  | _, [] => []
  | skip + 1, _ :: s => decodeFrom skip s
  | 0, c :: s =>
    match escapeByte (c :: s) with
    | some b => b :: decodeFrom 3 s
    | none => lineEnd c :: decodeFrom 0 s

/-- The decoding of a payload: escapes, line ends, and every other byte as itself. -/
def decodeInput (s : Str) : Str := decodeFrom 0 s

example : decodeInput (bytes "a\\b\\h21\n") = bytes "a\\b!\r" := by decide

/-- The thread has ended on the decoding of the payload: it has stored these bytes, each while the
flag was clear, and read nothing behind the payload; the guest has read each once, behind the
bytes `stale` that it found before. -/
structure Delivered (payload : Str) (stale : List (BitVec 8)) (s : SerialState) : Prop where
  ended : s.stage = .done
  bytes : s.placed.map Prod.fst = decodeInput payload
  clear : ∀ b ∈ s.placed, b.2 = false
  within : ∀ i ∈ s.reads, i < payload.length
  taken : s.taken = stale ++ decodeInput payload

/-- In every fair order of turns, and whatever the registers hold at the start, the payload is
delivered from some time on. -/
def InputDecoded (payload : Str) (behind : ℕ → BitVec 8) : Prop :=
  ∀ (order : ℕ → Party) (rxbuf : BitVec 8) (rxifg : Bool), Fair order →
    ∃ n, ∀ k, n ≤ k → Delivered payload (if rxifg then [rxbuf] else [])
      (runTurns (SerialState.turn (payloadMemory payload behind)) order
        (serialStart rxbuf rxifg) k)

/-! ## One round of the loop -/

section Round

variable {m : ℕ → BitVec 8} {order : ℕ → Party} {s t : SerialState} {n : ℕ}

/-- The state after a round that starts at the cursor with the flag clear. -/
def SerialState.round (m : ℕ → BitVec 8) (s : SerialState) : SerialState :=
  let (thing, cursor, reads) := decodeAt m s.cursor
  { stage := if thing = carriageReturn then .done else .ready
    cursor := if thing = carriageReturn then cursor else cursor + 1
    rxbuf := thing
    rxifg := false
    reads := s.reads ++ reads
    placed := s.placed ++ [(thing, false)]
    taken := s.taken ++ [thing] }

/-- With the flag clear the guest waits. -/
theorem turn_guest_of_clear (h : t.rxifg = false) : t.turn m .guest = t := by
  simp [SerialState.turn, h]

/-- The thread gets its turn while the flag is clear. -/
theorem takes_thread (hfair : Fair order) (hclear : t.rxifg = false)
    (hn : runTurns (SerialState.turn m) order s n = t) :
    ∃ k, n < k ∧ runTurns (SerialState.turn m) order s k = t.turn m .thread := by
  apply hfair.takes _ hn
  rintro (_ | _) hj
  · exact absurd rfl hj
  · exact turn_guest_of_clear hclear

/-- The guest gets its turn while the thread waits for it. -/
theorem takes_guest (hfair : Fair order) (hwaits : t.turn m .thread = t)
    (hn : runTurns (SerialState.turn m) order s n = t) :
    ∃ k, n < k ∧ runTurns (SerialState.turn m) order s k = t.turn m .guest := by
  apply hfair.takes _ hn
  rintro (_ | _) hj
  · exact hwaits
  · exact absurd rfl hj

/-- **A round is completed**: the store, the flag, the guest's turn, and the test. -/
theorem round_reached (hfair : Fair order) (hready : t.stage = .ready) (hclear : t.rxifg = false)
    (hn : runTurns (SerialState.turn m) order s n = t) :
    ∃ k, n < k ∧ runTurns (SerialState.turn m) order s k = t.round m := by
  obtain ⟨stage, p, rxbuf, rxifg, reads, placed, taken⟩ := t
  obtain rfl : stage = .ready := hready
  obtain rfl : rxifg = false := hclear
  rcases hdec : decodeAt m p with ⟨thing, cursor, r⟩
  obtain ⟨n1, h1, hn1⟩ := takes_thread hfair rfl hn
  simp only [SerialState.turn, hdec, Bool.false_eq_true, if_false] at hn1
  obtain ⟨n2, h2, hn2⟩ := takes_thread hfair rfl hn1
  simp only [SerialState.turn] at hn2
  obtain ⟨n3, h3, hn3⟩ := takes_thread hfair rfl hn2
  simp only [SerialState.turn] at hn3
  obtain ⟨n4, h4, hn4⟩ := takes_guest hfair (by simp [SerialState.turn]) hn3
  simp only [SerialState.turn, if_true] at hn4
  obtain ⟨n5, h5, hn5⟩ := takes_thread hfair rfl hn4
  refine ⟨n5, by omega, ?_⟩
  rw [hn5]
  simp only [SerialState.turn, SerialState.round, hdec, Bool.false_eq_true, if_false]
  split_ifs <;> rfl

end Round

/-! ## The rounds on a payload -/

/-- What the thread decodes at the head of the rest of the payload, and how many characters it
skips behind it; nothing when it looks behind the payload. -/
def thingOf : Str → Option (BitVec 8 × ℕ)
  | [] => none
  | c :: s =>
    if c = backslash then
      match s with
      | [] => none
      | x :: s =>
        if isEscapeLetter x then
          match s with
          | a :: b :: _ => some (escaped a b, 3)
          | _ => none
        else some (c, 1)
    else some (lineEnd c, 0)

section Thing

variable {c x a b : BitVec 8} {s : Str}

theorem thingOf_plain (hc : c ≠ backslash) : thingOf (c :: s) = some (lineEnd c, 0) := by
  cases s <;> simp [thingOf, hc]

theorem thingOf_lone (hx : isEscapeLetter x = false) :
    thingOf (backslash :: x :: s) = some (backslash, 1) := by
  simp [thingOf, hx]

theorem thingOf_letter (hx : isEscapeLetter x = true) :
    thingOf (backslash :: x :: a :: b :: s) = some (escaped a b, 3) := by
  simp [thingOf, hx]

/-- An escape that the payload cuts off. -/
theorem thingOf_cut (hx : isEscapeLetter x = true) :
    thingOf [backslash, x] = none ∧ thingOf [backslash, x, a] = none := by
  simp [thingOf, hx]

end Thing

/-- What the thread delivers behind the first `skip` characters. -/
def scanFrom : ℕ → Str → Option Str
  | _, [] => none
  | skip + 1, _ :: s => scanFrom skip s
  | 0, c :: s =>
    match thingOf (c :: s) with
    | none => none
    | some (b, skip) =>
      if b = carriageReturn then some [b] else (scanFrom skip s).map (b :: ·)

/-- What the thread delivers until it stops inside the payload. -/
def scanInput (s : Str) : Option Str := scanFrom 0 s

theorem scanFrom_eq (skip : ℕ) (s : Str) : scanFrom skip s = scanInput (s.drop skip) := by
  induction s generalizing skip with
  | nil => cases skip <;> rfl
  | cons c s ih =>
    cases skip with
    | zero => rfl
    | succ skip => rw [scanFrom, ih, List.drop_succ_cons]

theorem decodeFrom_eq (skip : ℕ) (s : Str) : decodeFrom skip s = decodeInput (s.drop skip) := by
  induction s generalizing skip with
  | nil => cases skip <;> rfl
  | cons c s ih =>
    cases skip with
    | zero => rfl
    | succ skip => rw [decodeFrom, ih, List.drop_succ_cons]

/-- The scan byte by byte. -/
theorem scanInput_eq (s : Str) : scanInput s = (thingOf s).bind fun r =>
    if r.1 = carriageReturn then some [r.1]
    else (scanInput (s.drop (r.2 + 1))).map (r.1 :: ·) := by
  cases s with
  | nil => rfl
  | cons c s =>
    rw [scanInput, scanFrom]
    rcases thingOf (c :: s) with _ | ⟨b, skip⟩
    · rfl
    · simp only [Option.bind_some, List.drop_succ_cons, scanFrom_eq]

section Payload

variable {payload : Str} {behind : ℕ → BitVec 8} {p : ℕ}

/-- The memory from the cursor on. -/
theorem payloadMemory_add (i : ℕ) :
    payloadMemory payload behind (p + i) = (payload.drop p).getD i (behind (p + i)) := by
  rw [payloadMemory, List.getD_eq_getElem?_getD, List.getD_eq_getElem?_getD, List.getElem?_drop]

/-- The thread reads within the payload exactly where the scan goes on, and decodes the same. -/
theorem decodeAt_payload (behind : ℕ → BitVec 8) (hp : p ≤ payload.length) :
    match thingOf (payload.drop p) with
    | some (b, skip) => p + skip < payload.length ∧ ∃ reads,
        decodeAt (payloadMemory payload behind) p = (b, p + skip, reads) ∧
          ∀ i ∈ reads, i < payload.length
    | none => ∃ i ∈ (decodeAt (payloadMemory payload behind) p).2.2, payload.length ≤ i := by
  have hlen : payload.length = p + (payload.drop p).length := by
    rw [List.length_drop]
    omega
  have hread (i : ℕ) : payloadMemory payload behind (p + i)
      = (payload.drop p).getD i (behind (p + i)) := payloadMemory_add i
  have hread0 := hread 0
  rw [Nat.add_zero] at hread0
  rw [hlen]
  generalize payload.drop p = s at hread hread0 ⊢
  rcases s with _ | ⟨c, s⟩
  · refine ⟨p, ?_, le_rfl⟩
    unfold decodeAt
    split_ifs <;> simp
  have hhead : payloadMemory payload behind p = c := hread0
  by_cases hc : c = backslash
  · subst hc
    rcases s with _ | ⟨x, s⟩
    · refine ⟨p + 1, ?_, le_rfl⟩
      rw [decodeAt, hhead, if_pos rfl]
      split_ifs <;> simp
    have hletter : payloadMemory payload behind (p + 1) = x := hread 1
    cases hx : isEscapeLetter x with
    | false =>
      rw [thingOf_lone hx]
      refine ⟨by simp, [p, p + 1], ?_, by simp⟩
      rw [decodeAt, hhead, hletter, if_pos rfl, if_neg (by simp [hx])]
    | true =>
      rcases s with _ | ⟨a, _ | ⟨b, s⟩⟩
      · rw [(thingOf_cut (a := 0) hx).1]
        refine ⟨p + 2, ?_, le_rfl⟩
        rw [decodeAt, hhead, hletter, if_pos rfl, if_pos hx]
        simp
      · rw [(thingOf_cut hx).2]
        refine ⟨p + 3, ?_, le_rfl⟩
        rw [decodeAt, hhead, hletter, if_pos rfl, if_pos hx]
        simp
      · have ha : payloadMemory payload behind (p + 2) = a := hread 2
        have hb : payloadMemory payload behind (p + 3) = b := hread 3
        rw [thingOf_letter hx]
        refine ⟨by simp, [p, p + 1, p + 2, p + 3], ?_, by simp⟩
        rw [decodeAt, hhead, hletter, ha, hb, if_pos rfl, if_pos hx]
  · rw [thingOf_plain hc]
    refine ⟨by simp, [p], ?_, by simp⟩
    rw [decodeAt, hhead, if_neg hc]
    rfl

variable {m : ℕ → BitVec 8} {order : ℕ → Party} {s t : SerialState} {n : ℕ}

/-- **The scan stops inside the payload**: so does the thread, with the same bytes. -/
theorem ends_of_scan (hfair : Fair order) {l : Str}
    (hscan : scanInput (payload.drop t.cursor) = some l) (hready : t.stage = .ready)
    (hclear : t.rxifg = false) (hp : t.cursor ≤ payload.length)
    (hn : runTurns (SerialState.turn (payloadMemory payload behind)) order s n = t) :
    ∃ k t', runTurns (SerialState.turn (payloadMemory payload behind)) order s k = t' ∧
      t'.stage = .done ∧ t'.rxifg = false ∧ t'.placed = t.placed ++ l.map (·, false) ∧
      t'.taken = t.taken ++ l ∧ ∀ i ∈ t'.reads, i ∈ t.reads ∨ i < payload.length := by
  induction l generalizing t n with
  | nil =>
    rw [scanInput_eq, Option.bind_eq_some_iff] at hscan
    obtain ⟨r, -, hr⟩ := hscan
    split_ifs at hr with hb
    · simp at hr
    · simp at hr
  | cons b l ih =>
    have hdec := decodeAt_payload behind hp
    obtain ⟨k, -, hk⟩ := round_reached hfair hready hclear hn
    rw [scanInput_eq, Option.bind_eq_some_iff] at hscan
    obtain ⟨⟨b', skip⟩, hthing, hr⟩ := hscan
    rw [hthing] at hdec
    obtain ⟨hlt, reads, hdec, hreads⟩ := hdec
    simp only [SerialState.round, hdec] at hk
    by_cases hb : b' = carriageReturn
    · rw [if_pos hb] at hr
      obtain ⟨rfl, rfl⟩ : b' = b ∧ [] = l := by simpa using hr
      refine ⟨k, _, hk, if_pos hb, rfl, rfl, rfl, ?_⟩
      intro i hi
      exact (List.mem_append.mp hi).imp_right (hreads i)
    · rw [if_neg hb] at hr hk
      rw [if_neg hb] at hk
      obtain ⟨l', hrest, hcons⟩ := Option.map_eq_some_iff.mp hr
      obtain ⟨rfl, rfl⟩ : b' = b ∧ l' = l := by simpa using hcons
      have hdrop : (payload.drop t.cursor).drop (skip + 1)
          = payload.drop (t.cursor + skip + 1) := by
        rw [List.drop_drop, Nat.add_assoc]
      rw [hdrop] at hrest
      obtain ⟨k', t', hk', hdone, hclear', hplaced, htaken, hwithin⟩ :=
        ih (t := ⟨_, _, _, _, _, _, _⟩) hrest rfl rfl hlt hk
      refine ⟨k', t', hk', hdone, hclear', ?_, ?_, ?_⟩
      · rw [hplaced]
        simp
      · rw [htaken]
        simp
      · intro i hi
        rcases hwithin i hi with hi | hi
        · exact (List.mem_append.mp hi).imp_right (hreads i)
        · exact .inr hi

/-- **The scan leaves the payload**: so does the thread. -/
theorem reads_behind_of_scan (hfair : Fair order)
    (hscan : scanInput (payload.drop t.cursor) = none) (hready : t.stage = .ready)
    (hclear : t.rxifg = false) (hp : t.cursor ≤ payload.length)
    (hn : runTurns (SerialState.turn (payloadMemory payload behind)) order s n = t) :
    ∃ k, ∃ i ∈ (runTurns (SerialState.turn (payloadMemory payload behind)) order s k).reads,
      payload.length ≤ i := by
  induction hd : payload.length - t.cursor using Nat.strong_induction_on generalizing t n with
  | _ d ih =>
    have hdec := decodeAt_payload behind hp
    obtain ⟨k, -, hk⟩ := round_reached hfair hready hclear hn
    rw [scanInput_eq] at hscan
    rcases hthing : thingOf (payload.drop t.cursor) with _ | ⟨b, skip⟩
    · rw [hthing] at hdec
      obtain ⟨i, hi, hlen⟩ := hdec
      refine ⟨k, i, ?_, hlen⟩
      rw [hk]
      exact List.mem_append_right _ hi
    · rw [hthing] at hdec hscan
      obtain ⟨hlt, reads, hdec, -⟩ := hdec
      simp only [SerialState.round, hdec] at hk
      rw [Option.bind_some] at hscan
      split_ifs at hscan hk with hb
      rw [Option.map_eq_none_iff, List.drop_drop, ← Nat.add_assoc] at hscan
      exact ih (payload.length - (t.cursor + skip + 1)) (by omega)
        (t := ⟨_, _, _, _, _, _, _⟩) hscan rfl rfl hlt hk rfl

/-- The thread before its first byte, once the guest has read what it found. -/
def begun (rxbuf : BitVec 8) (rxifg : Bool) : SerialState :=
  { serialStart rxbuf false with taken := if rxifg then [rxbuf] else [] }

/-- The guest reads what it finds before the thread begins. -/
theorem begun_reached (hfair : Fair order) (rxbuf : BitVec 8) (rxifg : Bool) :
    ∃ n, runTurns (SerialState.turn m) order (serialStart rxbuf rxifg) n = begun rxbuf rxifg := by
  cases rxifg with
  | false => exact ⟨0, rfl⟩
  | true =>
    have hwaits : (serialStart rxbuf true).turn m .thread = serialStart rxbuf true := rfl
    obtain ⟨n, -, hn⟩ := takes_guest (n := 0) hfair hwaits rfl
    exact ⟨n, hn⟩

/-- A thread that has ended, its last byte read, does nothing more. -/
theorem turn_ended (hdone : t.stage = .done) (hclear : t.rxifg = false)
    (i : Party) : t.turn m i = t := by
  cases i with
  | thread => simp only [SerialState.turn, hdone]
  | guest => exact turn_guest_of_clear hclear

/-- A turn takes back no read. -/
theorem reads_turn (t : SerialState) (i : Party) :
    t.reads <+: (t.turn m i).reads := by
  cases i with
  | thread =>
    unfold SerialState.turn
    dsimp only
    split
    all_goals try split_ifs
    all_goals simp
  | guest =>
    unfold SerialState.turn
    dsimp only
    split_ifs <;> simp

/-- Turn by turn. -/
def alternating (n : ℕ) : Party := if n % 2 = 0 then .thread else .guest

theorem fair_alternating : Fair alternating := by
  intro i n
  cases i with
  | thread => exact ⟨2 * n, by omega, by simp [alternating]⟩
  | guest => exact ⟨2 * n + 1, by omega, by simp [alternating]⟩

/-- Reads accumulate along a run. -/
theorem reads_mono {k : ℕ} (hk : n ≤ k) : (runTurns (SerialState.turn m) order s n).reads
    <+: (runTurns (SerialState.turn m) order s k).reads := by
  apply runTurns_rel (r := fun s t : SerialState => s.reads <+: t.reads) _ _ reads_turn hk
  · exact fun _ => List.prefix_rfl
  · exact fun h h' => h.trans h'

theorem map_fst_clear (l : Str) : (l.map (·, false)).map Prod.fst = l := by
  rw [List.map_map]
  exact List.map_id l

/-- **The payload is decoded exactly when** the scan stops inside it on its decoding. -/
theorem inputDecoded_iff_scan :
    InputDecoded payload behind ↔ scanInput payload = some (decodeInput payload) := by
  constructor
  · intro h
    obtain ⟨n, hn⟩ := h alternating 0 false fair_alternating
    obtain ⟨n0, hbegun⟩ := begun_reached (m := payloadMemory payload behind)
      fair_alternating 0 false
    rcases hscan : scanInput (payload.drop (begun 0 false).cursor) with _ | l
    · -- the reads behind the payload are never taken back
      obtain ⟨k, i, hi, hlen⟩ :=
        reads_behind_of_scan fair_alternating hscan rfl rfl (Nat.zero_le _) hbegun
      have hgrown := (reads_mono (le_max_left k n)).subset hi
      have hwithin := (hn _ (le_max_right k n)).within i hgrown
      omega
    · obtain ⟨k, t, hk, hdone, hclear, hplaced, -, -⟩ :=
        ends_of_scan fair_alternating hscan rfl rfl (Nat.zero_le _) hbegun
      have hbytes := (hn _ (le_max_right k n)).bytes
      rw [runTurns_fixed (turn_ended hdone hclear) hk (le_max_left k n), hplaced] at hbytes
      have hl : l = decodeInput payload := (map_fst_clear l).symm.trans hbytes
      rw [← hl]
      exact hscan
  · intro hscan order rxbuf rxifg hfair
    obtain ⟨n0, hbegun⟩ := begun_reached (m := payloadMemory payload behind) hfair rxbuf rxifg
    have hdrop : scanInput (payload.drop (begun rxbuf rxifg).cursor)
        = some (decodeInput payload) := hscan
    obtain ⟨k, t, hk, hdone, hclear, hplaced, htaken, hwithin⟩ :=
      ends_of_scan hfair hdrop rfl rfl (Nat.zero_le _) hbegun
    refine ⟨k, fun k' hk' => ?_⟩
    rw [runTurns_fixed (turn_ended hdone hclear) hk hk']
    refine ⟨hdone, ?_, ?_, ?_, htaken⟩
    · rw [hplaced]
      exact map_fst_clear (decodeInput payload)
    · rw [hplaced]
      simp [begun, serialStart]
    · intro i hi
      exact (hwithin i hi).resolve_left List.not_mem_nil

end Payload

end Msp430
