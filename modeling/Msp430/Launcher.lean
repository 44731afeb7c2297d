/-
# The launcher (`debugger/server/server.c`)

The launcher waits on its own port, starts an emulator for each client and tells the client the
port to go on with.  The text that the client is told is the argument of the emulator, which
reads its port back out of it: `launcher_assigns` follows the ports through any order of
callbacks.  Replies are written to whoever `ws` stands for, and only `callback_http` moves it: a
client whose request is overtaken by the connection of another one loses its reply to it.
-/
import Msp430.Decimals

namespace Msp430

open CString

/-! ## The callbacks -/

/-- What libwebsockets calls; `ι` are the values of `struct lws *`.  Of `SERVER_WRITEABLE`, whether
`fork` gets a child as well. -/
inductive LauncherCallback (ι : Type*) where
  | http (wsi : ι) : LauncherCallback ι
  | protocolInit (wsi : ι) : LauncherCallback ι
  | serverWriteable (wsi : ι) (forked : Bool) : LauncherCallback ι
  | established (wsi : ι) : LauncherCallback ι
  | other (wsi : ι) : LauncherCallback ι
  deriving DecidableEq

/-- The launcher: its two static variables, the last argument of each child that it has started,
what it has written to whom, and the connections that it wants to write to and to close. -/
structure Launcher (ι : Type*) where
  ws : Option ι
  newWsPort : BitVec 32
  children : List Str
  written : List (Option ι × Str)
  wanted : List ι
  closing : List ι

namespace Launcher

variable {ι : Type*}

/-- The launcher before the first callback. -/
def start : Launcher ι := ⟨none, 9001, [], [], [], []⟩

/-- `web_send`: to `ws`, and without the byte that ends the string. -/
def webSend (l : Launcher ι) (buf : Str) : Launcher ι :=
  { l with written := l.written ++ [(l.ws, buf)] }

/-- `callback_http` and `callback_emu`. -/
def callback (l : Launcher ι) : LauncherCallback ι → Launcher ι
  | .http wsi | .protocolInit wsi => { l with ws := some wsi }
  | .serverWriteable wsi forked =>
    let portStr := printDecimal l.newWsPort.toNat
    -- the child is `nice -20 ./MSP430 port_str`
    let l := if forked then { l with children := l.children ++ [portStr] } else l
    let l := l.webSend portStr
    { l with newWsPort := l.newWsPort + 1, closing := l.closing ++ [wsi] }
  | .established wsi => { l with wanted := l.wanted ++ [wsi] }
  -- the assignment to `ws` behind `break` is not reached
  | .other _ => l

/-- The launcher after some callbacks. -/
def run (cbs : List (LauncherCallback ι)) : Launcher ι := cbs.foldl callback start

end Launcher

/-- `deb->ws_port = strtoul(argv[1], NULL, 10)`: the port of an emulator. -/
def wsPort (argv : Str) : BitVec 32 := (strtoul argv).setWidth 32

/-! ## Requests -/

/-- A request: who asks, to whom the reply goes, and whether an emulator is started. -/
structure Request (ι : Type*) where
  asked : ι
  answered : Option ι
  forked : Bool
  deriving DecidableEq

/-- The connection that `callback_http` was last called for. -/
def lastCalled {ι : Type*} (ws : Option ι) : List (LauncherCallback ι) → Option ι
  | [] => ws
  | .http wsi :: cbs | .protocolInit wsi :: cbs => lastCalled (some wsi) cbs
  | .serverWriteable _ _ :: cbs | .established _ :: cbs | .other _ :: cbs => lastCalled ws cbs

/-- The requests in some callbacks. -/
def requests {ι : Type*} (ws : Option ι) : List (LauncherCallback ι) → List (Request ι)
  | [] => []
  | .http wsi :: cbs | .protocolInit wsi :: cbs => requests (some wsi) cbs
  | .serverWriteable wsi forked :: cbs => ⟨wsi, ws, forked⟩ :: requests ws cbs
  | .established _ :: cbs | .other _ :: cbs => requests ws cbs

/-- A request of the connection that `ws` stands for. -/
def Finds {ι : Type*} (ws : Option ι) : LauncherCallback ι → Prop
  | .serverWriteable wsi _ => ws = some wsi
  | _ => True

/-- No request is overtaken by another connection: at each of them, `callback_http` was last
called for the connection that asks. -/
def InTurn {ι : Type*} (ws : Option ι) (cbs : List (LauncherCallback ι)) : Prop :=
  ∀ before cb after, cbs = before ++ cb :: after → Finds (lastCalled ws before) cb

/-- `"%u"` of a port. -/
def portText (n : ℕ) : Str := printDecimal (BitVec.ofNat 32 n).toNat

section Ports

variable {ι : Type*}

theorem wsPort_portText (n : ℕ) : wsPort (portText n) = BitVec.ofNat 32 n := by
  have hlt := (BitVec.ofNat 32 n).isLt
  rw [wsPort, portText, strtoul_printDecimal (by omega), ← BitVec.toNat_inj, BitVec.toNat_setWidth,
    BitVec.toNat_ofNat]
  omega

theorem portText_injOn {n m : ℕ} (hn : n < 2 ^ 32) (hm : m < 2 ^ 32)
    (h : portText n = portText m) : n = m := by
  have hport := congrArg (fun s => (wsPort s).toNat) h
  simp only [wsPort_portText, BitVec.toNat_ofNat] at hport
  omega

theorem callback_serverWriteable (l : Launcher ι) (wsi : ι) (forked : Bool) :
    l.callback (.serverWriteable wsi forked)
      = { l with
          newWsPort := l.newWsPort + 1
          children := l.children ++ if forked then [printDecimal l.newWsPort.toNat] else []
          written := l.written ++ [(l.ws, printDecimal l.newWsPort.toNat)]
          closing := l.closing ++ [wsi] } := by
  cases forked with
  | false => simp [Launcher.callback, Launcher.webSend]
  | true => rfl

/-- **The run of the launcher**, request by request. -/
theorem foldl_callback (l : Launcher ι) (cbs : List (LauncherCallback ι)) {n : ℕ}
    (hn : l.newWsPort = BitVec.ofNat 32 n) :
    (cbs.foldl Launcher.callback l).written
        = l.written ++ (requests l.ws cbs).mapIdx (fun k r => (r.answered, portText (n + k))) ∧
      (cbs.foldl Launcher.callback l).children
        = l.children ++ ((requests l.ws cbs).mapIdx fun k r =>
            if r.forked then [portText (n + k)] else []).flatten ∧
      (cbs.foldl Launcher.callback l).closing
        = l.closing ++ (requests l.ws cbs).map Request.asked := by
  induction cbs generalizing l n with
  | nil => simp [requests]
  | cons cb cbs ih =>
    cases cb with
    | serverWriteable wsi forked =>
      have hcallback := callback_serverWriteable l wsi forked
      have hnext : (l.callback (.serverWriteable wsi forked)).newWsPort
          = BitVec.ofNat 32 (n + 1) := by
        rw [hcallback, BitVec.ofNat_add, ← hn]
        rfl
      have hshift (k : ℕ) : n + 1 + k = n + (k + 1) := by omega
      have hport : printDecimal l.newWsPort.toNat = portText n := by rw [hn, portText]
      rw [List.foldl_cons]
      rcases ih _ hnext with ⟨hwritten, hchildren, hclosing⟩
      rw [hwritten, hchildren, hclosing, hcallback, hport, requests]
      simp [List.mapIdx_cons, hshift]
    | http wsi => exact ih { l with ws := some wsi } hn
    | protocolInit wsi => exact ih { l with ws := some wsi } hn
    | established wsi => exact ih { l with wanted := l.wanted ++ [wsi] } hn
    | other wsi => exact ih l hn

/-- The texts of consecutive ports are different. -/
theorem nodup_portTexts {n m : ℕ} (h : n + m ≤ 2 ^ 32) :
    ((List.range m).map fun k => portText (n + k)).Nodup := by
  apply List.Nodup.map_on ?_ List.nodup_range
  intro j hj k hk hjk
  rw [List.mem_range] at hj hk
  have hsum := portText_injOn (by omega) (by omega) hjk
  omega

/-- The splits of a list that is not empty. -/
theorem inTurn_cons (ws : Option ι) (cb : LauncherCallback ι) (cbs : List (LauncherCallback ι)) :
    InTurn ws (cb :: cbs) ↔ Finds ws cb ∧ InTurn (lastCalled ws [cb]) cbs := by
  have hlast (before : List (LauncherCallback ι)) :
      lastCalled ws (cb :: before) = lastCalled (lastCalled ws [cb]) before := by
    cases cb <;> rfl
  constructor
  · intro h
    refine ⟨h [] cb cbs rfl, fun before cb' after hsplit => ?_⟩
    rw [← hlast]
    apply h (cb :: before) cb' after
    rw [hsplit, List.cons_append]
  · rintro ⟨hfinds, h⟩ before cb' after hsplit
    cases before with
    | nil =>
      rcases List.cons.inj hsplit with ⟨rfl, -⟩
      exact hfinds
    | cons cb'' before =>
      rcases List.cons.inj hsplit with ⟨rfl, hrest⟩
      rw [hlast]
      exact h before cb' after hrest

/-- The replies go to those who ask exactly when no request is overtaken. -/
theorem answered_eq_iff (ws : Option ι) (cbs : List (LauncherCallback ι)) :
    (requests ws cbs).map Request.answered = (requests ws cbs).map (fun r => some r.asked)
      ↔ InTurn ws cbs := by
  induction cbs generalizing ws with
  | nil =>
    refine iff_of_true rfl fun before cb after hsplit => ?_
    exact absurd hsplit.symm (by simp)
  | cons cb cbs ih =>
    rw [inTurn_cons, ← ih]
    cases cb with
    | serverWriteable wsi forked => exact List.cons.injEq _ _ _ _ ▸ Iff.rfl
    | http wsi => exact (iff_of_eq (true_and _)).symm
    | protocolInit wsi => exact (iff_of_eq (true_and _)).symm
    | established wsi => exact (iff_of_eq (true_and _)).symm
    | other wsi => exact (iff_of_eq (true_and _)).symm

theorem map_fst_replies (rs : List (Request ι)) (n : ℕ) :
    (rs.mapIdx fun k r => (r.answered, portText (n + k))).map Prod.fst
      = rs.map Request.answered := by
  apply List.ext_getElem
  · simp
  · intro k hk hk'
    simp

theorem map_snd_replies (rs : List (Request ι)) (n : ℕ) :
    (rs.mapIdx fun k r => (r.answered, portText (n + k))).map Prod.snd
      = (List.range rs.length).map fun k => portText (n + k) := by
  apply List.ext_getElem
  · simp
  · intro k hk hk'
    simp

/-- The children, and the texts of all the replies. -/
theorem started_sublist (rs : List (Request ι)) (n : ℕ) :
    (rs.mapIdx fun k r => if r.forked then [portText (n + k)] else []).flatten.Sublist
      ((List.range rs.length).map fun k => portText (n + k)) := by
  induction rs generalizing n with
  | nil => exact .slnil
  | cons r rs ih =>
    have hshift (k : ℕ) : portText (n + (k + 1)) = portText (n + 1 + k) := by
      rw [Nat.add_right_comm, Nat.add_assoc]
    rw [List.mapIdx_cons, List.flatten_cons, List.length_cons, List.range_succ_eq_map, List.map_cons,
      List.map_map]
    simp only [Function.comp_def, Nat.succ_eq_add_one, hshift]
    split_ifs
    · exact (ih (n + 1)).cons_cons _
    · exact (ih (n + 1)).cons _

/-- The child of a request. -/
theorem mem_started_iff {rs : List (Request ι)} {n k : ℕ} {r : Request ι}
    (hfew : n + rs.length ≤ 2 ^ 32) (hr : rs[k]? = some r) :
    portText (n + k) ∈ (rs.mapIdx fun k r => if r.forked then [portText (n + k)] else []).flatten
      ↔ r.forked = true := by
  obtain ⟨hk, hget⟩ := List.getElem?_eq_some_iff.mp hr
  rw [List.mem_flatten]
  constructor
  · rintro ⟨texts, htexts, hmem⟩
    obtain ⟨j, hj, rfl⟩ := List.mem_mapIdx.mp htexts
    split_ifs at hmem with hforked
    · have hport := List.mem_singleton.mp hmem
      have hsum := portText_injOn (by omega) (by omega) hport
      obtain rfl : k = j := by omega
      rwa [hget] at hforked
    · exact absurd hmem List.not_mem_nil
  · intro hforked
    refine ⟨[portText (n + k)], List.mem_mapIdx.mpr ⟨k, hk, ?_⟩, List.mem_singleton_self _⟩
    rw [hget, if_pos hforked]

/-- **The launcher gives every client an emulator of its own**, in any order of callbacks: the
texts it writes are all different, what a client is told is what its emulator, if `fork` got one,
reads as its port, and the replies reach those who asked exactly when no request is overtaken by
the connection of another client. -/
theorem launcher_assigns (cbs : List (LauncherCallback ι))
    (hfew : 9001 + (requests none cbs).length ≤ 2 ^ 32) :
    ∃ l, l = Launcher.run cbs ∧ l.closing = (requests none cbs).map Request.asked ∧
      l.written.map Prod.snd
        = (List.range (requests none cbs).length).map (fun k => portText (9001 + k)) ∧
      (l.written.map Prod.snd).Nodup ∧ l.children.Sublist (l.written.map Prod.snd) ∧
      (∀ k r, (requests none cbs)[k]? = some r →
        (portText (9001 + k) ∈ l.children ↔ r.forked = true) ∧
          wsPort (portText (9001 + k)) = BitVec.ofNat 32 (9001 + k)) ∧
      (l.written.map Prod.fst = l.closing.map some ↔ InTurn none cbs) := by
  rcases foldl_callback .start cbs (show (9001 : BitVec 32) = BitVec.ofNat 32 9001 from rfl) with
    ⟨hwritten, hchildren, hclosing⟩
  have htexts : (Launcher.run cbs).written.map Prod.snd
      = (List.range (requests none cbs).length).map fun k => portText (9001 + k) := by
    rw [Launcher.run, hwritten]
    exact map_snd_replies _ _
  have hfirst : (Launcher.run cbs).written.map Prod.fst
      = (requests none cbs).map Request.answered := by
    rw [Launcher.run, hwritten]
    exact map_fst_replies _ _
  have hstarted : (Launcher.run cbs).children = ((requests none cbs).mapIdx fun k r =>
      if r.forked then [portText (9001 + k)] else []).flatten := hchildren
  have hasked : (Launcher.run cbs).closing = (requests none cbs).map Request.asked := hclosing
  refine ⟨_, rfl, hasked, htexts, ?_, ?_, ?_, ?_⟩
  · rw [htexts]
    exact nodup_portTexts hfew
  · rw [htexts, hstarted]
    exact started_sublist _ _
  · intro k r hr
    rw [hstarted]
    exact ⟨mem_started_iff hfew hr, wsPort_portText _⟩
  · rw [hfirst, hasked, List.map_map]
    exact answered_eq_iff none cbs

end Ports

/-- Two clients connect one after the other, the second before the first has its reply. -/
def overtaken : List (LauncherCallback ℕ) :=
  [.protocolInit 0, .http 1, .established 1, .http 2, .serverWriteable 1 true, .established 2,
   .serverWriteable 2 true]

/-- The first one's reply goes to the second. -/
theorem launcher_assigns_overtaken :
    ∃ l, l = Launcher.run overtaken ∧ ¬ (l.written.map Prod.fst = l.closing.map some) ∧
      (l.written.map Prod.snd).Nodup := by
  obtain ⟨l, hl, -, -, hnodup, -, -, hturn⟩ := launcher_assigns overtaken (by decide +kernel)
  refine ⟨l, hl, fun h => ?_, hnodup⟩
  have hfinds := (hturn.mp h) [.protocolInit 0, .http 1, .established 1, .http 2]
    (.serverWriteable 1 true) [.established 2, .serverWriteable 2 true] rfl
  exact absurd (Option.some.inj hfinds) (by decide)

end Msp430
