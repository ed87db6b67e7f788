import LoraGateway.Lib.Machine
import LoraGateway.Netapp.TcpClient

/-!
# The blocks of the TCP client

`tcp_client.c` makes a control block in `echo_client_init` and calls it again from two callbacks: from
`echo_client_recv` at the end of the stream, and from `echo_client_conn_err`. The block it closes in the
former keeps the latter, so a reset or a time-out of a connection that is closing makes a second block. Where
that does not happen one connection is alive at most (`one_client_iff`).

A block is known by how many have been made before it. The functions of `tcp.c` and `tcp_in.c` are given for
the states a block of the client can be in, which `ClientPcb.Kept` lists.

Proof: `Client.Kept` is the invariant of the runs in which every event is `Quiet` (`kept_step`): the segment of an
open connection (`settles_established`), its FIN, which closes the block and makes the next (`tcpInput_fin`), or the
last acknowledgement of a block that is closing (`settles_lastAck`). Any other event breaks `Sound` at once
(`broken_step`), so the runs in which that always holds are the same.
-/

namespace LoraGateway.Netapp.TcpClient

open Lib Netif

/-- `enum tcp_state`. -/
inductive TcpState
  | closed
  | listen
  | synSent
  | synRcvd
  | established
  | finWait1
  | finWait2
  | closeWait
  | closing
  | lastAck
  | timeWait
  deriving DecidableEq, Repr

/-- `pcb->state < CLOSE_WAIT`. -/
def TcpState.beforeCloseWait : TcpState → Bool
  | .closed | .listen | .synSent | .synRcvd | .established | .finWait1 | .finWait2 => true
  | .closeWait | .closing | .lastAck | .timeWait => false

/-- One of the sides has ended the connection. -/
def TcpState.ending : TcpState → Bool
  | .finWait1 | .finWait2 | .closeWait | .closing | .lastAck | .timeWait => true
  | .closed | .listen | .synSent | .synRcvd | .established => false

/-- `TCP_WND`, of `TCP_MSS` 1460. -/
def tcpWnd : ℕ := 4 * (1500 - 40)

/-- A `struct tcp_pcb` of the client. `inits` counts the calls of `echo_client_init` its callbacks have
made. -/
structure ClientPcb extends TcpPcb where
  state : TcpState
  rcvWnd : ℕ
  freed : Bool
  inits : ℕ
  deriving DecidableEq

namespace ClientPcb

/-- The block after `tcp_connect`, which may find no route, no port or no segment. -/
def new (connected : Bool) : ClientPcb := ⟨TcpPcb.new, if connected then .synSent else .closed, tcpWnd, false, 0⟩

/-- In `tcp_active_pcbs`. -/
def active (b : ClientPcb) : Bool := !b.freed && (b.state ≠ .closed && b.state ≠ .listen && b.state ≠ .timeWait)

/-- A connection, or an attempt at one. -/
def Live (b : ClientPcb) : Prop := b.freed = false ∧ (b.state = .synSent ∨ b.state = .established)

/-- The connection has come to its end. -/
def lost (b : ClientPcb) : Bool := b.freed || b.state.ending

end ClientPcb

/-! ## Segments -/

/-- A segment for a connection. `acceptable` is what `tcp_process` asks of a RST and of the acknowledgement of
the SYN, and `ackAll` is `ackno == pcb->snd_nxt`. `data` and `fin` are what comes in order with it, cut to the
window. -/
structure Segment where
  rst : Bool
  syn : Bool
  ack : Bool
  acceptable : Bool
  ackAll : Bool
  data : Option Delivery
  fin : Bool

/-- The sequence numbers that come in order. -/
def Segment.len (seg : Segment) : ℕ := (seg.data.elim 0 fun d => d.chain.bytes.length) + if seg.fin then 1 else 0

/-- `recv_flags`, `recv_data`, and whether the `connected` callback is called. -/
structure Outcome where
  reset : Bool
  closed : Bool
  gotFin : Bool
  data : Option Delivery
  connected : Bool

def Outcome.none : Outcome := ⟨false, false, false, .none, false⟩

def tcpReceive (b : ClientPcb) (seg : Segment) : ClientPcb × Outcome :=
  if b.state.beforeCloseWait then
    ({ b with rcvWnd := b.rcvWnd - seg.len }, { Outcome.none with gotFin := seg.fin, data := seg.data })
  else (b, .none)

def tcpProcess (b : ClientPcb) (seg : Segment) : ClientPcb × Outcome :=
  if seg.rst then (b, { Outcome.none with reset := seg.acceptable })
  else if seg.syn && b.state ≠ .synSent && b.state ≠ .synRcvd then (b, .none)
  else
    match b.state with
    | .synSent =>
      if seg.ack && seg.syn && seg.acceptable then
        ({ b with state := .established }, { Outcome.none with connected := true })
      else (b, .none)
    | .closeWait | .established =>
      let (b, out) := tcpReceive b seg
      (if out.gotFin then { b with state := .closeWait } else b, out)
    | .lastAck =>
      let (b, out) := tcpReceive b seg
      (b, { out with closed := seg.ack && seg.ackAll })
    | _ => (b, .none)

/-! ## The callbacks -/

namespace ClientPcb

/-- `tcp_close`, by whether `tcp_send_fin` finds a segment. No data is ever refused. -/
def tcpClose (b : ClientPcb) (finQueued : Bool) : ClientPcb :=
  let b := { b with toTcpPcb := Netapp.tcpClose b.toTcpPcb }
  if (b.state = .established ∨ b.state = .closeWait) ∧ b.rcvWnd ≠ tcpWnd then
    if b.state = .established then { b with state := .timeWait } else { b with freed := true }
  else
    match b.state with
    | .closed | .listen | .synSent => { b with freed := true }
    | .synRcvd | .established => if finQueued then { b with state := .finWait1 } else b
    | .closeWait => if finQueued then { b with state := .lastAck } else b
    | _ => b

/-- `echo_client_connected`. -/
def connected (b : ClientPcb) (greeted : WriteErr) : ClientPcb :=
  { b with toTcpPcb := echoClientConnected b.toTcpPcb greeted }

/-- `echo_client_recv` with data, and the window of `tcp_recved`. -/
def recv (b : ClientPcb) (d : Delivery) : ClientPcb :=
  { b with toTcpPcb := echoClientRecv d.err b.toTcpPcb (some d.chain), rcvWnd := min tcpWnd (b.rcvWnd + d.chain.1.totLen) }

/-- The sequence number of the FIN is given back by the stack. -/
def recvedFin (b : ClientPcb) : ClientPcb := if b.rcvWnd ≠ tcpWnd then { b with rcvWnd := b.rcvWnd + 1 } else b

end ClientPcb

/-- The blocks made so far. `fault` is that a call of `tcp_new` has returned `NULL`, which the client does not
ask about. -/
structure Client where
  made : ℕ
  pcb : ℕ → ClientPcb
  fault : Bool

/-- What `tcp_new` and `tcp_connect` do: a block, with the result of `tcp_connect`, or no block. An exhausted
pool makes `tcp_kill_prio` abort the block that has been silent for longest, which may be one of the client. -/
inductive Alloc
  | pcb (connected : Bool)
  | null
  | kill (j : ℕ) (connected : Bool)

def Alloc.isPcb : Alloc → Bool
  | .pcb _ => true
  | _ => false

namespace Client

def set (c : Client) (i : ℕ) (b : ClientPcb) : Client := { c with pcb := Function.update c.pcb i b }

def push (c : Client) (connected : Bool) : Client :=
  ⟨c.made + 1, Function.update c.pcb c.made (.new connected), c.fault⟩

/-- `memp_free`. -/
def free (c : Client) (i : ℕ) : Client := c.set i { c.pcb i with freed := true }

/-- `echo_client_init`. The callback of an aborted block takes the memory of it for the next one, so that
there is none for this call. -/
def echoClientInit (c : Client) : Alloc → Option Client
  | .pcb connected => some (c.push connected)
  | .null => some { c with fault := true }
  | .kill j connected =>
    if j < c.made ∧ (c.pcb j).active then
      some { (c.set j { c.pcb j with freed := true, inits := (c.pcb j).inits + 1 }).push connected with fault := true }
    else none

/-- `echo_client_init` as a callback of block `i` calls it. -/
def initFrom (c : Client) (i : ℕ) (alloc : Alloc) : Option Client :=
  (c.set i { c.pcb i with inits := (c.pcb i).inits + 1 }).echoClientInit alloc

/-- `echo_client_conn_err`. -/
def echoClientConnErr (c : Client) (i : ℕ) (alloc : Alloc) : Option Client := c.initFrom i alloc

/-- `echo_client_recv` with `NULL`. -/
def echoClientRecvNull (c : Client) (i : ℕ) (finQueued : Bool) (alloc : Alloc) : Option Client :=
  (c.set i ((c.pcb i).tcpClose finQueued)).initFrom i alloc

end Client

/-! ## Events -/

/-- What the calls made by the callbacks come to. -/
structure Results where
  greeted : WriteErr
  finQueued : Bool
  alloc : Alloc

/-- `tcp_input` for block `i`. -/
def tcpInput (c : Client) (i : ℕ) (seg : Segment) (r : Results) : Option Client :=
  let (b, out) := tcpProcess (c.pcb i) seg
  let b := if out.connected then b.connected r.greeted else b
  let c := c.set i b
  if out.reset then (c.echoClientConnErr i r.alloc).map (·.free i)
  else if out.closed then
    if b.rxClosed then some (c.free i) else (c.echoClientConnErr i r.alloc).map (·.free i)
  else if out.data.isSome && b.rxClosed then (c.free i).echoClientConnErr i r.alloc
  else
    let b := out.data.elim b b.recv
    if out.gotFin then (c.set i b.recvedFin).echoClientRecvNull i r.finQueued r.alloc
    else some (c.set i b)

/-- `tcp_slowtmr` removes block `i`: too many retransmissions, or too long in `LAST_ACK`. -/
def tcpSlowtmr (c : Client) (i : ℕ) (alloc : Alloc) : Option Client := (c.free i).echoClientConnErr i alloc

inductive Event
  | input (i : ℕ) (seg : Segment) (r : Results)
  | slowtmr (i : ℕ) (alloc : Alloc)

def step (c : Client) : Event → Option Client
  | .input i seg r =>
    if c.fault = false ∧ i < c.made ∧ (c.pcb i).active ∧ seg.len ≤ (c.pcb i).rcvWnd then tcpInput c i seg r else none
  | .slowtmr i alloc =>
    if c.fault = false ∧ i < c.made ∧ (c.pcb i).active then tcpSlowtmr c i alloc else none

/-- One call of `echo_client_init`, and then the events of the stack. -/
def clientMachine : Machine Client Event where
  init c := ∃ connected, (⟨0, fun _ => .new false, false⟩ : Client).echoClientInit (.pcb connected) = some c
  step := step

/-! ## What holds between events -/

/-- No attempt has gone without a block, one connection is alive at most, and a connection has started one
attempt if it has come to its end and none before. States are judged between events: within one, the next
attempt may start before the block of the connection that has ended is gone. -/
def Sound (c : Client) : Prop :=
  c.fault = false ∧
    (∀ i j, i < c.made → j < c.made → (c.pcb i).Live → (c.pcb j).Live → i = j) ∧
    ∀ i < c.made, (c.pcb i).inits = if (c.pcb i).lost then 1 else 0

/-- A segment that ends the connection: a reset, or the FIN of an open connection. -/
def Segment.Ends (seg : Segment) (b : ClientPcb) : Prop :=
  (seg.rst = true ∧ seg.acceptable = true) ∨
    (seg.rst = false ∧ seg.syn = false ∧ b.state = .established ∧ seg.fin = true)

/-- The event calls the error callback of no block whose connection has come to its end, and a connection
that it ends finds a block for the next attempt without one of the client being aborted for it. -/
def Quiet (c : Client) : Event → Prop
  | .input i seg r => (seg.rst = true ∧ seg.acceptable = true → (c.pcb i).lost = false) ∧
      (seg.Ends (c.pcb i) → r.alloc.isPcb = true)
  | .slowtmr i alloc => (c.pcb i).lost = false ∧ alloc.isPcb = true

/-- A block between events. -/
structure ClientPcb.Kept (b : ClientPcb) : Prop where
  state : b.state = .closed ∨ b.state = .synSent ∨ b.state = .established ∨ b.state = .closeWait ∨ b.state = .lastAck
  rcvWnd : b.rcvWnd = tcpWnd
  rxClosed : b.rxClosed = b.state.ending
  inits : b.inits = if b.lost then 1 else 0

structure Client.Kept (c : Client) : Prop where
  fault : c.fault = false
  one : ∀ i j, i < c.made → j < c.made → (c.pcb i).Live → (c.pcb j).Live → i = j
  pcb : ∀ i < c.made, (c.pcb i).Kept

theorem Client.Kept.sound {c : Client} (h : c.Kept) : Sound c := ⟨h.fault, h.one, fun i hi => (h.pcb i hi).inits⟩

namespace ClientPcb

variable {b : ClientPcb}

theorem kept_new (connected : Bool) : (new connected).Kept := by
  cases connected
  · exact ⟨.inl rfl, rfl, rfl, rfl⟩
  · exact ⟨.inr (.inl rfl), rfl, rfl, rfl⟩

theorem active_iff : b.active = true ↔ b.freed = false ∧ b.state ≠ .closed ∧ b.state ≠ .listen ∧ b.state ≠ .timeWait := by
  simp [active, and_assoc]

theorem Kept.live (h : b.Kept) (hactive : b.active = true) (hlost : b.lost = false) : b.Live := by
  obtain ⟨hfreed, hclosed, -, -⟩ := active_iff.mp hactive
  refine ⟨hfreed, ?_⟩
  rw [lost, hfreed, Bool.false_or] at hlost
  rcases h.state with hs | hs | hs | hs | hs
  · exact absurd hs hclosed
  · exact .inl hs
  · exact .inr hs
  · rw [hs] at hlost
    cases hlost
  · rw [hs] at hlost
    cases hlost

theorem Live.lost (h : b.Live) : b.lost = false := by
  obtain ⟨hfreed, hs⟩ := h
  rw [ClientPcb.lost, hfreed]
  rcases hs with hs | hs <;> rw [hs] <;> rfl

end ClientPcb

namespace Client

variable {c c' : Client} {i : ℕ} {b : ClientPcb}

@[simp] theorem set_self : c.set i (c.pcb i) = c := by rw [set, Function.update_eq_self]

@[simp] theorem set_set (b b' : ClientPcb) : (c.set i b).set i b' = c.set i b' := by
  simp only [set, Function.update_idem]

@[simp] theorem pcb_set : (c.set i b).pcb i = b := Function.update_self ..

theorem pcb_set_of_ne {k : ℕ} (h : k ≠ i) : (c.set i b).pcb k = c.pcb k := Function.update_of_ne h ..

@[simp] theorem pcb_push (connected : Bool) : (c.push connected).pcb c.made = .new connected := Function.update_self ..

theorem pcb_push_of_ne {k : ℕ} (h : k ≠ c.made) (connected : Bool) : (c.push connected).pcb k = c.pcb k :=
  Function.update_of_ne h ..

theorem push_free (hi : i < c.made) (connected : Bool) : (c.push connected).free i = (c.free i).push connected := by
  have hne : i ≠ c.made := Nat.ne_of_lt hi
  simp only [free, set, push, Function.update_of_ne hne, Function.update_comm hne]

theorem fault_of_not_pcb {alloc : Alloc} (halloc : alloc.isPcb = false) (h : c.echoClientInit alloc = some c') :
    c'.fault = true := by
  cases alloc with
  | pcb connected => cases halloc
  | null =>
    obtain rfl := Option.some.inj h
    rfl
  | kill j connected =>
    rw [echoClientInit] at h
    split_ifs at h
    obtain rfl := Option.some.inj h
    rfl

/-- A block that changes without the connection coming to life keeps the invariant. -/
theorem Kept.set (h : c.Kept) (hi : i < c.made) (hb : b.Kept) (hlive : b.Live → (c.pcb i).Live) :
    (c.set i b).Kept where
  fault := h.fault
  one := by
    have hback : ∀ k, ((c.set i b).pcb k).Live → (c.pcb k).Live := by
      intro k hk
      by_cases hki : k = i
      · subst hki
        rw [pcb_set] at hk
        exact hlive hk
      · rwa [pcb_set_of_ne hki] at hk
    exact fun k l hk hl hlk hll => h.one k l hk hl (hback k hlk) (hback l hll)
  pcb k hk := by
    by_cases hki : k = i
    · rw [hki, pcb_set]
      exact hb
    · rw [pcb_set_of_ne hki]
      exact h.pcb k hk

theorem Kept.replace (h : c.Kept) (hi : i < c.made) (hlive : (c.pcb i).Live) (hb : b.Kept) (hlost : b.lost = true)
    (connected : Bool) : ((c.set i b).push connected).Kept where
  fault := h.fault
  one := by
    have hdead : ∀ k, k < c.made → ¬ ((c.set i b).pcb k).Live := by
      intro k hk hlk
      by_cases hki : k = i
      · rw [hki, pcb_set] at hlk
        rw [hlk.lost] at hlost
        cases hlost
      · rw [pcb_set_of_ne hki] at hlk
        exact hki (h.one k i hk hi hlk hlive)
    have hlast : ∀ k, k < c.made + 1 → (((c.set i b).push connected).pcb k).Live → k = c.made := by
      intro k hk hlk
      by_contra hne
      rw [pcb_push_of_ne (c := c.set i b) hne] at hlk
      exact hdead k (by omega) hlk
    exact fun k l hk hl hlk hll => (hlast k hk hlk).trans (hlast l hl hll).symm
  pcb k hk := by
    by_cases hkm : k = c.made
    · rw [hkm]
      exact (pcb_push (c := c.set i b) connected) ▸ ClientPcb.kept_new connected
    · rw [pcb_push_of_ne (c := c.set i b) hkm]
      by_cases hki : k = i
      · rw [hki, pcb_set]
        exact hb
      · have hk' : k < c.made + 1 := hk
        rw [pcb_set_of_ne hki]
        exact h.pcb k (by omega)

end Client

/-! ### Segments of an open connection -/

namespace ClientPcb

variable {b : ClientPcb} {seg : Segment}

/-- An open connection that has taken a segment, with the callback for the data of it. -/
def taken (b : ClientPcb) (seg : Segment) : ClientPcb :=
  let b := { b with rcvWnd := b.rcvWnd - seg.len, state := if seg.fin then .closeWait else .established }
  seg.data.elim b b.recv

theorem rxClosed_recv (b : ClientPcb) (d : Delivery) : (b.recv d).rxClosed = b.rxClosed := by
  show (tcpWriteErr _ _ _).rxClosed = _
  rw [tcpWriteErr]
  split_ifs <;> rfl

/-- The callback gives back the window for the data, so that only the FIN is missing. -/
theorem rcvWnd_taken (hwnd : b.rcvWnd = tcpWnd) (hlen : seg.len ≤ tcpWnd) :
    (b.taken seg).rcvWnd = tcpWnd - if seg.fin then 1 else 0 := by
  rw [Segment.len] at hlen
  rw [taken, hwnd, Segment.len]
  cases hdata : seg.data with
  | none => rw [Option.elim, Option.elim, Nat.zero_add]
  | some d =>
    rw [hdata] at hlen
    show min tcpWnd (tcpWnd - (d.chain.bytes.length + _) + d.chain.1.totLen) = _
    rw [d.totLen]
    change d.chain.bytes.length + _ ≤ tcpWnd at hlen
    omega

theorem taken_eq (b : ClientPcb) (seg : Segment) :
    (b.taken seg).state = (if seg.fin then .closeWait else .established) ∧ (b.taken seg).rxClosed = b.rxClosed ∧
      (b.taken seg).freed = b.freed ∧ (b.taken seg).inits = b.inits := by
  rw [taken]
  cases seg.data with
  | none => exact ⟨rfl, rfl, rfl, rfl⟩
  | some d => exact ⟨rfl, rxClosed_recv _ d, rfl, rfl⟩

theorem closed_fin (hs : b.state = .closeWait) (hwnd : b.rcvWnd = tcpWnd - 1) (finQueued : Bool) :
    b.recvedFin.tcpClose finQueued =
      { b with
        toTcpPcb := Netapp.tcpClose b.toTcpPcb
        state := if finQueued then .lastAck else .closeWait
        rcvWnd := tcpWnd } := by
  obtain ⟨pcb, state, rcvWnd, freed, inits⟩ := b
  obtain rfl : state = .closeWait := hs
  obtain rfl : rcvWnd = tcpWnd - 1 := hwnd
  have hrecved : recvedFin ⟨pcb, .closeWait, tcpWnd - 1, freed, inits⟩ = ⟨pcb, .closeWait, tcpWnd, freed, inits⟩ := rfl
  rw [hrecved, tcpClose, if_neg fun h => h.2 rfl]
  cases finQueued <;> rfl

theorem kept_closed (hs : b.state = .lastAck ∨ b.state = .closeWait) (hwnd : b.rcvWnd = tcpWnd)
    (hrx : b.rxClosed = true) (hinits : b.inits = 1) : b.Kept ∧ b.lost = true := by
  have hending : b.state.ending = true := by rcases hs with hs | hs <;> rw [hs] <;> rfl
  have hlost : b.lost = true := by rw [lost, hending, Bool.or_true]
  refine ⟨⟨?_, hwnd, hrx.trans hending.symm, ?_⟩, hlost⟩
  · exact .inr (.inr (.inr hs.symm))
  · rw [hinits, hlost]
    rfl

end ClientPcb

section input

variable {c : Client} {i : ℕ} {seg : Segment}

theorem tcpInput_reset (hrst : seg.rst = true) (hacc : seg.acceptable = true) (r : Results) :
    tcpInput c i seg r = (c.initFrom i r.alloc).map (·.free i) := by
  have hprocess : tcpProcess (c.pcb i) seg = (c.pcb i, { Outcome.none with reset := true }) := by
    rw [tcpProcess, if_pos hrst, hacc]
  rw [tcpInput, hprocess]
  show ((c.set i (c.pcb i)).initFrom i r.alloc).map _ = _
  rw [Client.set_self]

theorem tcpProcess_established {b : ClientPcb} (hrst : seg.rst = false) (hsyn : seg.syn = false)
    (hs : b.state = .established) : tcpProcess b seg =
      ({ b with rcvWnd := b.rcvWnd - seg.len, state := if seg.fin then .closeWait else .established },
        { Outcome.none with gotFin := seg.fin, data := seg.data }) := by
  rw [tcpProcess, hrst, hsyn, hs, tcpReceive, hs]
  cases seg.fin <;> rfl

theorem tcpInput_established (hrst : seg.rst = false) (hsyn : seg.syn = false)
    (hs : (c.pcb i).state = .established) (hrx : (c.pcb i).rxClosed = false) (r : Results) : tcpInput c i seg r =
      if seg.fin then (c.set i ((c.pcb i).taken seg).recvedFin).echoClientRecvNull i r.finQueued r.alloc
      else some (c.set i ((c.pcb i).taken seg)) := by
  rw [tcpInput, tcpProcess_established hrst hsyn hs]
  simp only [Outcome.none, hrx, Bool.and_false, Bool.false_eq_true, if_false, Client.set_set]
  rfl

theorem tcpInput_fin (hb : (c.pcb i).Kept) (hfreed : (c.pcb i).freed = false) (hlen : seg.len ≤ (c.pcb i).rcvWnd)
    (hrst : seg.rst = false) (hsyn : seg.syn = false) (hs : (c.pcb i).state = .established) (hfin : seg.fin = true)
    (r : Results) :
    ∃ b, tcpInput c i seg r = (c.set i b).echoClientInit r.alloc ∧ b.Kept ∧ b.lost = true := by
  have hrx : (c.pcb i).rxClosed = false := by rw [hb.rxClosed, hs]; rfl
  have hinits : (c.pcb i).inits = 0 := by rw [hb.inits, ClientPcb.lost, hfreed, hs]; rfl
  rw [hb.rcvWnd] at hlen
  have hwnd := ClientPcb.rcvWnd_taken hb.rcvWnd hlen
  obtain ⟨hstate, -, -, hinits'⟩ := ClientPcb.taken_eq (c.pcb i) seg
  rw [hfin, if_pos rfl] at hwnd hstate
  rw [tcpInput_established hrst hsyn hs hrx, if_pos hfin, Client.echoClientRecvNull, Client.initFrom]
  simp only [Client.pcb_set, Client.set_set]
  rw [ClientPcb.closed_fin hstate hwnd]
  refine ⟨_, rfl, ClientPcb.kept_closed ?_ rfl rfl ?_⟩
  · show (if r.finQueued then TcpState.lastAck else .closeWait) = _ ∨ _
    cases r.finQueued
    · exact .inr rfl
    · exact .inl rfl
  · show ((c.pcb i).taken seg).inits + 1 = 1
    rw [hinits', hinits]

/-- A segment that changes the block of its connection only, and brings it to life no more than it was. -/
def Settles (c : Client) (i : ℕ) (seg : Segment) (r : Results) : Prop :=
  ∃ b, tcpInput c i seg r = some (c.set i b) ∧ b.Kept ∧ (b.Live → (c.pcb i).Live)

theorem settles_of_stay (hb : (c.pcb i).Kept) (r : Results) (h : tcpProcess (c.pcb i) seg = (c.pcb i, .none)) :
    Settles c i seg r := by
  refine ⟨c.pcb i, ?_, hb, id⟩
  rw [tcpInput, h]
  show some ((c.set i (c.pcb i)).set i (c.pcb i)) = _
  rw [Client.set_set]

theorem settles_synSent (hb : (c.pcb i).Kept) (hfreed : (c.pcb i).freed = false) (hrst : seg.rst = false)
    (hs : (c.pcb i).state = .synSent) (r : Results) : Settles c i seg r := by
  have hrx : (c.pcb i).rxClosed = false := by rw [hb.rxClosed, hs]; rfl
  by_cases hack : (seg.ack && seg.syn && seg.acceptable) = true
  · have hprocess : tcpProcess (c.pcb i) seg =
        ({ c.pcb i with state := .established }, { Outcome.none with connected := true }) := by
      rw [tcpProcess, hrst, hs]
      show (if seg.syn && false && true then _ else if seg.ack && seg.syn && seg.acceptable then _ else _) = _
      rw [if_neg (by simp), if_pos hack]
    refine ⟨({ c.pcb i with state := .established } : ClientPcb).connected r.greeted, ?_, ?_, fun _ => ⟨hfreed, .inl hs⟩⟩
    · rw [tcpInput, hprocess]
      show some ((c.set i _).set i _) = _
      rw [Client.set_set]
      rfl
    · refine ⟨.inr (.inr (.inl rfl)), hb.rcvWnd, ?_, ?_⟩
      · show (tcpWriteErr _ _ _).rxClosed = false
        rw [tcpWriteErr]
        split_ifs <;> exact hrx
      · show (c.pcb i).inits = if (c.pcb i).freed || false then 1 else 0
        rw [hb.inits, ClientPcb.lost, hs]
        rfl
  · refine settles_of_stay hb r ?_
    rw [tcpProcess, hrst, hs]
    show (if seg.syn && false && true then _ else if seg.ack && seg.syn && seg.acceptable then _ else _) = _
    rw [if_neg (by simp), if_neg hack]

theorem settles_established (hb : (c.pcb i).Kept) (hfreed : (c.pcb i).freed = false)
    (hlen : seg.len ≤ (c.pcb i).rcvWnd) (hrst : seg.rst = false) (hs : (c.pcb i).state = .established)
    (hfin : seg.syn = false → seg.fin = false) (r : Results) : Settles c i seg r := by
  cases hsyn : seg.syn with
  | true =>
    refine settles_of_stay hb r ?_
    rw [tcpProcess, hrst, hsyn, hs]
    rfl
  | false =>
    have hrx : (c.pcb i).rxClosed = false := by rw [hb.rxClosed, hs]; rfl
    rw [hb.rcvWnd] at hlen
    have hwnd := ClientPcb.rcvWnd_taken hb.rcvWnd hlen
    obtain ⟨hstate, hrx', hfreed', hinits'⟩ := ClientPcb.taken_eq (c.pcb i) seg
    rw [hfin hsyn] at hwnd hstate
    refine ⟨(c.pcb i).taken seg, ?_, ⟨.inr (.inr (.inl hstate)), hwnd, ?_, ?_⟩, fun _ => ⟨hfreed, .inr hs⟩⟩
    · rw [tcpInput_established hrst hsyn hs hrx, hfin hsyn]
      rfl
    · rw [hrx', hrx, hstate]
      rfl
    · rw [hinits', hb.inits, ClientPcb.lost, ClientPcb.lost, hfreed', hstate, hs]
      rfl

/-- The last acknowledgement frees the block, whose callback is not called: it has been closed. -/
theorem settles_lastAck (hb : (c.pcb i).Kept) (hrst : seg.rst = false) (hs : (c.pcb i).state = .lastAck)
    (r : Results) : Settles c i seg r := by
  have hrx : (c.pcb i).rxClosed = true := by rw [hb.rxClosed, hs]; rfl
  cases hsyn : seg.syn with
  | true =>
    refine settles_of_stay hb r ?_
    rw [tcpProcess, hrst, hsyn, hs]
    rfl
  | false =>
    have hprocess : tcpProcess (c.pcb i) seg =
        (c.pcb i, { Outcome.none with closed := seg.ack && seg.ackAll }) := by
      rw [tcpProcess, hrst, hsyn, hs, tcpReceive, hs]
      rfl
    cases hack : (seg.ack && seg.ackAll) with
    | false =>
      rw [hack] at hprocess
      exact settles_of_stay hb r hprocess
    | true =>
      rw [hack] at hprocess
      refine ⟨{ c.pcb i with freed := true }, ?_, ⟨hb.state, hb.rcvWnd, hb.rxClosed, ?_⟩, fun h => nomatch h.1⟩
      · rw [tcpInput, hprocess]
        show (if (c.pcb i).rxClosed = true then some ((c.set i (c.pcb i)).free i) else _) = _
        rw [if_pos hrx, Client.set_self, Client.free]
      · show (c.pcb i).inits = 1
        rw [hb.inits, ClientPcb.lost, hs]
        cases (c.pcb i).freed <;> rfl

theorem tcpInput_quiet (hb : (c.pcb i).Kept) (hactive : (c.pcb i).active = true) (hlen : seg.len ≤ (c.pcb i).rcvWnd)
    (hno : ¬ seg.Ends (c.pcb i)) (r : Results) : Settles c i seg r := by
  obtain ⟨hfreed, hclosed, -, -⟩ := ClientPcb.active_iff.mp hactive
  cases hrst : seg.rst with
  | true =>
    have hacc : seg.acceptable = false := by
      by_contra hacc
      exact hno (.inl ⟨hrst, Bool.eq_true_of_not_eq_false hacc⟩)
    refine settles_of_stay hb r ?_
    rw [tcpProcess, if_pos hrst, hacc]
    rfl
  | false =>
    rcases hb.state with hs | hs | hs | hs | hs
    · exact absurd hs hclosed
    · exact settles_synSent hb hfreed hrst hs r
    · refine settles_established hb hfreed hlen hrst hs (fun hsyn => ?_) r
      by_contra hfin
      exact hno (.inr ⟨hrst, hsyn, hs, Bool.eq_true_of_not_eq_false hfin⟩)
    · refine settles_of_stay hb r ?_
      rw [tcpProcess, hrst, hs, tcpReceive, hs]
      cases seg.syn <;> rfl
    · exact settles_lastAck hb hrst hs r

end input

/-! ### Removed blocks -/

/-- A block whose error callback has been called, and which has been freed. -/
def ClientPcb.removed (b : ClientPcb) : ClientPcb := { b with freed := true, inits := b.inits + 1 }

theorem ClientPcb.Kept.removed {b : ClientPcb} (h : b.Kept) (hlost : b.lost = false) : b.removed.Kept := by
  refine ⟨h.state, h.rcvWnd, h.rxClosed, ?_⟩
  show b.inits + 1 = 1
  rw [h.inits, hlost]
  rfl

section removal

variable {c c' : Client} {i : ℕ} {alloc : Alloc}

theorem reset_pcb (hi : i < c.made) (connected : Bool) :
    (c.initFrom i (.pcb connected)).map (·.free i) = some ((c.set i (c.pcb i).removed).push connected) := by
  have hfree : ((c.set i { c.pcb i with inits := (c.pcb i).inits + 1 }).push connected).free i =
      ((c.set i { c.pcb i with inits := (c.pcb i).inits + 1 }).free i).push connected :=
    Client.push_free (c := c.set i _) hi connected
  show some (((c.set i { c.pcb i with inits := (c.pcb i).inits + 1 }).push connected).free i) = _
  rw [hfree, Client.free, Client.set_set, Client.pcb_set]
  rfl

theorem slowtmr_pcb (connected : Bool) :
    tcpSlowtmr c i (.pcb connected) = some ((c.set i (c.pcb i).removed).push connected) := by
  rw [tcpSlowtmr, Client.free, Client.echoClientConnErr, Client.initFrom, Client.pcb_set, Client.set_set]
  rfl

theorem not_sound_removed (hi : i < c.made) (hb : (c.pcb i).Kept) (hlost : (c.pcb i).lost = true) (connected : Bool) :
    ¬ Sound ((c.set i (c.pcb i).removed).push connected) := by
  intro h
  have hmade : i < c.made + 1 := Nat.lt_succ_of_lt hi
  have hinits := h.2.2 i hmade
  rw [Client.pcb_push_of_ne (c := c.set i _) (Nat.ne_of_lt hi), Client.pcb_set] at hinits
  have htwo : (c.pcb i).inits + 1 = 1 := hinits
  rw [hb.inits, hlost] at htwo
  exact absurd htwo (by decide)

theorem reset_fault (halloc : alloc.isPcb = false) (h : (c.initFrom i alloc).map (·.free i) = some c') :
    c'.fault = true := by
  obtain ⟨c₁, hinit, rfl⟩ := Option.map_eq_some_iff.mp h
  have hfault : c₁.fault = true := Client.fault_of_not_pcb halloc hinit
  exact hfault

end removal

/-! ### Steps -/

theorem Alloc.exists_of_isPcb {alloc : Alloc} (h : alloc.isPcb = true) : ∃ connected, alloc = .pcb connected := by
  cases alloc with
  | pcb connected => exact ⟨connected, rfl⟩
  | null => cases h
  | kill j connected => cases h

section step

variable {c c' : Client} {e : Event}

theorem kept_step (h : c.Kept) (hok : Quiet c e) (hstep : step c e = some c') : c'.Kept := by
  cases e with
  | input i seg r =>
    obtain ⟨hlost, halloc⟩ := hok
    rw [step] at hstep
    split_ifs at hstep with hen
    obtain ⟨-, hi, hactive, hlen⟩ := hen
    have hb := h.pcb i hi
    by_cases hends : seg.Ends (c.pcb i)
    · obtain ⟨connected, hpcb⟩ := Alloc.exists_of_isPcb (halloc hends)
      rcases hends with ⟨hrst, hacc⟩ | ⟨hrst, hsyn, hs, hfin⟩
      · have hgoes := hlost ⟨hrst, hacc⟩
        rw [tcpInput_reset hrst hacc, hpcb, reset_pcb hi] at hstep
        obtain rfl := Option.some.inj hstep
        exact h.replace hi (hb.live hactive hgoes) (hb.removed hgoes) rfl connected
      · obtain ⟨hfreed, -, -, -⟩ := ClientPcb.active_iff.mp hactive
        obtain ⟨b, hinput, hkept, hblost⟩ := tcpInput_fin hb hfreed hlen hrst hsyn hs hfin r
        rw [hinput, hpcb] at hstep
        obtain rfl := Option.some.inj hstep
        exact h.replace hi ⟨hfreed, .inr hs⟩ hkept hblost connected
    · obtain ⟨b, hinput, hkept, hlive⟩ := tcpInput_quiet hb hactive hlen hends r
      rw [hinput] at hstep
      obtain rfl := Option.some.inj hstep
      exact h.set hi hkept hlive
  | slowtmr i alloc =>
    obtain ⟨hgoes, halloc⟩ := hok
    obtain ⟨connected, rfl⟩ := Alloc.exists_of_isPcb halloc
    rw [step] at hstep
    split_ifs at hstep with hen
    obtain ⟨-, hi, hactive⟩ := hen
    have hb := h.pcb i hi
    rw [slowtmr_pcb] at hstep
    obtain rfl := Option.some.inj hstep
    exact h.replace hi (hb.live hactive hgoes) (hb.removed hgoes) rfl connected

/-- Any other event leaves a connection with two attempts, or the client at fault. -/
theorem broken_step (h : c.Kept) (hno : ¬ Quiet c e) (hstep : step c e = some c') : ¬ Sound c' := by
  have hfault (hf : c'.fault = true) : ¬ Sound c' := fun hs => absurd (hs.1.symm.trans hf) (by decide)
  cases e with
  | input i seg r =>
    rw [step] at hstep
    split_ifs at hstep with hen
    obtain ⟨-, hi, hactive, hlen⟩ := hen
    have hb := h.pcb i hi
    have hends : seg.Ends (c.pcb i) := by
      by_contra hends
      exact hno ⟨fun hrst => absurd (.inl hrst) hends, fun h => absurd h hends⟩
    cases halloc : r.alloc.isPcb with
    | false =>
      rcases hends with ⟨hrst, hacc⟩ | ⟨hrst, hsyn, hs, hfin⟩
      · rw [tcpInput_reset hrst hacc] at hstep
        exact hfault (reset_fault halloc hstep)
      · obtain ⟨hfreed, -, -, -⟩ := ClientPcb.active_iff.mp hactive
        obtain ⟨b, hinput, -, -⟩ := tcpInput_fin hb hfreed hlen hrst hsyn hs hfin r
        rw [hinput] at hstep
        exact hfault (Client.fault_of_not_pcb halloc hstep)
    | true =>
      obtain ⟨connected, hpcb⟩ := Alloc.exists_of_isPcb halloc
      have hreset : (seg.rst = true ∧ seg.acceptable = true) ∧ (c.pcb i).lost = true := by
        by_contra hcon
        refine hno ⟨fun hrst => ?_, fun _ => halloc⟩
        exact Bool.eq_false_of_not_eq_true fun hlost => hcon ⟨hrst, hlost⟩
      obtain ⟨⟨hrst, hacc⟩, hlost⟩ := hreset
      rw [tcpInput_reset hrst hacc, hpcb, reset_pcb hi] at hstep
      obtain rfl := Option.some.inj hstep
      exact not_sound_removed hi hb hlost connected
  | slowtmr i alloc =>
    rw [step] at hstep
    split_ifs at hstep with hen
    obtain ⟨-, hi, hactive⟩ := hen
    cases halloc : alloc.isPcb with
    | false => exact hfault (Client.fault_of_not_pcb halloc hstep)
    | true =>
      obtain ⟨connected, rfl⟩ := Alloc.exists_of_isPcb halloc
      have hlost : (c.pcb i).lost = true := by
        by_contra hgoes
        exact hno ⟨Bool.eq_false_of_not_eq_true hgoes, halloc⟩
      rw [slowtmr_pcb] at hstep
      obtain rfl := Option.some.inj hstep
      exact not_sound_removed hi (h.pcb i hi) hlost connected

end step

theorem kept_init {c : Client} (h : clientMachine.init c) : c.Kept := by
  obtain ⟨connected, hinit⟩ := h
  obtain rfl := Option.some.inj hinit
  have hzero : ∀ k, k < 1 → k = 0 := fun k hk => Nat.lt_one_iff.mp hk
  refine ⟨rfl, fun i j hi hj _ _ => (hzero i hi).trans (hzero j hj).symm, fun i hi => ?_⟩
  obtain rfl := hzero i hi
  exact ClientPcb.kept_new connected

/-- After one call of `echo_client_init` one connection is alive at most, and every connection that has come
to its end has started one attempt, throughout, exactly if no error callback is called for a connection that
has come to its end, and every attempt finds a block without one of the client being aborted for it. -/
theorem one_client_iff {c₀ c : Client} {l : List Event} (hinit : clientMachine.init c₀)
    (hs : clientMachine.Steps Machine.any c₀ l c) :
    clientMachine.Always Sound c₀ l ↔ clientMachine.Steps Quiet c₀ l c :=
  Machine.always_iff_steps (J := Client.Kept) (fun _ h => h.sound) (fun _ _ _ => kept_step)
    (fun _ _ _ => broken_step) hs (kept_init hinit)

/-- The block made at the start, and a client with it. -/
def started : Client := (⟨0, fun _ => .new false, false⟩ : Client).push true

def allFine : Results := ⟨.ok, true, .pcb true⟩

def synAck : Segment := ⟨false, true, true, true, true, none, false⟩
def finAck : Segment := ⟨false, false, true, true, true, none, true⟩
def lastAck : Segment := ⟨false, false, true, true, true, none, false⟩
def rst : Segment := ⟨true, false, false, true, false, none, false⟩

/-- The server closes, the client answers and the last acknowledgement comes: one block after another. -/
theorem one_client_closed : clientMachine.Always Sound started
    [.input 0 synAck allFine, .input 0 finAck allFine, .input 0 lastAck allFine] := by
  refine (one_client_iff ⟨true, rfl⟩ (Machine.steps_of_run rfl)).mpr (.cons ?_ rfl (.cons ?_ rfl (.cons ?_ rfl (.nil _))))
  · exact ⟨fun h => (nomatch h.1), fun _ => rfl⟩
  · exact ⟨fun h => (nomatch h.1), fun _ => rfl⟩
  · exact ⟨fun h => (nomatch h.1), fun _ => rfl⟩

/-- The server closes and then resets the old connection: two connections are being made at once, and the
first has started both. -/
theorem two_clients : ∃ c, clientMachine.init started ∧ clientMachine.Steps Machine.any started
      [.input 0 synAck allFine, .input 0 finAck allFine, .input 0 rst allFine] c ∧
    (c.pcb 1).Live ∧ (c.pcb 2).Live ∧ (c.pcb 0).inits = 2 ∧ ¬ Sound c := by
  refine ⟨_, ⟨true, rfl⟩, Machine.steps_of_run rfl, ⟨rfl, .inl rfl⟩, ⟨rfl, .inl rfl⟩, rfl, fun h => ?_⟩
  exact absurd (h.2.1 1 2 (by decide) (by decide) ⟨rfl, .inl rfl⟩ ⟨rfl, .inl rfl⟩) (by decide)

end LoraGateway.Netapp.TcpClient
