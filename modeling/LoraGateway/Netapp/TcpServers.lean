import Mathlib.Algebra.Order.BigOperators.Group.List
import Mathlib.Algebra.Order.Group.Nat
import LoraGateway.Netif.PacketSend

/-!
# The TCP servers

Three servers that look at what TCP hands them: the echo server on port 6060 (`http_recv` of
`lwipconfig.c`), the page server on the raw API (`http_recv` of `http_server.c`) and the one on the
sequential API (`httpserver_server`). TCP delivers a stream as pbuf chains, cut wherever the segments of
the network and the pbufs of the pool end (`Cut`).

The echo server writes the first segment of a chain, and then the whole chain with it, so it echoes
exactly where first segments are empty (`echo_iff`). The page servers compare the request with the first
segment of the first chain only, so the answer depends on how much of it there is (`http_cut_iff`).
-/

namespace LoraGateway.Netapp

open Lib Netif

/-! ## The raw API -/

/-- A `tcp_pcb`, as the callbacks use it: the bytes that `tcp_write` has queued, the space given back by
`tcp_recved`, and whether the receive side is closed (`TF_RXCLOSED`) or the connection aborted. -/
structure TcpPcb where
  queued : List Byte
  recved : ℕ
  rxClosed : Bool
  aborted : Bool
  deriving DecidableEq

/-- A connection that has been accepted. -/
def TcpPcb.new : TcpPcb := ⟨[], 0, false, false⟩

/-- A `tcp_write` that succeeds. -/
def tcpWrite (pcb : TcpPcb) (bytes : List Byte) : TcpPcb := { pcb with queued := pcb.queued ++ bytes }

def tcpRecved (pcb : TcpPcb) (len : ℕ) : TcpPcb := { pcb with recved := pcb.recved + len }

def tcpClose (pcb : TcpPcb) : TcpPcb := { pcb with rxClosed := true }

/-- A pbuf chain, by its first pbuf and the others. -/
abbrev Chain := Pbuf × List Pbuf

def Chain.bytes (d : Chain) : List Byte := chainBytes (d.1 :: d.2)

/-- A receive callback: `none` is the NULL that stands for the end of the stream. -/
abbrev RecvFn := TcpPcb → Option Chain → TcpPcb

/-- The call of the callback in `tcp_input`. Data after the application has closed aborts. -/
def tcpEventRecv (recv : RecvFn) (pcb : TcpPcb) (d : Chain) : TcpPcb :=
  if pcb.rxClosed then { pcb with aborted := true } else recv pcb (some d)

/-- Chains delivered one after another. -/
def tcpDeliver (recv : RecvFn) (pcb : TcpPcb) (l : List Chain) : TcpPcb :=
  l.foldl (tcpEventRecv recv) pcb

/-! ## The echo server -/

def tcpSendPbufDataOut (pcb : TcpPcb) : List Pbuf → TcpPcb
  | [] => pcb
  | p :: rest => tcpSendPbufDataOut (tcpWrite pcb p.payload) rest

/-- `http_recv` of `lwipconfig.c`; `err` is `ERR_OK`, and the chain is freed at the end. -/
def echoRecv : RecvFn
  | pcb, some (p, rest) =>
    let pcb := tcpRecved pcb p.totLen
    let pcb := tcpWrite pcb p.payload
    tcpSendPbufDataOut pcb (p :: rest)
  | pcb, none => tcpClose pcb

theorem tcpSendPbufDataOut_eq (pcb : TcpPcb) (l : List Pbuf) :
    tcpSendPbufDataOut pcb l = tcpWrite pcb (chainBytes l) := by
  induction l generalizing pcb with
  | nil => simp [tcpSendPbufDataOut, tcpWrite]
  | cons p rest ih =>
    rw [tcpSendPbufDataOut, ih, chainBytes_cons]
    simp [tcpWrite]

theorem echoRecv_queued (pcb : TcpPcb) (d : Chain) :
    (echoRecv pcb (some d)).queued = pcb.queued ++ (d.1.payload ++ d.bytes) ∧
      (echoRecv pcb (some d)).rxClosed = pcb.rxClosed := by
  rw [echoRecv, tcpSendPbufDataOut_eq]
  exact ⟨by simp [tcpWrite, tcpRecved, Chain.bytes], rfl⟩

theorem echo_queued {pcb : TcpPcb} (hopen : pcb.rxClosed = false) (l : List Chain) :
    (tcpDeliver echoRecv pcb l).queued = pcb.queued ++ l.flatMap fun d => d.1.payload ++ d.bytes := by
  induction l generalizing pcb with
  | nil => simp [tcpDeliver]
  | cons d l ih =>
    obtain ⟨hqueued, hclosed⟩ := echoRecv_queued pcb d
    have hstep : tcpEventRecv echoRecv pcb d = echoRecv pcb (some d) := by
      rw [tcpEventRecv, hopen]
      rfl
    have hrest := ih (hclosed.trans hopen)
    rw [tcpDeliver, List.foldl_cons, hstep]
    rw [tcpDeliver] at hrest
    rw [hrest, hqueued, List.flatMap_cons, List.append_assoc]

/-- Lists put together of parts, one never longer than the other, are equal exactly if the parts are. -/
theorem flatMap_eq_iff {α β : Type*} {f g : α → List β} {l : List α}
    (hle : ∀ d ∈ l, (f d).length ≤ (g d).length) : l.flatMap f = l.flatMap g ↔ ∀ d ∈ l, f d = g d := by
  refine ⟨fun h => ?_, List.flatMap_congr⟩
  induction l with
  | nil => exact fun d hd => absurd hd List.not_mem_nil
  | cons d l ih =>
    have hrest : (l.flatMap f).length ≤ (l.flatMap g).length := by
      rw [List.length_flatMap, List.length_flatMap]
      exact List.sum_le_sum fun e he => hle e (List.mem_cons_of_mem d he)
    have hfirst := hle d List.mem_cons_self
    rw [List.flatMap_cons, List.flatMap_cons] at h
    have hlen := congrArg List.length h
    rw [List.length_append, List.length_append] at hlen
    obtain ⟨hd, hl⟩ := List.append_inj h (by omega)
    intro e he
    rcases List.mem_cons.mp he with rfl | he
    · exact hd
    · exact ih (fun e he => hle e (List.mem_cons_of_mem d he)) hl e he

/-- The server queues what it received exactly if every chain starts with an empty segment. -/
theorem echo_iff (l : List Chain) :
    (tcpDeliver echoRecv TcpPcb.new l).queued = l.flatMap Chain.bytes ↔
      ∀ d ∈ l, d.1.payload = [] := by
  rw [echo_queued rfl, show TcpPcb.new.queued = [] from rfl, List.nil_append, eq_comm, flatMap_eq_iff]
  · exact forall₂_congr fun d _ => List.self_eq_append_left
  · intro d _
    rw [List.length_append]
    exact Nat.le_add_left ..

/-- A chain of one byte comes back twice. -/
theorem echo_doubles : (tcpDeliver echoRecv TcpPcb.new [(⟨[7], 1⟩, [])]).queued = [7, 7] ∧
    [((⟨[7], 1⟩, []) : Chain)].flatMap Chain.bytes = [7] := by
  decide

/-! ## Streams and their cuts -/

/-- A way of cutting a stream into deliveries and pbufs, none of them empty. -/
structure Cut (s : List Byte) where
  deliveries : List Chain
  bytes : deliveries.flatMap Chain.bytes = s
  nonempty : ∀ d ∈ deliveries, ∀ q ∈ d.1 :: d.2, q.payload ≠ []

namespace Cut

variable {s : List Byte} (c : Cut s)

/-- The first pbuf of the first delivery. -/
def first : List Byte :=
  match c.deliveries with
  | [] => []
  | d :: _ => d.1.payload

theorem first_prefix : c.first <+: s := by
  have h : c.first <+: c.deliveries.flatMap Chain.bytes := by
    rw [first]
    cases c.deliveries with
    | nil => exact List.prefix_rfl
    | cons d l =>
      rw [List.flatMap_cons, Chain.bytes, chainBytes_cons, List.append_assoc]
      exact List.prefix_append ..
  rwa [c.bytes] at h

/-- Whether the stream starts with some text shows in the first pbuf if that is long enough. -/
theorem prefix_first {text : List Byte} : text <+: c.first ↔
    text <+: s ∧ text.length ≤ c.first.length :=
  ⟨fun h => ⟨h.trans c.first_prefix, h.length_le⟩,
    fun h => List.prefix_of_prefix_length_le h.1 c.first_prefix h.2⟩

end Cut

/-! ## The page servers -/

/-- The bytes of a C string, without its terminating zero. -/
def cString (s : String) : List Byte := s.toList.map fun c => BitVec.ofNat 8 c.toNat

def htmldata : List Byte :=
  cString "\t\t<html>\t\t<head><title>A lwip webserver!</title></head>\t\t\t<center><p>A webserver based on lwip 1.4.1</center>\t\t</html>"

def httpHtmlHdr : List Byte := cString "HTTP/1.1 200 OK\r\tContent-type:text/html\r\n\r\n"

def httpIndexHtml : List Byte :=
  cString "<!DOCTYPE html><html><head>\t<title>Congrats!</title></head><body><h1>Welcome to LwIP 1.4.1 HTTP server!</h1><center><p>This is a test page base on netconn API.</p></center></body></html>"

/-- 'G', 'E', 'T' and ' ', '/'. -/
def get : List Byte := [0x47, 0x45, 0x54]
def getSlash : List Byte := get ++ [0x20, 0x2F]

/-- The comparison of the first bytes, after that of the length. -/
def startsWith (text data : List Byte) : Bool :=
  text.length ≤ data.length && data.take text.length == text

theorem startsWith_iff {text data : List Byte} : startsWith text data = true ↔ text <+: data := by
  rw [startsWith, Bool.and_eq_true, decide_eq_true_eq, beq_iff_eq]
  constructor
  · rintro ⟨-, htake⟩
    exact htake ▸ List.take_prefix ..
  · intro h
    exact ⟨h.length_le, (List.prefix_iff_eq_take.mp h).symm⟩

/-- `http_recv` of `http_server.c`; the terminating zero of `htmldata` is sent too, and the chain is
freed before the connection is closed. -/
def httpRecv : RecvFn
  | pcb, some (p, _) =>
    let pcb := tcpRecved pcb p.totLen
    let pcb := if startsWith get p.payload then tcpWrite pcb (htmldata ++ [0]) else pcb
    tcpClose pcb
  | pcb, none => tcpClose pcb

/-- A `struct netbuf`, with `ptr` at the first pbuf of its chain. -/
structure Netbuf where
  chain : Chain

/-- `netbuf_data`: the data at `ptr`, with its length. -/
def netbufData (buf : Netbuf) : List Byte := buf.chain.1.payload

/-- What `httpserver_server` does with the connection and what it received. -/
inductive NetconnCall
  | write (data : List Byte)
  | close
  | deleteBuf
  deriving DecidableEq

/-- `httpserver_server`, by the outcome of its `netconn_recv`. -/
def httpserverServer (inbuf : Option Netbuf) : List NetconnCall :=
  (match inbuf with
    | some inbuf =>
      if startsWith getSlash (netbufData inbuf) then [.write httpHtmlHdr, .write httpIndexHtml] else []
    | none => []) ++ [.close, .deleteBuf]

/-! ## The answers -/

namespace Cut

variable {s : List Byte} (c c' : Cut s)

/-- The page is among what `httpserver_server` writes, which receives once. -/
def NetconnSends : Prop :=
  .write httpIndexHtml ∈ httpserverServer (c.deliveries.head?.map Netbuf.mk)

/-- The page is among what the callback queues. -/
def RawSends : Prop := htmldata ++ [0] <:+: (tcpDeliver httpRecv TcpPcb.new c.deliveries).queued

theorem netconnSends_iff : c.NetconnSends ↔ getSlash <+: s ∧ 5 ≤ c.first.length := by
  have hwrite : httpIndexHtml ≠ httpHtmlHdr := by decide +kernel
  rw [show 5 = getSlash.length from rfl, ← c.prefix_first, NetconnSends, first]
  cases c.deliveries with
  | nil => simp [httpserverServer, getSlash]
  | cons d l =>
    rw [List.head?_cons, Option.map_some, httpserverServer, netbufData]
    split_ifs with h
    · simp [startsWith_iff.mp h]
    · have hno : ¬ getSlash <+: d.1.payload := fun hp => h (startsWith_iff.mpr hp)
      simp [hno]

theorem tcpDeliver_closed {recv : RecvFn} {pcb : TcpPcb} (h : pcb.rxClosed = true) (l : List Chain) :
    (tcpDeliver recv pcb l).queued = pcb.queued := by
  induction l generalizing pcb with
  | nil => rfl
  | cons d l ih =>
    have hstep : tcpEventRecv recv pcb d = { pcb with aborted := true } := if_pos h
    rw [tcpDeliver, List.foldl_cons, hstep]
    exact ih h

theorem rawSends_iff : c.RawSends ↔ get <+: s ∧ 3 ≤ c.first.length := by
  rw [show 3 = get.length from rfl, ← c.prefix_first, RawSends, first]
  cases c.deliveries with
  | nil => simp [tcpDeliver, TcpPcb.new, get]
  | cons d l =>
    have hfirst : (tcpDeliver httpRecv TcpPcb.new (d :: l)).queued =
        if startsWith get d.1.payload then htmldata ++ [0] else [] := by
      refine (tcpDeliver_closed (show (httpRecv TcpPcb.new (some d)).rxClosed = true from rfl) l).trans ?_
      have hrecv : (httpRecv TcpPcb.new (some d)).queued = (if startsWith get d.1.payload then
          tcpWrite (tcpRecved TcpPcb.new d.1.totLen) (htmldata ++ [0])
        else tcpRecved TcpPcb.new d.1.totLen).queued := rfl
      rw [hrecv]
      split_ifs
      · exact List.nil_append _
      · exact Eq.refl []
    rw [hfirst]
    split_ifs with h
    · exact ⟨fun _ => startsWith_iff.mp h, fun _ => List.infix_rfl⟩
    · have hno : ¬ get <+: d.1.payload := fun hp => h (startsWith_iff.mpr hp)
      simp [hno]

end Cut

/-- The two servers answer two cuts of a stream alike, and a request however it is cut, exactly if the
first pbufs are long enough for the text the servers look for, where the stream starts with it. -/
theorem http_cut_iff {s : List Byte} (c c' : Cut s) :
    ((c.NetconnSends ↔ c'.NetconnSends) ∧ (c.RawSends ↔ c'.RawSends) ∧
      (getSlash <+: s → c.NetconnSends ∧ c'.NetconnSends) ∧ (get <+: s → c.RawSends ∧ c'.RawSends)) ↔
    (getSlash <+: s → 5 ≤ c.first.length ∧ 5 ≤ c'.first.length) ∧
      (get <+: s → 3 ≤ c.first.length ∧ 3 ≤ c'.first.length) := by
  rw [c.netconnSends_iff, c'.netconnSends_iff, c.rawSends_iff, c'.rawSends_iff]
  by_cases h : getSlash <+: s <;> by_cases h' : get <+: s <;> simp [h, h'] <;> tauto

/-- The stream 'GET /', in one pbuf and in two deliveries. -/
def oneCut : Cut getSlash := ⟨[(⟨getSlash, 5⟩, [])], rfl, by decide⟩

def twoCut : Cut getSlash := ⟨[(⟨[0x47], 1⟩, []), (⟨[0x45, 0x54, 0x20, 0x2F], 4⟩, [])], rfl, by decide⟩

theorem http_cuts_differ : oneCut.NetconnSends ∧ ¬ twoCut.NetconnSends ∧ oneCut.RawSends ∧
    ¬ twoCut.RawSends := by
  rw [oneCut.netconnSends_iff, twoCut.netconnSends_iff, oneCut.rawSends_iff, twoCut.rawSends_iff]
  decide

end LoraGateway.Netapp
