import LoraGateway.Netapp.TcpServers

/-!
# The TCP client

`echo_client_recv` and `echo_client_connected` of `tcp_client.c`, on one connection. The client reopens the
window for the whole chain and writes the first segment of it, whatever `tcp_write` returns. So it echoes
what it acknowledges exactly where the first segment is all there is and its write succeeds
(`client_echo_iff`).
-/

namespace LoraGateway.Netapp

open Lib Netif

/-- What `tcp_write` returns. -/
inductive WriteErr
  | ok
  | mem
  | conn
  | arg
  deriving DecidableEq, Repr

/-- `tcp_write`, by what it returns: after an error nothing of `bytes` is queued. -/
def tcpWriteErr (pcb : TcpPcb) (bytes : List Byte) (err : WriteErr) : TcpPcb :=
  if err = .ok then tcpWrite pcb bytes else pcb

/-- `GRREETING`, its terminating zero included. -/
def grreeting : List Byte := cString "HI,I am a new client.\n" ++ [0]

/-- `echo_client_connected`, by what its `tcp_write` returns. -/
def echoClientConnected (pcb : TcpPcb) (err : WriteErr) : TcpPcb := tcpWriteErr pcb grreeting err

/-- `echo_client_recv`, by what its `tcp_write` returns, as far as it is about this connection: at the end of
the stream it makes a new one besides. -/
def echoClientRecv (err : WriteErr) : RecvFn
  | pcb, some (p, _) =>
    let pcb := tcpRecved pcb p.totLen
    tcpWriteErr pcb p.payload err
  | pcb, none => tcpClose pcb

/-- A call of `echo_client_recv` with a chain whose `tot_len` is the length of the chain. -/
structure Delivery where
  chain : Chain
  totLen : chain.1.totLen = chain.bytes.length
  err : WriteErr

namespace Delivery

/-- What is queued for it. -/
def echoed (d : Delivery) : List Byte := if d.err = .ok then d.chain.1.payload else []

/-- The first segment is all of the chain, and it is written. -/
def Covered (d : Delivery) : Prop := chainBytes d.chain.2 = [] ∧ (d.err = .ok ∨ d.chain.1.payload = [])

theorem bytes_eq (d : Delivery) : d.chain.bytes = d.chain.1.payload ++ chainBytes d.chain.2 := chainBytes_cons ..

theorem length_echoed_le (d : Delivery) : d.echoed.length ≤ d.chain.bytes.length := by
  rw [bytes_eq, echoed, List.length_append]
  split_ifs
  · exact Nat.le_add_right ..
  · exact Nat.zero_le _

theorem echoed_eq_iff (d : Delivery) : d.echoed = d.chain.bytes ↔ d.Covered := by
  rw [bytes_eq, echoed, Covered]
  split_ifs with herr
  · rw [List.self_eq_append_right]
    exact ⟨fun h => ⟨h, .inl herr⟩, And.left⟩
  · rw [eq_comm, List.append_eq_nil_iff, and_comm]
    exact and_congr_right fun _ => ⟨.inr, fun h => h.resolve_left herr⟩

end Delivery

/-- The chains of a connection, one after another. -/
def clientDeliver (pcb : TcpPcb) (l : List Delivery) : TcpPcb :=
  l.foldl (fun pcb d => tcpEventRecv (echoClientRecv d.err) pcb d.chain) pcb

/-- What the server has sent. -/
def stream (l : List Delivery) : List Byte := l.flatMap fun d => d.chain.bytes

theorem echoClientRecv_some {pcb : TcpPcb} (hopen : pcb.rxClosed = false) (d : Delivery) :
    tcpEventRecv (echoClientRecv d.err) pcb d.chain =
      { pcb with queued := pcb.queued ++ d.echoed, recved := pcb.recved + d.chain.bytes.length } := by
  have hrecv : tcpEventRecv (echoClientRecv d.err) pcb d.chain =
      tcpWriteErr (tcpRecved pcb d.chain.1.totLen) d.chain.1.payload d.err := by
    rw [tcpEventRecv, hopen]
    rfl
  rw [hrecv, d.totLen, tcpWriteErr, Delivery.echoed]
  split_ifs
  · rfl
  · rw [List.append_nil]
    rfl

theorem clientDeliver_eq {pcb : TcpPcb} (hopen : pcb.rxClosed = false) (l : List Delivery) :
    clientDeliver pcb l =
      { pcb with queued := pcb.queued ++ l.flatMap Delivery.echoed, recved := pcb.recved + (stream l).length } := by
  induction l generalizing pcb with
  | nil => simp [clientDeliver, stream]
  | cons d l ih =>
    have hcons : clientDeliver pcb (d :: l) = clientDeliver { pcb with
        queued := pcb.queued ++ d.echoed, recved := pcb.recved + d.chain.bytes.length } l := by
      rw [clientDeliver, List.foldl_cons, echoClientRecv_some hopen]
      rfl
    rw [hcons, ih, stream, stream, List.flatMap_cons, List.flatMap_cons, List.append_assoc, List.length_append,
      Nat.add_assoc]
    exact hopen

theorem echoClientConnected_new (greeted : WriteErr) :
    (echoClientConnected TcpPcb.new greeted).rxClosed = false ∧
      (echoClientConnected TcpPcb.new greeted).recved = 0 := by
  rw [echoClientConnected, tcpWriteErr]
  split_ifs <;> exact ⟨rfl, rfl⟩

/-- Behind the greeting the client queues what it has reopened the window for exactly if every chain is its
first segment, and that is written. -/
theorem client_echo_iff (greeted : WriteErr) (l : List Delivery) :
    (clientDeliver (echoClientConnected TcpPcb.new greeted) l).queued =
        (echoClientConnected TcpPcb.new greeted).queued ++
          (stream l).take (clientDeliver (echoClientConnected TcpPcb.new greeted) l).recved ↔
      ∀ d ∈ l, d.Covered := by
  obtain ⟨hopen, hrecved⟩ := echoClientConnected_new greeted
  have hall : (stream l).take (0 + (stream l).length) = stream l := by rw [Nat.zero_add, List.take_length]
  rw [clientDeliver_eq hopen, hrecved]
  show _ ++ _ = _ ++ (stream l).take (0 + (stream l).length) ↔ _
  rw [hall, List.append_cancel_left_eq, stream, flatMap_eq_iff fun d _ => d.length_echoed_le]
  exact forall₂_congr fun d _ => d.echoed_eq_iff

/-- A chain of two segments, of which the second is acknowledged and lost. -/
def twoSegments : Delivery := ⟨(⟨[1], 2⟩, [⟨[2], 1⟩]), rfl, .ok⟩

theorem client_drops : (clientDeliver (echoClientConnected TcpPcb.new .ok) [twoSegments]).recved = 2 ∧
    (clientDeliver (echoClientConnected TcpPcb.new .ok) [twoSegments]).queued = grreeting ++ [1] ∧
    (clientDeliver (echoClientConnected TcpPcb.new .ok) [twoSegments]).queued ≠
      (echoClientConnected TcpPcb.new .ok).queued ++
        (stream [twoSegments]).take (clientDeliver (echoClientConnected TcpPcb.new .ok) [twoSegments]).recved := by
  decide +kernel

end LoraGateway.Netapp
