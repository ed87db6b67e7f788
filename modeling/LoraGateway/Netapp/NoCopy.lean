import LoraGateway.Core.Dhcp
import LoraGateway.Lib.Loans
import LoraGateway.Lib.Machine
import LoraGateway.Netapp.TcpClient

/-!
# Send buffers without a copy

The echo server on port 6060 calls `tcp_write` with `apiflags` 0 and `dhcp_netconn_thread` calls
`netconn_write` with `NETCONN_NOCOPY`: the segments refer to the caller's buffer until they are acknowledged.
The server frees the chain in the callback that wrote it, before a byte of it can have been sent, so that its
buffers last only if nothing was queued. The thread has one buffer, on its stack, and writes the next text into
it after 100 ticks, whatever has been acknowledged; at the end the task is deleted (`no_copy_iff`).

Proof: both parts are about `Lender`. A step that fills or frees a buffer keeps what has been lent exactly if nobody
refers to the buffer or it holds the same afterwards (`Good.free_iff`, `Good.fill_iff`), and the condition of the
theorem is that, read at each step (`good_serverStep_iff`, `good_threadStep_iff`).
-/

namespace LoraGateway.Netapp.NoCopy

open Lib Netif LoraGateway.Core

/-! ## The echo server -/

/-- A pbuf, at its address, with what `tcp_write` returns for it in `tcp_send_pbuf_data_out`. -/
structure RecvPbuf where
  addr : ℕ
  payload : List Byte
  err : WriteErr

/-- The memory of the pbufs, and for each connection what its unacknowledged segments refer to. -/
abbrev Server := Lender ℕ ℕ (List Byte)

/-- The chain that `tcp_input` hands up. -/
def received (s : Server) : List RecvPbuf → Server
  | [] => s
  | p :: rest => received (s.fill p.addr p.payload) rest

/-- `tcp_write` with `apiflags` 0, by what it returns. -/
def tcpWrite (s : Server) (pcb : ℕ) (p : RecvPbuf) (err : WriteErr) : Server :=
  if err = .ok then s.lend pcb p.addr p.payload.length else s

def tcpSendPbufDataOut (s : Server) (pcb : ℕ) : List RecvPbuf → Server
  | [] => s
  | p :: rest => tcpSendPbufDataOut (tcpWrite s pcb p p.err) pcb rest

/-- `pbuf_free` of a chain to which there is one reference. -/
def pbufFree (s : Server) : List RecvPbuf → Server
  | [] => s
  | p :: rest => pbufFree (s.free p.addr) rest

/-- `http_recv` of `lwipconfig.c` with a chain; `err` is what its own `tcp_write` returns. -/
def httpRecv (s : Server) (pcb : ℕ) (err : WriteErr) (p : RecvPbuf) (rest : List RecvPbuf) : Server :=
  let s := tcpWrite s pcb p err
  let s := tcpSendPbufDataOut s pcb (p :: rest)
  pbufFree s (p :: rest)

/-- A chain for a connection, an acknowledgement of so many bytes, or the end of a connection. Nothing is sent
or acknowledged before a callback returns. -/
inductive ServerEvent
  | recv (pcb : ℕ) (err : WriteErr) (p : RecvPbuf) (rest : List RecvPbuf)
  | acked (pcb n : ℕ)
  | purge (pcb : ℕ)

/-- The pbufs of a chain are memory that is not in use. -/
def serverStep (s : Server) : ServerEvent → Option Server
  | .recv pcb err p rest =>
    if ((p :: rest).map RecvPbuf.addr).Nodup ∧ ∀ q ∈ p :: rest, s.contents q.addr = none then
      some (httpRecv (received s (p :: rest)) pcb err p rest)
    else none
  | .acked pcb n => some (s.repay pcb n)
  | .purge pcb => some (s.drop pcb)

def serverMachine : Machine Server ServerEvent where
  init s := ∀ pcb, s.loans pcb = []
  step := serverStep

/-- Nothing of a chain is queued: every `tcp_write` for a segment with data fails. -/
def ServerQuiet (_ : Server) : ServerEvent → Prop
  | .recv _ err p rest => (err = .ok → p.payload = []) ∧ ∀ q ∈ p :: rest, q.err = .ok → q.payload = []
  | _ => True

section server

variable {s : Server} {pcb : ℕ} {p : RecvPbuf} {err : WriteErr} {l : List RecvPbuf}

theorem loans_received (s : Server) (l : List RecvPbuf) : (received s l).loans = s.loans := by
  induction l generalizing s with
  | nil => rfl
  | cons p rest ih => exact ih (s.fill p.addr p.payload)

theorem contents_received_of_not_mem {a : ℕ} (h : a ∉ l.map RecvPbuf.addr) : (received s l).contents a = s.contents a := by
  induction l generalizing s with
  | nil => rfl
  | cons p rest ih =>
    rw [List.map_cons, List.mem_cons, not_or] at h
    rw [received, ih h.2, Lender.contents_fill_of_ne h.1]

theorem contents_received {q : RecvPbuf} (hnodup : (l.map RecvPbuf.addr).Nodup) (hq : q ∈ l) :
    (received s l).contents q.addr = some q.payload := by
  induction l generalizing s with
  | nil => exact absurd hq List.not_mem_nil
  | cons p rest ih =>
    obtain ⟨hp, hrest⟩ := List.nodup_cons.mp hnodup
    rcases List.mem_cons.mp hq with rfl | hq
    · rw [received, contents_received_of_not_mem hp, Lender.contents_fill]
    · exact ih hrest hq

theorem good_received (h : s.Good) (hfresh : ∀ q ∈ l, ¬ s.Lent q.addr) : (received s l).Good := by
  induction l generalizing s with
  | nil => exact h
  | cons p rest ih =>
    refine ih (h.fill_iff.mpr fun hlent => absurd hlent (hfresh p List.mem_cons_self)) fun q hq => ?_
    exact hfresh q (List.mem_cons_of_mem p hq)

theorem loans_pbufFree (s : Server) (l : List RecvPbuf) : (pbufFree s l).loans = s.loans := by
  induction l generalizing s with
  | nil => rfl
  | cons p rest ih => exact ih (s.free p.addr)

theorem contents_pbufFree {a : ℕ} (h : s.contents a = none ∨ a ∈ l.map RecvPbuf.addr) :
    (pbufFree s l).contents a = none := by
  induction l generalizing s with
  | nil => exact h.resolve_right List.not_mem_nil
  | cons p rest ih =>
    refine ih ?_
    by_cases ha : a = p.addr
    · rw [ha]
      exact .inl (Lender.contents_free ..)
    · rw [Lender.contents_free_of_ne ha]
      exact h.imp_right fun hmem => (List.mem_cons.mp hmem).resolve_left ha

/-- A chain may be freed exactly if no segment refers to any of it. -/
theorem good_pbufFree_iff (h : s.Good) : (pbufFree s l).Good ↔ ∀ q ∈ l, ¬ s.Lent q.addr := by
  constructor
  · rintro hgood q hq ⟨k, loan, hloan, hbuf⟩
    rw [← loans_pbufFree s l] at hloan
    have hnone := hgood k loan hloan
    rw [hbuf, contents_pbufFree (.inr (List.mem_map_of_mem hq))] at hnone
    cases hnone
  · intro hlent
    induction l generalizing s with
    | nil => exact h
    | cons p rest ih =>
      exact ih (h.free_iff.mpr (hlent p List.mem_cons_self)) fun q hq => hlent q (List.mem_cons_of_mem p hq)

theorem tcpWrite_nothing (h : err = .ok → p.payload = []) : tcpWrite s pcb p err = s := by
  rw [tcpWrite]
  split_ifs with hok
  · rw [h hok]
    exact Lender.lend_zero ..
  · rfl

theorem good_tcpWrite (h : s.Good) (pcb : ℕ) (p : RecvPbuf) (err : WriteErr) : (tcpWrite s pcb p err).Good := by
  rw [tcpWrite]
  split_ifs
  · exact h.lend pcb p.addr _
  · exact h

theorem contents_tcpWrite (s : Server) (pcb : ℕ) (p : RecvPbuf) (err : WriteErr) :
    (tcpWrite s pcb p err).contents = s.contents := by
  rw [tcpWrite]
  split_ifs
  · exact Lender.contents_lend ..
  · rfl

theorem lent_tcpWrite_of_lent {a : ℕ} (h : s.Lent a) (pcb : ℕ) (p : RecvPbuf) (err : WriteErr) :
    (tcpWrite s pcb p err).Lent a := by
  rw [tcpWrite]
  split_ifs
  · exact h.lend ..
  · exact h

theorem lent_tcpWrite (hcontents : s.contents p.addr = some p.payload) (hdata : p.payload ≠ []) :
    (tcpWrite s pcb p .ok).Lent p.addr :=
  Lender.lent_lend hcontents fun hlen => hdata (List.length_eq_zero_iff.mp hlen)

theorem tcpSendPbufDataOut_nothing (h : ∀ q ∈ l, q.err = .ok → q.payload = []) : tcpSendPbufDataOut s pcb l = s := by
  induction l with
  | nil => rfl
  | cons p rest ih =>
    rw [tcpSendPbufDataOut, tcpWrite_nothing (h p List.mem_cons_self)]
    exact ih fun q hq => h q (List.mem_cons_of_mem p hq)

theorem good_tcpSendPbufDataOut (h : s.Good) (pcb : ℕ) (l : List RecvPbuf) : (tcpSendPbufDataOut s pcb l).Good := by
  induction l generalizing s with
  | nil => exact h
  | cons p rest ih => exact ih (good_tcpWrite h pcb p p.err)

theorem lent_tcpSendPbufDataOut_of_lent {a : ℕ} (h : s.Lent a) (pcb : ℕ) (l : List RecvPbuf) :
    (tcpSendPbufDataOut s pcb l).Lent a := by
  induction l generalizing s with
  | nil => exact h
  | cons p rest ih => exact ih (lent_tcpWrite_of_lent h pcb p p.err)

theorem lent_tcpSendPbufDataOut {q : RecvPbuf} (hcontents : s.contents q.addr = some q.payload) (hq : q ∈ l)
    (herr : q.err = .ok) (hdata : q.payload ≠ []) : (tcpSendPbufDataOut s pcb l).Lent q.addr := by
  induction l generalizing s with
  | nil => exact absurd hq List.not_mem_nil
  | cons p rest ih =>
    rcases List.mem_cons.mp hq with rfl | hq
    · refine lent_tcpSendPbufDataOut_of_lent ?_ pcb rest
      rw [herr]
      exact lent_tcpWrite hcontents hdata
    · refine ih ?_ hq
      rw [contents_tcpWrite]
      exact hcontents

theorem good_httpRecv_iff {rest : List RecvPbuf} (h : s.Good) (hnodup : ((p :: rest).map RecvPbuf.addr).Nodup)
    (hunused : ∀ q ∈ p :: rest, s.contents q.addr = none) :
    (httpRecv (received s (p :: rest)) pcb err p rest).Good ↔ ServerQuiet s (.recv pcb err p rest) := by
  have hfresh : ∀ q ∈ p :: rest, ¬ s.Lent q.addr := fun q hq => h.not_lent (hunused q hq)
  have hreceived := good_received h hfresh
  have hcontents : ∀ q ∈ p :: rest, (received s (p :: rest)).contents q.addr = some q.payload :=
    fun q hq => contents_received hnodup hq
  rw [httpRecv, good_pbufFree_iff (good_tcpSendPbufDataOut (good_tcpWrite hreceived pcb p err) pcb _)]
  constructor
  · intro hlent
    refine ⟨fun herr => ?_, fun q hq herr => ?_⟩
    · by_contra hdata
      refine hlent p List.mem_cons_self (lent_tcpSendPbufDataOut_of_lent ?_ pcb _)
      rw [herr]
      exact lent_tcpWrite (hcontents p List.mem_cons_self) hdata
    · by_contra hdata
      refine hlent q hq (lent_tcpSendPbufDataOut ?_ hq herr hdata)
      rw [contents_tcpWrite]
      exact hcontents q hq
  · rintro ⟨hfirst, hall⟩ q hq
    rw [tcpWrite_nothing hfirst, tcpSendPbufDataOut_nothing hall]
    rintro ⟨k, loan, hloan, hbuf⟩
    rw [loans_received] at hloan
    exact hfresh q hq ⟨k, loan, hloan, hbuf⟩

theorem good_serverStep_iff {s' : Server} {e : ServerEvent} (h : s.Good) (hstep : serverStep s e = some s') :
    s'.Good ↔ ServerQuiet s e := by
  cases e with
  | recv pcb err p rest =>
    rw [serverStep] at hstep
    split_ifs at hstep with hchain
    obtain rfl := Option.some.inj hstep
    exact good_httpRecv_iff h hchain.1 hchain.2
  | acked pcb n =>
    obtain rfl := Option.some.inj hstep
    exact iff_of_true (h.repay pcb n) trivial
  | purge pcb =>
    obtain rfl := Option.some.inj hstep
    exact iff_of_true (h.drop pcb) trivial

end server

/-! ## The thread -/

/-- One of the four numbers of an address. -/
def octet (addr : IpAddr) (k : ℕ) : ℕ := addr.toNat / 256 ^ (3 - k) % 256

def ipaddrNtoa (addr : IpAddr) : String := ".".intercalate ((List.range 4).map fun k => Nat.repr (octet addr k))

/-- The text of `sprintf`, without its terminating zero. -/
def sendText (addr : IpAddr) : List Byte := cString ("DHCP--IP:" ++ ipaddrNtoa addr ++ "\r\n")

/-- Where the thread is: polling the state of the client, before the calls it makes, in `netconn_write` with
so many bytes left, or deleted. -/
inductive ThreadPc
  | waitBound
  | connect
  | sprintf
  | write (left : ℕ)
  | delay
  | close
  | delete
  | taskDel
  | ended
  deriving DecidableEq

/-- The thread, with its `count`. `sendbuf` is the only buffer; what `sprintf` writes past the 20 bytes of it
counts as part of it. -/
structure DhcpThread where
  pc : ThreadPc
  count : ℤ
  sendbuf : Lender Unit Unit (List Byte)

/-- The steps of the thread, with the results of its calls, and those of the stack: a `tcp_write` for the
`netconn_write` that is under way, as far as there is space, and acknowledgements at any time. -/
inductive ThreadEvent
  | bound
  | connect (ok : Bool)
  | sprintf (ipAddr : IpAddr)
  | tcpWrite (len : ℕ)
  | writeErr
  | delay
  | close
  | delete
  | taskDel
  | acked (n : ℕ)
  | purge

/-- `dhcp_netconn_thread`. -/
def threadStep (s : DhcpThread) : ThreadEvent → Option DhcpThread
  | .bound => if s.pc = .waitBound then some { s with pc := .connect } else none
  | .connect ok => if s.pc = .connect then some { s with pc := if ok then .sprintf else .close } else none
  | .sprintf ipAddr =>
    if s.pc = .sprintf then
      some { s with pc := .write (sendText ipAddr).length, sendbuf := s.sendbuf.fill () (sendText ipAddr) }
    else none
  | .tcpWrite len =>
    match s.pc with
    | .write left =>
      if 0 < len ∧ len ≤ left then
        some { s with
          pc := if len = left then .delay else .write (left - len)
          sendbuf := s.sendbuf.lend () () len }
      else none
    | _ => none
  | .writeErr =>
    match s.pc with
    | .write _ => some { s with pc := .delay }
    | _ => none
  | .delay =>
    if s.pc = .delay then some { s with pc := if s.count ≠ 0 then .sprintf else .close, count := s.count - 1 }
    else none
  | .close => if s.pc = .close then some { s with pc := .delete } else none
  | .delete => if s.pc = .delete then some { s with pc := .taskDel } else none
  | .taskDel => if s.pc = .taskDel then some { s with pc := .ended, sendbuf := s.sendbuf.free () } else none
  | .acked n => some { s with sendbuf := s.sendbuf.repay () n }
  | .purge => some { s with sendbuf := s.sendbuf.drop () }

def threadMachine : Machine DhcpThread ThreadEvent where
  init s := s.pc = .waitBound ∧ s.count = 10 ∧ s.sendbuf.loans () = []
  step := threadStep

/-- `sprintf` finds everything acknowledged or writes the text that is there already, and the task is deleted
after everything has been acknowledged. -/
def ThreadQuiet (s : DhcpThread) : ThreadEvent → Prop
  | .sprintf ipAddr => s.sendbuf.loans () = [] ∨ s.sendbuf.contents () = some (sendText ipAddr)
  | .taskDel => s.sendbuf.loans () = []
  | _ => True

section thread

variable {s s' : DhcpThread} {e : ThreadEvent}

theorem threadStep_sendbuf (hstep : threadStep s e = some s') :
    (∃ ipAddr, e = .sprintf ipAddr ∧ s'.sendbuf = s.sendbuf.fill () (sendText ipAddr)) ∨
      (e = .taskDel ∧ s'.sendbuf = s.sendbuf.free ()) ∨
      ((∀ s, ThreadQuiet s e) ∧ (s.sendbuf.Good → s'.sendbuf.Good)) := by
  cases e with
  | sprintf ipAddr =>
    rw [threadStep] at hstep
    split_ifs at hstep
    obtain rfl := Option.some.inj hstep
    exact .inl ⟨ipAddr, rfl, rfl⟩
  | taskDel =>
    rw [threadStep] at hstep
    split_ifs at hstep
    obtain rfl := Option.some.inj hstep
    exact .inr (.inl ⟨rfl, rfl⟩)
  | tcpWrite len =>
    rw [threadStep] at hstep
    split at hstep
    · split_ifs at hstep
      all_goals
        obtain rfl := Option.some.inj hstep
        exact .inr (.inr ⟨fun _ => trivial, fun h => h.lend () () len⟩)
    · cases hstep
  | writeErr =>
    rw [threadStep] at hstep
    split at hstep
    · obtain rfl := Option.some.inj hstep
      exact .inr (.inr ⟨fun _ => trivial, id⟩)
    · cases hstep
  | acked n =>
    obtain rfl := Option.some.inj hstep
    exact .inr (.inr ⟨fun _ => trivial, fun h => h.repay () n⟩)
  | purge =>
    obtain rfl := Option.some.inj hstep
    exact .inr (.inr ⟨fun _ => trivial, fun h => h.drop ()⟩)
  | bound | connect ok | delay | close | delete =>
    rw [threadStep] at hstep
    split_ifs at hstep
    all_goals
      obtain rfl := Option.some.inj hstep
      exact .inr (.inr ⟨fun _ => trivial, id⟩)

theorem lent_iff (s : Lender Unit Unit (List Byte)) : s.Lent () ↔ s.loans () ≠ [] := by
  constructor
  · rintro ⟨_, loan, hloan, -⟩ hnil
    rw [hnil] at hloan
    exact absurd hloan List.not_mem_nil
  · intro hne
    obtain ⟨loan, hloan⟩ := List.exists_mem_of_ne_nil _ hne
    exact ⟨(), loan, hloan, rfl⟩

/-- A step keeps what is lent as it was exactly if it is quiet. -/
theorem good_threadStep_iff (h : s.sendbuf.Good) (hstep : threadStep s e = some s') :
    s'.sendbuf.Good ↔ ThreadQuiet s e := by
  rcases threadStep_sendbuf hstep with ⟨ipAddr, rfl, heq⟩ | ⟨rfl, heq⟩ | ⟨hquiet, hgood⟩
  · rw [heq, h.fill_iff, lent_iff, ThreadQuiet]
    exact ⟨fun himp => or_iff_not_imp_left.mpr himp, fun hor => or_iff_not_imp_left.mp hor⟩
  · rw [heq, h.free_iff, lent_iff, not_not, ThreadQuiet]
  · exact iff_of_true (hgood h) (hquiet s)

end thread

/-! ## Both -/

theorem good_of_no_loans {κ ι α : Type} {s : Lender κ ι α} (h : ∀ k, s.loans k = []) : s.Good := by
  intro k l hl
  rw [h k] at hl
  exact absurd hl List.not_mem_nil

/-- What the segments of a connection refer to is as it was written, throughout: for the server exactly if no
segment with data is ever queued, and for the thread exactly if each of its texts is either the one before or
written after everything has been acknowledged, as the end of the task must be. -/
theorem no_copy_iff (s₀ s : Server) (l : List ServerEvent) (t₀ t : DhcpThread) (m : List ThreadEvent) :
    (serverMachine.init s₀ → serverMachine.Steps Machine.any s₀ l s →
      (serverMachine.Always Lender.Good s₀ l ↔ serverMachine.Steps ServerQuiet s₀ l s)) ∧
    (threadMachine.init t₀ → threadMachine.Steps Machine.any t₀ m t →
      (threadMachine.Always (fun t => t.sendbuf.Good) t₀ m ↔ threadMachine.Steps ThreadQuiet t₀ m t)) := by
  refine ⟨fun hinit hs => ?_, fun hinit hs => ?_⟩
  · exact Machine.always_iff_steps_self (fun _ _ _ => good_serverStep_iff) hs (good_of_no_loans hinit)
  · exact Machine.always_iff_steps_self (P := fun t : DhcpThread => t.sendbuf.Good)
      (fun _ _ _ => good_threadStep_iff) hs (good_of_no_loans fun _ => hinit.2.2)

/-- A pbuf with one byte, and the thread as it starts. -/
def onePbuf : RecvPbuf := ⟨0, [7], .mem⟩

def threadStart : DhcpThread := ⟨.waitBound, 10, ⟨fun _ => some [], fun _ => []⟩⟩

instance (s : Server) : (e : ServerEvent) → Decidable (ServerQuiet s e)
  | .recv _ err p rest =>
    inferInstanceAs (Decidable ((err = .ok → p.payload = []) ∧ ∀ q ∈ p :: rest, q.err = .ok → q.payload = []))
  | .acked _ _ | .purge _ => .isTrue trivial

instance (s : DhcpThread) : (e : ThreadEvent) → Decidable (ThreadQuiet s e)
  | .sprintf ipAddr =>
    decidable_of_iff ((s.sendbuf.loans ()).isEmpty = true ∨ s.sendbuf.contents () = some (sendText ipAddr))
      (or_congr List.isEmpty_iff Iff.rfl)
  | .taskDel => decidable_of_iff ((s.sendbuf.loans ()).isEmpty = true) List.isEmpty_iff
  | .bound | .connect _ | .tcpWrite _ | .writeErr | .delay | .close | .delete | .acked _ | .purge => .isTrue trivial

/-- A byte that does not fit, and an empty segment. -/
def quietServer : List ServerEvent := [.recv 3 .mem onePbuf [], .recv 3 .ok ⟨0, [], .ok⟩ []]

/-- A text in two pieces, its acknowledgement, and another one. -/
def quietThread : List ThreadEvent :=
  [.bound, .connect true, .sprintf (ip4Addr 10 0 0 2), .tcpWrite 5, .tcpWrite 14, .delay, .acked 19,
    .sprintf (ip4Addr 10 0 0 3), .tcpWrite 19]

/-- The server queues nothing, as in `echoRecv`. -/
theorem no_copy_quiet :
    (∃ s, serverMachine.runOk ServerQuiet ⟨fun _ => none, fun _ => []⟩ quietServer = some s ∧
      serverMachine.Always Lender.Good ⟨fun _ => none, fun _ => []⟩ quietServer) ∧
    ∃ s, threadMachine.runOk ThreadQuiet threadStart quietThread = some s ∧
      threadMachine.Always (fun t => t.sendbuf.Good) threadStart quietThread ∧ s.sendbuf.Lent () := by
  have hserver : (serverMachine.runOk ServerQuiet ⟨fun _ => none, fun _ => []⟩ quietServer).isSome = true := by
    decide +kernel
  have hthread : ((threadMachine.runOk ThreadQuiet threadStart quietThread).any fun s =>
      !(s.sendbuf.loans ()).isEmpty) = true := by
    decide +kernel
  obtain ⟨s, hs⟩ := Option.isSome_iff_exists.mp hserver
  obtain ⟨t, ht, hlent⟩ := Option.any_eq_true _ _ |>.mp hthread
  have hsteps : serverMachine.Steps ServerQuiet ⟨fun _ => none, fun _ => []⟩ quietServer s := .of_runOk hs
  have htsteps : threadMachine.Steps ThreadQuiet threadStart quietThread t := .of_runOk ht
  obtain ⟨hboth, hboth'⟩ := no_copy_iff ⟨fun _ => none, fun _ => []⟩ s quietServer threadStart t quietThread
  refine ⟨⟨s, hs, (hboth (fun _ => rfl) (hsteps.mono fun _ _ _ => trivial)).mpr hsteps⟩, t, ht,
    (hboth' ⟨rfl, rfl, rfl⟩ (htsteps.mono fun _ _ _ => trivial)).mpr htsteps, ?_⟩
  rw [lent_iff]
  intro hnil
  rw [hnil] at hlent
  exact absurd hlent (by decide)

theorem length_sendText_pos (addr : IpAddr) : 0 < (sendText addr).length := by
  simp [sendText, cString]

theorem step_write {s : DhcpThread} {left : ℕ} (h : s.pc = .write left) (hpos : 0 < left) :
    threadMachine.step s (.tcpWrite left) = some { s with pc := .delay, sendbuf := s.sendbuf.lend () () left } := by
  rw [show threadMachine.step = threadStep from rfl, threadStep, h]
  simp only [hpos, Nat.le_refl, and_self, if_true]

/-- Two different texts without an acknowledgement between them. -/
theorem thread_rewrites (a b : IpAddr) (hdiff : sendText a ≠ sendText b) :
    ∃ s, threadMachine.Steps Machine.any threadStart
        [.bound, .connect true, .sprintf a, .tcpWrite (sendText a).length, .delay, .sprintf b] s ∧
      s.sendbuf.Lent () ∧ ¬ s.sendbuf.Good := by
  have hpos := length_sendText_pos a
  have hwrite : threadMachine.step ⟨.write (sendText a).length, 10, threadStart.sendbuf.fill () (sendText a)⟩
      (.tcpWrite (sendText a).length) =
        some ⟨.delay, 10, (threadStart.sendbuf.fill () (sendText a)).lend () () (sendText a).length⟩ :=
    step_write rfl hpos
  have hlent : ((threadStart.sendbuf.fill () (sendText a)).lend () () (sendText a).length).Lent () :=
    Lender.lent_lend (Lender.contents_fill threadStart.sendbuf () (sendText a)) (Nat.ne_of_gt hpos)
  have hgood : ((threadStart.sendbuf.fill () (sendText a)).lend () () (sendText a).length).Good :=
    Lender.Good.lend (good_of_no_loans fun _ => rfl) () () _
  have hcontents : ((threadStart.sendbuf.fill () (sendText a)).lend () () (sendText a).length).contents () =
      some (sendText a) := by
    rw [Lender.contents_lend, Lender.contents_fill]
  -- Only what is known of the buffer matters from here on.
  generalize (threadStart.sendbuf.fill () (sendText a)).lend () () (sendText a).length = lent
    at hwrite hlent hgood hcontents
  refine ⟨⟨.write (sendText b).length, 9, lent.fill () (sendText b)⟩, ?_, Lender.lent_fill.mpr hlent, fun h => ?_⟩
  · have hfirst : threadMachine.Steps Machine.any threadStart [.bound, .connect true, .sprintf a]
        ⟨.write (sendText a).length, 10, threadStart.sendbuf.fill () (sendText a)⟩ := Machine.steps_of_run rfl
    have hsecond : threadMachine.Steps Machine.any ⟨.delay, 10, lent⟩ [.delay, .sprintf b]
        ⟨.write (sendText b).length, 9, lent.fill () (sendText b)⟩ := Machine.steps_of_run rfl
    exact hfirst.append (.cons trivial hwrite hsecond)
  · have hsame := hgood.fill_iff.mp h hlent
    rw [hcontents] at hsame
    exact hdiff (Option.some.inj hsame)

/-- The server frees a byte that is to be sent, and the thread puts another address where the first one has
not been acknowledged. -/
theorem buffers_lost :
    (∃ s, serverMachine.Steps Machine.any ⟨fun _ => none, fun _ => []⟩ [.recv 0 .ok onePbuf []] s ∧
      s.Lent 0 ∧ s.contents 0 = none ∧ ¬ s.Good) ∧
    ∃ s, threadMachine.Steps Machine.any threadStart
        [.bound, .connect true, .sprintf (ip4Addr 10 0 0 2), .tcpWrite (sendText (ip4Addr 10 0 0 2)).length, .delay,
          .sprintf (ip4Addr 10 0 0 3)] s ∧
      s.sendbuf.Lent () ∧ ¬ s.sendbuf.Good := by
  refine ⟨?_, thread_rewrites _ _ (by decide +kernel)⟩
  refine ⟨_, Machine.steps_of_run rfl, ⟨0, ⟨0, [7], 1⟩, List.mem_cons_self, rfl⟩, rfl, fun h => ?_⟩
  exact absurd (h 0 ⟨0, [7], 1⟩ List.mem_cons_self) nofun

end LoraGateway.Netapp.NoCopy
