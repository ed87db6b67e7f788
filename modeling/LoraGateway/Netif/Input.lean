import LoraGateway.Lib.Bytes
import LoraGateway.SysArch.MboxCall

/-!
# Received packets

`process_mac` with `ethernetif_input` and `tcpip_input`, and the `TCPIP_MSG_INPKT` branch of
`tcpip_thread`, as two tasks on one mailbox that other tasks post to as well. What `PacketReceive` comes
to, the Ethernet type, the fill of the mailbox and of the message pool and the order of the steps are
arbitrary; `sys_mbox_trypost` and `sys_arch_mbox_fetch` are those of the mailbox, step by step.

A chain of pbufs has the number of its allocation for a name, so a buffer that is used again is another
chain. `tcpip_msg`s are known by their addresses, which the mailbox carries and the pool hands out again.
`Accounted` says where every one of them is.
-/

namespace LoraGateway.Netif

open Lib SysArch

/-- A chain of pbufs: its place among the chains allocated. -/
abbrev Chain := ℕ

/-- What `PacketReceive` comes to: no frame (or one with a bad status), no pbufs for it, or a chain,
with the type field of its Ethernet header as it stands in memory. -/
inductive Received
  | nothing
  | noPbuf
  | chain (type : BitVec 16)
  deriving DecidableEq, Repr

/-- `ETHTYPE_IP`. -/
def ethtypeIp : BitVec 16 := 0x0800#16

/-- `ETHTYPE_ARP`. -/
def ethtypeArp : BitVec 16 := 0x0806#16

/-- What `tcpip_input` returns. -/
inductive InputErr
  | ok
  | val
  | mem
  deriving DecidableEq, Repr

/-- Where `process_mac` is. -/
inductive MacPt
  /-- between two calls of it -/
  | outside
  /-- `low_level_input` and the test for `NULL` -/
  | receive
  /-- the switch on the type -/
  | classify (p : Chain) (type : BitVec 16)
  /-- `tcpip_input`: the test of the mailbox, `memp_malloc` with the fields, the call of
  `sys_mbox_trypost`, the call in progress, `memp_free` -/
  | valid (p : Chain) | malloc (p : Chain) | post (p : Chain) (msg : Msg)
  | posting (p : Chain) (msg : Msg) | free (p : Chain) (msg : Msg)
  /-- the test of its result -/
  | returned (p : Chain) (err : InputErr)
  /-- `pbuf_free` -/
  | drop (p : Chain)
  deriving DecidableEq, Repr

/-- Where `tcpip_thread` is. -/
inductive ThreadPt
  /-- at a fetch, and in one; without timers its result is not looked at -/
  | fetch
  | fetching (timers : Bool)
  /-- at the switch on the type of the message, and at its `memp_free` -/
  | dispatch (msg : Msg)
  | release (msg : Msg)
  deriving DecidableEq, Repr

/-- The two tasks, and the addresses of the `MEMP_TCPIP_MSG_INPKT` pool. -/
structure Setup (n : ℕ) where
  mac : Fin n
  tcpip : Fin n
  pool : List Msg
  ne : mac ≠ tcpip
  nodup : pool.Nodup
  nonNull : 0 ∉ pool

/-- The mailbox and its tasks, whether the mailbox is valid, where the two tasks are, the free
elements of the pool, `msg.inp.p` of the messages whose type is `TCPIP_MSG_INPKT`; and the history: how
many chains were allocated, those freed by `ethernetif_input`, those of the messages stored in the
mailbox and those handed to `ethernet_input`. -/
structure Stack (n : ℕ) where
  sys : Sys n
  mboxValid : Bool
  mac : MacPt
  thread : ThreadPt
  memp : List Msg
  inp : Msg → Option Chain
  allocated : ℕ
  freed : List Chain
  stored : List Chain
  handed : List Chain

/-- A step of `process_mac`, with what `PacketReceive` comes to should it be there; of `tcpip_thread`,
with the time of the first timer; of another task or the kernel; and the end of `sys_mbox_new`. -/
inductive InAct (n : ℕ)
  | mac (rx : Received)
  | thread (timer : Option (BitVec 32))
  | other (a : Act n)
  | mboxNew

variable {n : ℕ} (cfg : Setup n)

/-- A step of the mailbox. -/
def Stack.stepSys (s : Stack n) (a : Act n) : Option (Stack n) :=
  (s.sys.step a).map fun sys =>
    { s with
      sys
      stored := s.stored ++ ((s.sys.label a).toList.filterMap FifoAct.enq?).filterMap s.inp }

/-- The switch of `ethernetif_input`. -/
def accepts (type : BitVec 16) : Bool := htons type = ethtypeIp || htons type = ethtypeArp

/-- A statement of `process_mac`. -/
def Stack.stepMac (s : Stack n) (rx : Received) : Option (Stack n) :=
  match s.mac with
  | .outside => some { s with mac := .receive }
  | .receive =>
    match rx with
    | .nothing | .noPbuf => some { s with mac := .outside }
    | .chain type =>
      some { s with mac := .classify s.allocated type, allocated := s.allocated + 1 }
  | .classify p type => some { s with mac := if accepts type then .valid p else .drop p }
  | .valid p => some { s with mac := if s.mboxValid then .malloc p else .returned p .val }
  | .malloc p =>
    match s.memp with
    | [] => some { s with mac := .returned p .mem }
    | msg :: memp =>
      some { s with mac := .post p msg, memp, inp := Function.update s.inp msg (some p) }
  | .post p msg =>
    (s.stepSys (.call cfg.mac (.trypost msg))).map fun s => { s with mac := .posting p msg }
  | .posting p msg =>
    (s.stepSys (.run cfg.mac)).bind fun s =>
      match s.sys.ctl cfg.mac with
      | .at _ _ => some s
      | .idle =>
        s.sys.lastReturn.map fun r =>
          { s with mac := if r.2 = .errOk then .returned p .ok else .free p msg }
  | .free p msg => some { s with mac := .returned p .mem, memp := msg :: s.memp }
  | .returned p err => some { s with mac := if err = .ok then .receive else .drop p }
  | .drop p => some { s with mac := .receive, freed := s.freed ++ [p] }

/-- A statement of `tcpip_thread`. -/
def Stack.stepThread (s : Stack n) (timer : Option (BitVec 32)) : Option (Stack n) :=
  match s.thread with
  | .fetch =>
    match timer with
    | none =>
      (s.stepSys (.call cfg.tcpip (.fetch true 0))).map fun s => { s with thread := .fetching false }
    | some time =>
      -- the timer has expired: its handler, and `goto again`
      if time = 0 then some s
      else (s.stepSys (.call cfg.tcpip (.fetch true time))).map fun s =>
        { s with thread := .fetching true }
  | .fetching timers =>
    (s.stepSys (.run cfg.tcpip)).bind fun s =>
      match s.sys.ctl cfg.tcpip with
      | .at _ _ => some s
      | .idle =>
        s.sys.lastReturn.map fun r =>
          { s with
            thread := if r.2 = .time sysArchTimeout ∧ timers then .fetch
              else .dispatch (r.1.out.getD 0) }
  | .dispatch msg =>
    -- there is no message at the null pointer
    if msg = 0 then none
    else match s.inp msg with
      | some p => some { s with thread := .release msg, handed := s.handed ++ [p] }
      | none => some { s with thread := .fetch }
  | .release msg => some { s with thread := .fetch, memp := msg :: s.memp }

/-- What the others do: they post messages of their own, none of them at the null pointer, and do not fetch. -/
def Setup.others : Act n → Bool
  | .call t (.post msg) | .call t (.trypost msg) => t ≠ cfg.mac ∧ t ≠ cfg.tcpip ∧ msg ∉ 0 :: cfg.pool
  | .call _ (.fetch _ _) | .call _ (.tryfetch _) => false
  | .run t => t ≠ cfg.mac ∧ t ≠ cfg.tcpip
  | .tick | .events _ => true

/-- The messages of the pool among these. -/
def Setup.own (cfg : Setup n) (l : List (ℕ × Msg)) : List Msg :=
  (l.map Prod.snd).filter (· ∈ cfg.pool)

def Stack.step (s : Stack n) : InAct n → Option (Stack n)
  | .mac rx => s.stepMac cfg rx
  | .thread timer => s.stepThread cfg timer
  | .other a => if cfg.others a then s.stepSys a else none
  | .mboxNew => some { s with mboxValid := true }

/-- Nothing received yet. -/
structure Stack.Fresh (s : Stack n) : Prop where
  sys : s.sys.Fresh
  mac : s.mac = .outside
  thread : s.thread = .fetch
  memp : s.memp = cfg.pool
  inp : s.inp = fun _ => none
  log : s.allocated = 0 ∧ s.freed = [] ∧ s.stored = [] ∧ s.handed = []

/-- `process_mac` and `tcpip_thread` at work. -/
def inputMachine : Machine (Stack n) (InAct n) where
  init := Stack.Fresh cfg
  step := Stack.step cfg

/-! ## Where everything is -/

/-- The chain an `ethernetif_input` in progress has to see to. -/
def Stack.macChain (s : Stack n) : List Chain :=
  match s.mac with
  | .outside | .receive | .returned _ .ok => []
  | .posting p _ => if (s.sys.ctl cfg.mac).hasStored then [] else [p]
  | .classify p _ | .valid p | .malloc p | .post p _ | .free p _ | .drop p => [p]
  | .returned p .val | .returned p .mem => [p]

/-- The message `tcpip_input` has taken from the pool and not stored. -/
def Stack.macMsg (s : Stack n) : List Msg :=
  match s.mac with
  | .posting _ msg => if (s.sys.ctl cfg.mac).hasStored then [] else [msg]
  | .post _ msg | .free _ msg => [msg]
  | _ => []

/-- The message `tcpip_thread` has fetched and not looked at. -/
def Stack.threadHand (s : Stack n) : List Msg :=
  match s.thread with
  | .fetching _ => (s.sys.ctl cfg.tcpip).hand
  | .dispatch msg => [msg]
  | _ => []

/-- The message `tcpip_thread` has handed on and not freed. -/
def Stack.threadDone (s : Stack n) : List Msg :=
  match s.thread with
  | .release msg => [msg]
  | _ => []

/-- With `q` in the mailbox: every chain allocated is in one place, among those freed, those stored in a
message or in the hands of `ethernetif_input`; those stored are, in this order, the ones handed to
`ethernet_input`, the one `tcpip_thread` has fetched and the ones in the mailbox; and every message of
the pool is free, in the hands of one of the two tasks or in the mailbox. -/
structure Stack.Ledger (s : Stack n) (q : List Msg) : Prop where
  chains : (s.freed ++ s.stored ++ s.macChain cfg).Perm (List.range s.allocated)
  stored : s.stored = s.handed ++ (s.threadHand cfg ++ q).filterMap s.inp
  msgs : (s.memp ++ s.macMsg cfg ++
    (s.threadDone ++ s.threadHand cfg ++ q).filter (· ∈ cfg.pool)).Perm cfg.pool

end LoraGateway.Netif
