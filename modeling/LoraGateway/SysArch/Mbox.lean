import LoraGateway.Lib.Machine
import LoraGateway.SysArch.SemWait

/-!
# The mailbox

`sys_mbox_new`, `sys_mbox_post`, `sys_mbox_trypost`, `sys_arch_mbox_fetch` and
`sys_arch_mbox_tryfetch` of `sys_arch.c`, run by `n` tasks in any interleaving. A task is preempted
between any two of the steps below: every kernel call is one step, and so is every statement that
reads or writes a field of the mailbox, the poll of `msg_num` outside the mutex included. Failed
assertions print and spin (`LWIP_PLATFORM_ASSERT`), so `Point.spin` is never left. The assertions on
the arguments, which hold for a mailbox made by `sys_mbox_new`, and the printing are left out.
-/

namespace LoraGateway.SysArch

open Os Lib

/-- A `void *`. -/
abbrev Msg := BitVec 32

/-- `MAX_QUEUE_ENTRIES`. -/
def maxQueueEntries : ℕ := 100

/-- `struct lwip_mbox` without its two semaphores, which are the events `Ev.sem` and `Ev.mutex`. -/
structure LwipMbox where
  qMem : ℕ → Msg
  head : ℕ
  tail : ℕ
  msgNum : ℕ

/-- The semaphores in play: those of the mailbox, and the one `sys_msleep` makes for its caller. -/
inductive Ev (n : ℕ)
  | sem
  | mutex
  | delay (t : Fin n)
  deriving DecidableEq

/-- The assertions the mailbox functions can stop in. -/
inductive AssertSite
  | creatingSem
  | mboxPost
  | releasingSem
  deriving DecidableEq, Repr

def AssertSite.message : AssertSite → String
  | .creatingSem => "[Sys_arch]Error creating sem"
  | .mboxPost => "mbox post error, we can not handle it now, Just drop msg!"
  | .releasingSem => "Error releasing semaphore"

/-! ## Creation -/

variable {n : ℕ}

/-- `OSSemCreate`: `none` when no event control block is left. -/
def osSemCreate (k : Kernel (Ev n) n) (e : Ev n) (cnt : ℕ) : Option (Kernel (Ev n) n) :=
  if 0 < k.intNesting then none
  else if k.eventFree = 0 then none
  else some ({ k with eventFree := k.eventFree - 1 }.setEvent e ⟨cnt, ∅⟩)

/-- `sys_sem_new`. -/
def sysSemNew (k : Kernel (Ev n) n) (e : Ev n) (count : ℕ) : Except AssertSite (Kernel (Ev n) n) :=
  match osSemCreate k e count with
  | none => .error .creatingSem
  | some k' => .ok k'

/-- `sys_mbox_new`. -/
def sysMboxNew (k : Kernel (Ev n) n) : Except AssertSite (LwipMbox × Kernel (Ev n) n) := do
  let k ← sysSemNew k .sem 0
  let k ← sysSemNew k .mutex 1
  pure (⟨fun _ => 0, 0, 0, 0⟩, k)

/-! ## Tasks -/

/-- A call a task can make; `msg` of the fetches is whether the pointer to store through is
non-null. -/
inductive Op
  | post (msg : Msg)
  | trypost (msg : Msg)
  | fetch (msg : Bool) (timeout : BitVec 32)
  | tryfetch (msg : Bool)
  deriving DecidableEq, Repr

def Op.isFetch : Op → Bool
  | .fetch _ _ | .tryfetch _ => true
  | _ => false

/-- The message of a post. -/
def Op.msg : Op → Msg
  | .post m | .trypost m => m
  | _ => 0

/-- Whether a fetch stores through its pointer. -/
def Op.stores : Op → Bool
  | .fetch b _ | .tryfetch b => b
  | _ => false

/-- The timeout a fetch waits for the message semaphore with. -/
def Op.timeout : Op → BitVec 32
  | .fetch _ timeout => timeout
  | _ => 1

/-- A call in progress: its number, the local `wait_ticks`, and what `*msg` was last set to. -/
structure Call where
  id : ℕ
  op : Op
  waitTicks : BitVec 32
  out : Option Msg

/-- What a call returns. -/
inductive Ret
  | void
  | errOk
  | errMem
  | time (ticks : BitVec 32)
  deriving DecidableEq, Repr

/-- Program points. -/
inductive Point
  /-- the loop test of `sys_mbox_post`, outside the mutex -/
  | poll
  /-- `sys_msleep(1)`: making the semaphore, waiting, deleting it -/
  | sleepNew | sleep (w : WaitPt) | sleepFree
  /-- the first test of `sys_arch_mbox_tryfetch`, outside the mutex -/
  | fetchPoll
  /-- waiting for the message semaphore, and for the mutex -/
  | wait (w : WaitPt) | lock (w : WaitPt)
  /-- the posts' test under the mutex, and the unlock of a `trypost` that found the box full -/
  | check | fullUnlock
  | write | headInc | headWrap | numInc | signal
  | read | tailInc | tailWrap | numDec
  | unlock
  /-- a failed assertion -/
  | spin (site : AssertSite)
  deriving DecidableEq, Repr

/-- What a task is doing. -/
inductive Ctl
  | idle
  | at (c : Call) (pt : Point)

/-- History of a run, not part of the program's state: calls made (a call's number is its place in
the list), messages written to the ring and read from it in order, with the number of the call, calls
that have returned, and waits that took a token and reported a timeout. -/
structure History where
  calls : List Op
  stored : List (ℕ × Msg)
  handed : List (ℕ × Msg)
  returned : List (Call × Ret)
  strayed : ℕ

/-- The mailbox, the kernel and the tasks. -/
structure Sys (n : ℕ) where
  mbox : LwipMbox
  kernel : Kernel (Ev n) n
  ctl : Fin n → Ctl
  hist : History

namespace Sys

/-- Task `t` goes on at `pt`. -/
def goto (s : Sys n) (t : Fin n) (c : Call) (pt : Point) : Sys n :=
  { s with ctl := Function.update s.ctl t (.at c pt) }

/-- Task `t` returns `r` from its call. -/
def ret (s : Sys n) (t : Fin n) (c : Call) (r : Ret) : Sys n :=
  { s with
    ctl := Function.update s.ctl t .idle
    hist := { s.hist with returned := s.hist.returned ++ [(c, r)] } }

def withKernel (s : Sys n) (k : Kernel (Ev n) n) : Sys n := { s with kernel := k }

def withMbox (s : Sys n) (m : LwipMbox) : Sys n := { s with mbox := m }

section fields
variable (s : Sys n) (t : Fin n) (c : Call) (pt : Point) (r : Ret) (k : Kernel (Ev n) n) (m : LwipMbox)

@[simp] theorem goto_mbox : (s.goto t c pt).mbox = s.mbox := rfl
@[simp] theorem goto_kernel : (s.goto t c pt).kernel = s.kernel := rfl
@[simp] theorem goto_hist : (s.goto t c pt).hist = s.hist := rfl
@[simp] theorem ret_mbox : (s.ret t c r).mbox = s.mbox := rfl
@[simp] theorem ret_kernel : (s.ret t c r).kernel = s.kernel := rfl
@[simp] theorem ret_stored : (s.ret t c r).hist.stored = s.hist.stored := rfl
@[simp] theorem ret_handed : (s.ret t c r).hist.handed = s.hist.handed := rfl
@[simp] theorem ret_strayed : (s.ret t c r).hist.strayed = s.hist.strayed := rfl
@[simp] theorem withKernel_mbox : (s.withKernel k).mbox = s.mbox := rfl
@[simp] theorem withKernel_kernel : (s.withKernel k).kernel = k := rfl
@[simp] theorem withKernel_ctl : (s.withKernel k).ctl = s.ctl := rfl
@[simp] theorem withKernel_hist : (s.withKernel k).hist = s.hist := rfl
@[simp] theorem withMbox_mbox : (s.withMbox m).mbox = m := rfl
@[simp] theorem withMbox_kernel : (s.withMbox m).kernel = s.kernel := rfl
@[simp] theorem withMbox_ctl : (s.withMbox m).ctl = s.ctl := rfl
@[simp] theorem withMbox_hist : (s.withMbox m).hist = s.hist := rfl

theorem goto_ctl : (s.goto t c pt).ctl t = .at c pt := Function.update_self ..
theorem goto_ctl_of_ne {u : Fin n} (hu : u ≠ t) : (s.goto t c pt).ctl u = s.ctl u :=
  Function.update_of_ne hu ..

end fields

/-- `sys_sem_signal`, with what comes after it. -/
def sysSemSignal (s : Sys n) (t : Fin n) (c : Call) (e : Ev n) (next : Sys n → Sys n) : Sys n :=
  match osSemPost s.kernel e with
  | (.none, k) => next (s.withKernel k)
  | (_, k) => (s.withKernel k).goto t c (.spin .releasingSem)

/-- Where a call goes once `sys_mutex_lock` has returned. -/
def afterLock (op : Op) : Point := if op.isFetch then .read else .check

/-- What a call returns at its end. -/
def result (c : Call) : Ret :=
  match c.op with
  | .post _ => .void
  | .trypost _ => .errOk
  | .fetch _ _ => .time c.waitTicks
  | .tryfetch _ => .time 0

/-- The message semaphore's wait returned `ticks` to a fetch: on to the mutex, or out with a
timeout. `took` says whether it took a token, for the history only. -/
def waited (s : Sys n) (t : Fin n) (c : Call) (took : Bool) (ticks : BitVec 32) : Sys n :=
  if ticks ≠ sysArchTimeout then s.goto t { c with waitTicks := ticks } (.lock .accept)
  else
    ({ s with hist := { s.hist with strayed := s.hist.strayed + if took then 1 else 0 } }).ret t
      (if c.op.stores then { c with out := some 0 } else c) (.time sysArchTimeout)

/-- One step of task `t` in call `c` at the given point. -/
def exec (s : Sys n) (t : Fin n) (c : Call) : Point → Option (Sys n)
  | .poll =>
    some (s.goto t c (if maxQueueEntries ≤ s.mbox.msgNum then .sleepNew else .lock .accept))
  | .sleepNew =>
    match sysSemNew s.kernel (.delay t) 0 with
    | .error site => some (s.goto t c (.spin site))
    | .ok k => some ((s.withKernel k).goto t c (.sleep .accept))
  | .sleep w =>
    match sysArchSemWait s.kernel t (.delay t) 1 w with
    | none => none
    | some (.at w, k) => some ((s.withKernel k).goto t c (.sleep w))
    | some (.done _ _, k) => some ((s.withKernel k).goto t c .sleepFree)
  | .sleepFree =>
    some (({ s with kernel := { s.kernel with eventFree := s.kernel.eventFree + 1 } }).goto t c .poll)
  | .fetchPoll =>
    if s.mbox.msgNum = 0 then some (s.ret t c (.time sysArchTimeout))
    else some (s.goto t c (.wait .accept))
  | .wait w =>
    match sysArchSemWait s.kernel t .sem c.op.timeout w with
    | none => none
    | some (.at w, k) => some ((s.withKernel k).goto t c (.wait w))
    | some (.done took ticks, k) => some ((s.withKernel k).waited t c took ticks)
  | .lock w =>
    match sysArchSemWait s.kernel t .mutex 0 w with
    | none => none
    | some (.at w, k) => some ((s.withKernel k).goto t c (.lock w))
    | some (.done _ _, k) => some ((s.withKernel k).goto t c (afterLock c.op))
  | .check =>
    if maxQueueEntries ≤ s.mbox.msgNum then
      match c.op with
      | .post _ => some (s.goto t c (.spin .mboxPost))
      | _ => some (s.goto t c .fullUnlock)
    else some (s.goto t c .write)
  | .fullUnlock => some (s.sysSemSignal t c .mutex fun s => s.ret t c .errMem)
  | .write =>
    some ({ s.withMbox { s.mbox with qMem := Function.update s.mbox.qMem s.mbox.head c.op.msg } with
      hist := { s.hist with stored := s.hist.stored ++ [(c.id, c.op.msg)] } }.goto t c .headInc)
  | .headInc =>
    some ((s.withMbox { s.mbox with head := s.mbox.head + 1 }).goto t c .headWrap)
  | .headWrap =>
    some ((if maxQueueEntries ≤ s.mbox.head then s.withMbox { s.mbox with head := 0 } else s).goto
      t c .numInc)
  | .numInc =>
    some ((s.withMbox { s.mbox with msgNum := s.mbox.msgNum + 1 }).goto t c .signal)
  | .signal => some (s.sysSemSignal t c .sem fun s => s.goto t c .unlock)
  | .read =>
    let m := s.mbox.qMem s.mbox.tail
    some ({ s with hist := { s.hist with handed := s.hist.handed ++ [(c.id, m)] } }.goto t
      (if c.op.stores then { c with out := some m } else c) .tailInc)
  | .tailInc =>
    some ((s.withMbox { s.mbox with tail := s.mbox.tail + 1 }).goto t c .tailWrap)
  | .tailWrap =>
    some ((if maxQueueEntries ≤ s.mbox.tail then s.withMbox { s.mbox with tail := 0 } else s).goto
      t c .numDec)
  | .numDec =>
    -- with `msg_num` at 0 the decrement is skipped; `sys_arch_mbox_fetch` then prints an error
    some ((if 0 < s.mbox.msgNum then s.withMbox { s.mbox with msgNum := s.mbox.msgNum - 1 }
      else s).goto t c .unlock)
  | .unlock => some (s.sysSemSignal t c .mutex fun s => s.ret t c (result c))
  | .spin _ => some s

/-- Where a call starts. -/
def entry : Op → Point
  | .post _ => .poll
  | .trypost _ => .lock .accept
  | .fetch _ _ => .wait .accept
  | .tryfetch _ => .fetchPoll

end Sys

/-- What can happen next: a task makes a call or runs one step, a tick interrupt, and event control
blocks taken or given back by the rest of the system. -/
inductive Act (n : ℕ)
  | call (t : Fin n) (op : Op)
  | run (t : Fin n)
  | tick
  | events (free : ℕ)

def Sys.step (s : Sys n) : Act n → Option (Sys n)
  | .call t op =>
    match s.ctl t with
    | .idle => some ({ s with hist := { s.hist with calls := s.hist.calls ++ [op] } }.goto t
        ⟨s.hist.calls.length, op, 0, none⟩ (Sys.entry op))
    | .at _ _ => none
  | .run t =>
    match s.ctl t with
    | .idle => none
    | .at c pt => s.exec t c pt
  | .tick => some (s.withKernel (sysTickHandler s.kernel))
  | .events free => some (s.withKernel { s.kernel with eventFree := free })

/-- A mailbox that `sys_mbox_new` has just made at task level, no task using it yet. -/
def Sys.Fresh (s : Sys n) : Prop :=
  ∃ k : Kernel (Ev n) n, k.intNesting = 0 ∧ k.lockNesting = 0 ∧ Coherent k (fun _ => none) ∧
    sysMboxNew k = .ok (s.mbox, s.kernel) ∧ s.ctl = (fun _ => .idle) ∧ s.hist = ⟨[], [], [], [], 0⟩

/-- A kernel with `free` event control blocks, nothing pending. -/
def idleKernel (n free : ℕ) : Kernel (Ev n) n :=
  ⟨fun _ => ⟨0, ∅⟩, fun _ => ⟨0, .ok, false⟩, 0, 0, free, 0⟩

/-- A mailbox made on an idle kernel that is left with `free` event control blocks. -/
def newSys (n free : ℕ) : Sys n where
  mbox := ⟨fun _ => 0, 0, 0, 0⟩
  kernel := ((idleKernel n free).setEvent .sem ⟨0, ∅⟩).setEvent .mutex ⟨1, ∅⟩
  ctl := fun _ => .idle
  hist := ⟨[], [], [], [], 0⟩

theorem newSys_fresh (n free : ℕ) : (newSys n free).Fresh :=
  ⟨idleKernel n (free + 2), rfl, rfl,
    ⟨by simp [idleKernel], by simp [idleKernel], by simp, by simp [idleKernel]⟩, rfl, rfl, rfl⟩

/-- Tasks using one mailbox. -/
def mboxMachine (n : ℕ) : Machine (Sys n) (Act n) where
  init := Sys.Fresh
  step := Sys.step

end LoraGateway.SysArch
