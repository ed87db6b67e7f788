import LoraGateway.Lib.Bitmap
import LoraGateway.Os.Sem

/-!
# Tasks of the kernel

What `os_core.c`, `os_task.c`, `os_time.c` and `os_sem.c` do to the ready list, the wait lists and the task control
blocks, bit by bit. A task is known by its priority. The calls leave out names, messages, hooks and stacks.

A call is cut where it lets interrupts in: `osTaskDel` and `osSemPend` have a second half, and most calls are followed
by `osSched`, which the `Bool` they return stands for. `OSTaskCreate` has four parts. It reserves the priority
(`osTaskCreate`), takes a block (`osTcbInit`), enters the block in `OSTCBPrioTbl` (`osTcbEnter`), and links the block in
and makes the task ready (`osTcbLink`). `stage` says how far it is with a priority, so that `OSTCBPrioTbl` has
`OS_TCB_RESERVED` where `prioTbl` has nothing and `stage` has something. Between the third part and the fourth the other
calls find a task that is on no list. A context switch is requested by `switch` and done by `pendSvHandler`.
-/

namespace LoraGateway.Os

open Lib

/-- A priority, `OS_LOWEST_PRIO` the largest. -/
abbrev Prio := Fin (8 * 8)

/-- `OS_TASK_IDLE_PRIO`. -/
def osTaskIdlePrio : Prio := ⟨63, by decide⟩

/-- `OS_MAX_TASKS + OS_N_SYS_TASKS`. -/
def osMaxTcbs : ℕ := 10 + 1

def osUnMapTbl : List (Fin 8) := [
  0, 0, 1, 0, 2, 0, 1, 0, 3, 0, 1, 0, 2, 0, 1, 0,
  4, 0, 1, 0, 2, 0, 1, 0, 3, 0, 1, 0, 2, 0, 1, 0,
  5, 0, 1, 0, 2, 0, 1, 0, 3, 0, 1, 0, 2, 0, 1, 0,
  4, 0, 1, 0, 2, 0, 1, 0, 3, 0, 1, 0, 2, 0, 1, 0,
  6, 0, 1, 0, 2, 0, 1, 0, 3, 0, 1, 0, 2, 0, 1, 0,
  4, 0, 1, 0, 2, 0, 1, 0, 3, 0, 1, 0, 2, 0, 1, 0,
  5, 0, 1, 0, 2, 0, 1, 0, 3, 0, 1, 0, 2, 0, 1, 0,
  4, 0, 1, 0, 2, 0, 1, 0, 3, 0, 1, 0, 2, 0, 1, 0,
  7, 0, 1, 0, 2, 0, 1, 0, 3, 0, 1, 0, 2, 0, 1, 0,
  4, 0, 1, 0, 2, 0, 1, 0, 3, 0, 1, 0, 2, 0, 1, 0,
  5, 0, 1, 0, 2, 0, 1, 0, 3, 0, 1, 0, 2, 0, 1, 0,
  4, 0, 1, 0, 2, 0, 1, 0, 3, 0, 1, 0, 2, 0, 1, 0,
  6, 0, 1, 0, 2, 0, 1, 0, 3, 0, 1, 0, 2, 0, 1, 0,
  4, 0, 1, 0, 2, 0, 1, 0, 3, 0, 1, 0, 2, 0, 1, 0,
  5, 0, 1, 0, 2, 0, 1, 0, 3, 0, 1, 0, 2, 0, 1, 0,
  4, 0, 1, 0, 2, 0, 1, 0, 3, 0, 1, 0, 2, 0, 1, 0]

/-- The table at a byte. -/
def osUnMap (v : BitVec 8) : Fin 8 := osUnMapTbl.getD v.toNat 0

def osStatRdy : BitVec 8 := 0x00

def osStatSem : BitVec 8 := 0x01

def osStatSuspend : BitVec 8 := 0x08

def osStatPendAny : BitVec 8 := 0x37

/-- `OS_TCB`. -/
structure TaskTcb (ε : Type) where
  stat : BitVec 8
  statPend : StatPend
  dly : ℕ
  eventPtr : Option ε

/-- `OS_EVENT`: the count, and `OSEventGrp` with `OSEventTbl`. -/
structure Ecb where
  cnt : ℕ
  wait : Bitmap 8

/-- Error codes of the task calls. -/
inductive TaskErr
  | none | createIsr | prioExist | noMoreTcb | delIsr | delIdle | del | notExist | suspendPrio | resumePrio
  | notSuspended
  deriving DecidableEq

/-- How far `OSTaskCreate` is with a priority. It is reserved, a block is taken for it, or the block is in `OSTCBPrioTbl`
and not linked in yet. -/
inductive Stage
  | reserved | taken | entered
  deriving DecidableEq

/-- The blocks that are neither free nor in the list. -/
def Stage.blocks : Option Stage → ℕ
  | some .taken => 1
  | some .entered => 1
  | _ => 0

/-- The variables of the kernel: `OSRdyGrp` with `OSRdyTbl`, `OSTCBPrioTbl` (`prioTbl` with `stage`), `OSTCBList`, the
number of blocks on `OSTCBFreeList`, the events, `OSPrioCur`, `OSPrioHighRdy`, the nesting counters, and whether `PendSV`
is pending. -/
structure OsCore (ε : Type) where
  rdy : Bitmap 8
  prioTbl : Prio → Option (TaskTcb ε)
  stage : Prio → Option Stage
  list : List Prio
  free : ℕ
  event : ε → Ecb
  prioCur : Prio
  prioHighRdy : Prio
  intNesting : ℕ
  lockNesting : ℕ
  pendSv : Bool

namespace OsCore

variable {ε : Type} [DecidableEq ε] (c : OsCore ε)

/-! ## Scheduling -/

def osSchedNew : OsCore ε := { c with prioHighRdy := c.rdy.first osUnMap }

/-- `OS_SchedNew`, and `OSCtxSw` or `OSIntCtxSw` if another task is to run. -/
def switch : OsCore ε :=
  let c := c.osSchedNew
  if c.prioHighRdy ≠ c.prioCur then { c with pendSv := true } else c

def osSched : OsCore ε :=
  if c.intNesting = 0 then
    if c.lockNesting = 0 then c.switch else c
  else c

def osIntEnter : OsCore ε := if c.intNesting < 255 then { c with intNesting := c.intNesting + 1 } else c

def osIntExit : OsCore ε :=
  let c := if 0 < c.intNesting then { c with intNesting := c.intNesting - 1 } else c
  if c.intNesting = 0 then
    if c.lockNesting = 0 then c.switch else c
  else c

def osSchedLock : OsCore ε :=
  if c.intNesting = 0 then
    if c.lockNesting < 255 then { c with lockNesting := c.lockNesting + 1 } else c
  else c

def osSchedUnlock : Bool × OsCore ε :=
  if c.intNesting = 0 then
    if 0 < c.lockNesting then
      (c.lockNesting - 1 = 0, { c with lockNesting := c.lockNesting - 1 })
    else (false, c)
  else (false, c)

/-- `PendSV_Handler`. -/
def pendSvHandler : OsCore ε := { c with prioCur := c.prioHighRdy, pendSv := false }

/-! ## Ready list, wait lists and control blocks -/

def setRdy (p : Prio) : OsCore ε := { c with rdy := c.rdy.insert p }

def clrRdy (p : Prio) : OsCore ε := { c with rdy := c.rdy.erase p }

def setTcb (p : Prio) (t : TaskTcb ε) : OsCore ε := { c with prioTbl := Function.update c.prioTbl p (some t) }

def setStage (p : Prio) (g : Option Stage) : OsCore ε := { c with stage := Function.update c.stage p g }

def setEvent (e : ε) (ev : Ecb) : OsCore ε := { c with event := Function.update c.event e ev }

/-- `OS_EventTaskWait`, with the block of the current task. -/
def osEventTaskWait (e : ε) (t : TaskTcb ε) : OsCore ε :=
  ((c.setTcb c.prioCur { t with eventPtr := some e }).setEvent e
    { c.event e with wait := (c.event e).wait.insert c.prioCur }).clrRdy c.prioCur

/-- `OS_EventTaskRemove`. -/
def osEventTaskRemove (p : Prio) (t : TaskTcb ε) (e : ε) : OsCore ε :=
  (c.setTcb p { t with eventPtr := none }).setEvent e { c.event e with wait := (c.event e).wait.erase p }

/-- `OS_EventTaskRdy` for a semaphore. -/
def osEventTaskRdy (e : ε) (pendStat : StatPend) : OsCore ε :=
  let p := (c.event e).wait.first osUnMap
  match c.prioTbl p with
  | none => c
  | some t =>
    let t : TaskTcb ε := { t with dly := 0, stat := t.stat &&& ~~~osStatSem, statPend := pendStat }
    let c := if t.stat &&& osStatSuspend = osStatRdy then c.setRdy p else c
    c.osEventTaskRemove p t e

/-! ## Tasks -/

/-- `OSTaskCreate` up to where it lets interrupts in: the priority is reserved. -/
def osTaskCreate (p : Prio) : TaskErr × OsCore ε :=
  if 0 < c.intNesting then (.createIsr, c)
  else if (c.prioTbl p).isSome ∨ (c.stage p).isSome then (.prioExist, c)
  else (.none, c.setStage p (some .reserved))

/-- The first part of `OS_TCBInit`: a block is taken. -/
def osTcbInit (p : Prio) : TaskErr × OsCore ε :=
  if c.free = 0 then (.noMoreTcb, c)
  else (.none, { c.setStage p (some .taken) with free := c.free - 1 })

/-- The second part of `OS_TCBInit`: the block, set up by now, goes into `OSTCBPrioTbl`. -/
def osTcbEnter (p : Prio) : OsCore ε := (c.setTcb p ⟨osStatRdy, .ok, 0, none⟩).setStage p (some .entered)

/-- The third part of `OS_TCBInit`: the block goes into `OSTCBList`, and the task is ready. -/
def osTcbLink (p : Prio) : OsCore ε :=
  { c.setStage p none with
    list := p :: c.list
    rdy := c.rdy.insert p }

/-- The end of `OSTaskCreate` where there was no block: the priority is given back. -/
def osTaskCreateEnd (p : Prio) : OsCore ε := c.setStage p none

/-- `OSTaskCreate` as a whole, before there are interrupts. -/
def createTask (p : Prio) : OsCore ε :=
  match c.osTaskCreate p with
  | (.none, c) =>
    match c.osTcbInit p with
    | (.none, c) => (c.osTcbEnter p).osTcbLink p
    | (_, c) => c.osTaskCreateEnd p
  | (_, c) => c

/-- `OSTaskDel` up to where it lets interrupts in; the task that is to go comes with it. `none` is `OS_PRIO_SELF`. -/
def osTaskDel (prio : Option Prio) : TaskErr × Option Prio × OsCore ε :=
  if 0 < c.intNesting then (.delIsr, none, c)
  else if prio = some osTaskIdlePrio then (.delIdle, none, c)
  else
    let p := prio.getD c.prioCur
    match c.prioTbl p with
    | none => (if (c.stage p).isSome then .del else .notExist, none, c)
    | some t =>
      let c := c.clrRdy p
      let c := match t.eventPtr with
        | some e => c.osEventTaskRemove p t e
        | none => c
      let c := c.setTcb p ⟨osStatRdy, .ok, 0, none⟩
      (.none, some p, if c.lockNesting < 255 then { c with lockNesting := c.lockNesting + 1 } else c)

/-- `OSTaskDel` from there on, for a task that is in the list. -/
def osTaskDelEnd (p : Prio) : OsCore ε :=
  { c with
    lockNesting := if 0 < c.lockNesting then c.lockNesting - 1 else c.lockNesting
    prioTbl := Function.update c.prioTbl p none
    list := c.list.erase p
    free := c.free + 1 }

def osTaskSuspend (prio : Option Prio) : TaskErr × Bool × OsCore ε :=
  let p := prio.getD c.prioCur
  match c.prioTbl p with
  | none => (if (c.stage p).isSome then .notExist else .suspendPrio, false, c)
  | some t => (.none, p = c.prioCur, (c.clrRdy p).setTcb p { t with stat := t.stat ||| osStatSuspend })

def osTaskResume (p : Prio) : TaskErr × Bool × OsCore ε :=
  match c.prioTbl p with
  | none => (if (c.stage p).isSome then .notExist else .resumePrio, false, c)
  | some t =>
    if t.stat &&& osStatSuspend ≠ osStatRdy then
      let t : TaskTcb ε := { t with stat := t.stat &&& ~~~osStatSuspend }
      let c := c.setTcb p t
      if t.stat &&& osStatPendAny = osStatRdy then
        if t.dly = 0 then (.none, true, c.setRdy p) else (.none, false, c)
      else (.none, false, c)
    else (.notSuspended, false, c)

/-! ## Time -/

def osTimeDly (ticks : ℕ) : Bool × OsCore ε :=
  if 0 < c.intNesting then (false, c)
  else if 0 < c.lockNesting then (false, c)
  else if 0 < ticks then
    match c.prioTbl c.prioCur with
    | none => (true, c.clrRdy c.prioCur)
    | some t => (true, (c.clrRdy c.prioCur).setTcb c.prioCur { t with dly := ticks })
  else (false, c)

/-- One turn of the loop of `OSTimeTick`. -/
def tickTask (p : Prio) : OsCore ε :=
  match c.prioTbl p with
  | none => c
  | some t =>
    if t.dly ≠ 0 then
      let t : TaskTcb ε := { t with dly := t.dly - 1 }
      if t.dly = 0 then
        let t : TaskTcb ε :=
          if t.stat &&& osStatPendAny ≠ osStatRdy then
            { t with stat := t.stat &&& ~~~osStatPendAny, statPend := .timeout }
          else { t with statPend := .ok }
        let c := c.setTcb p t
        if t.stat &&& osStatSuspend = osStatRdy then c.setRdy p else c
      else c.setTcb p t
    else c

/-- The loop of `OSTimeTick`, down the list to the idle task. -/
def tickTasks : List Prio → OsCore ε → OsCore ε
  | [], c => c
  | p :: ps, c => if p = osTaskIdlePrio then c else tickTasks ps (c.tickTask p)

def osTimeTick : OsCore ε := tickTasks c.list c

/-! ## Semaphores -/

/-- `OSSemPend` up to the return, or to the suspension (`none`). -/
def osSemPend (e : ε) (timeout : ℕ) : Option OsErr × OsCore ε :=
  if 0 < c.intNesting then (some .pendIsr, c)
  else if 0 < c.lockNesting then (some .pendLocked, c)
  else if 0 < (c.event e).cnt then
    (some .none, c.setEvent e { c.event e with cnt := (c.event e).cnt - 1 })
  else
    match c.prioTbl c.prioCur with
    | none => (none, c)
    | some t =>
      (none, c.osEventTaskWait e { t with stat := t.stat ||| osStatSem, statPend := .ok, dly := timeout })

/-- `OSSemPend` after the suspension. -/
def osSemPendEnd (e : ε) : OsErr × OsCore ε :=
  match c.prioTbl c.prioCur with
  | none => (.timeout, c)
  | some t =>
    let ready : TaskTcb ε := { t with stat := osStatRdy, statPend := .ok, eventPtr := none }
    match t.statPend with
    | .ok => (.none, c.setTcb c.prioCur ready)
    | .abort => (.pendAbort, c.setTcb c.prioCur ready)
    | .timeout => (.timeout, (c.osEventTaskRemove c.prioCur t e).setTcb c.prioCur ready)

def osSemPost (e : ε) : OsErr × Bool × OsCore ε :=
  if (c.event e).wait.grp ≠ 0 then (.none, true, c.osEventTaskRdy e .ok)
  else if (c.event e).cnt < 65535 then
    (.none, false, c.setEvent e { c.event e with cnt := (c.event e).cnt + 1 })
  else (.semOvf, false, c)

/-! ## Starting up -/

/-- The kernel before there is a task. -/
def start (cnt : ε → ℕ) : OsCore ε :=
  ⟨.empty, fun _ => none, fun _ => none, [], osMaxTcbs, fun e => ⟨cnt e, .empty⟩, 0, 0, 0, 0, false⟩

/-- `OSInit`: the idle task is there. -/
def osInit (cnt : ε → ℕ) : OsCore ε := (start cnt).createTask osTaskIdlePrio

/-- `OSStart`, which ends in a request for the first task. -/
def osStart : OsCore ε :=
  let c := c.osSchedNew
  { c with prioCur := c.prioHighRdy, pendSv := true }

end OsCore

/-! ## The table of lowest bits -/

set_option maxRecDepth 8000 in
theorem isLowest_osUnMap : Bitmap.IsLowest osUnMap := by
  unfold Bitmap.IsLowest
  decide

end LoraGateway.Os
