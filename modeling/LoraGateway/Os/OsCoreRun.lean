import LoraGateway.Lib.Machine
import LoraGateway.Os.OsCoreCalls

/-!
# Runs of the kernel

Tasks and interrupts in any interleaving. The task that has the processor makes its calls one part after the other,
with interrupts in between; while `PendSV` is pending, or an interrupt is served, it does not get on. What interrupts
do with the kernel is `OSTimeTick` and `OSSemPost`.

A task deletes itself only with the scheduler unlocked, nobody suspends the idle task, and the idle task makes no calls.
Nobody deletes or suspends a task while `OS_TCBInit` has entered its block and not linked it in: `OSTaskDel` would take it
off a list it is not on, and `OSTaskSuspend` would be undone (`OsSys.ok`).

What the tables say of each task (`OsOk`), who is to run (`SchedOk`) and how far each `OSTaskCreate` is (`MakeOk`) are kept
by every step. A step is a change of one task at most (`OsOk.change`), a change of what the tables do not have
(`OsOk.congr`), or a part of `OSTaskCreate` or `OSTaskDel`.
-/

namespace LoraGateway.Os

open Lib
open scoped BigOperators

/-- What of `OSTaskCreate` comes next once the priority is reserved: a part of `OS_TCBInit`, or the end where there was
no block. -/
inductive CreatePt
  | tcbInit | noTcb | enter | link
  deriving DecidableEq

def CreatePt.stage : CreatePt → Stage
  | .tcbInit => .reserved
  | .noTcb => .reserved
  | .enter => .taken
  | .link => .entered

/-- Where a task is between the parts of its calls: in `OSTaskCreate`, before `OS_Sched` (in `OSSemPend` or another
call), between the two halves of `OSTaskDel`, or at the second half of `OSSemPend`. -/
inductive Pc (ε : Type)
  | run
  | creating (k : CreatePt) (p : Prio)
  | sched (e : Option ε)
  | delEnd (p : Prio)
  | pendEnd (e : ε)
  deriving DecidableEq

/-- The semaphore that the task is inside `OSSemPend` for. -/
def Pc.pending {ε : Type} : Pc ε → Option ε
  | .run => none
  | .creating _ _ => none
  | .sched e => e
  | .delEnd _ => none
  | .pendEnd e => some e

/-- The task is not on its way to `OS_Sched`. -/
def Pc.Settled {ε : Type} : Pc ε → Prop
  | .sched _ => False
  | .delEnd _ => False
  | _ => True

structure OsSys (ε : Type) where
  core : OsCore ε
  pc : Prio → Pc ε

inductive OsCall (ε : Type)
  | taskCreate (p : Prio)
  | taskDel (prio : Option Prio)
  | taskSuspend (prio : Option Prio)
  | taskResume (p : Prio)
  | timeDly (ticks : ℕ)
  | semPend (e : ε) (timeout : ℕ)
  | semPost (e : ε)
  | schedLock
  | schedUnlock
  deriving DecidableEq

inductive OsAct (ε : Type)
  | call (a : OsCall ε)
  | next
  | intEnter
  | intExit
  | tick
  | pendSv
  deriving DecidableEq

variable {ε : Type} [DecidableEq ε]

/-- Whether `OS_Sched` comes next. -/
def Pc.after (sched : Bool) : Pc ε := if sched then .sched none else .run

/-- The first part of a call, and where the caller is then. -/
def OsCall.run (c : OsCore ε) : OsCall ε → Pc ε × OsCore ε
  | .taskCreate p =>
    (if (c.osTaskCreate p).1 = .none then .creating .tcbInit p else .run, (c.osTaskCreate p).2)
  | .taskDel prio =>
    ((c.osTaskDel prio).2.1.elim .run .delEnd, (c.osTaskDel prio).2.2)
  | .taskSuspend prio => (.after (c.osTaskSuspend prio).2.1, (c.osTaskSuspend prio).2.2)
  | .taskResume p => (.after (c.osTaskResume p).2.1, (c.osTaskResume p).2.2)
  | .timeDly ticks => (.after (c.osTimeDly ticks).1, (c.osTimeDly ticks).2)
  | .semPend e timeout =>
    (if (c.osSemPend e timeout).1 = none then .sched (some e) else .run, (c.osSemPend e timeout).2)
  | .semPost e => (.after (c.osSemPost e).2.1, (c.osSemPost e).2.2)
  | .schedLock => (.run, c.osSchedLock)
  | .schedUnlock => (.after c.osSchedUnlock.1, c.osSchedUnlock.2)

def OsCall.isPost : OsCall ε → Bool
  | .semPost _ => true
  | _ => false

/-- A further part of `OSTaskCreate`, and where the caller is then. -/
def CreatePt.run (c : OsCore ε) (p : Prio) : CreatePt → Pc ε × OsCore ε
  | .tcbInit => (.creating (if (c.osTcbInit p).1 = .none then .enter else .noTcb) p, (c.osTcbInit p).2)
  | .noTcb => (.run, c.osTaskCreateEnd p)
  | .enter => (.creating .link p, c.osTcbEnter p)
  | .link => (.sched none, c.osTcbLink p)

namespace OsSys

/-- A task that is linked in starts from its beginning. -/
def started (s : OsSys ε) : CreatePt → Prio → Prio → Pc ε
  | .link, p => Function.update s.pc p .run
  | _, _ => s.pc

def step (s : OsSys ε) : OsAct ε → Option (OsSys ε)
  | .call a =>
    if 0 < s.core.intNesting then some { s with core := (a.run s.core).2 }
    else if s.core.pendSv then none
    else match s.pc s.core.prioCur with
      | .run => some ⟨(a.run s.core).2, Function.update s.pc s.core.prioCur (a.run s.core).1⟩
      | _ => none
  | .next =>
    if 0 < s.core.intNesting then none
    else if s.core.pendSv then none
    else match s.pc s.core.prioCur with
      | .run => none
      | .creating k p =>
        some ⟨(k.run s.core p).2, Function.update (s.started k p) s.core.prioCur (k.run s.core p).1⟩
      | .sched e => some ⟨s.core.osSched, Function.update s.pc s.core.prioCur (e.elim .run .pendEnd)⟩
      | .delEnd p => some ⟨s.core.osTaskDelEnd p, Function.update s.pc s.core.prioCur (.sched none)⟩
      | .pendEnd e => some ⟨(s.core.osSemPendEnd e).2, Function.update s.pc s.core.prioCur .run⟩
  | .intEnter => some { s with core := s.core.osIntEnter }
  | .intExit => if 0 < s.core.intNesting then some { s with core := s.core.osIntExit } else none
  | .tick => if 0 < s.core.intNesting then some { s with core := s.core.osTimeTick } else none
  | .pendSv =>
    if s.core.intNesting = 0 ∧ s.core.pendSv = true then some { s with core := s.core.pendSvHandler } else none

/-- What the current task may call. -/
def taskOk (s : OsSys ε) : OsCall ε → Prop
  | .taskDel prio =>
    (prio.getD s.core.prioCur = s.core.prioCur → s.core.lockNesting = 0) ∧
      s.core.stage (prio.getD s.core.prioCur) ≠ some .entered
  | .taskSuspend prio => prio ≠ some osTaskIdlePrio ∧ s.core.stage (prio.getD s.core.prioCur) ≠ some .entered
  | _ => True

/-- What tasks and interrupts may call. -/
def ok (s : OsSys ε) : OsAct ε → Prop
  | .call a =>
    if 0 < s.core.intNesting then ∃ e, a = .semPost e else s.core.prioCur ≠ osTaskIdlePrio ∧ s.taskOk a
  | _ => True

instance (s : OsSys ε) : (a : OsCall ε) → Decidable (s.taskOk a)
  | .taskDel prio => inferInstanceAs (Decidable
      ((prio.getD s.core.prioCur = s.core.prioCur → s.core.lockNesting = 0) ∧
        s.core.stage (prio.getD s.core.prioCur) ≠ some .entered))
  | .taskSuspend prio => inferInstanceAs (Decidable
      (prio ≠ some osTaskIdlePrio ∧ s.core.stage (prio.getD s.core.prioCur) ≠ some .entered))
  | .taskCreate _ | .taskResume _ | .timeDly _ | .semPend _ _ | .semPost _ | .schedLock | .schedUnlock => .isTrue trivial

omit [DecidableEq ε] in
theorem isPost_iff (a : OsCall ε) : a.isPost = true ↔ ∃ e, a = .semPost e := by
  cases a <;> simp [OsCall.isPost]

instance (s : OsSys ε) : (a : OsAct ε) → Decidable (s.ok a)
  | .call a =>
    have : Decidable (∃ e, a = .semPost e) := decidable_of_iff _ (isPost_iff a)
    inferInstanceAs (Decidable (if 0 < s.core.intNesting then ∃ e, a = .semPost e
      else s.core.prioCur ≠ osTaskIdlePrio ∧ s.taskOk a))
  | .next | .intEnter | .intExit | .tick | .pendSv => .isTrue trivial

/-- The tasks that are created before `OSStart`, one after the other. -/
def boot (cnt : ε → ℕ) (prios : List Prio) : OsSys ε :=
  ⟨(prios.foldl OsCore.createTask (OsCore.osInit cnt)).osStart, fun _ => .run⟩

/-- The current task is in the middle of deleting `p`. -/
def Deleting (s : OsSys ε) (p : Prio) : Prop := s.pc s.core.prioCur = .delEnd p

/-- `p` has a block and is on no list: it is about to be linked in, or its block is about to be taken away. -/
def Apart (s : OsSys ε) (p : Prio) : Prop := s.Deleting p ∨ s.core.stage p = some .entered

end OsSys

def osMachine : Machine (OsSys ε) (OsAct ε) where
  init s := ∃ cnt prios, s = .boot cnt prios
  step := OsSys.step

/-! ## The invariant -/

/-- `p` is ready, and no task of higher priority is. -/
def OsCore.Highest (c : OsCore ε) (p : Prio) : Prop := c.rdy.mem p = true ∧ ∀ q, c.rdy.mem q = true → p ≤ q

/-- The blocks that `OS_TCBInit` has taken and not linked in yet. -/
def OsCore.taken (c : OsCore ε) : ℕ := ∑ p, Stage.blocks (c.stage p)

/-- `OSTCBList` has the tasks there are, the idle task at its end; what is neither there nor taken is free. -/
structure OsCore.Listed (c : OsCore ε) : Prop where
  idle : ∃ l, c.list = l ++ [osTaskIdlePrio] ∧ osTaskIdlePrio ∉ l
  nodup : c.list.Nodup
  mem : ∀ p, p ∈ c.list ↔ (c.prioTbl p).isSome ∧ c.stage p ≠ some .entered
  entry : ∀ p g, c.stage p = some g → ((c.prioTbl p).isSome ↔ g = .entered)
  free : c.free + c.list.length + c.taken = osMaxTcbs

structure OsOk (s : OsSys ε) : Prop where
  tables : s.core.Tables
  view : ∀ p, (s.core.view p).Ok (s.pc p).pending (s.Apart p)
  listed : s.core.Listed
  idle : s.core.prioTbl osTaskIdlePrio = some .fresh ∧ s.pc osTaskIdlePrio = .run ∧ ¬ s.Apart osTaskIdlePrio
  del : ∀ p, s.Deleting p → s.core.stage p = none

/-- Who is in `OSTaskCreate` for a priority is alone in that, and `stage` says how far it is. -/
structure MakeOk (s : OsSys ε) : Prop where
  stage : ∀ t k p, s.pc t = .creating k p → s.core.stage p = some k.stage
  alone : ∀ t u k k' p, s.pc t = .creating k p → s.pc u = .creating k' p → t = u

/-- What is scheduled. Once the switch is requested it goes to the highest ready task; without a request, a task that
is not about to call `OS_Sched` is the highest ready one. -/
structure SchedOk (s : OsSys ε) : Prop where
  high : s.core.intNesting = 0 → s.core.lockNesting = 0 → s.core.pendSv = true → s.core.Highest s.core.prioHighRdy
  cur : s.core.intNesting = 0 → s.core.lockNesting = 0 → s.core.pendSv = false →
    (s.pc s.core.prioCur).Settled → s.core.Highest s.core.prioCur
  unlocked : s.core.pendSv = true → s.core.lockNesting = 0
  locked : 0 < s.core.lockNesting → (s.pc s.core.prioCur).pending = none
  del : ∀ p q, s.pc p = .delEnd q → p = s.core.prioCur ∧ 0 < s.core.lockNesting

variable {s s' : OsSys ε} {c' : OsCore ε} {p q : Prio} {v : View ε} {e : ε} {pcs : Prio → Pc ε}

/-! ## Keeping the tables in order -/

section

omit [DecidableEq ε]

theorem not_deleting (hrun : s.pc s.core.prioCur = .run) (p : Prio) : ¬ s.Deleting p := fun hdel =>
  absurd (hrun.symm.trans hdel) nofun

theorem not_apart (hdel : ¬ s.Deleting p) (hstage : s.core.stage p ≠ some .entered) : ¬ s.Apart p :=
  not_or.mpr ⟨hdel, hstage⟩

theorem OsOk.not_apart_of_none (h : OsOk s) (hnone : s.core.prioTbl p = none) : ¬ s.Apart p := fun hapart =>
  absurd (hnone.symm.trans ((h.view p).gone hapart)) nofun

theorem OsCore.Listed.congr {c : OsCore ε} (h : c.Listed) (hlist : c'.list = c.list) (hfree : c'.free = c.free)
    (hstage : c'.stage = c.stage) (hsome : ∀ q, (c'.prioTbl q).isSome = (c.prioTbl q).isSome) : c'.Listed := by
  refine ⟨?_, ?_, fun q => ?_, fun q g hg => ?_, ?_⟩
  · rw [hlist]
    exact h.idle
  · rw [hlist]
    exact h.nodup
  · rw [hlist, hstage, hsome]
    exact h.mem q
  · rw [hsome]
    exact h.entry q g (hstage ▸ hg)
  · rw [hlist, hfree, OsCore.taken, hstage]
    exact h.free

theorem OsOk.change (h : OsOk s) (hc : s.core.Change c' p v) (hp : p ≠ osTaskIdlePrio)
    (hpcs : ∀ q, q ≠ p → (pcs q).pending = (s.pc q).pending) (hidle : pcs osTaskIdlePrio = .run)
    (hdel : ∀ q, pcs s.core.prioCur = .delEnd q ↔ s.Deleting q) (hv : v.Ok (pcs p).pending (s.Apart p))
    (htcb : v.tcb.isSome = (s.core.prioTbl p).isSome) : OsOk ⟨c', pcs⟩ := by
  have hframe := hc.frame
  simp only [OsCore.frame, Prod.mk.injEq] at hframe
  obtain ⟨⟨hstage, hlist⟩, hfree, hcur, -⟩ := hframe
  have hdel' : ∀ q, (OsSys.mk c' pcs).Deleting q ↔ s.Deleting q := fun q => by
    rw [OsSys.Deleting, hcur]
    exact hdel q
  have hapart : ∀ q, (OsSys.mk c' pcs).Apart q ↔ s.Apart q := fun q => by
    rw [OsSys.Apart, hdel' q, hstage]
    exact Iff.rfl
  have hsome : ∀ q, (c'.prioTbl q).isSome = (s.core.prioTbl q).isSome := fun q => by
    show (c'.view q).tcb.isSome = _
    by_cases hq : q = p
    · rw [hq, hc.self, htcb]
    · rw [hc.of_ne hq]
      rfl
  refine ⟨hc.tables h.tables, fun q => ?_, h.listed.congr hlist hfree hstage hsome, ⟨?_, hidle, ?_⟩, fun q hq => ?_⟩
  · rw [hapart q]
    by_cases hq : q = p
    · subst hq
      rw [hc.self]
      exact hv
    · rw [hc.of_ne hq, hpcs q hq]
      exact h.view q
  · show (c'.view osTaskIdlePrio).tcb = some .fresh
    rw [hc.of_ne hp.symm]
    exact h.idle.1
  · rw [hapart]
    exact h.idle.2.2
  · show c'.stage q = none
    rw [hstage]
    exact h.del q ((hdel' q).mp hq)

/-- The variables that are no part of the tables do not matter to them, nor which part of `OSTaskCreate` comes next
before the block is entered. -/
theorem OsOk.same_view (h : OsOk s) (hview : c'.view = s.core.view) (htables : c'.Tables) (hlisted : c'.Listed)
    (hstage : ∀ q, c'.stage q = some .entered ↔ s.core.stage q = some .entered)
    (hpcs : ∀ q, (pcs q).pending = (s.pc q).pending) (hidle : pcs osTaskIdlePrio = .run)
    (hdel : ∀ q, pcs c'.prioCur = .delEnd q ↔ s.Deleting q) (hnone : ∀ q, s.Deleting q → c'.stage q = none) :
    OsOk ⟨c', pcs⟩ := by
  have htcb : c'.prioTbl = s.core.prioTbl := funext fun q => congrArg View.tcb (congrFun hview q)
  have hapart : ∀ q, (OsSys.mk c' pcs).Apart q ↔ s.Apart q := fun q => or_congr (hdel q) (hstage q)
  refine ⟨htables, fun q => ?_, hlisted, ⟨?_, hidle, ?_⟩, fun q hq => hnone q ((hdel q).mp hq)⟩
  · rw [hview, hpcs, hapart q]
    exact h.view q
  · rw [htcb]
    exact h.idle.1
  · exact (not_congr (hapart _)).mpr h.idle.2.2

theorem OsOk.congr (h : OsOk s) (hview : c'.view = s.core.view) (htables : c'.Tables) (hlist : c'.list = s.core.list)
    (hfree : c'.free = s.core.free) (hstage : c'.stage = s.core.stage)
    (hpcs : ∀ q, (pcs q).pending = (s.pc q).pending) (hidle : pcs osTaskIdlePrio = .run)
    (hdel : ∀ q, pcs c'.prioCur = .delEnd q ↔ s.Deleting q) : OsOk ⟨c', pcs⟩ := by
  have hsome : ∀ q, (c'.prioTbl q).isSome = (s.core.prioTbl q).isSome := fun q =>
    congrArg (fun v : View ε => v.tcb.isSome) (congrFun hview q)
  refine h.same_view hview htables (h.listed.congr hlist hfree hstage hsome) (fun q => ?_) hpcs hidle hdel fun q hq => ?_
  · rw [hstage]
  · rw [hstage]
    exact h.del q hq

theorem OsOk.idle_ready (h : OsOk s) : s.core.rdy.mem osTaskIdlePrio = true :=
  (h.view osTaskIdlePrio).ready.mpr ⟨h.idle.2.2, _, h.idle.1, TaskTcb.ready_fresh⟩

theorem OsOk.highest (h : OsOk s) : s.core.Highest (s.core.rdy.first osUnMap) := by
  have hgrp : s.core.rdy.grp ≠ 0 := by
    intro hzero
    have hnone := h.tables.rdy.grp_eq_zero_iff.mp hzero osTaskIdlePrio
    exact absurd (h.idle_ready.symm.trans hnone) nofun
  exact ⟨h.tables.rdy.mem_first isLowest_osUnMap hgrp, fun q hq => h.tables.rdy.first_le isLowest_osUnMap hq⟩

theorem current_ready (h : OsOk s) (hs : SchedOk s) (hint : s.core.intNesting = 0) (hlock : s.core.lockNesting = 0)
    (hsv : s.core.pendSv = false) (hpc : (s.pc s.core.prioCur).Settled) :
    ∃ t, s.core.prioTbl s.core.prioCur = some t ∧ t.Ready ∧ ¬ s.Apart s.core.prioCur := by
  obtain ⟨hapart, t, ht, hready⟩ := (h.view _).ready.mp (hs.cur hint hlock hsv hpc).1
  exact ⟨t, ht, hready, hapart⟩

/-! ## Keeping the schedule -/

theorem SchedOk.part (h : SchedOk s) (hsv : c'.pendSv = false) (hcur : c'.prioCur = s.core.prioCur) {pc : Pc ε}
    (hpcs : ∀ q, q ≠ s.core.prioCur → pcs q = s.pc q ∨ pcs q = .run)
    (hhigh : c'.lockNesting = 0 → pc.Settled → c'.Highest s.core.prioCur)
    (hlock : 0 < c'.lockNesting → pc.pending = none) (hdel : ∀ q, pc = .delEnd q → 0 < c'.lockNesting) :
    SchedOk ⟨c', Function.update pcs s.core.prioCur pc⟩ := by
  refine ⟨fun _ _ h' => absurd (hsv.symm.trans h') nofun, fun _ hlock' _ hpc => ?_,
    fun h' => absurd (hsv.symm.trans h') nofun, fun hlock' => ?_, fun p q hpq => ?_⟩
  · simp only [hcur, Function.update_self] at hpc ⊢
    exact hhigh hlock' hpc
  · simp only [hcur, Function.update_self]
    exact hlock hlock'
  · by_cases hp : p = s.core.prioCur
    · subst hp
      simp only [Function.update_self] at hpq
      exact ⟨hcur.symm, hdel q hpq⟩
    · simp only [Function.update_of_ne hp] at hpq
      rcases hpcs p hp with heq | heq
      · exact absurd (h.del p q (heq.symm.trans hpq)).1 hp
      · exact absurd (heq.symm.trans hpq) nofun

/-- While an interrupt is served nothing is claimed of who is to run. -/
theorem SchedOk.isr (h : SchedOk s) (hint : 0 < c'.intNesting) (hlock : c'.lockNesting = s.core.lockNesting)
    (hcur : c'.prioCur = s.core.prioCur) (hsv : c'.pendSv = s.core.pendSv) : SchedOk ⟨c', s.pc⟩ := by
  refine ⟨fun h' => absurd h' (Nat.ne_of_gt hint), fun h' => absurd h' (Nat.ne_of_gt hint), ?_, ?_, ?_⟩
  · simp only [hlock, hsv]
    exact h.unlocked
  · simp only [hlock, hcur]
    exact h.locked
  · simp only [hlock, hcur]
    exact h.del

theorem OsCore.Highest.mono {c : OsCore ε} (h : c.Highest p) (hp : c'.rdy.mem p = true)
    (hle : ∀ q, c'.rdy.mem q = true → c.rdy.mem q = true) : c'.Highest p :=
  ⟨hp, fun q hq => h.2 q (hle q hq)⟩

theorem OsCore.Highest.congr {c : OsCore ε} (h : c.Highest p) (heq : ∀ q, (c'.view q).rdy = (c.view q).rdy) :
    c'.Highest p :=
  h.mono ((heq p).trans h.1) fun q hq => (heq q).symm.trans hq

theorem OsCore.Change.rdy_eq {c : OsCore ε} (hc : c.Change c' p v) (hv : v.rdy = (c.view p).rdy) (q : Prio) :
    (c'.view q).rdy = (c.view q).rdy := by
  by_cases hq : q = p
  · rw [hq, hc.self, hv]
  · rw [hc.of_ne hq]

end

/-! ## The calls of a task -/

omit [DecidableEq ε] in
theorem pending_after (b : Bool) : (Pc.after b : Pc ε).pending = none := by
  cases b <;> rfl

omit [DecidableEq ε] in
theorem after_ne_delEnd (b : Bool) (q : Prio) : (Pc.after b : Pc ε) ≠ .delEnd q := by
  cases b <;> exact nofun

omit [DecidableEq ε] in
theorem after_settled {b : Bool} (h : (Pc.after b : Pc ε).Settled) : b = false := by
  cases b with
  | false => rfl
  | true => exact h.elim

omit [DecidableEq ε] in
theorem run_settled (hrun : s.pc s.core.prioCur = .run) : (s.pc s.core.prioCur).Settled := by
  rw [hrun]
  trivial

section Calls

variable (h : OsOk s) (hs : SchedOk s) (hint : s.core.intNesting = 0) (hsv : s.core.pendSv = false)
  (hrun : s.pc s.core.prioCur = .run) (hidle : s.core.prioCur ≠ osTaskIdlePrio)

include hrun in
omit [DecidableEq ε] in
theorem call_same (hboth : OsOk s ∧ SchedOk s) :
    OsOk ⟨s.core, Function.update s.pc s.core.prioCur .run⟩ ∧
      SchedOk ⟨s.core, Function.update s.pc s.core.prioCur .run⟩ := by
  rwa [← hrun, Function.update_eq_self]

include h hs hsv hrun hidle in
omit [DecidableEq ε] in
theorem call_change (hc : s.core.Change c' p v) (hp : p ≠ osTaskIdlePrio) {b : Bool}
    (hv : v.Ok (s.pc p).pending (s.Apart p)) (htcb : v.tcb.isSome = (s.core.prioTbl p).isSome)
    (hhigh : s.core.lockNesting = 0 → b = false → c'.Highest s.core.prioCur) :
    OsOk ⟨c', Function.update s.pc s.core.prioCur (.after b)⟩ ∧
      SchedOk ⟨c', Function.update s.pc s.core.prioCur (.after b)⟩ := by
  have hframe := hc.frame
  simp only [OsCore.frame, Prod.mk.injEq] at hframe
  obtain ⟨-, -, hcur, -, -, hlock, hsv'⟩ := hframe
  have hpend : ∀ q, (Function.update s.pc s.core.prioCur (.after b) q).pending = (s.pc q).pending := fun q => by
    by_cases hq : q = s.core.prioCur
    · rw [hq, Function.update_self, pending_after, hrun]
      rfl
    · rw [Function.update_of_ne hq]
  refine ⟨h.change hc hp (fun q _ => hpend q) ?_ (fun q => ?_) ?_ htcb, hs.part (hsv'.trans hsv) hcur
    (fun q _ => .inl rfl) (fun hlock' hb => hhigh (hlock ▸ hlock') (after_settled hb)) (fun _ => pending_after b)
    fun q hq => absurd hq (after_ne_delEnd b q)⟩
  · rw [Function.update_of_ne hidle.symm]
    exact h.idle.2.1
  · rw [Function.update_self]
    exact iff_of_false (after_ne_delEnd b q) (not_deleting hrun q)
  · rw [hpend]
    exact hv

include h hs hint hsv hrun hidle in
omit [DecidableEq ε] in
theorem call_taskSuspend {prio : Option Prio} (hok : s.taskOk (.taskSuspend prio)) :
    OsOk ⟨(s.core.osTaskSuspend prio).2.2,
      Function.update s.pc s.core.prioCur (.after (s.core.osTaskSuspend prio).2.1)⟩ ∧
    SchedOk ⟨(s.core.osTaskSuspend prio).2.2,
      Function.update s.pc s.core.prioCur (.after (s.core.osTaskSuspend prio).2.1)⟩ := by
  have hp : prio.getD s.core.prioCur ≠ osTaskIdlePrio := by
    cases prio with
    | none => exact hidle
    | some p => exact fun heq => hok.1 (congrArg some heq)
  cases ht : s.core.prioTbl (prio.getD s.core.prioCur) with
  | none =>
    obtain ⟨err, heq⟩ := OsCore.osTaskSuspend_none ht
    rw [heq]
    exact call_same hrun ⟨h, hs⟩
  | some t =>
    obtain ⟨c', heq, hc⟩ := OsCore.osTaskSuspend_some ht
    rw [heq]
    refine call_change h hs hsv hrun hidle hc hp
      ((h.view _).suspend ht (not_apart (not_deleting hrun _) hok.2)) ?_ ?_
    · rw [ht]
      rfl
    · intro hlock hne
      have hne' := of_decide_eq_false hne
      have hhigh := hs.cur hint hlock hsv (run_settled hrun)
      refine hhigh.mono ?_ fun q hq => ?_
      · exact (congrArg View.rdy (hc.of_ne (Ne.symm hne'))).trans hhigh.1
      · by_cases hqp : q = prio.getD s.core.prioCur
        · have hgone : c'.rdy.mem (prio.getD s.core.prioCur) = false := congrArg View.rdy hc.self
          rw [hqp, hgone] at hq
          exact absurd hq nofun
        · exact (congrArg View.rdy (hc.of_ne hqp)).symm.trans hq

include h hs hint hsv hrun hidle in
omit [DecidableEq ε] in
theorem call_taskResume (p : Prio) :
    OsOk ⟨(s.core.osTaskResume p).2.2, Function.update s.pc s.core.prioCur (.after (s.core.osTaskResume p).2.1)⟩ ∧
    SchedOk ⟨(s.core.osTaskResume p).2.2,
      Function.update s.pc s.core.prioCur (.after (s.core.osTaskResume p).2.1)⟩ := by
  by_cases hex : ∃ t, s.core.prioTbl p = some t ∧ t.stat &&& osStatSuspend ≠ osStatRdy
  · obtain ⟨t, ht, hstat⟩ := hex
    obtain ⟨c', heq, hc⟩ := OsCore.osTaskResume_some ht hstat
    have hp : p ≠ osTaskIdlePrio := by
      rintro rfl
      obtain rfl := Option.some.inj (ht.symm.trans h.idle.1)
      exact hstat (by decide : osStatRdy &&& osStatSuspend = osStatRdy)
    have hapart : ¬ s.Apart p := (h.view p).not_apart ht fun hfresh => by
      rw [hfresh] at hstat
      exact hstat (by decide : osStatRdy &&& osStatSuspend = osStatRdy)
    rw [heq]
    refine call_change h hs hsv hrun hidle hc hp ((h.view p).resume ht hapart) ?_ ?_
    · rw [ht]
      rfl
    · intro hlock hne
      refine (hs.cur hint hlock hsv (run_settled hrun)).congr (hc.rdy_eq ?_)
      have hno := of_decide_eq_false hne
      simp only [View.resume, ← Bool.decide_and, decide_eq_false hno, Bool.or_false]
  · have hnot : ∀ t, s.core.prioTbl p = some t → t.stat &&& osStatSuspend = osStatRdy := fun t ht => by
      by_contra hstat
      exact hex ⟨t, ht, hstat⟩
    obtain ⟨err, heq⟩ := OsCore.osTaskResume_not hnot
    rw [heq]
    exact call_same hrun ⟨h, hs⟩

include h hs hint hsv hrun hidle in
omit [DecidableEq ε] in
theorem call_timeDly (ticks : ℕ) :
    OsOk ⟨(s.core.osTimeDly ticks).2, Function.update s.pc s.core.prioCur (.after (s.core.osTimeDly ticks).1)⟩ ∧
    SchedOk ⟨(s.core.osTimeDly ticks).2, Function.update s.pc s.core.prioCur (.after (s.core.osTimeDly ticks).1)⟩ := by
  by_cases hdly : s.core.lockNesting = 0 ∧ 0 < ticks
  · obtain ⟨hlock, hticks⟩ := hdly
    obtain ⟨t, ht, hready, hdel⟩ := current_ready h hs hint hlock hsv (run_settled hrun)
    obtain ⟨c', heq, hc⟩ := OsCore.osTimeDly_some hint hlock hticks ht
    have hview := h.view s.core.prioCur
    rw [heq]
    refine call_change h hs hsv hrun hidle hc hidle ?_ ?_ fun _ => nofun
    · rw [hrun] at hview ⊢
      exact hview.delay ht hdel hticks
    · rw [ht]
      rfl
  · have hsame : s.core.osTimeDly ticks = (false, s.core) := by
      rw [not_and_or] at hdly
      unfold OsCore.osTimeDly
      split_ifs <;> first | rfl | omega
    rw [hsame]
    exact call_same hrun ⟨h, hs⟩

omit [DecidableEq ε] in
theorem first_waits (h : OsOk s) (hgrp : (s.core.event e).wait.grp ≠ 0) :
    (s.core.view ((s.core.event e).wait.first osUnMap)).waits e = true ∧
    ∃ t, s.core.prioTbl ((s.core.event e).wait.first osUnMap) = some t ∧ t.eventPtr = some e := by
  have hmem : (s.core.view ((s.core.event e).wait.first osUnMap)).waits e = true :=
    (h.tables.wait e).mem_first isLowest_osUnMap hgrp
  exact ⟨hmem, ((h.view _).waits e).mp hmem⟩

omit [DecidableEq ε] in
theorem OsOk.first_ne_idle (h : OsOk s) (hgrp : (s.core.event e).wait.grp ≠ 0) :
    (s.core.event e).wait.first osUnMap ≠ osTaskIdlePrio := by
  obtain ⟨-, t, ht, hptr⟩ := first_waits h hgrp
  intro heq
  rw [heq] at ht
  obtain rfl := Option.some.inj (ht.symm.trans h.idle.1)
  exact absurd hptr nofun

theorem OsOk.setCnt (h : OsOk s) (e : ε) (n : ℕ) (hpcs : ∀ q, (pcs q).pending = (s.pc q).pending)
    (hidle : pcs osTaskIdlePrio = .run) (hdel : ∀ q, pcs s.core.prioCur = .delEnd q ↔ s.Deleting q) :
    OsOk ⟨s.core.setEvent e { s.core.event e with cnt := n }, pcs⟩ :=
  h.congr (OsCore.view_setCnt n) (h.tables.setEvent e (h.tables.wait e)) rfl rfl rfl hpcs hidle hdel

include h hs hint hsv hrun in
theorem call_setCnt (e : ε) (n : ℕ) :
    OsOk ⟨s.core.setEvent e { s.core.event e with cnt := n }, Function.update s.pc s.core.prioCur .run⟩ ∧
    SchedOk ⟨s.core.setEvent e { s.core.event e with cnt := n }, Function.update s.pc s.core.prioCur .run⟩ := by
  have hpc : Function.update s.pc s.core.prioCur .run = s.pc := by rw [← hrun, Function.update_eq_self]
  refine ⟨?_, ?_⟩
  · rw [hpc]
    exact h.setCnt e n (fun _ => rfl) h.idle.2.1 fun _ => Iff.rfl
  · refine hs.part (by exact hsv) (by rfl) (fun q _ => .inl rfl) (fun hlock _ => ?_) (fun _ => rfl) nofun
    refine (hs.cur hint hlock hsv (run_settled hrun)).congr fun q => ?_
    rw [OsCore.view_setCnt]

include h hs hint hsv hrun hidle in
theorem call_semPost (e : ε) :
    OsOk ⟨(s.core.osSemPost e).2.2, Function.update s.pc s.core.prioCur (.after (s.core.osSemPost e).2.1)⟩ ∧
    SchedOk ⟨(s.core.osSemPost e).2.2, Function.update s.pc s.core.prioCur (.after (s.core.osSemPost e).2.1)⟩ := by
  unfold OsCore.osSemPost
  split_ifs with hgrp hcnt
  · obtain ⟨hwaits, t, ht, -⟩ := first_waits h hgrp
    refine call_change h hs hsv hrun hidle (OsCore.change_osEventTaskRdy ht) (h.first_ne_idle hgrp)
      ((h.view _).post ht hwaits) ?_ fun _ => nofun
    rw [ht]
    rfl
  · exact call_setCnt h hs hint hsv hrun e _
  · exact call_same hrun ⟨h, hs⟩

include h hs hint hsv hrun hidle in
theorem call_semPend (e : ε) (timeout : ℕ) :
    OsOk ⟨(s.core.osSemPend e timeout).2, Function.update s.pc s.core.prioCur
      (if (s.core.osSemPend e timeout).1 = none then .sched (some e) else .run)⟩ ∧
    SchedOk ⟨(s.core.osSemPend e timeout).2, Function.update s.pc s.core.prioCur
      (if (s.core.osSemPend e timeout).1 = none then .sched (some e) else .run)⟩ := by
  by_cases hlock : s.core.lockNesting = 0
  · by_cases hcnt : (s.core.event e).cnt = 0
    · obtain ⟨t, ht, hready, hdel⟩ := current_ready h hs hint hlock hsv (run_settled hrun)
      obtain ⟨c', heq, hc⟩ := OsCore.osSemPend_wait (c := s.core) (e := e) (t := t) hint hlock hcnt ht
      have hframe := hc.frame
      have hview := h.view s.core.prioCur
      simp only [OsCore.frame, Prod.mk.injEq] at hframe
      obtain ⟨-, -, hcur, -, -, hlock', hsv'⟩ := hframe
      rw [heq]
      refine ⟨h.change hc hidle (fun q hq => ?_) ?_ (fun q => ?_) ?_ ?_, hs.part (hsv'.trans hsv) hcur
        (fun q _ => .inl rfl) (fun _ hpc => ?_) (fun hpos => ?_) nofun⟩
      · rw [Function.update_of_ne hq]
      · rw [Function.update_of_ne hidle.symm]
        exact h.idle.2.1
      · rw [Function.update_self]
        exact iff_of_false nofun (not_deleting hrun q)
      · rw [Function.update_self]
        rw [hrun] at hview
        exact hview.wait ht hready.1 hdel
      · rw [ht]
        rfl
      · exact hpc.elim
      · omega
    · have heq : s.core.osSemPend e timeout =
          (some .none, s.core.setEvent e { s.core.event e with cnt := (s.core.event e).cnt - 1 }) := by
        unfold OsCore.osSemPend
        split_ifs <;> first | rfl | omega
      rw [heq]
      exact call_setCnt h hs hint hsv hrun e _
  · have heq : s.core.osSemPend e timeout = (some .pendLocked, s.core) := by
      unfold OsCore.osSemPend
      split_ifs <;> first | rfl | omega
    rw [heq]
    exact call_same hrun ⟨h, hs⟩

include h hs hrun hidle in
omit [DecidableEq ε] in
/-- The first half of `OSTaskDel`; `c'` is the kernel without the task, and `lock` what the scheduler is locked by. -/
theorem call_del (hsv : s.core.pendSv = false) (hp : p ≠ osTaskIdlePrio) (hc : s.core.Change c' p .del)
    (hsome : (s.core.prioTbl p).isSome) (hnone : s.core.stage p = none) {lock : ℕ} (hlock : 0 < lock) :
    OsOk ⟨{ c' with lockNesting := lock }, Function.update s.pc s.core.prioCur (.delEnd p)⟩ ∧
    SchedOk ⟨{ c' with lockNesting := lock }, Function.update s.pc s.core.prioCur (.delEnd p)⟩ := by
  have hframe := hc.frame
  simp only [OsCore.frame, Prod.mk.injEq] at hframe
  obtain ⟨⟨hstage, hlist⟩, hfree, hcur, -, -, -, hsv'⟩ := hframe
  have hdel : ∀ q, (OsSys.mk { c' with lockNesting := lock }
      (Function.update s.pc s.core.prioCur (.delEnd p))).Deleting q ↔ q = p := fun q => by
    rw [OsSys.Deleting]
    simp only [hcur, Function.update_self, Pc.delEnd.injEq]
    exact eq_comm
  have hapart : ∀ q, (OsSys.mk { c' with lockNesting := lock }
      (Function.update s.pc s.core.prioCur (.delEnd p))).Apart q ↔ q = p ∨ s.Apart q := fun q => by
    rw [OsSys.Apart, hdel, OsSys.Apart, or_iff_right (not_deleting hrun q)]
    simp only [hstage]
  have hpend : ∀ q, (Function.update s.pc s.core.prioCur (.delEnd p) q).pending = (s.pc q).pending := fun q => by
    by_cases hq : q = s.core.prioCur
    · rw [hq, Function.update_self, hrun]
      rfl
    · rw [Function.update_of_ne hq]
  have hsome' : ∀ q, (c'.prioTbl q).isSome = (s.core.prioTbl q).isSome := fun q => by
    show (c'.view q).tcb.isSome = _
    by_cases hq : q = p
    · rw [hq, hc.self, hsome]
      rfl
    · rw [hc.of_ne hq]
      rfl
  refine ⟨⟨⟨(hc.tables h.tables).rdy, (hc.tables h.tables).wait⟩, fun q => ?_,
    h.listed.congr hlist hfree hstage hsome', ⟨?_, ?_, ?_⟩, fun q hq => ?_⟩, ?_⟩
  · show (c'.view q).Ok _ _
    by_cases hq : q = p
    · rw [eq_true ((hapart q).mpr (.inl hq)), hq, hc.self]
      exact View.Ok.del
    · rw [hc.of_ne hq, propext ((hapart q).trans (or_iff_right hq))]
      exact hpend q ▸ h.view q
  · show (c'.view osTaskIdlePrio).tcb = some .fresh
    rw [hc.of_ne hp.symm]
    exact h.idle.1
  · exact (Function.update_of_ne hidle.symm ..).trans h.idle.2.1
  · rw [hapart, not_or]
    exact ⟨hp.symm, h.idle.2.2⟩
  · show c'.stage q = none
    rw [hstage, (hdel q).mp hq, hnone]
  · exact hs.part (by exact hsv'.trans hsv) (by exact hcur) (fun q _ => .inl rfl)
      (fun hzero => absurd hzero (Nat.ne_of_gt hlock)) (fun _ => rfl) fun _ _ => hlock

include h hs hint hsv hrun hidle in
theorem call_taskDel {prio : Option Prio} (hok : s.taskOk (.taskDel prio)) :
    OsOk ⟨(s.core.osTaskDel prio).2.2, Function.update s.pc s.core.prioCur
      ((s.core.osTaskDel prio).2.1.elim .run .delEnd)⟩ ∧
    SchedOk ⟨(s.core.osTaskDel prio).2.2, Function.update s.pc s.core.prioCur
      ((s.core.osTaskDel prio).2.1.elim .run .delEnd)⟩ := by
  by_cases hprio : prio = some osTaskIdlePrio
  · have heq : s.core.osTaskDel prio = (.delIdle, none, s.core) := by
      rw [OsCore.osTaskDel, hint, if_neg (Nat.lt_irrefl 0), if_pos hprio]
    rw [heq]
    exact call_same hrun ⟨h, hs⟩
  have hp : prio.getD s.core.prioCur ≠ osTaskIdlePrio := by
    cases prio with
    | none => exact hidle
    | some p => exact fun heq => hprio (congrArg some heq)
  cases ht : s.core.prioTbl (prio.getD s.core.prioCur) with
  | none =>
    have heq : ∃ err, s.core.osTaskDel prio = (err, none, s.core) := by
      simp only [OsCore.osTaskDel, hint, Nat.lt_irrefl, if_false, if_neg hprio, ht]
      exact ⟨_, rfl⟩
    obtain ⟨err, heq⟩ := heq
    rw [heq]
    exact call_same hrun ⟨h, hs⟩
  | some t =>
    have hview := (View.ok_iff ht).mp (h.view (prio.getD s.core.prioCur))
    obtain ⟨c', hc, heq⟩ := OsCore.osTaskDel_some hint hprio ht hview.2.1
    have hlock : (if s.core.lockNesting < 255 then { c' with lockNesting := s.core.lockNesting + 1 } else c') =
        { c' with lockNesting := if s.core.lockNesting < 255 then s.core.lockNesting + 1 else c'.lockNesting } := by
      split <;> rfl
    have hframe := hc.frame
    simp only [OsCore.frame, Prod.mk.injEq] at hframe
    rw [heq, hlock]
    refine call_del h hs hrun hidle hsv hp hc (by rw [ht]; rfl) ?_ ?_
    · cases hstage : s.core.stage (prio.getD s.core.prioCur) with
      | none => rfl
      | some g =>
        have hentered := (h.listed.entry _ g hstage).mp (by rw [ht]; rfl)
        exact absurd (hstage.trans (congrArg some hentered)) hok.2
    · split <;> omega

include h hs hsv hrun hidle in
omit [DecidableEq ε] in
theorem call_lock {n : ℕ} (b : Bool) (hn : 0 < n ∨ b = true) :
    OsOk ⟨{ s.core with lockNesting := n }, Function.update s.pc s.core.prioCur (.after b)⟩ ∧
    SchedOk ⟨{ s.core with lockNesting := n }, Function.update s.pc s.core.prioCur (.after b)⟩ := by
  refine ⟨h.congr rfl ⟨h.tables.rdy, h.tables.wait⟩ rfl rfl rfl (fun q => ?_) ?_ fun q => ?_,
    hs.part (by exact hsv) (by rfl) (fun q _ => .inl rfl) (fun hzero hpc => ?_) (fun _ => pending_after b)
      fun q hq => absurd hq (after_ne_delEnd b q)⟩
  · by_cases hq : q = s.core.prioCur
    · rw [hq, Function.update_self, hrun]
      exact pending_after b
    · rw [Function.update_of_ne hq]
  · exact (Function.update_of_ne hidle.symm ..).trans h.idle.2.1
  · rw [Function.update_self]
    exact iff_of_false (after_ne_delEnd b q) (not_deleting hrun q)
  · rcases hn with hn | hn
    · exact absurd hzero (Nat.ne_of_gt hn)
    · exact absurd (hn.symm.trans (after_settled hpc)) nofun

include h hs hint hsv hrun hidle in
omit [DecidableEq ε] in
theorem call_schedLock : OsOk ⟨s.core.osSchedLock, Function.update s.pc s.core.prioCur .run⟩ ∧
    SchedOk ⟨s.core.osSchedLock, Function.update s.pc s.core.prioCur .run⟩ := by
  rw [OsCore.osSchedLock, if_pos hint]
  split_ifs
  · exact call_lock h hs hsv hrun hidle false (.inl (Nat.succ_pos s.core.lockNesting))
  · exact call_same hrun ⟨h, hs⟩

include h hs hint hsv hrun hidle in
omit [DecidableEq ε] in
theorem call_schedUnlock :
    OsOk ⟨s.core.osSchedUnlock.2, Function.update s.pc s.core.prioCur (.after s.core.osSchedUnlock.1)⟩ ∧
    SchedOk ⟨s.core.osSchedUnlock.2, Function.update s.pc s.core.prioCur (.after s.core.osSchedUnlock.1)⟩ := by
  rw [OsCore.osSchedUnlock, if_pos hint]
  split_ifs with hlock
  · refine call_lock h hs hsv hrun hidle (decide (s.core.lockNesting - 1 = 0)) ?_
    rw [decide_eq_true_eq]
    omega
  · exact call_same hrun ⟨h, hs⟩

end Calls

/-! ## The parts of `OSTaskCreate` -/

section Creating

omit [DecidableEq ε]

theorem taken_update {c : OsCore ε} (p : Prio) (g : Option Stage) (hstage : c'.stage = Function.update c.stage p g) :
    c'.taken + Stage.blocks (c.stage p) = c.taken + Stage.blocks g := by
  have hself : Stage.blocks (c'.stage p) = Stage.blocks g := by rw [hstage, Function.update_self]
  rw [OsCore.taken, OsCore.taken, ← hself]
  refine tally_one (f := fun q => Stage.blocks (c.stage q)) (g := fun q => Stage.blocks (c'.stage q)) p fun q hq => ?_
  simp only [hstage, Function.update_of_ne hq]

theorem OsCore.Listed.setStage {c : OsCore ε} (hl : c.Listed) (hnone : c.prioTbl p = none) {g : Option Stage}
    (hg : g ≠ some .entered) {n : ℕ} (hn : n + Stage.blocks g = c.free + Stage.blocks (c.stage p)) :
    OsCore.Listed { c.setStage p g with free := n } := by
  have htaken : OsCore.taken { c.setStage p g with free := n } + Stage.blocks (c.stage p) =
      c.taken + Stage.blocks g := taken_update p g rfl
  have hcount := hl.free
  refine ⟨hl.idle, hl.nodup, fun q => ?_, fun q g' hq => ?_, ?_⟩
  · show q ∈ c.list ↔ (c.prioTbl q).isSome ∧ Function.update c.stage p g q ≠ some .entered
    by_cases hq : q = p
    · rw [hl.mem, hq, hnone]
      simp
    · rw [Function.update_of_ne hq]
      exact hl.mem q
  · replace hq : Function.update c.stage p g q = some g' := hq
    by_cases hqp : q = p
    · rw [hqp, Function.update_self] at hq
      show (c.prioTbl q).isSome ↔ _
      rw [hqp, hnone]
      exact iff_of_false Bool.false_ne_true fun heq => hg (hq.trans (congrArg some heq))
    · rw [Function.update_of_ne hqp] at hq
      exact hl.entry q g' hq
  · show n + c.list.length + _ = osMaxTcbs
    omega

theorem OsCore.Listed.osTcbEnter {c : OsCore ε} (hl : c.Listed) (hnone : c.prioTbl p = none)
    (hstage : c.stage p = some .taken) : (c.osTcbEnter p).Listed := by
  have htaken : (c.osTcbEnter p).taken + Stage.blocks (c.stage p) = c.taken + 1 :=
    taken_update p (some .entered) rfl
  have hcount := hl.free
  refine ⟨hl.idle, hl.nodup, fun q => ?_, fun q g hq => ?_, ?_⟩
  · show q ∈ c.list ↔ (Function.update c.prioTbl p _ q).isSome ∧ Function.update c.stage p _ q ≠ some .entered
    by_cases hq : q = p
    · rw [hl.mem, hq, hnone]
      simp
    · rw [Function.update_of_ne hq, Function.update_of_ne hq]
      exact hl.mem q
  · replace hq : Function.update c.stage p _ q = some g := hq
    show (Function.update c.prioTbl p _ q).isSome ↔ _
    by_cases hqp : q = p
    · rw [hqp, Function.update_self] at hq ⊢
      exact iff_of_true rfl (Option.some.inj hq).symm
    · rw [Function.update_of_ne hqp] at hq ⊢
      exact hl.entry q g hq
  · have hone : Stage.blocks (c.stage p) = 1 := by
      rw [hstage]
      rfl
    show c.free + c.list.length + _ = osMaxTcbs
    omega

theorem OsCore.Listed.osTcbLink {c : OsCore ε} (hl : c.Listed) (hstage : c.stage p = some .entered)
    (hp : p ≠ osTaskIdlePrio) : (c.osTcbLink p).Listed := by
  have htaken : (c.osTcbLink p).taken + Stage.blocks (c.stage p) = c.taken + 0 := taken_update p none rfl
  have hcount := hl.free
  have hnot : p ∉ c.list := fun hmem => ((hl.mem p).mp hmem).2 hstage
  obtain ⟨l, hlist, hidle⟩ := hl.idle
  refine ⟨⟨p :: l, ?_, ?_⟩, List.nodup_cons.mpr ⟨hnot, hl.nodup⟩, fun q => ?_, fun q g hq => ?_, ?_⟩
  · show p :: c.list = _
    rw [hlist, List.cons_append]
  · rw [List.mem_cons, not_or]
    exact ⟨hp.symm, hidle⟩
  · show q ∈ p :: c.list ↔ (c.prioTbl q).isSome ∧ Function.update c.stage p none q ≠ some .entered
    by_cases hq : q = p
    · have hsome := (hl.entry p .entered hstage).mpr rfl
      rw [hq, Function.update_self]
      exact iff_of_true List.mem_cons_self ⟨hsome, nofun⟩
    · rw [List.mem_cons, or_iff_right hq, Function.update_of_ne hq]
      exact hl.mem q
  · replace hq : Function.update c.stage p none q = some g := hq
    have hqp : q ≠ p := by
      rintro rfl
      rw [Function.update_self] at hq
      exact Option.some_ne_none g hq.symm
    rw [Function.update_of_ne hqp] at hq
    exact hl.entry q g hq
  · have hone : Stage.blocks (c.stage p) = 1 := by
      rw [hstage]
      rfl
    show c.free + (p :: c.list).length + _ = osMaxTcbs
    rw [List.length_cons]
    omega

section

variable (h : OsOk s) (hnot : ∀ q, ¬ s.Deleting q) (hidle : pcs osTaskIdlePrio = .run)
  (hdel : ∀ q, pcs s.core.prioCur ≠ .delEnd q)

include h hnot hidle hdel

theorem OsOk.setStage (hnone : s.core.prioTbl p = none) {g : Option Stage} (hg : g ≠ some .entered) {n : ℕ}
    (hn : n + Stage.blocks g = s.core.free + Stage.blocks (s.core.stage p))
    (hpcs : ∀ q, (pcs q).pending = (s.pc q).pending) : OsOk ⟨{ s.core.setStage p g with free := n }, pcs⟩ := by
  refine h.same_view rfl ⟨h.tables.rdy, h.tables.wait⟩ (h.listed.setStage hnone hg hn) (fun q => ?_) hpcs hidle
    (fun q => iff_of_false (hdel q) (hnot q)) fun q hq => absurd hq (hnot q)
  show Function.update s.core.stage p g q = some .entered ↔ _
  by_cases hq : q = p
  · rw [hq, Function.update_self]
    exact iff_of_false hg fun hentered => h.not_apart_of_none hnone (.inr hentered)
  · rw [Function.update_of_ne hq]

theorem OsOk.osTcbEnter (hnone : s.core.prioTbl p = none) (hstage : s.core.stage p = some .taken)
    (hpcs : ∀ q, (pcs q).pending = (s.pc q).pending) : OsOk ⟨s.core.osTcbEnter p, pcs⟩ := by
  have hp : p ≠ osTaskIdlePrio := by
    rintro rfl
    exact absurd (hnone.symm.trans h.idle.1) nofun
  have hapart : ∀ q, (OsSys.mk (s.core.osTcbEnter p) pcs).Apart q ↔ q = p ∨ s.Apart q := fun q => by
    refine (or_iff_right (hdel q)).trans ?_
    show Function.update s.core.stage p (some .entered) q = some .entered ↔ _
    by_cases hq : q = p
    · rw [hq, Function.update_self]
      exact iff_of_true rfl (.inl rfl)
    · rw [Function.update_of_ne hq, or_iff_right hq, OsSys.Apart, or_iff_right (hnot q)]
  refine ⟨⟨h.tables.rdy, h.tables.wait⟩, fun q => ?_, h.listed.osTcbEnter hnone hstage,
    ⟨(Function.update_of_ne hp.symm ..).trans h.idle.1, hidle, ?_⟩, fun q hq => absurd hq (hdel q)⟩
  · rw [OsCore.view_osTcbEnter, propext (hapart q), hpcs]
    by_cases hq : q = p
    · rw [hq, Function.update_self, eq_true (.inl rfl : p = p ∨ s.Apart p)]
      exact (h.view p).enter hnone
    · rw [Function.update_of_ne hq, propext (or_iff_right hq)]
      exact h.view q
  · rw [hapart, not_or]
    exact ⟨hp.symm, h.idle.2.2⟩

theorem OsOk.osTcbLink (hstage : s.core.stage p = some .entered)
    (hpcs : ∀ q, q ≠ p → (pcs q).pending = (s.pc q).pending) : OsOk ⟨s.core.osTcbLink p, pcs⟩ := by
  have hp : p ≠ osTaskIdlePrio := by
    rintro rfl
    exact h.idle.2.2 (.inr hstage)
  have hapart : ∀ q, (OsSys.mk (s.core.osTcbLink p) pcs).Apart q ↔ q ≠ p ∧ s.Apart q := fun q => by
    refine (or_iff_right (hdel q)).trans ?_
    show Function.update s.core.stage p none q = some .entered ↔ _
    by_cases hq : q = p
    · rw [hq, Function.update_self]
      exact iff_of_false nofun fun hne => hne.1 rfl
    · rw [Function.update_of_ne hq, and_iff_right hq, OsSys.Apart, or_iff_right (hnot q)]
  refine ⟨⟨h.tables.rdy.insert p, h.tables.wait⟩, fun q => ?_, h.listed.osTcbLink hstage hp,
    ⟨h.idle.1, hidle, fun hq => h.idle.2.2 ((hapart _).mp hq).2⟩, fun q hq => absurd hq (hdel q)⟩
  rw [OsCore.view_osTcbLink, propext (hapart q)]
  by_cases hq : q = p
  · have hview := h.view p
    have hentered : s.Apart p := .inr hstage
    rw [eq_true hentered] at hview
    have hno : ¬ (p ≠ p ∧ s.Apart p) := fun hne => hne.1 rfl
    rw [hq, Function.update_self, eq_false hno]
    exact hview.link
  · rw [Function.update_of_ne hq, propext (and_iff_right hq), hpcs q hq]
    exact h.view q

end

variable (h : OsOk s) (hs : SchedOk s) (hint : s.core.intNesting = 0) (hsv : s.core.pendSv = false)
  (hpc : s.pc s.core.prioCur = .run ∨ ∃ k p, s.pc s.core.prioCur = .creating k p)
  (hidle : s.core.prioCur ≠ osTaskIdlePrio)

include hpc in
theorem creating_spec : (s.pc s.core.prioCur).pending = none ∧ (s.pc s.core.prioCur).Settled ∧
    ∀ q, ¬ s.Deleting q := by
  rcases hpc with hrun | ⟨k, p, hcreating⟩
  · exact ⟨by rw [hrun]; rfl, run_settled hrun, not_deleting hrun⟩
  · refine ⟨by rw [hcreating]; rfl, by rw [hcreating]; trivial, fun q hq => ?_⟩
    exact absurd (hcreating.symm.trans hq) (by simp)

include hpc in
theorem creating_pending {pc : Pc ε} (hnone : pc.pending = none) (q : Prio) :
    (Function.update s.pc s.core.prioCur pc q).pending = (s.pc q).pending := by
  by_cases hq : q = s.core.prioCur
  · rw [hq, Function.update_self, hnone, (creating_spec hpc).1]
  · rw [Function.update_of_ne hq]

include hs hint hsv hpc in
theorem creating_sched (hrdy : c'.rdy = s.core.rdy) (hcur : c'.prioCur = s.core.prioCur)
    (hlock : c'.lockNesting = s.core.lockNesting) (hsv' : c'.pendSv = s.core.pendSv) {pc : Pc ε}
    (hnone : pc.pending = none) (hdel : ∀ q, pc ≠ .delEnd q) :
    SchedOk ⟨c', Function.update s.pc s.core.prioCur pc⟩ := by
  refine hs.part (hsv'.trans hsv) hcur (fun q _ => .inl rfl) (fun hlock' _ => ?_) (fun _ => hnone)
    fun q hq => absurd hq (hdel q)
  have hhigh := hs.cur hint (hlock.symm.trans hlock') hsv (creating_spec hpc).2.1
  exact hhigh.congr fun q => congrArg (fun b : Bitmap 8 => b.mem q) hrdy

include h hs hint hsv hpc hidle in
theorem creating_setStage (hnone : s.core.prioTbl p = none) {g : Option Stage} (hg : g ≠ some .entered) {n : ℕ}
    (hn : n + Stage.blocks g = s.core.free + Stage.blocks (s.core.stage p)) {pc : Pc ε} (hpend : pc.pending = none)
    (hdel : ∀ q, pc ≠ .delEnd q) :
    OsOk ⟨{ s.core.setStage p g with free := n }, Function.update s.pc s.core.prioCur pc⟩ ∧
    SchedOk ⟨{ s.core.setStage p g with free := n }, Function.update s.pc s.core.prioCur pc⟩ := by
  refine ⟨h.setStage (creating_spec hpc).2.2 ?_ (fun q => ?_) hnone hg hn (creating_pending hpc hpend),
    creating_sched hs hint hsv hpc (by rfl) (by rfl) (by rfl) (by rfl) hpend hdel⟩
  · exact (Function.update_of_ne hidle.symm ..).trans h.idle.2.1
  · rw [Function.update_self]
    exact hdel q

include h hs hint hsv hidle in
theorem call_taskCreate (hrun : s.pc s.core.prioCur = .run) (p : Prio) :
    OsOk ⟨(s.core.osTaskCreate p).2, Function.update s.pc s.core.prioCur
      (if (s.core.osTaskCreate p).1 = .none then .creating .tcbInit p else .run)⟩ ∧
    SchedOk ⟨(s.core.osTaskCreate p).2, Function.update s.pc s.core.prioCur
      (if (s.core.osTaskCreate p).1 = .none then .creating .tcbInit p else .run)⟩ := by
  rcases s.core.osTaskCreate_cases p with ⟨err, herr, heq⟩ | ⟨-, htcb, hstage, heq⟩
  · rw [heq, if_neg herr]
    exact call_same hrun ⟨h, hs⟩
  · rw [heq, if_pos rfl]
    refine creating_setStage h hs hint hsv (.inl hrun) hidle htcb (by simp) ?_ rfl (by simp)
    rw [hstage]
    rfl

theorem create_ne_delEnd (c : OsCore ε) (p q : Prio) (k : CreatePt) : (k.run c p).1 ≠ .delEnd q := by
  cases k <;> simp [CreatePt.run]

theorem next_creating (h : OsOk s) (hs : SchedOk s) (hint : s.core.intNesting = 0) (hsv : s.core.pendSv = false)
    {k : CreatePt} (hpc : s.pc s.core.prioCur = .creating k p) (hstage : s.core.stage p = some k.stage) :
    OsOk ⟨(k.run s.core p).2, Function.update (s.started k p) s.core.prioCur (k.run s.core p).1⟩ ∧
    SchedOk ⟨(k.run s.core p).2, Function.update (s.started k p) s.core.prioCur (k.run s.core p).1⟩ := by
  have hidle : s.core.prioCur ≠ osTaskIdlePrio := fun heq => by
    have hrun := h.idle.2.1
    rw [← heq, hpc] at hrun
    exact absurd hrun nofun
  have hpc' : s.pc s.core.prioCur = .run ∨ ∃ k p, s.pc s.core.prioCur = .creating k p := .inr ⟨k, p, hpc⟩
  have hnone : k.stage ≠ .entered → s.core.prioTbl p = none := fun hk => by
    rw [← Option.not_isSome_iff_eq_none, h.listed.entry p _ hstage]
    exact hk
  cases k with
  | tcbInit =>
    have hnone := hnone (by simp [CreatePt.stage])
    rcases s.core.osTcbInit_cases p with heq | ⟨hfree, heq⟩
    · have hsame : s.core.setStage p (some .reserved) = s.core := by
        rw [OsCore.setStage, Function.update_eq_self_iff.mpr hstage.symm]
      rw [CreatePt.run, heq, if_neg (by simp), ← hsame]
      refine creating_setStage h hs hint hsv hpc' hidle hnone (by simp) ?_ rfl (by simp)
      rw [hstage]
      rfl
    · rw [CreatePt.run, heq, if_pos rfl]
      refine creating_setStage h hs hint hsv hpc' hidle hnone (by simp) ?_ rfl (by simp)
      rw [hstage]
      exact Nat.sub_add_cancel (Nat.pos_of_ne_zero hfree)
  | noTcb =>
    refine creating_setStage h hs hint hsv hpc' hidle (hnone (by simp [CreatePt.stage])) (by simp) ?_ rfl
      fun q => create_ne_delEnd s.core p q .noTcb
    rw [hstage]
    rfl
  | enter =>
    have hnone := hnone (by simp [CreatePt.stage])
    refine ⟨h.osTcbEnter (creating_spec hpc').2.2 ?_ (fun q => ?_) hnone hstage (creating_pending hpc' rfl),
      creating_sched hs hint hsv hpc' (by rfl) (by rfl) (by rfl) (by rfl) rfl
        fun q => create_ne_delEnd s.core p q .enter⟩
    · exact (Function.update_of_ne hidle.symm ..).trans h.idle.2.1
    · rw [Function.update_self]
      exact create_ne_delEnd s.core p q .enter
  | link =>
    have hp : p ≠ osTaskIdlePrio := by
      rintro rfl
      exact h.idle.2.2 (.inr hstage)
    refine ⟨h.osTcbLink (creating_spec hpc').2.2 ?_ (fun q => ?_) hstage fun q hq => ?_,
      hs.part (by exact hsv) (by rfl) (fun q _ => ?_) (fun _ hno => hno.elim) (fun _ => rfl)
        fun q hq => absurd hq (create_ne_delEnd s.core p q .link)⟩
    · exact (Function.update_of_ne hidle.symm ..).trans ((Function.update_of_ne hp.symm ..).trans h.idle.2.1)
    · rw [Function.update_self]
      exact create_ne_delEnd s.core p q .link
    · by_cases hcur : q = s.core.prioCur
      · rw [hcur, Function.update_self, (creating_spec hpc').1]
        rfl
      · rw [Function.update_of_ne hcur]
        exact congrArg Pc.pending (Function.update_of_ne hq ..)
    · by_cases hq : q = p
      · exact .inr (hq ▸ Function.update_self ..)
      · exact .inl (Function.update_of_ne hq ..)

end Creating

/-! ## All calls -/

/-- Whatever a task calls, the tables and the schedule stay in order. -/
theorem call_ok (h : OsOk s) (hs : SchedOk s) (hint : s.core.intNesting = 0) (hsv : s.core.pendSv = false)
    (hrun : s.pc s.core.prioCur = .run) (hidle : s.core.prioCur ≠ osTaskIdlePrio) (a : OsCall ε) (hok : s.taskOk a) :
    OsOk ⟨(a.run s.core).2, Function.update s.pc s.core.prioCur (a.run s.core).1⟩ ∧
    SchedOk ⟨(a.run s.core).2, Function.update s.pc s.core.prioCur (a.run s.core).1⟩ := by
  cases a with
  | taskCreate p => exact call_taskCreate h hs hint hsv hidle hrun p
  | taskDel prio => exact call_taskDel h hs hint hsv hrun hidle hok
  | taskSuspend prio => exact call_taskSuspend h hs hint hsv hrun hidle hok
  | taskResume p => exact call_taskResume h hs hint hsv hrun hidle p
  | timeDly ticks => exact call_timeDly h hs hint hsv hrun hidle ticks
  | semPend e timeout => exact call_semPend h hs hint hsv hrun hidle e timeout
  | semPost e => exact call_semPost h hs hint hsv hrun hidle e
  | schedLock => exact call_schedLock h hs hint hsv hrun hidle
  | schedUnlock => exact call_schedUnlock h hs hint hsv hrun hidle

/-! ## The other parts of a call -/

omit [DecidableEq ε] in
theorem listed_osTaskDelEnd {c : OsCore ε} (hl : c.Listed) (hsome : (c.prioTbl p).isSome) (hnone : c.stage p = none)
    (hp : p ≠ osTaskIdlePrio) : (c.osTaskDelEnd p).Listed := by
  obtain ⟨l, hlist, hidle⟩ := hl.idle
  have hmem := (hl.mem p).mpr ⟨hsome, by rw [hnone]; simp⟩
  have hmem' : p ∈ l := by
    rw [hlist, List.mem_append, List.mem_singleton] at hmem
    exact hmem.resolve_right hp
  have hlength := List.length_pos_of_mem hmem
  have hcount := hl.free
  refine ⟨⟨l.erase p, ?_, fun h => hidle (List.mem_of_mem_erase h)⟩, hl.nodup.erase p, fun q => ?_, fun q g hq => ?_, ?_⟩
  · show c.list.erase p = _
    rw [hlist, List.erase_append_left _ hmem']
  · show q ∈ c.list.erase p ↔ (Function.update c.prioTbl p none q).isSome ∧ c.stage q ≠ some .entered
    rw [hl.nodup.mem_erase_iff, hl.mem]
    by_cases hq : q = p
    · simp [hq]
    · rw [Function.update_of_ne hq, and_iff_right hq]
  · have hqp : q ≠ p := by
      rintro rfl
      exact absurd (hnone.symm.trans hq) (by simp)
    show (Function.update c.prioTbl p none q).isSome ↔ _
    rw [Function.update_of_ne hqp]
    exact hl.entry q g hq
  · show c.free + 1 + (c.list.erase p).length + c.taken = osMaxTcbs
    rw [List.length_erase_of_mem hmem]
    omega

section Next

variable (h : OsOk s) (hs : SchedOk s) (hint : s.core.intNesting = 0) (hsv : s.core.pendSv = false)

include h hs hsv in
omit [DecidableEq ε] in
theorem next_delEnd (hpc : s.pc s.core.prioCur = .delEnd p) :
    OsOk ⟨s.core.osTaskDelEnd p, Function.update s.pc s.core.prioCur (.sched none)⟩ ∧
    SchedOk ⟨s.core.osTaskDelEnd p, Function.update s.pc s.core.prioCur (.sched none)⟩ := by
  have hp : p ≠ osTaskIdlePrio := fun heq => h.idle.2.2 (.inl (heq ▸ hpc))
  have hidle : s.core.prioCur ≠ osTaskIdlePrio := fun heq => by
    have hrun := h.idle.2.1
    rw [← heq, hpc] at hrun
    exact absurd hrun nofun
  have hview := h.view p
  have hfresh : s.core.prioTbl p = some .fresh := hview.gone (.inl hpc)
  have hnone := h.del p hpc
  have hdel : ∀ q, ¬ (OsSys.mk (s.core.osTaskDelEnd p)
      (Function.update s.pc s.core.prioCur (.sched none))).Deleting q := fun q hdel => by
    rw [OsSys.Deleting] at hdel
    exact absurd ((Function.update_self ..).symm.trans hdel) nofun
  have hpend : ∀ q, (Function.update s.pc s.core.prioCur (.sched none) q).pending = (s.pc q).pending := fun q => by
    by_cases hq : q = s.core.prioCur
    · rw [hq, Function.update_self, hpc]
      rfl
    · rw [Function.update_of_ne hq]
  have hapart : ∀ q, (OsSys.mk (s.core.osTaskDelEnd p)
      (Function.update s.pc s.core.prioCur (.sched none))).Apart q ↔ q ≠ p ∧ s.Apart q := fun q => by
    refine (or_iff_right (hdel q)).trans ?_
    show s.core.stage q = some .entered ↔ _
    by_cases hq : q = p
    · rw [hq, hnone]
      exact iff_of_false (by simp) fun hne => hne.1 rfl
    · have hnot : ¬ s.Deleting q := fun hq' => hq (Pc.delEnd.inj (hq'.symm.trans hpc))
      rw [and_iff_right hq, OsSys.Apart, or_iff_right hnot]
  refine ⟨⟨⟨h.tables.rdy, h.tables.wait⟩, fun q => ?_,
    listed_osTaskDelEnd h.listed (by rw [hfresh]; rfl) hnone hp, ⟨?_, ?_, ?_⟩, fun q hq => absurd hq (hdel q)⟩, ?_⟩
  · rw [propext (hapart q), OsCore.view_osTaskDelEnd]
    by_cases hq : q = p
    · rw [hq, Function.update_self]
      refine ⟨?_, fun e => ?_, by simp, fun hne => absurd rfl hne.1⟩
      · refine iff_of_false (fun hrdy => (hview.ready.mp hrdy).1 (.inl hpc)) ?_
        rintro ⟨-, t, ht, -⟩
        exact absurd ht (by simp)
      · rw [hview.waits]
        refine iff_of_false ?_ ?_
        · rintro ⟨t, ht, hptr⟩
          obtain rfl := Option.some.inj (ht.symm.trans hfresh)
          exact absurd hptr nofun
        · rintro ⟨t, ht, -⟩
          exact absurd ht (by simp)
    · rw [Function.update_of_ne hq, propext (and_iff_right hq)]
      exact hpend q ▸ h.view q
  · exact (Function.update_of_ne hp.symm ..).trans h.idle.1
  · exact (Function.update_of_ne hidle.symm ..).trans h.idle.2.1
  · exact fun hq => h.idle.2.2 ((hapart _).mp hq).2
  · exact hs.part (by exact hsv) (by rfl) (fun q _ => .inl rfl) (fun _ hno => hno.elim) (fun _ => rfl) (by simp)

include h hs hint hsv in
theorem next_pendEnd (hpc : s.pc s.core.prioCur = .pendEnd e) :
    OsOk ⟨(s.core.osSemPendEnd e).2, Function.update s.pc s.core.prioCur .run⟩ ∧
    SchedOk ⟨(s.core.osSemPendEnd e).2, Function.update s.pc s.core.prioCur .run⟩ := by
  have hlock : s.core.lockNesting = 0 := by
    by_contra hpos
    have hpend := hs.locked (Nat.pos_of_ne_zero hpos)
    rw [hpc] at hpend
    exact absurd hpend nofun
  have hidle : s.core.prioCur ≠ osTaskIdlePrio := fun heq => by
    have hrun := h.idle.2.1
    rw [← heq, hpc] at hrun
    exact absurd hrun nofun
  have hsettled : (s.pc s.core.prioCur).Settled := by
    rw [hpc]
    trivial
  obtain ⟨t, ht, hready, hapart⟩ := current_ready h hs hint hlock hsv hsettled
  have hview := h.view s.core.prioCur
  rw [hpc] at hview
  obtain ⟨-, hwaits, hok, -⟩ := (View.ok_iff ht).mp hview
  have hc := OsCore.osSemPendEnd_some ht (e := e) fun hstat => by
    have hptr : t.eventPtr = none := by
      rcases hok.2 with ⟨-, hsem⟩ | ⟨-, -, ⟨-, hto⟩ | ⟨hptr, -⟩⟩
      · rw [hready.1] at hsem
        exact absurd (by decide) hsem
      · exact absurd hto hstat
      · exact hptr
    refine Bool.eq_false_iff.mpr fun hmem => ?_
    exact absurd (hptr.symm.trans ((hwaits e).mp hmem)) nofun
  have hframe := hc.frame
  simp only [OsCore.frame, Prod.mk.injEq] at hframe
  obtain ⟨-, -, hcur, -, -, -, hsv'⟩ := hframe
  refine ⟨h.change hc hidle (fun q hq => ?_) ?_ (fun q => ?_) ?_ ?_, hs.part (hsv'.trans hsv) hcur
    (fun q _ => .inl rfl) (fun _ _ => ?_) (fun _ => rfl) nofun⟩
  · rw [Function.update_of_ne hq]
  · exact (Function.update_of_ne hidle.symm ..).trans h.idle.2.1
  · rw [Function.update_self]
    refine iff_of_false nofun fun hq => ?_
    exact absurd (hpc.symm.trans hq) nofun
  · rw [Function.update_self]
    exact hview.waitEnd ht hready hapart
  · rw [ht]
    rfl
  · exact (hs.cur hint hlock hsv hsettled).congr (hc.rdy_eq rfl)

omit [DecidableEq ε] in
theorem switch_eq (c : OsCore ε) : c.switch =
    if c.rdy.first osUnMap ≠ c.prioCur then { c.osSchedNew with pendSv := true } else c.osSchedNew := rfl

include h in
omit [DecidableEq ε] in
theorem highest_switch : s.core.switch.Highest s.core.switch.prioHighRdy ∧
    (s.core.switch.pendSv = false → s.core.switch.Highest s.core.switch.prioCur) := by
  rw [switch_eq]
  split_ifs with hne
  · exact ⟨h.highest, nofun⟩
  · rw [not_not] at hne
    exact ⟨h.highest, fun _ => hne ▸ h.highest⟩

omit [DecidableEq ε] in
theorem switch_view (c : OsCore ε) : c.switch.view = c.view := by
  rw [switch_eq]
  split <;> rfl

omit [DecidableEq ε] in
theorem switch_frame (c : OsCore ε) : c.switch.rdy = c.rdy ∧ c.switch.event = c.event ∧ c.switch.list = c.list ∧
    c.switch.free = c.free ∧ c.switch.lockNesting = c.lockNesting ∧ c.switch.prioCur = c.prioCur ∧
    c.switch.stage = c.stage := by
  rw [switch_eq]
  split <;> exact ⟨rfl, rfl, rfl, rfl, rfl, rfl, rfl⟩

include h in
omit [DecidableEq ε] in
theorem ok_switch (hlock : s.core.lockNesting = 0) (hnot : ∀ q q', s.pc q ≠ .delEnd q')
    (hpcs : ∀ q, (pcs q).pending = (s.pc q).pending) (hidle : pcs osTaskIdlePrio = .run)
    (hdel : ∀ q q', pcs q ≠ .delEnd q') : OsOk ⟨s.core.switch, pcs⟩ ∧ SchedOk ⟨s.core.switch, pcs⟩ := by
  obtain ⟨hrdy, hevent, hlist, hfree, hlock', -, hstage⟩ := switch_frame s.core
  have hhigh := highest_switch h
  refine ⟨h.congr (switch_view _) ⟨hrdy ▸ h.tables.rdy, fun e => hevent ▸ h.tables.wait e⟩ hlist hfree hstage hpcs hidle
    fun q => iff_of_false (hdel _ q) (hnot _ q), ?_⟩
  exact ⟨fun _ _ _ => hhigh.1, fun _ _ hsv _ => hhigh.2 hsv, fun _ => hlock'.trans hlock,
    fun hpos => absurd (hlock'.trans hlock) (Nat.ne_of_gt hpos), fun p q hpq => absurd hpq (hdel p q)⟩

include hs in
omit [DecidableEq ε] in
theorem SchedOk.not_delEnd (hlock : s.core.lockNesting = 0) (p q : Prio) : s.pc p ≠ .delEnd q := fun hpq => by
  have hpos := (hs.del p q hpq).2
  omega

include h hs hint hsv in
omit [DecidableEq ε] in
theorem next_sched {e : Option ε} (hpc : s.pc s.core.prioCur = .sched e) :
    OsOk ⟨s.core.osSched, Function.update s.pc s.core.prioCur (e.elim .run .pendEnd)⟩ ∧
    SchedOk ⟨s.core.osSched, Function.update s.pc s.core.prioCur (e.elim .run .pendEnd)⟩ := by
  have hne : ∀ q, (e.elim .run .pendEnd : Pc ε) ≠ .delEnd q := fun q => by
    cases e <;> exact nofun
  have hpend : ∀ q, (Function.update s.pc s.core.prioCur (e.elim .run .pendEnd) q).pending = (s.pc q).pending := by
    intro q
    by_cases hq : q = s.core.prioCur
    · rw [hq, Function.update_self, hpc]
      cases e <;> rfl
    · rw [Function.update_of_ne hq]
  have hidle : Function.update s.pc s.core.prioCur (e.elim .run .pendEnd) osTaskIdlePrio = .run := by
    by_cases hq : osTaskIdlePrio = s.core.prioCur
    · have hrun := h.idle.2.1
      rw [hq, hpc] at hrun
      exact absurd hrun nofun
    · exact (Function.update_of_ne hq ..).trans h.idle.2.1
  rw [OsCore.osSched, if_pos hint]
  split_ifs with hlock
  · refine ok_switch h hlock (hs.not_delEnd hlock) hpend hidle fun q q' => ?_
    by_cases hq : q = s.core.prioCur
    · rw [hq, Function.update_self]
      exact hne q'
    · rw [Function.update_of_ne hq]
      exact fun hq' => hq (hs.del q q' hq').1
  · refine ⟨h.congr rfl h.tables rfl rfl rfl hpend hidle fun q => ?_, hs.part hsv rfl (fun q _ => .inl rfl)
      (fun hzero => absurd hzero hlock) (fun hpos => ?_) fun q hq => absurd hq (hne q)⟩
    · rw [Function.update_self]
      refine iff_of_false (hne q) fun hq => ?_
      exact absurd (hpc.symm.trans hq) nofun
    · have hnone := hs.locked hpos
      rw [hpc] at hnone
      obtain rfl : e = none := hnone
      rfl

end Next

/-! ## Interrupts -/

section Interrupts

variable (h : OsOk s) (hs : SchedOk s)

include h hs in
omit [DecidableEq ε] in
theorem isr_intEnter : OsOk { s with core := s.core.osIntEnter } ∧ SchedOk { s with core := s.core.osIntEnter } := by
  unfold OsCore.osIntEnter
  split_ifs
  · refine ⟨h.congr rfl ⟨h.tables.rdy, h.tables.wait⟩ rfl rfl rfl (fun _ => rfl) h.idle.2.1 fun _ => Iff.rfl, ?_⟩
    exact hs.isr (Nat.succ_pos s.core.intNesting) rfl rfl rfl
  · exact ⟨h, hs⟩

include h hs in
omit [DecidableEq ε] in
theorem isr_intExit (hint : 0 < s.core.intNesting) :
    OsOk { s with core := s.core.osIntExit } ∧ SchedOk { s with core := s.core.osIntExit } := by
  have hexit : OsOk ⟨{ s.core with intNesting := s.core.intNesting - 1 }, s.pc⟩ :=
    h.congr rfl ⟨h.tables.rdy, h.tables.wait⟩ rfl rfl rfl (fun _ => rfl) h.idle.2.1 fun _ => Iff.rfl
  simp only [OsCore.osIntExit, if_pos hint]
  split_ifs with hzero hlock
  · exact ok_switch hexit hlock (hs.not_delEnd hlock) (fun _ => rfl) h.idle.2.1 (hs.not_delEnd hlock)
  · exact ⟨hexit, fun _ h' => absurd h' hlock, fun _ h' => absurd h' hlock, hs.unlocked, hs.locked, hs.del⟩
  · exact ⟨hexit, hs.isr (Nat.pos_of_ne_zero hzero) rfl rfl rfl⟩

include h in
omit [DecidableEq ε] in
theorem osTimeTick_spec : s.core.osTimeTick.Tables ∧ s.core.osTimeTick.frame = s.core.frame ∧
    (∀ q, q = osTaskIdlePrio ∨ s.core.prioTbl q = none → s.core.osTimeTick.view q = s.core.view q) ∧
    ∀ q t, q ≠ osTaskIdlePrio → s.core.prioTbl q = some t →
      s.core.osTimeTick.view q = (s.core.view q).tick t := by
  obtain ⟨l, hlist, hidle⟩ := h.listed.idle
  have hnodup := h.listed.nodup
  have hmem : ∀ q ∈ l, (s.core.prioTbl q).isSome := fun q hq =>
    ((h.listed.mem q).mp (hlist ▸ List.mem_append_left _ hq)).1
  rw [hlist] at hnodup
  obtain ⟨htables, hframe, hout, hin⟩ :=
    OsCore.tickTasks_spec hidle (List.nodup_append.mp hnodup).1 hmem h.tables
  rw [OsCore.osTimeTick, hlist]
  refine ⟨htables, hframe, fun q hq => hout q fun hql => ?_, fun q t hne ht => ?_⟩
  · rcases hq with rfl | hnone
    · exact hidle hql
    · have hsome := hmem q hql
      rw [hnone] at hsome
      exact absurd hsome nofun
  · by_cases hentered : s.core.stage q = some .entered
    · -- it is not in the list yet, and a tick would do nothing to it
      have hfresh := (h.view q).gone (.inr hentered)
      obtain rfl : t = .fresh := Option.some.inj (ht.symm.trans hfresh)
      rw [View.tick_fresh hfresh]
      exact hout q fun hql => ((h.listed.mem q).mp (hlist ▸ List.mem_append_left _ hql)).2 hentered
    · have hql := (h.listed.mem q).mpr ⟨by rw [ht]; rfl, hentered⟩
      rw [hlist, List.mem_append, List.mem_singleton] at hql
      exact hin q (hql.resolve_right hne) t ht

include h hs in
omit [DecidableEq ε] in
theorem isr_tick (hint : 0 < s.core.intNesting) :
    OsOk { s with core := s.core.osTimeTick } ∧ SchedOk { s with core := s.core.osTimeTick } := by
  obtain ⟨htables, hframe, hout, hin⟩ := osTimeTick_spec h
  simp only [OsCore.frame, Prod.mk.injEq] at hframe
  obtain ⟨⟨hstage, hlist⟩, hfree, hcur, -, hint', hlock, hsv⟩ := hframe
  have hview : ∀ q, s.core.osTimeTick.view q = s.core.view q ∨
      ∃ t, s.core.prioTbl q = some t ∧ s.core.osTimeTick.view q = (s.core.view q).tick t := fun q => by
    by_cases hq : q = osTaskIdlePrio
    · exact .inl (hout q (.inl hq))
    · cases ht : s.core.prioTbl q with
      | none => exact .inl (hout q (.inr ht))
      | some t => exact .inr ⟨t, rfl, hin q t hq ht⟩
  have hsome : ∀ q, (s.core.osTimeTick.prioTbl q).isSome = (s.core.prioTbl q).isSome := fun q => by
    show (s.core.osTimeTick.view q).tcb.isSome = _
    rcases hview q with heq | ⟨t, ht, heq⟩
    · rw [heq]
      rfl
    · rw [heq, ht]
      rfl
  have hdel : ∀ q, (OsSys.mk s.core.osTimeTick s.pc).Deleting q ↔ s.Deleting q := fun q => by
    rw [OsSys.Deleting, OsSys.Deleting]
    simp only [hcur]
  have hapart : ∀ q, (OsSys.mk s.core.osTimeTick s.pc).Apart q ↔ s.Apart q := fun q => by
    rw [OsSys.Apart, hdel q, hstage]
    exact Iff.rfl
  refine ⟨⟨htables, fun q => ?_, h.listed.congr hlist hfree hstage hsome, ⟨?_, h.idle.2.1,
    fun hq => h.idle.2.2 ((hapart _).mp hq)⟩, fun q hq => ?_⟩, hs.isr (hint' ▸ hint) hlock hcur hsv⟩
  · rw [propext (hapart q)]
    rcases hview q with heq | ⟨t, ht, heq⟩
    · simp only [heq]
      exact h.view q
    · simp only [heq]
      exact (h.view q).tick ht
  · show (s.core.osTimeTick.view osTaskIdlePrio).tcb = some .fresh
    rw [hout _ (.inl rfl)]
    exact h.idle.1
  · show s.core.osTimeTick.stage q = none
    rw [hstage]
    exact h.del q ((hdel q).mp hq)

include h hs in
theorem isr_semPost (hint : 0 < s.core.intNesting) (e : ε) :
    OsOk { s with core := (s.core.osSemPost e).2.2 } ∧ SchedOk { s with core := (s.core.osSemPost e).2.2 } := by
  unfold OsCore.osSemPost
  split_ifs with hgrp hcnt
  · obtain ⟨hwaits, t, ht, -⟩ := first_waits h hgrp
    have hc := OsCore.change_osEventTaskRdy ht
    have hframe := hc.frame
    simp only [OsCore.frame, Prod.mk.injEq] at hframe
    obtain ⟨-, -, hcur, -, hint', hlock, hsv⟩ := hframe
    refine ⟨h.change hc (h.first_ne_idle hgrp) (fun _ _ => rfl) h.idle.2.1 (fun _ => Iff.rfl)
      ((h.view _).post ht hwaits) ?_, hs.isr (hint' ▸ hint) hlock hcur hsv⟩
    rw [ht]
    rfl
  · exact ⟨h.setCnt e _ (fun _ => rfl) h.idle.2.1 fun _ => Iff.rfl, hs.isr hint rfl rfl rfl⟩
  · exact ⟨h, hs⟩

include h hs in
omit [DecidableEq ε] in
theorem isr_pendSv (hint : s.core.intNesting = 0) (hsv : s.core.pendSv = true) :
    OsOk { s with core := s.core.pendSvHandler } ∧ SchedOk { s with core := s.core.pendSvHandler } := by
  have hlock := hs.unlocked hsv
  have hnot := hs.not_delEnd hlock
  refine ⟨h.congr rfl ⟨h.tables.rdy, h.tables.wait⟩ rfl rfl rfl (fun _ => rfl) h.idle.2.1 fun q =>
    iff_of_false (hnot _ q) (hnot _ q), nofun, fun _ _ _ _ => hs.high hint hlock hsv, nofun, fun hpos => ?_,
    fun p q hpq => absurd hpq (hnot p q)⟩
  exact absurd hlock (Nat.ne_of_gt hpos)

end Interrupts

/-! ## Who is in `OSTaskCreate` -/

section Making

omit [DecidableEq ε] in
theorem MakeOk.congr (h : MakeOk s) (hstage : c'.stage = s.core.stage)
    (hpcs : ∀ t k p, pcs t = .creating k p → s.pc t = .creating k p) : MakeOk ⟨c', pcs⟩ := by
  refine ⟨fun t k p hpc => ?_, fun t u k k' p ht hu => h.alone t u k k' p (hpcs t k p ht) (hpcs u k' p hu)⟩
  rw [hstage]
  exact h.stage t k p (hpcs t k p hpc)

omit [DecidableEq ε] in
/-- The current task gets on with `p`, which nobody else is in `OSTaskCreate` for. -/
theorem MakeOk.part (h : MakeOk s) (hstage : ∀ q, q ≠ p → c'.stage q = s.core.stage q)
    (halone : ∀ t k, s.pc t = .creating k p → t = s.core.prioCur)
    (hpcs : ∀ t k q, t ≠ s.core.prioCur → pcs t = .creating k q → s.pc t = .creating k q)
    (hcur : ∀ k q, pcs s.core.prioCur = .creating k q → q = p ∧ c'.stage p = some k.stage) : MakeOk ⟨c', pcs⟩ := by
  have hother : ∀ t k q, t ≠ s.core.prioCur → pcs t = .creating k q → s.pc t = .creating k q ∧ q ≠ p :=
    fun t k q ht hpc => ⟨hpcs t k q ht hpc, fun hq => ht (halone t k (hq ▸ hpcs t k q ht hpc))⟩
  constructor
  · intro t k q hpc
    by_cases ht : t = s.core.prioCur
    · obtain ⟨hq, hp⟩ := hcur k q (ht ▸ hpc)
      rw [hq]
      exact hp
    · obtain ⟨hpc', hq⟩ := hother t k q ht hpc
      exact (hstage q hq).trans (h.stage t k q hpc')
  · intro t u k k' q ht hu
    by_cases htc : t = s.core.prioCur
    · by_cases huc : u = s.core.prioCur
      · exact htc.trans huc.symm
      · exact absurd (hcur k q (htc ▸ ht)).1 (hother u k' q huc hu).2
    · by_cases huc : u = s.core.prioCur
      · exact absurd (hcur k' q (huc ▸ hu)).1 (hother t k q htc ht).2
      · exact h.alone t u k k' q (hother t k q htc ht).1 (hother u k' q huc hu).1

omit [DecidableEq ε] in
theorem MakeOk.other (h : MakeOk s) (hstage : c'.stage = s.core.stage) {pc : Pc ε} (hne : ∀ k p, pc ≠ .creating k p) :
    MakeOk ⟨c', Function.update s.pc s.core.prioCur pc⟩ := by
  refine h.congr hstage fun t k p hpc => ?_
  by_cases ht : t = s.core.prioCur
  · rw [ht, Function.update_self] at hpc
    exact absurd hpc (hne k p)
  · rwa [Function.update_of_ne ht] at hpc

omit [DecidableEq ε] in
theorem after_ne_creating (b : Bool) (k : CreatePt) (p : Prio) : (Pc.after b : Pc ε) ≠ .creating k p := by
  cases b <;> simp [Pc.after]

theorem stage_osTaskDel (c : OsCore ε) (prio : Option Prio) : (c.osTaskDel prio).2.2.stage = c.stage := by
  unfold OsCore.osTaskDel
  split_ifs
  · rfl
  · rfl
  · simp only
    split
    · rfl
    · split_ifs <;> (split <;> rfl)

theorem stage_osEventTaskRdy (c : OsCore ε) (e : ε) (pendStat : StatPend) :
    (c.osEventTaskRdy e pendStat).stage = c.stage := by
  simp only [OsCore.osEventTaskRdy]
  split
  · rfl
  · split_ifs <;> rfl

theorem call_stage (c : OsCore ε) (a : OsCall ε) :
    (a.run c).2.stage = c.stage ∧ (∀ k p, (a.run c).1 ≠ .creating k p) ∨
    ∃ p, c.intNesting = 0 ∧ c.stage p = none ∧
      a.run c = (.creating .tcbInit p, c.setStage p (some .reserved)) := by
  cases a with
  | taskCreate p =>
    rcases c.osTaskCreate_cases p with ⟨err, herr, heq⟩ | ⟨hint, -, hstage, heq⟩
    · rw [OsCall.run, heq, if_neg herr]
      exact .inl ⟨rfl, by simp⟩
    · rw [OsCall.run, heq, if_pos rfl]
      exact .inr ⟨p, hint, hstage, rfl⟩
  | taskDel prio =>
    refine .inl ⟨stage_osTaskDel c prio, fun k p => ?_⟩
    rw [OsCall.run]
    cases (c.osTaskDel prio).2.1 <;> simp
  | taskSuspend prio =>
    refine .inl ⟨?_, after_ne_creating _⟩
    simp only [OsCall.run, OsCore.osTaskSuspend]
    split <;> rfl
  | taskResume p =>
    refine .inl ⟨?_, after_ne_creating _⟩
    simp only [OsCall.run, OsCore.osTaskResume]
    split
    · rfl
    · split_ifs <;> rfl
  | timeDly ticks =>
    refine .inl ⟨?_, after_ne_creating _⟩
    rw [OsCall.run, OsCore.osTimeDly]
    split_ifs
    · rfl
    · rfl
    · split <;> rfl
    · rfl
  | semPend e timeout =>
    refine .inl ⟨?_, fun k p => ?_⟩
    · show (c.osSemPend e timeout).2.stage = _
      rw [OsCore.osSemPend]
      split_ifs
      · rfl
      · rfl
      · rfl
      · split <;> rfl
    · show (if (c.osSemPend e timeout).1 = none then Pc.sched (some e) else .run) ≠ _
      split_ifs <;> simp
  | semPost e =>
    refine .inl ⟨?_, after_ne_creating _⟩
    rw [OsCall.run, OsCore.osSemPost]
    split_ifs
    · exact stage_osEventTaskRdy c e .ok
    · rfl
    · rfl
  | schedLock =>
    refine .inl ⟨?_, by simp [OsCall.run]⟩
    rw [OsCall.run, OsCore.osSchedLock]
    split_ifs <;> rfl
  | schedUnlock =>
    refine .inl ⟨?_, after_ne_creating _⟩
    rw [OsCall.run, OsCore.osSchedUnlock]
    split_ifs <;> rfl

variable (h : MakeOk s)

include h in
theorem make_call (a : OsCall ε) : MakeOk ⟨(a.run s.core).2, Function.update s.pc s.core.prioCur (a.run s.core).1⟩ := by
  rcases call_stage s.core a with ⟨hstage, hne⟩ | ⟨p, -, hnone, heq⟩
  · exact h.other hstage hne
  · rw [heq]
    refine h.part (p := p) (fun q hq => Function.update_of_ne hq ..) (fun t k ht => ?_) (fun t k q ht hpc => ?_)
      fun k q hpc => ?_
    · exact absurd (hnone.symm.trans (h.stage t k p ht)) (by simp)
    · rwa [Function.update_of_ne ht] at hpc
    · rw [Function.update_self] at hpc
      obtain ⟨rfl, rfl⟩ := Pc.creating.inj hpc
      exact ⟨rfl, Function.update_self ..⟩

omit [DecidableEq ε] in
theorem create_stage (c : OsCore ε) (k : CreatePt) (hk : c.stage p = some k.stage) :
    (∀ q, q ≠ p → (k.run c p).2.stage q = c.stage q) ∧
    ∀ k' q, (k.run c p).1 = .creating k' q → q = p ∧ (k.run c p).2.stage p = some k'.stage := by
  cases k with
  | tcbInit =>
    rcases c.osTcbInit_cases p with heq | ⟨-, heq⟩
    · rw [CreatePt.run, heq, if_neg (by simp)]
      refine ⟨fun _ _ => rfl, fun k' q hpc => ?_⟩
      obtain ⟨rfl, rfl⟩ := Pc.creating.inj hpc
      exact ⟨rfl, hk⟩
    · rw [CreatePt.run, heq, if_pos rfl]
      refine ⟨fun q hq => Function.update_of_ne hq .., fun k' q hpc => ?_⟩
      obtain ⟨rfl, rfl⟩ := Pc.creating.inj hpc
      exact ⟨rfl, Function.update_self ..⟩
  | noTcb => exact ⟨fun q hq => Function.update_of_ne hq .., by simp [CreatePt.run]⟩
  | enter =>
    refine ⟨fun q hq => Function.update_of_ne hq .., fun k' q hpc => ?_⟩
    obtain ⟨rfl, rfl⟩ := Pc.creating.inj hpc
    exact ⟨rfl, Function.update_self ..⟩
  | link => exact ⟨fun q hq => Function.update_of_ne hq .., by simp [CreatePt.run]⟩

include h in
omit [DecidableEq ε] in
theorem make_creating {k : CreatePt} (hpc : s.pc s.core.prioCur = .creating k p) :
    MakeOk ⟨(k.run s.core p).2, Function.update (s.started k p) s.core.prioCur (k.run s.core p).1⟩ := by
  obtain ⟨hstage, hcur⟩ := create_stage s.core k (h.stage _ k p hpc)
  refine h.part hstage (fun t k' ht => h.alone _ _ _ _ p ht hpc) (fun t k' q ht hpc' => ?_) fun k' q hpc' => ?_
  · rw [Function.update_of_ne ht] at hpc'
    unfold OsSys.started at hpc'
    split at hpc'
    · by_cases htp : t = p
      · rw [htp, Function.update_self] at hpc'
        exact absurd hpc' (by simp)
      · rwa [Function.update_of_ne htp] at hpc'
    · exact hpc'
  · rw [Function.update_self] at hpc'
    exact hcur k' q hpc'

/-- Each `OSTaskCreate` goes on with its own priority. -/
theorem make_step (hok : OsOk s) (h : MakeOk s) {a : OsAct ε} (hstep : s.step a = some s') : MakeOk s' := by
  have hswitch : ∀ c : OsCore ε, c.switch.stage = c.stage := fun c => (switch_frame c).2.2.2.2.2.2
  cases a with
  | call a =>
    rw [OsSys.step] at hstep
    split_ifs at hstep with hint hsv
    · obtain rfl := Option.some.inj hstep
      rcases call_stage s.core a with ⟨hstage, -⟩ | ⟨p, hzero, -⟩
      · exact h.congr hstage fun _ _ _ hpc => hpc
      · omega
    · split at hstep
      · obtain rfl := Option.some.inj hstep
        exact make_call h a
      · exact absurd hstep (by simp)
  | next =>
    rw [OsSys.step] at hstep
    split_ifs at hstep with hint hsv
    split at hstep
    · exact absurd hstep (by simp)
    · rename_i hpc
      obtain rfl := Option.some.inj hstep
      exact make_creating h hpc
    · rename_i e _
      obtain rfl := Option.some.inj hstep
      refine h.other ?_ fun k p => ?_
      · unfold OsCore.osSched
        split_ifs
        · exact hswitch s.core
        · rfl
        · rfl
      · cases e <;> simp
    · rename_i p _
      obtain rfl := Option.some.inj hstep
      have hstage : (s.core.osTaskDelEnd p).stage = s.core.stage := rfl
      exact h.other hstage (by simp)
    · rename_i e _
      obtain rfl := Option.some.inj hstep
      refine h.other ?_ (by simp)
      unfold OsCore.osSemPendEnd
      split
      · rfl
      · simp only
        split <;> rfl
  | intEnter =>
    obtain rfl := Option.some.inj hstep
    refine h.congr ?_ fun _ _ _ hpc => hpc
    unfold OsCore.osIntEnter
    split_ifs <;> rfl
  | intExit =>
    rw [OsSys.step] at hstep
    split_ifs at hstep with hint
    obtain rfl := Option.some.inj hstep
    refine h.congr ?_ fun _ _ _ hpc => hpc
    simp only [OsCore.osIntExit, if_pos hint]
    split_ifs
    · exact hswitch _
    · rfl
    · rfl
  | tick =>
    rw [OsSys.step] at hstep
    split_ifs at hstep
    obtain rfl := Option.some.inj hstep
    have hframe := (osTimeTick_spec hok).2.1
    exact h.congr (congrArg (fun f => f.1.1) hframe) fun _ _ _ hpc => hpc
  | pendSv =>
    rw [OsSys.step] at hstep
    split_ifs at hstep
    obtain rfl := Option.some.inj hstep
    exact h.congr rfl fun _ _ _ hpc => hpc

end Making

/-! ## Runs -/

/-- Whatever tasks and interrupts do, the tables and the schedule stay in order. -/
theorem ok_step (h : OsOk s) (hs : SchedOk s) (hm : MakeOk s) {a : OsAct ε} (hok : s.ok a)
    (hstep : s.step a = some s') : OsOk s' ∧ SchedOk s' := by
  cases a with
  | call a =>
    rw [OsSys.ok] at hok
    rw [OsSys.step] at hstep
    split_ifs at hok hstep with hint hsv
    · obtain ⟨e, rfl⟩ := hok
      obtain rfl := Option.some.inj hstep
      exact isr_semPost h hs hint e
    · split at hstep
      · rename_i hrun
        obtain rfl := Option.some.inj hstep
        exact call_ok h hs (Nat.eq_zero_of_not_pos hint) (Bool.eq_false_iff.mpr hsv) hrun hok.1 a hok.2
      · exact absurd hstep nofun
  | next =>
    rw [OsSys.step] at hstep
    split_ifs at hstep with hint hsv
    have hint' := Nat.eq_zero_of_not_pos hint
    have hsv' := Bool.eq_false_iff.mpr hsv
    split at hstep
    · exact absurd hstep nofun
    · rename_i k p hpc
      obtain rfl := Option.some.inj hstep
      exact next_creating h hs hint' hsv' hpc (hm.stage _ k p hpc)
    · rename_i hpc
      obtain rfl := Option.some.inj hstep
      exact next_sched h hs hint' hsv' hpc
    · rename_i hpc
      obtain rfl := Option.some.inj hstep
      exact next_delEnd h hs hsv' hpc
    · rename_i hpc
      obtain rfl := Option.some.inj hstep
      exact next_pendEnd h hs hint' hsv' hpc
  | intEnter =>
    obtain rfl := Option.some.inj hstep
    exact isr_intEnter h hs
  | intExit =>
    rw [OsSys.step] at hstep
    split_ifs at hstep with hint
    obtain rfl := Option.some.inj hstep
    exact isr_intExit h hs hint
  | tick =>
    rw [OsSys.step] at hstep
    split_ifs at hstep with hint
    obtain rfl := Option.some.inj hstep
    exact isr_tick h hs hint
  | pendSv =>
    rw [OsSys.step] at hstep
    split_ifs at hstep with hsv
    obtain rfl := Option.some.inj hstep
    exact isr_pendSv h hs hsv.1 hsv.2

omit [DecidableEq ε] in
theorem ok_osInit (cnt : ε → ℕ) : OsOk ⟨OsCore.osInit cnt, fun _ => .run⟩ := by
  obtain ⟨c, hinit, hc, hstage⟩ : ∃ c : OsCore ε, OsCore.osInit cnt = (c.osTcbEnter osTaskIdlePrio).osTcbLink
      osTaskIdlePrio ∧ c.view = (OsCore.start cnt).view ∧ ∀ q, q ≠ osTaskIdlePrio → c.stage q = none := by
    refine ⟨_, rfl, rfl, fun q hq => ?_⟩
    exact (Function.update_of_ne hq ..).trans (Function.update_of_ne hq ..)
  have hstage' : ∀ q, (OsCore.osInit cnt).stage q = none := fun q => by
    rw [hinit]
    by_cases hq : q = osTaskIdlePrio
    · exact hq ▸ Function.update_self ..
    · exact (Function.update_of_ne hq ..).trans ((Function.update_of_ne hq ..).trans (hstage q hq))
  have hview : ∀ q, (OsCore.start cnt).view q = ⟨false, none, fun _ => false⟩ := fun q => by
    simp [OsCore.view, OsCore.start]
  have hnot : ∀ q, ¬ (OsSys.mk (OsCore.osInit cnt) fun _ => Pc.run).Apart q := fun q hq => by
    rcases hq with hdel | hentered
    · cases hdel
    · exact absurd ((hstage' q).symm.trans hentered) (by simp)
  have hempty : (View.mk false none fun _ : ε => false).Ok (none : Option ε) False :=
    ⟨by simp, by simp, by simp, by simp⟩
  have hidle : (OsCore.osInit cnt).view osTaskIdlePrio = (View.mk false none fun _ => false).enter.link := by
    rw [hinit, OsCore.view_osTcbLink, Function.update_self, OsCore.view_osTcbEnter, Function.update_self, hc, hview]
  have hother : ∀ q, q ≠ osTaskIdlePrio → (OsCore.osInit cnt).view q = ⟨false, none, fun _ => false⟩ := fun q hq => by
    rw [hinit, OsCore.view_osTcbLink, Function.update_of_ne hq, OsCore.view_osTcbEnter, Function.update_of_ne hq, hc,
      hview]
  refine ⟨⟨Bitmap.ok_empty.insert _, fun _ => Bitmap.ok_empty⟩, fun q => ?_, ⟨⟨[], rfl, List.not_mem_nil⟩,
    List.nodup_singleton _, fun q => ?_, fun q g hq => ?_, ?_⟩, ⟨congrArg View.tcb hidle, rfl, hnot _⟩,
    fun q _ => hstage' q⟩
  · rw [eq_false (hnot q)]
    by_cases hq : q = osTaskIdlePrio
    · rw [hq]
      exact hidle ▸ (hempty.enter rfl).link
    · exact (hother q hq).symm ▸ hempty
  · show q ∈ [osTaskIdlePrio] ↔ ((OsCore.osInit cnt).view q).tcb.isSome ∧ _
    rw [List.mem_singleton, hstage', and_iff_left (by simp)]
    by_cases hq : q = osTaskIdlePrio
    · rw [hq, hidle]
      exact iff_of_true rfl rfl
    · rw [hother q hq]
      exact iff_of_false hq (by simp)
  · exact absurd ((hstage' q).symm.trans hq) (by simp)
  · have htaken : (OsCore.osInit cnt).taken = 0 := Finset.sum_eq_zero fun q _ => by
      rw [hstage']
      rfl
    rw [htaken]
    rfl

omit [DecidableEq ε] in
theorem ok_createTask {c : OsCore ε} (h : OsOk ⟨c, fun _ => .run⟩) (p : Prio) :
    OsOk ⟨c.createTask p, fun _ => .run⟩ ∧ (c.createTask p).lockNesting = c.lockNesting := by
  have hrun : ∀ (c : OsCore ε) (q : Prio), ¬ (OsSys.mk c fun _ => Pc.run).Deleting q := fun c q hdel => by cases hdel
  rw [OsCore.createTask]
  rcases c.osTaskCreate_cases p with ⟨err, herr, heq⟩ | ⟨-, htcb, hstage, heq⟩
  · rw [heq]
    cases err <;> first | exact absurd rfl herr | exact ⟨h, rfl⟩
  rw [heq]
  have hreserved : OsOk ⟨c.setStage p (some .reserved), fun _ => .run⟩ :=
    h.setStage (n := c.free) (hrun c) rfl (hrun c) htcb (by simp) (by rw [hstage]; rfl) fun _ => rfl
  have hself : (c.setStage p (some .reserved)).stage p = some .reserved := Function.update_self ..
  rcases (c.setStage p (some .reserved)).osTcbInit_cases p with heq' | ⟨hfree, heq'⟩
  · simp only [heq']
    exact ⟨hreserved.setStage (n := c.free) (hrun _) rfl (hrun _) htcb (by simp) (by rw [hself]; rfl) fun _ => rfl, rfl⟩
  · simp only [heq']
    have htaken := hreserved.setStage (g := some .taken) (n := c.free - 1) (hrun _) rfl (hrun _) htcb (by simp)
      (by rw [hself]; exact Nat.sub_add_cancel (Nat.pos_of_ne_zero hfree)) fun _ => rfl
    have hentered := htaken.osTcbEnter (p := p) (hrun _) rfl (hrun _) htcb (Function.update_self ..) fun _ => rfl
    exact ⟨hentered.osTcbLink (hrun _) rfl (hrun c) (Function.update_self ..) fun _ _ => rfl, rfl⟩

omit [DecidableEq ε] in
theorem ok_boot (cnt : ε → ℕ) (prios : List Prio) : OsOk (.boot cnt prios) ∧ SchedOk (.boot cnt prios) := by
  have hfold : ∀ (prios : List Prio) (c : OsCore ε), OsOk ⟨c, fun _ => .run⟩ → c.lockNesting = 0 →
      OsOk ⟨prios.foldl OsCore.createTask c, fun _ => .run⟩ ∧ (prios.foldl OsCore.createTask c).lockNesting = 0 := by
    intro prios
    induction prios with
    | nil => exact fun c h hlock => ⟨h, hlock⟩
    | cons p prios ih =>
      intro c h hlock
      exact ih _ (ok_createTask h p).1 ((ok_createTask h p).2.trans hlock)
  obtain ⟨h, hlock⟩ := hfold prios (OsCore.osInit cnt) (ok_osInit cnt) rfl
  refine ⟨h.congr rfl ⟨h.tables.rdy, h.tables.wait⟩ rfl rfl rfl (fun _ => rfl) rfl
    fun q => iff_of_false nofun nofun, ?_⟩
  exact ⟨fun _ _ _ => h.highest, nofun, fun _ => hlock, fun hpos => absurd hlock (Nat.ne_of_gt hpos), nofun⟩

/-- What holds in every state that is reached. -/
theorem reach_ok (hs : osMachine.Reach OsSys.ok s) : (OsOk s ∧ SchedOk s) ∧ MakeOk s := by
  refine hs.invariant (I := fun s => (OsOk s ∧ SchedOk s) ∧ MakeOk s) ?_ ?_
  · rintro _ ⟨cnt, prios, rfl⟩
    exact ⟨ok_boot cnt prios, ⟨fun _ _ _ hpc => (by cases hpc), fun _ _ _ _ _ hpc => (by cases hpc)⟩⟩
  · rintro s a s' ⟨⟨h, hs⟩, hm⟩ hok hstep
    exact ⟨ok_step h hs hm hok hstep, make_step h hm hstep⟩

theorem ok_reach (hs : osMachine.Reach OsSys.ok s) : OsOk s ∧ SchedOk s := (reach_ok hs).1

end LoraGateway.Os
