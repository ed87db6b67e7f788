import LoraGateway.Os.Scheduling

/-!
# The bits refine the semaphores

The kernel of semaphores has wait tables that are sets and wakes the least of the set. `OsCore.sems` is what of the
bits it stands for, and in every state that is reached the calls and the tick go the same way (`semaphores_refine`).

Proof: a call changes the view of one task at most (`OsCore.Change`), so the two kernels have to be compared at that
task and at one count (`sems_change`, `sems_setCnt`). That the lowest bit is the least of the set is the bitmap's
`first_eq_min'`.
-/

namespace LoraGateway.Os

open Lib

variable {ε : Type} [DecidableEq ε] {s : OsSys ε} {c c' : OsCore ε} {p q : Prio} {v : View ε} {e : ε}
  {eventFree : ℕ} {systemTickNum : BitVec 32}

/-- A control block as the semaphores see it; there is nothing to see where there is no task. -/
def TaskTcb.sems : Option (TaskTcb ε) → OsTcb
  | some t => ⟨t.dly, t.statPend, t.stat &&& osStatPendAny ≠ osStatRdy⟩
  | none => ⟨0, .ok, false⟩

def OsCore.sems (eventFree : ℕ) (systemTickNum : BitVec 32) (c : OsCore ε) : Kernel ε (8 * 8) where
  event e := ⟨(c.event e).cnt, (c.event e).wait.toFinset⟩
  tcb p := TaskTcb.sems (c.prioTbl p)
  intNesting := c.intNesting
  lockNesting := c.lockNesting
  eventFree := eventFree
  systemTickNum := systemTickNum

omit [DecidableEq ε] in
theorem mem_sems : p ∈ ((c.sems eventFree systemTickNum).event e).tbl ↔ (c.view p).waits e = true :=
  Bitmap.mem_toFinset

omit [DecidableEq ε] in
theorem sems_eq {k : Kernel ε (8 * 8)}
    (hcnt : ∀ e, (k.event e).cnt = (c.event e).cnt)
    (htbl : ∀ e p, p ∈ (k.event e).tbl ↔ (c.view p).waits e = true)
    (htcb : ∀ p, k.tcb p = TaskTcb.sems (c.view p).tcb) (hint : k.intNesting = c.intNesting)
    (hlock : k.lockNesting = c.lockNesting) (hfree : k.eventFree = eventFree)
    (htick : k.systemTickNum = systemTickNum) : k = c.sems eventFree systemTickNum := by
  obtain ⟨event, tcb, intNesting, lockNesting, eventFree, systemTickNum⟩ := k
  have hevent : event = (c.sems eventFree systemTickNum).event := by
    funext e
    have hset : (event e).tbl = ((c.sems eventFree systemTickNum).event e).tbl := by
      ext p
      rw [mem_sems]
      exact htbl e p
    have hboth : event e = ⟨(event e).cnt, (event e).tbl⟩ := rfl
    rw [hboth, hset]
    exact congrArg (OsEvent.mk · _) (hcnt e)
  have htcb' : tcb = (c.sems eventFree systemTickNum).tcb := funext htcb
  subst hevent htcb' hint hlock hfree htick
  rfl

/-- A change of one task that takes it off a wait list, or puts it on one, and leaves the counts. -/
theorem sems_change (eventFree : ℕ) (systemTickNum : BitVec 32) (hc : c.Change c' p v)
    (hcnt : ∀ e, (c'.event e).cnt = (c.event e).cnt) (waits : Bool)
    (hwaits : v.waits = Function.update (c.view p).waits e waits) (tbl : Finset Prio)
    (htbl : ∀ q, q ∈ tbl ↔ if q = p then waits = true else (c.view q).waits e = true) :
    (((c.sems eventFree systemTickNum).setTcb p (TaskTcb.sems v.tcb)).setEvent e ⟨(c.event e).cnt, tbl⟩) =
      c'.sems eventFree systemTickNum := by
  have hframe := hc.frame
  simp only [OsCore.frame, Prod.mk.injEq] at hframe
  obtain ⟨-, -, -, -, hint, hlock, -⟩ := hframe
  refine sems_eq (fun e' => ?_) (fun e' q => ?_) (fun q => ?_) hint.symm hlock.symm rfl rfl
  · rw [hcnt]
    by_cases he : e' = e
    · rw [he, setEvent_self]
    · rw [setEvent_of_ne _ he]
      rfl
  · by_cases hq : q = p
    · rw [hq, hc.self, hwaits]
      by_cases he : e' = e
      · rw [he, setEvent_self, Function.update_self, htbl, if_pos rfl]
      · rw [setEvent_of_ne _ he, Function.update_of_ne he, setTcb_event]
        exact mem_sems
    · rw [hc.of_ne hq]
      by_cases he : e' = e
      · rw [he, setEvent_self, htbl, if_neg hq]
      · rw [setEvent_of_ne _ he, setTcb_event]
        exact mem_sems
  · rw [setEvent_tcb]
    by_cases hq : q = p
    · rw [hq, hc.self, setTcb_self]
    · rw [hc.of_ne hq, setTcb_of_ne _ hq]
      rfl

theorem event_setEvent (c : OsCore ε) (e : ε) (ev : Ecb) : (c.setEvent e ev).event = Function.update c.event e ev :=
  rfl

theorem sems_setCnt (n : ℕ) : (c.sems eventFree systemTickNum).setEvent e
      { (c.sems eventFree systemTickNum).event e with cnt := n } =
    (c.setEvent e { c.event e with cnt := n }).sems eventFree systemTickNum := by
  refine sems_eq (fun e' => ?_) (fun e' q => ?_) (fun q => ?_) rfl rfl rfl rfl
  · by_cases he : e' = e
    · rw [he, setEvent_self, event_setEvent, Function.update_self]
    · rw [setEvent_of_ne _ he, event_setEvent, Function.update_of_ne he]
      rfl
  · rw [OsCore.view_setCnt]
    by_cases he : e' = e
    · rw [he, setEvent_self]
      exact Bitmap.mem_toFinset
    · rw [setEvent_of_ne _ he]
      exact mem_sems
  · rw [OsCore.view_setCnt]
    rfl

theorem cnt_setEvent (c : OsCore ε) (e e' : ε) (wait : Bitmap 8) :
    ((c.setEvent e { c.event e with wait := wait }).event e').cnt = (c.event e').cnt := by
  rw [event_setEvent]
  by_cases he : e' = e
  · rw [he, Function.update_self]
  · rw [Function.update_of_ne he]

/-! ## The calls -/

theorem post_refines (hok : OsOk s) (eventFree : ℕ) (systemTickNum : BitVec 32) (e : ε) :
    osSemPost (s.core.sems eventFree systemTickNum) e =
      ((s.core.osSemPost e).1, (s.core.osSemPost e).2.2.sems eventFree systemTickNum) := by
  have hne : ((s.core.sems eventFree systemTickNum).event e).tbl.Nonempty ↔ (s.core.event e).wait.grp ≠ 0 :=
    (hok.tables.wait e).nonempty_iff
  unfold osSemPost OsCore.osSemPost
  by_cases hgrp : (s.core.event e).wait.grp ≠ 0
  · rw [dif_pos (hne.mpr hgrp), if_pos hgrp]
    have hfirst : ((s.core.sems eventFree systemTickNum).event e).tbl.min' (hne.mpr hgrp) =
        (s.core.event e).wait.first osUnMap :=
      ((hok.tables.wait e).first_eq_min' isLowest_osUnMap (hne.mpr hgrp)).symm
    obtain ⟨hwaits, t, ht, -⟩ := first_waits hok hgrp
    have hc := OsCore.change_osEventTaskRdy ht
    have hstat := t.ok_stat ((hok.view _).tcb t ht)
    have hcnt : ∀ e', ((s.core.osEventTaskRdy e .ok).event e').cnt = (s.core.event e').cnt := fun e' => by
      simp only [OsCore.osEventTaskRdy, ht]
      split <;> exact cnt_setEvent _ _ _ _
    have hsems := sems_change eventFree systemTickNum hc hcnt (e := e) false rfl
      (((s.core.sems eventFree systemTickNum).event e).tbl.erase ((s.core.event e).wait.first osUnMap)) fun q => by
      rw [Finset.mem_erase, mem_sems]
      split_ifs with hq
      · simp [hq]
      · simp [hq]
    have htcb : TaskTcb.sems (some (⟨t.stat &&& ~~~osStatSem, .ok, 0, none⟩ : TaskTcb ε)) = ⟨0, .ok, false⟩ := by
      rcases hstat with hs | hs | hs | hs <;> simp [TaskTcb.sems, hs, osStatSem, osStatPendAny, osStatRdy]
    rw [hfirst, osEventTaskRdy]
    rw [View.post, htcb] at hsems
    exact congrArg (Prod.mk _) hsems
  · rw [dif_neg (hne.not.mpr hgrp), if_neg hgrp]
    show (if (s.core.event e).cnt < 65535 then _ else _) = _
    split_ifs
    · exact congrArg (Prod.mk _) (sems_setCnt _)
    · rfl

theorem pend_refines (hok : OsOk s) (hs : SchedOk s) (hsv : s.core.pendSv = false)
    (hrun : s.pc s.core.prioCur = .run) (eventFree : ℕ) (systemTickNum : BitVec 32) (e : ε) (timeout : ℕ) :
    osSemPend (s.core.sems eventFree systemTickNum) s.core.prioCur e timeout =
      ((s.core.osSemPend e timeout).1, (s.core.osSemPend e timeout).2.sems eventFree systemTickNum) := by
  unfold osSemPend OsCore.osSemPend
  show (if 0 < s.core.intNesting then _ else if 0 < s.core.lockNesting then _
    else if 0 < (s.core.event e).cnt then _ else _) = _
  split_ifs with hint hlock hcnt
  · rfl
  · rfl
  · exact congrArg (Prod.mk _) (sems_setCnt _)
  · obtain ⟨t, ht, hready, -⟩ := current_ready hok hs (Nat.eq_zero_of_not_pos hint) (Nat.eq_zero_of_not_pos hlock) hsv
      (run_settled hrun)
    have hc := OsCore.change_osEventTaskWait s.core e
      { t with stat := t.stat ||| osStatSem, statPend := .ok, dly := timeout }
    have hcnt : ∀ e', ((s.core.osEventTaskWait e
        { t with stat := t.stat ||| osStatSem, statPend := .ok, dly := timeout }).event e').cnt =
        (s.core.event e').cnt := fun e' => cnt_setEvent _ _ _ _
    have hsems := sems_change eventFree systemTickNum hc hcnt true rfl
      (insert s.core.prioCur ((s.core.sems eventFree systemTickNum).event e).tbl) fun q => by
      rw [Finset.mem_insert, mem_sems]
      split_ifs with hq
      · simp [hq]
      · simp [hq]
    have htcb : TaskTcb.sems (some (⟨t.stat ||| osStatSem, .ok, timeout, some e⟩ : TaskTcb ε)) =
        ⟨timeout, .ok, true⟩ := by
      simp [TaskTcb.sems, hready.1, osStatRdy, osStatSem, osStatPendAny]
    rw [ht]
    rw [htcb] at hsems
    exact congrArg (Prod.mk _) hsems

theorem pendEnd_refines (hok : OsOk s) (hs : SchedOk s) (hint : s.core.intNesting = 0) (hsv : s.core.pendSv = false)
    (hpc : s.pc s.core.prioCur = .pendEnd e) (eventFree : ℕ) (systemTickNum : BitVec 32) :
    pendReturn (s.core.sems eventFree systemTickNum) s.core.prioCur e =
      some ((s.core.osSemPendEnd e).1, (s.core.osSemPendEnd e).2.sems eventFree systemTickNum) := by
  have hlock : s.core.lockNesting = 0 := by
    by_contra hpos
    have hpend := hs.locked (Nat.pos_of_ne_zero hpos)
    rw [hpc] at hpend
    exact absurd hpend nofun
  obtain ⟨t, ht, hready, -⟩ := current_ready hok hs hint hlock hsv (by rw [hpc]; trivial)
  have htcb : (s.core.sems eventFree systemTickNum).tcb s.core.prioCur = ⟨t.dly, t.statPend, false⟩ := by
    show TaskTcb.sems (s.core.prioTbl s.core.prioCur) = _
    rw [ht]
    simp [TaskTcb.sems, hready.1, osStatRdy]
  have hdone : TaskTcb.sems (some (⟨osStatRdy, .ok, t.dly, none⟩ : TaskTcb ε)) = ⟨t.dly, .ok, false⟩ := by
    simp [TaskTcb.sems, osStatRdy]
  -- without a timeout no wait list is touched
  have hstay : ∀ c', s.core.Change c' s.core.prioCur
      { s.core.view s.core.prioCur with tcb := some ⟨osStatRdy, .ok, t.dly, none⟩ } → c'.event = s.core.event →
      (s.core.sems eventFree systemTickNum).setTcb s.core.prioCur ⟨t.dly, .ok, false⟩ =
        c'.sems eventFree systemTickNum := by
    intro c' hc hevent
    have hsems := sems_change eventFree systemTickNum hc (fun e' => by rw [hevent])
      ((s.core.view s.core.prioCur).waits e) (Function.update_eq_self e _).symm
      ((s.core.sems eventFree systemTickNum).event e).tbl fun q => by
        rw [mem_sems]
        split_ifs with hq
        · rw [hq]
        · rfl
    rw [hdone] at hsems
    rw [← hsems, Kernel.setEvent]
    exact congrArg (fun ev => { (s.core.sems eventFree systemTickNum).setTcb s.core.prioCur ⟨t.dly, .ok, false⟩ with
      event := ev }) (Function.update_eq_self e _).symm
  have hready' := (OsCore.Change.refl s.core s.core.prioCur).setTcb ⟨osStatRdy, .ok, t.dly, none⟩
  unfold pendReturn OsCore.osSemPendEnd
  rw [htcb, ht]
  simp only [Bool.false_eq_true, if_false]
  cases hstat : t.statPend with
  | ok => exact congrArg (fun k => some (OsErr.none, k)) (hstay _ hready' rfl)
  | abort => exact congrArg (fun k => some (OsErr.pendAbort, k)) (hstay _ hready' rfl)
  | timeout =>
    have hc := ((OsCore.Change.refl s.core s.core.prioCur).osEventTaskRemove t e).setTcb ⟨osStatRdy, .ok, t.dly, none⟩
    have hsems := sems_change eventFree systemTickNum hc (fun e' => cnt_setEvent _ _ _ _) (e := e) false rfl
      (((s.core.sems eventFree systemTickNum).event e).tbl.erase s.core.prioCur) fun q => by
        rw [Finset.mem_erase, mem_sems]
        split_ifs with hq
        · simp [hq]
        · simp [hq]
    rw [hdone] at hsems
    exact congrArg (fun k => some (OsErr.timeout, k)) hsems

omit [DecidableEq ε] in
theorem sems_tick {t : TaskTcb ε} (h : ∃ pending, t.Ok pending) :
    (TaskTcb.sems (some t)).tick = TaskTcb.sems (some t.tick) := by
  obtain ⟨pending, h⟩ := h
  have hstat := t.ok_stat h
  obtain ⟨stat, statPend, dly, eventPtr⟩ := t
  simp only at hstat
  unfold OsTcb.tick TaskTcb.tick
  simp only [TaskTcb.sems]
  by_cases hzero : dly = 0
  · simp [hzero]
  · by_cases hone : dly = 1
    · rcases hstat with rfl | rfl | rfl | rfl <;> simp [hone, osStatRdy, osStatPendAny]
    · simp [hzero, hone]

omit [DecidableEq ε] in
theorem event_tickTasks (l : List Prio) (c : OsCore ε) : (OsCore.tickTasks l c).event = c.event := by
  induction l generalizing c with
  | nil => rfl
  | cons p l ih =>
    have hturn : (c.tickTask p).event = c.event := by
      unfold OsCore.tickTask
      split
      · rfl
      · simp only
        split_ifs <;> rfl
    rw [OsCore.tickTasks]
    split
    · rfl
    · rw [ih, hturn]

omit [DecidableEq ε] in
theorem tick_refines (hok : OsOk s) (eventFree : ℕ) (systemTickNum : BitVec 32) :
    sysTickHandler (s.core.sems eventFree systemTickNum) =
      s.core.osTimeTick.sems eventFree (systemTickNum + BitVec.ofNat 32 (1000 / osTicksPerSec)) := by
  obtain ⟨-, hframe, hout, hin⟩ := osTimeTick_spec hok
  have hevent := event_tickTasks s.core.list s.core
  simp only [OsCore.frame, Prod.mk.injEq] at hframe
  obtain ⟨-, -, -, -, hint, hlock, -⟩ := hframe
  refine sems_eq (fun e => ?_) (fun e p => ?_) (fun p => ?_) hint.symm hlock.symm rfl rfl
  · rw [OsCore.osTimeTick, hevent]
    rfl
  · show p ∈ ((s.core.sems eventFree systemTickNum).event e).tbl ↔ (s.core.osTimeTick.event e).wait.mem p = true
    rw [OsCore.osTimeTick, hevent]
    exact Bitmap.mem_toFinset
  · show (TaskTcb.sems (s.core.prioTbl p)).tick = _
    by_cases hp : p = osTaskIdlePrio
    · rw [hout p (.inl hp), hp]
      show (TaskTcb.sems (s.core.prioTbl osTaskIdlePrio)).tick = TaskTcb.sems (s.core.prioTbl osTaskIdlePrio)
      rw [hok.idle.1]
      rfl
    · cases ht : s.core.prioTbl p with
      | none =>
        rw [hout p (.inr ht)]
        show OsTcb.tick (TaskTcb.sems none) = TaskTcb.sems (s.core.prioTbl p)
        rw [ht]
        rfl
      | some t =>
        rw [hin p t hp ht]
        exact sems_tick ⟨_, (hok.view p).tcb t ht⟩

/-- In every state that is reached the calls of `os_sem.c` on bits and control blocks do what the calls of the
semaphores do on sets: `OSSemPost`, both halves of `OSSemPend`, and the tick. -/
theorem semaphores_refine (hr : osMachine.Reach OsSys.ok s) (eventFree : ℕ) (systemTickNum : BitVec 32) (e : ε) :
    (osSemPost (s.core.sems eventFree systemTickNum) e =
      ((s.core.osSemPost e).1, (s.core.osSemPost e).2.2.sems eventFree systemTickNum)) ∧
    (s.core.pendSv = false → s.pc s.core.prioCur = .run → ∀ timeout,
      osSemPend (s.core.sems eventFree systemTickNum) s.core.prioCur e timeout =
        ((s.core.osSemPend e timeout).1, (s.core.osSemPend e timeout).2.sems eventFree systemTickNum)) ∧
    (s.core.intNesting = 0 → s.core.pendSv = false → s.pc s.core.prioCur = .pendEnd e →
      pendReturn (s.core.sems eventFree systemTickNum) s.core.prioCur e =
        some ((s.core.osSemPendEnd e).1, (s.core.osSemPendEnd e).2.sems eventFree systemTickNum)) ∧
    sysTickHandler (s.core.sems eventFree systemTickNum) =
      s.core.osTimeTick.sems eventFree (systemTickNum + BitVec.ofNat 32 (1000 / osTicksPerSec)) := by
  obtain ⟨hok, hs⟩ := ok_reach hr
  exact ⟨post_refines hok eventFree systemTickNum e,
    fun hsv hrun timeout => pend_refines hok hs hsv hrun eventFree systemTickNum e timeout,
    fun hint hsv hpc => pendEnd_refines hok hs hint hsv hpc eventFree systemTickNum,
    tick_refines hok eventFree systemTickNum⟩

/-- Task 5 waits and task 7 runs; after three ticks the wait of task 5 is over. -/
def waitRun : List (OsAct Unit) := [.pendSv, .call (.semPend () 3), .next, .pendSv]

def timeoutRun : List (OsAct Unit) := [.intEnter, .tick, .tick, .tick, .intExit, .pendSv]

theorem semaphores_refine_wait : ∃ s s', osMachine.runOk OsSys.ok twoTasks waitRun = some s ∧
    osMachine.runOk OsSys.ok s timeoutRun = some s' ∧ (s.core.event ()).wait.mem 5 = true ∧
    osSemPost (s.core.sems 50 0) () = (.none, (s.core.osSemPost ()).2.2.sems 50 0) ∧
    osSemPend (s.core.sems 50 0) 7 () 2 = (none, (s.core.osSemPend () 2).2.sems 50 0) ∧
    sysTickHandler (s.core.sems 50 0) = s.core.osTimeTick.sems 50 5 ∧
    pendReturn (s'.core.sems 50 15) 5 () = some (.timeout, (s'.core.osSemPendEnd ()).2.sems 50 15) := by
  have hrun : ((osMachine.runOk OsSys.ok twoTasks waitRun).any fun s => s.core.prioCur = 7 ∧ s.core.pendSv = false ∧
      s.pc 7 = .run ∧ (s.core.event ()).wait.mem 5 = true ∧ (s.core.osSemPost ()).1 = .none ∧
      (s.core.osSemPend () 2).1 = none ∧ (osMachine.runOk OsSys.ok s timeoutRun).any fun s' => s'.core.prioCur = 5 ∧
        s'.core.intNesting = 0 ∧ s'.core.pendSv = false ∧ s'.pc 5 = .pendEnd () ∧
        (s'.core.osSemPendEnd ()).1 = .timeout) = true := by
    decide +kernel
  obtain ⟨s, hs, hfacts⟩ := Option.any_eq_true _ _ |>.mp hrun
  obtain ⟨hcur, hsv, hpc, hwaits, hpost, hpend, hrun'⟩ := of_decide_eq_true hfacts
  obtain ⟨s', hs', hfacts'⟩ := Option.any_eq_true _ _ |>.mp hrun'
  obtain ⟨hcur', hint', hsv', hpc', hend⟩ := of_decide_eq_true hfacts'
  have hreach := reach_twoTasks.steps (.of_runOk hs)
  obtain ⟨hpost', hpend', -, htick⟩ := semaphores_refine hreach 50 0 ()
  obtain ⟨-, -, hend', -⟩ := semaphores_refine (hreach.steps (.of_runOk hs')) 50 15 ()
  rw [hcur] at hpend'
  rw [hcur'] at hend'
  refine ⟨s, s', hs, hs', hwaits, ?_, ?_, htick, ?_⟩
  · rw [hpost', hpost]
  · rw [hpend' hsv hpc 2, hpend]
  · rw [hend' hint' hsv' hpc', hend]

end LoraGateway.Os
