import LoraGateway.Os.OsCoreRun

/-!
# What tasks rely on

In every state that tasks and interrupts reach: the ready list and the wait lists say what the control blocks say, the
task that runs is the highest ready one, no control block is lost, and `OSTimeDly` lasts as many ticks as it was asked
for.

The tables and the schedule are read off the invariant of the runs (`reach_ok`). A sleep has one of its own: who is
`Asleep` does not run and waits for nothing else, so that no step but a tick touches the delay (`Asleep.step`), and
each tick takes one off it (`Asleep.tick`).
-/

namespace LoraGateway.Os

open Lib

variable {ε : Type} [DecidableEq ε] {s s' s₁ s₂ : OsSys ε} {c' : OsCore ε} {p q : Prio} {pcs : Prio → Pc ε} {m n : ℕ}

/-! ## What the kernel keeps -/

/-- Tasks 5 and 7, next to the idle task. -/
def twoTasks : OsSys Unit := .boot (fun _ => 0) [⟨5, by decide⟩, ⟨7, by decide⟩]

theorem reach_twoTasks : osMachine.Reach OsSys.ok twoTasks := .init ⟨_, _, rfl⟩

/-- The task that is created in the runs. -/
def taskSix : Prio := ⟨6, by decide⟩

/-- With the scheduler unlocked and no switch pending, a task that is not in the middle of a call is ready, and no
task of higher priority is. -/
theorem kernel_highest (hs : osMachine.Reach OsSys.ok s) (hint : s.core.intNesting = 0)
    (hlock : s.core.lockNesting = 0) (hsv : s.core.pendSv = false) (hrun : s.pc s.core.prioCur = .run) :
    (∃ t, s.core.prioTbl s.core.prioCur = some t ∧ t.Ready) ∧
    ∀ q ∈ s.core.list, ∀ t, s.core.prioTbl q = some t → t.Ready → s.core.prioCur ≤ q := by
  obtain ⟨h, hsched⟩ := ok_reach hs
  refine ⟨?_, fun q hq t ht hready => ?_⟩
  · obtain ⟨t, ht, hready, -⟩ := current_ready h hsched hint hlock hsv (run_settled hrun)
    exact ⟨t, ht, hready⟩
  · have hapart := not_apart (not_deleting hrun q) ((h.listed.mem q).mp hq).2
    exact (hsched.cur hint hlock hsv (run_settled hrun)).2 q ((h.view q).ready.mpr ⟨hapart, t, ht, hready⟩)

theorem kernel_highest_seven : ∃ s, osMachine.run twoTasks [.pendSv, .call (.timeDly 2), .next, .pendSv] = some s ∧
    s.core.prioCur = 7 ∧ ∀ q ∈ s.core.list, ∀ t, s.core.prioTbl q = some t → t.Ready → 7 ≤ q := by
  refine ⟨_, rfl, by decide, (kernel_highest ?_ rfl rfl rfl rfl).2⟩
  refine .step (.step (.step (.step reach_twoTasks (a := .pendSv) trivial rfl) (a := .call (.timeDly 2)) ?_ rfl)
    (a := .next) trivial rfl) (a := .pendSv) trivial rfl
  exact ⟨by decide, trivial⟩

/-- `p` sleeps for `m` ticks more. -/
structure Asleep (s : OsSys ε) (p : Prio) (m : ℕ) : Prop where
  pos : 0 < m
  tcb : ∃ t, s.core.prioTbl p = some t ∧ t.stat = osStatRdy ∧ t.dly = m
  pending : (s.pc p).pending = none
  kept : ¬ s.Deleting p
  unlocked : s.core.prioCur = p → s.core.lockNesting = 0

/-- Nobody deletes or suspends `p`. -/
def Leaves (p : Prio) (a : OsAct ε) : Prop := a ≠ .call (.taskDel (some p)) ∧ a ≠ .call (.taskSuspend (some p))

instance (a : OsAct ε) : Decidable (Leaves p a) := inferInstanceAs (Decidable (_ ∧ _))

omit [DecidableEq ε] in
theorem Asleep.congr (h : Asleep s p m) (hview : c'.view p = s.core.view p) (hpend : (pcs p).pending = none)
    (hkept : pcs c'.prioCur ≠ .delEnd p) (hunlocked : c'.prioCur = p → c'.lockNesting = 0) :
    Asleep ⟨c', pcs⟩ p m := by
  refine ⟨h.pos, ?_, hpend, hkept, hunlocked⟩
  have htcb : c'.prioTbl p = s.core.prioTbl p := congrArg View.tcb hview
  rw [htcb]
  exact h.tcb

omit [DecidableEq ε] in
theorem Asleep.not_rdy (h : Asleep s p m) (hok : OsOk s) : s.core.rdy.mem p = false := by
  obtain ⟨t, ht, -, hdly⟩ := h.tcb
  refine Bool.eq_false_iff.mpr fun hrdy => ?_
  obtain ⟨-, t', ht', -, hzero⟩ := (hok.view p).ready.mp hrdy
  obtain rfl := Option.some.inj (ht.symm.trans ht')
  exact Nat.ne_of_gt h.pos (hdly.symm.trans hzero)

omit [DecidableEq ε] in
theorem Asleep.not_waits (h : Asleep s p m) (hok : OsOk s) (e : ε) : (s.core.view p).waits e = false := by
  refine Bool.eq_false_iff.mpr fun hwaits => ?_
  have hpend := (hok.view p).pending_eq hwaits
  exact absurd (h.pending.symm.trans hpend) nofun

omit [DecidableEq ε] in
theorem Asleep.not_running (h : Asleep s p m) (hok : OsOk s) (hs : SchedOk s) (hint : s.core.intNesting = 0)
    (hsv : s.core.pendSv = false) (hpc : (s.pc s.core.prioCur).Settled) : s.core.prioCur ≠ p := by
  intro hcur
  have hhigh := hs.cur hint (h.unlocked hcur) hsv hpc
  rw [hcur] at hhigh
  exact Bool.false_ne_true ((h.not_rdy hok).symm.trans hhigh.1)

omit [DecidableEq ε] in
theorem OsCore.Change.leaves {c : OsCore ε} {v : View ε} (hc : c.Change c' q v) (hq : p ≠ q) :
    c'.view p = c.view p ∧ c'.prioCur = c.prioCur :=
  ⟨hc.of_ne hq, congrArg (fun f => f.2.2.1) hc.frame⟩

theorem Asleep.semPost_view (h : Asleep s p m) (hok : OsOk s) (e : ε) :
    (s.core.osSemPost e).2.2.view p = s.core.view p ∧ (s.core.osSemPost e).2.2.frame = s.core.frame := by
  rw [OsCore.osSemPost]
  split_ifs with hgrp
  · obtain ⟨hwaits, t, ht, -⟩ := first_waits hok hgrp
    have hc := OsCore.change_osEventTaskRdy ht
    refine ⟨hc.of_ne fun heq => ?_, hc.frame⟩
    rw [← heq] at hwaits
    exact Bool.false_ne_true ((h.not_waits hok e).symm.trans hwaits)
  · exact ⟨congrFun (OsCore.view_setCnt _) p, rfl⟩
  · exact ⟨rfl, rfl⟩

omit [DecidableEq ε] in
theorem ne_getD {prio : Option Prio} {q : Prio} (hcur : q ≠ p) (hprio : prio ≠ some p) : p ≠ prio.getD q := by
  cases prio with
  | none => exact hcur.symm
  | some q' => exact fun heq => hprio (congrArg some heq.symm)

theorem Asleep.call_view (h : Asleep s p m) (hok : OsOk s) (hint : s.core.intNesting = 0)
    (hcur : s.core.prioCur ≠ p) (a : OsCall ε) (ha : Leaves p (.call a)) :
    (a.run s.core).2.view p = s.core.view p ∧ (a.run s.core).2.prioCur = s.core.prioCur := by
  obtain ⟨t, ht, hstat, hdly⟩ := h.tcb
  cases a with
  | taskCreate q =>
    rw [OsCall.run]
    rcases s.core.osTaskCreate_cases q with ⟨err, -, heq⟩ | ⟨-, -, -, heq⟩
    · rw [heq]
      exact ⟨rfl, rfl⟩
    · rw [heq]
      exact ⟨rfl, rfl⟩
  | taskDel prio =>
    have hq : p ≠ prio.getD s.core.prioCur := ne_getD hcur fun heq => ha.1 (by rw [heq])
    by_cases hprio : prio = some osTaskIdlePrio
    · rw [OsCall.run, OsCore.osTaskDel, hint, if_neg (Nat.lt_irrefl 0), if_pos hprio]
      exact ⟨rfl, rfl⟩
    cases htq : s.core.prioTbl (prio.getD s.core.prioCur) with
    | none =>
      simp only [OsCall.run, OsCore.osTaskDel, hint, Nat.lt_irrefl, if_false, if_neg hprio, htq]
      exact ⟨trivial, trivial⟩
    | some t' =>
      obtain ⟨c', hc, heq⟩ := OsCore.osTaskDel_some hint hprio htq ((View.ok_iff htq).mp (hok.view _)).2.1
      have hleaves := hc.leaves hq
      rw [OsCall.run, heq]
      split_ifs
      · exact hleaves
      · exact hleaves
  | taskSuspend prio =>
    have hq : p ≠ prio.getD s.core.prioCur := ne_getD hcur fun heq => ha.2 (by rw [heq])
    cases htq : s.core.prioTbl (prio.getD s.core.prioCur) with
    | none =>
      obtain ⟨err, heq⟩ := OsCore.osTaskSuspend_none htq
      rw [OsCall.run, heq]
      exact ⟨rfl, rfl⟩
    | some t' =>
      obtain ⟨c', heq, hc⟩ := OsCore.osTaskSuspend_some htq
      rw [OsCall.run, heq]
      exact hc.leaves hq
  | taskResume q =>
    by_cases hex : ∃ t', s.core.prioTbl q = some t' ∧ t'.stat &&& osStatSuspend ≠ osStatRdy
    · obtain ⟨t', htq, hsusp⟩ := hex
      obtain ⟨c', heq, hc⟩ := OsCore.osTaskResume_some htq hsusp
      have hq : p ≠ q := by
        rintro rfl
        obtain rfl := Option.some.inj (ht.symm.trans htq)
        rw [hstat] at hsusp
        exact hsusp (by decide)
      rw [OsCall.run, heq]
      exact hc.leaves hq
    · obtain ⟨err, heq⟩ := OsCore.osTaskResume_not fun t' htq => by
        by_contra hsusp
        exact hex ⟨t', htq, hsusp⟩
      rw [OsCall.run, heq]
      exact ⟨rfl, rfl⟩
  | timeDly ticks =>
    rw [OsCall.run, OsCore.osTimeDly]
    split_ifs
    · exact ⟨rfl, rfl⟩
    · exact ⟨rfl, rfl⟩
    · split
      · exact (OsCore.Change.refl _ _).clrRdy.leaves hcur.symm
      · exact ((OsCore.Change.refl _ _).clrRdy.setTcb _).leaves hcur.symm
    · exact ⟨rfl, rfl⟩
  | semPend e timeout =>
    show (s.core.osSemPend e timeout).2.view p = _ ∧ (s.core.osSemPend e timeout).2.prioCur = _
    rw [OsCore.osSemPend]
    split_ifs
    · exact ⟨rfl, rfl⟩
    · exact ⟨rfl, rfl⟩
    · exact ⟨congrFun (OsCore.view_setCnt _) p, rfl⟩
    · split
      · exact ⟨rfl, rfl⟩
      · exact (OsCore.change_osEventTaskWait _ _ _).leaves hcur.symm
  | semPost e =>
    obtain ⟨hview, hframe⟩ := h.semPost_view hok e
    exact ⟨hview, congrArg (fun f => f.2.2.1) hframe⟩
  | schedLock =>
    rw [OsCall.run, OsCore.osSchedLock]
    split_ifs <;> exact ⟨rfl, rfl⟩
  | schedUnlock =>
    rw [OsCall.run, OsCore.osSchedUnlock]
    split_ifs <;> exact ⟨rfl, rfl⟩

theorem osSemPendEnd_leaves {c : OsCore ε} {e : ε} (hp : p ≠ c.prioCur) :
    (c.osSemPendEnd e).2.view p = c.view p ∧ (c.osSemPendEnd e).2.prioCur = c.prioCur := by
  rw [OsCore.osSemPendEnd]
  split
  · exact ⟨rfl, rfl⟩
  · rename_i t _
    have hready := (OsCore.Change.refl c c.prioCur).setTcb { t with stat := osStatRdy, statPend := .ok, eventPtr := none }
    simp only
    split
    · exact hready.leaves hp
    · exact hready.leaves hp
    · exact (((OsCore.Change.refl c c.prioCur).osEventTaskRemove t e).setTcb _).leaves hp

omit [DecidableEq ε] in
theorem Asleep.not_creating (h : Asleep s p m) (hok : OsOk s) {g : Stage} (hg : s.core.stage q = some g) : p ≠ q := by
  rintro rfl
  obtain ⟨t, ht, -, hdly⟩ := h.tcb
  have hentered := (hok.listed.entry p g hg).mp (by rw [ht]; rfl)
  have hfresh := (hok.view p).gone (.inr (hg.trans (congrArg some hentered)))
  obtain rfl := Option.some.inj (ht.symm.trans hfresh)
  exact Nat.ne_of_gt h.pos hdly.symm

omit [DecidableEq ε] in
theorem create_leaves (c : OsCore ε) (hq : p ≠ q) (k : CreatePt) :
    (k.run c q).2.view p = c.view p ∧ (k.run c q).2.prioCur = c.prioCur := by
  cases k with
  | tcbInit =>
    rw [CreatePt.run]
    rcases c.osTcbInit_cases q with heq | ⟨-, heq⟩
    · rw [heq]
      exact ⟨rfl, rfl⟩
    · rw [heq]
      exact ⟨rfl, rfl⟩
  | noTcb => exact ⟨rfl, rfl⟩
  | enter =>
    rw [CreatePt.run, OsCore.view_osTcbEnter, Function.update_of_ne hq]
    exact ⟨rfl, rfl⟩
  | link =>
    rw [CreatePt.run, OsCore.view_osTcbLink, Function.update_of_ne hq]
    exact ⟨rfl, rfl⟩

omit [DecidableEq ε] in
theorem started_of_ne (hq : p ≠ q) (k : CreatePt) : s.started k q p = s.pc p := by
  unfold OsSys.started
  split
  · exact Function.update_of_ne hq ..
  · rfl

theorem run_ne_delEnd {c : OsCore ε} (hcur : c.prioCur ≠ p) (a : OsCall ε) (ha : Leaves p (.call a)) :
    (a.run c).1 ≠ .delEnd p := by
  cases a with
  | taskDel prio =>
    show ((c.osTaskDel prio).2.1.elim Pc.run Pc.delEnd : Pc ε) ≠ _
    intro hdel
    have hsome : (c.osTaskDel prio).2.1 = some p := by
      cases htarget : (c.osTaskDel prio).2.1 with
      | none => rw [htarget] at hdel; exact absurd hdel nofun
      | some q => rw [htarget] at hdel; exact congrArg some (Pc.delEnd.inj hdel)
    unfold OsCore.osTaskDel at hsome
    split_ifs at hsome
    simp only at hsome
    split at hsome
    · exact absurd hsome nofun
    · exact ne_getD hcur (fun heq => ha.1 (by rw [heq])) (Option.some.inj hsome).symm
  | semPend e timeout =>
    show (if (c.osSemPend e timeout).1 = none then Pc.sched (some e) else .run) ≠ _
    split_ifs <;> exact nofun
  | taskCreate q =>
    show (if (c.osTaskCreate q).1 = .none then Pc.creating .tcbInit q else .run) ≠ _
    split_ifs <;> simp
  | taskSuspend prio => exact after_ne_delEnd _ p
  | taskResume q => exact after_ne_delEnd _ p
  | timeDly ticks => exact after_ne_delEnd _ p
  | semPost e => exact after_ne_delEnd _ p
  | schedLock => exact nofun
  | schedUnlock => exact after_ne_delEnd _ p

omit [DecidableEq ε] in
theorem osSched_same (c : OsCore ε) : c.osSched.view = c.view ∧ c.osSched.prioCur = c.prioCur ∧
    c.osSched.lockNesting = c.lockNesting := by
  unfold OsCore.osSched
  split_ifs
  · exact ⟨switch_view _, (switch_frame _).2.2.2.2.2.1, (switch_frame _).2.2.2.2.1⟩
  · exact ⟨rfl, rfl, rfl⟩
  · exact ⟨rfl, rfl, rfl⟩

omit [DecidableEq ε] in
theorem osIntExit_same {c : OsCore ε} (hint : 0 < c.intNesting) : c.osIntExit.view = c.view ∧
    c.osIntExit.prioCur = c.prioCur ∧ c.osIntExit.lockNesting = c.lockNesting := by
  simp only [OsCore.osIntExit, if_pos hint]
  split_ifs
  · exact ⟨switch_view _, (switch_frame _).2.2.2.2.2.1, (switch_frame _).2.2.2.2.1⟩
  · exact ⟨rfl, rfl, rfl⟩
  · exact ⟨rfl, rfl, rfl⟩

/-- The ticks of a run. -/
def OsAct.isTick : OsAct ε → Bool
  | .tick => true
  | _ => false

/-- A step that is no tick does not shorten the sleep. -/
theorem Asleep.step (h : Asleep s p m) (hok : OsOk s) (hs : SchedOk s) (hm : MakeOk s) {a : OsAct ε} (hmay : s.ok a)
    (ha : Leaves p a) (htick : a.isTick = false) (hstep : s.step a = some s') : Asleep s' p m := by
  cases a with
  | call a =>
    rw [OsSys.ok] at hmay
    rw [OsSys.step] at hstep
    split_ifs at hmay hstep with hint hsv
    · obtain ⟨e, rfl⟩ := hmay
      obtain rfl := Option.some.inj hstep
      obtain ⟨hview, hframe⟩ := h.semPost_view hok e
      simp only [OsCore.frame, Prod.mk.injEq] at hframe
      obtain ⟨-, -, hcur, -, -, hlock, -⟩ := hframe
      refine h.congr hview h.pending (fun hdel => h.kept ?_) fun heq => ?_
      · rw [OsSys.Deleting, ← hcur]
        exact hdel
      · exact hlock.trans (h.unlocked (hcur.symm.trans heq))
    · split at hstep
      · rename_i hrun
        obtain rfl := Option.some.inj hstep
        have hint' := Nat.eq_zero_of_not_pos hint
        have hcur := h.not_running hok hs hint' (Bool.eq_false_iff.mpr hsv) (run_settled hrun)
        obtain ⟨hview, hcur'⟩ := h.call_view hok hint' hcur a ha
        refine h.congr hview ?_ ?_ fun heq => absurd (hcur'.symm.trans heq) hcur
        · rw [Function.update_of_ne hcur.symm]
          exact h.pending
        · rw [hcur', Function.update_self]
          exact run_ne_delEnd hcur a ha
      · cases hstep
  | next =>
    rw [OsSys.step] at hstep
    split_ifs at hstep with hint hsv
    have hint' := Nat.eq_zero_of_not_pos hint
    have hsv' := Bool.eq_false_iff.mpr hsv
    split at hstep
    · cases hstep
    · rename_i k q hpc
      obtain rfl := Option.some.inj hstep
      have hcur := h.not_running hok hs hint' hsv' (by rw [hpc]; trivial)
      have hq := h.not_creating hok (hm.stage _ k q hpc)
      obtain ⟨hview, hcur'⟩ := create_leaves s.core hq k
      refine h.congr hview ?_ ?_ fun heq => absurd (hcur'.symm.trans heq) hcur
      · rw [Function.update_of_ne hcur.symm, started_of_ne hq]
        exact h.pending
      · rw [hcur', Function.update_self]
        exact create_ne_delEnd s.core q p k
    · rename_i e hpc
      obtain rfl := Option.some.inj hstep
      obtain ⟨hview, hcur, hlock⟩ := osSched_same s.core
      refine h.congr (congrFun hview p) ?_ ?_ fun heq => hlock.trans (h.unlocked (hcur.symm.trans heq))
      · by_cases heq : p = s.core.prioCur
        · have hpend := h.pending
          rw [heq, hpc] at hpend
          obtain rfl : e = none := hpend
          rw [heq, Function.update_self]
          rfl
        · rw [Function.update_of_ne heq]
          exact h.pending
      · rw [hcur, Function.update_self]
        cases e <;> simp
    · rename_i q hpc
      obtain rfl := Option.some.inj hstep
      have hq : p ≠ q := fun heq => h.kept (heq ▸ hpc)
      have hcur : s.core.prioCur ≠ p := fun heq =>
        Nat.ne_of_gt (hs.del _ q hpc).2 (h.unlocked heq)
      refine h.congr ?_ ?_ ?_ fun heq => absurd heq hcur
      · rw [OsCore.view_osTaskDelEnd, Function.update_of_ne hq]
      · rw [Function.update_of_ne hcur.symm]
        exact h.pending
      · show Function.update s.pc s.core.prioCur (.sched none) s.core.prioCur ≠ _
        rw [Function.update_self]
        simp
    · rename_i e hpc
      obtain rfl := Option.some.inj hstep
      have hcur : s.core.prioCur ≠ p := h.not_running hok hs hint' hsv' (by rw [hpc]; trivial)
      obtain ⟨hview, hcur'⟩ := osSemPendEnd_leaves (e := e) (c := s.core) hcur.symm
      refine h.congr hview ?_ ?_ fun heq => absurd (hcur'.symm.trans heq) hcur
      · rw [Function.update_of_ne hcur.symm]
        exact h.pending
      · rw [hcur', Function.update_self]
        simp
  | intEnter =>
    obtain rfl := Option.some.inj hstep
    unfold OsCore.osIntEnter
    split_ifs
    · exact h.congr rfl h.pending h.kept h.unlocked
    · exact h
  | intExit =>
    rw [OsSys.step] at hstep
    split_ifs at hstep with hint
    obtain rfl := Option.some.inj hstep
    obtain ⟨hview, hcur, hlock⟩ := osIntExit_same hint
    refine h.congr (congrFun hview p) h.pending ?_ fun heq => hlock.trans (h.unlocked (hcur.symm.trans heq))
    rw [hcur]
    exact h.kept
  | tick => cases htick
  | pendSv =>
    rw [OsSys.step] at hstep
    split_ifs at hstep with hsv
    obtain rfl := Option.some.inj hstep
    have hlock := hs.unlocked hsv.2
    refine h.congr rfl h.pending (hs.not_delEnd hlock _ p) fun heq => hlock

omit [DecidableEq ε] in
/-- A tick shortens the sleep, and ends it in the end. -/
theorem Asleep.tick (h : Asleep s p m) (hok : OsOk s) :
    (m = 1 → s.core.osTimeTick.rdy.mem p = true) ∧ (1 < m → Asleep ⟨s.core.osTimeTick, s.pc⟩ p (m - 1)) := by
  obtain ⟨t, ht, hstat, hdly⟩ := h.tcb
  have hpos := h.pos
  have hidle : p ≠ osTaskIdlePrio := by
    rintro rfl
    obtain rfl := Option.some.inj (ht.symm.trans hok.idle.1)
    exact Nat.ne_of_gt hpos hdly.symm
  obtain ⟨-, hframe, -, hin⟩ := osTimeTick_spec hok
  have hview := hin p t hidle ht
  simp only [OsCore.frame, Prod.mk.injEq] at hframe
  obtain ⟨-, -, hcur, -, -, hlock, -⟩ := hframe
  refine ⟨fun hm => ?_, fun hm => ⟨by omega, ⟨t.tick, ?_, ?_, ?_⟩, h.pending, ?_, ?_⟩⟩
  · have hrdy : (s.core.osTimeTick.view p).rdy = true := by
      rw [hview, View.tick, hdly, hm]
      simp [TaskTcb.tick, hdly, hm, hstat, osStatRdy]
    exact hrdy
  · exact congrArg View.tcb hview
  · rw [TaskTcb.tick, if_neg (by omega), if_neg (by omega)]
    exact hstat
  · rw [TaskTcb.tick, if_neg (by omega), if_neg (by omega)]
    exact congrArg (· - 1) hdly
  · rw [OsSys.Deleting, hcur]
    exact h.kept
  · intro heq
    exact hlock.trans (h.unlocked (hcur.symm.trans heq))

theorem Asleep.run (hr : osMachine.Reach OsSys.ok s) (h : Asleep s p m) {l : List (OsAct ε)}
    (hl : osMachine.Steps (fun s a => s.ok a ∧ Leaves p a) s l s') (hticks : l.countP OsAct.isTick < m) :
    osMachine.Reach OsSys.ok s' ∧ Asleep s' p (m - l.countP OsAct.isTick) := by
  induction hl generalizing m with
  | nil s => exact ⟨hr, h⟩
  | @cons s₀ s₁ s₂ a l hmay hstep _ ih =>
    obtain ⟨⟨hok, hs⟩, hm⟩ := reach_ok hr
    have hr' := hr.step hmay.1 hstep
    cases htick : a.isTick with
    | false =>
      rw [List.countP_cons, htick] at hticks ⊢
      exact ih hr' (h.step hok hs hm hmay.1 hmay.2 htick hstep) hticks
    | true =>
      rw [List.countP_cons, htick, if_pos rfl] at hticks ⊢
      obtain rfl : a = .tick := by
        cases a <;> first | rfl | exact absurd htick Bool.false_ne_true
      have hstep' : s₀.step .tick = some s₁ := hstep
      rw [OsSys.step] at hstep'
      split_ifs at hstep'
      obtain rfl := Option.some.inj hstep'
      obtain ⟨hr'', hasleep⟩ := ih hr' ((h.tick hok).2 (by omega)) (by omega)
      exact ⟨hr'', by rwa [Nat.sub_sub, Nat.add_comm] at hasleep⟩

theorem asleep_timeDly (hr : osMachine.Reach OsSys.ok s) (hint : s.core.intNesting = 0)
    (hlock : s.core.lockNesting = 0) (hn : 0 < n) (hstep : s.step (.call (.timeDly n)) = some s') :
    Asleep s' s.core.prioCur n := by
  obtain ⟨hok, hs⟩ := ok_reach hr
  rw [OsSys.step, if_neg (by omega)] at hstep
  split_ifs at hstep with hsv
  split at hstep
  · rename_i hrun
    obtain ⟨t, ht, hready, hdel⟩ := current_ready hok hs hint hlock (Bool.eq_false_iff.mpr hsv) (run_settled hrun)
    obtain ⟨c', heq, hc⟩ := OsCore.osTimeDly_some hint hlock hn ht
    have hframe := hc.frame
    simp only [OsCore.frame, Prod.mk.injEq] at hframe
    obtain ⟨-, -, hcur, -, -, hlock', -⟩ := hframe
    obtain rfl := Option.some.inj hstep
    rw [OsCall.run, heq]
    refine ⟨hn, ⟨{ t with dly := n }, congrArg View.tcb hc.self, hready.1, rfl⟩, ?_, ?_, fun _ => hlock'.trans hlock⟩
    · simp only [Function.update_self]
      rfl
    · rw [OsSys.Deleting]
      simp only [hcur, Function.update_self]
      intro hdel
      cases hdel
  · cases hstep

/-- `OSTimeDly` lasts `n` ticks: the task is not ready before the tick with that number, whatever tasks and interrupts
do in between, unless somebody deletes or suspends it, and is ready with that tick. -/
theorem kernel_timeDly (hr : osMachine.Reach OsSys.ok s) (hint : s.core.intNesting = 0)
    (hlock : s.core.lockNesting = 0) (hn : 0 < n) (hmay : s.ok (.call (.timeDly n)))
    (hstep : s.step (.call (.timeDly n)) = some s₁) {l : List (OsAct ε)}
    (hl : osMachine.Steps (fun s a => s.ok a ∧ Leaves p a) s₁ l s₂) (hp : p = s.core.prioCur)
    (hticks : l.countP OsAct.isTick < n) :
    s₂.core.rdy.mem p = false ∧
    ∀ s₃, s₂.step .tick = some s₃ → (s₃.core.rdy.mem p = true ↔ l.countP OsAct.isTick + 1 = n) := by
  subst hp
  have hr₁ := hr.step hmay hstep
  obtain ⟨hr₂, hasleep⟩ := (asleep_timeDly hr hint hlock hn hstep).run hr₁ hl hticks
  obtain ⟨hok, -⟩ := ok_reach hr₂
  refine ⟨hasleep.not_rdy hok, fun s₃ hs₃ => ?_⟩
  have hok₃ := (ok_reach (hr₂.step (a := .tick) trivial hs₃)).1
  rw [OsSys.step] at hs₃
  split_ifs at hs₃
  obtain rfl := Option.some.inj hs₃
  constructor
  · intro hrdy
    by_contra hmore
    have hlater := (hasleep.tick hok).2 (by omega)
    have hclash := (hlater.not_rdy hok₃).symm.trans hrdy
    cases hclash
  · intro hlast
    exact (hasleep.tick hok).1 (by omega)

/-- What happens while task 5 sleeps for two ticks: task 7 begins to create task 6, and there is a tick. -/
def sleepRun : List (OsAct Unit) :=
  [.next, .pendSv, .call (.taskCreate taskSix), .next, .intEnter, .tick, .intExit, .next, .next, .intEnter]

theorem kernel_timeDly_two : ∃ s s₁ s₂ s₃, osMachine.step twoTasks .pendSv = some s ∧
    s.step (.call (.timeDly 2)) = some s₁ ∧ osMachine.runOk (fun s a => s.ok a ∧ Leaves 5 a) s₁ sleepRun = some s₂ ∧
    s₂.step .tick = some s₃ ∧ s₂.core.rdy.mem 5 = false ∧ s₂.core.rdy.mem 6 = true ∧ s₃.core.rdy.mem 5 = true := by
  have hrun : ((osMachine.step twoTasks .pendSv).any fun s => s.core.prioCur = 5 ∧ s.core.intNesting = 0 ∧
      s.core.lockNesting = 0 ∧ s.ok (.call (.timeDly 2)) ∧ (s.step (.call (.timeDly 2))).any fun s₁ =>
        (osMachine.runOk (fun s a => s.ok a ∧ Leaves 5 a) s₁ sleepRun).any fun s₂ =>
          s₂.core.rdy.mem 6 = true ∧ (s₂.step .tick).isSome) = true := by
    decide +kernel
  obtain ⟨s, hs, hfacts⟩ := Option.any_eq_true _ _ |>.mp hrun
  obtain ⟨hcur, hint, hlock, hmay, hfacts⟩ := of_decide_eq_true hfacts
  obtain ⟨s₁, hs₁, hfacts⟩ := Option.any_eq_true _ _ |>.mp hfacts
  obtain ⟨s₂, hs₂, hfacts⟩ := Option.any_eq_true _ _ |>.mp hfacts
  obtain ⟨hsix, hfacts⟩ := of_decide_eq_true hfacts
  obtain ⟨s₃, hs₃⟩ := Option.isSome_iff_exists.mp hfacts
  have hsleep := kernel_timeDly (reach_twoTasks.step (a := .pendSv) trivial hs) hint hlock (by decide : 0 < 2) hmay hs₁
    (.of_runOk hs₂) hcur.symm (by decide)
  exact ⟨s, s₁, s₂, s₃, hs, hs₁, hs₂, hs₃, hsleep.1, hsix, (hsleep.2 s₃ hs₃).mpr (by decide)⟩

end LoraGateway.Os
