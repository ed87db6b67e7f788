import LoraGateway.Os.OsCore

/-!
# What the calls do to a task

The kernel as seen from one task is its bit in the ready list, its control block, and its bit in each wait list
(`View`). Every call changes the view of one task at most, and `OSTimeTick` that of each task on its own. A view is
in order (`View.Ok`) when the ready bit says that nothing keeps the task from running and the wait bits agree with
`OSTCBEventPtr`; `pending` is the semaphore the task is inside `OSSemPend` for. A task is `apart` while it has a block but
is on no list: `OSTaskCreate` is about to link it in, or `OSTaskDel` is about to take the block away.
-/

namespace LoraGateway.Os

open Lib

structure View (ε : Type) where
  rdy : Bool
  tcb : Option (TaskTcb ε)
  waits : ε → Bool

variable {ε : Type}

/-- Nothing keeps the task from running. -/
def TaskTcb.Ready (t : TaskTcb ε) : Prop := t.stat = osStatRdy ∧ t.dly = 0

/-- While the task is inside `OSSemPend` it waits, or the wait is over by a post or by the timeout. -/
def TaskTcb.Ok (t : TaskTcb ε) (pending : Option ε) : Prop :=
  t.stat ∈ [osStatRdy, osStatSem, osStatSuspend, osStatSem ||| osStatSuspend] ∧
  match pending with
  | none => t.eventPtr = none ∧ t.stat &&& osStatSem = osStatRdy
  | some e =>
    t.eventPtr = some e ∧ t.stat &&& osStatSem ≠ osStatRdy ∨
    t.stat &&& osStatSem = osStatRdy ∧ t.dly = 0 ∧
      (t.eventPtr = some e ∧ t.statPend = .timeout ∨ t.eventPtr = none ∧ t.statPend ≠ .timeout)

/-- The block that `OS_TCBInit` sets up, and `OSTaskDel` leaves. -/
def TaskTcb.fresh : TaskTcb ε := ⟨osStatRdy, .ok, 0, none⟩

structure View.Ok (v : View ε) (pending : Option ε) (apart : Prop) : Prop where
  ready : v.rdy = true ↔ ¬ apart ∧ ∃ t, v.tcb = some t ∧ t.Ready
  waits : ∀ e, v.waits e = true ↔ ∃ t, v.tcb = some t ∧ t.eventPtr = some e
  tcb : ∀ t, v.tcb = some t → t.Ok pending
  gone : apart → v.tcb = some .fresh

/-! ## What happens to a task -/

/-- `OSTimeTick` on one task. -/
def TaskTcb.tick (t : TaskTcb ε) : TaskTcb ε :=
  if t.dly = 0 then t
  else if t.dly = 1 then
    if t.stat &&& osStatPendAny ≠ osStatRdy then
      { t with dly := 0, stat := t.stat &&& ~~~osStatPendAny, statPend := .timeout }
    else { t with dly := 0, statPend := .ok }
  else { t with dly := t.dly - 1 }

namespace View

variable [DecidableEq ε] (v : View ε) (t : TaskTcb ε) (e : ε)

/-- The view where the control block is `t`, before the next tick. -/
def tick : View ε :=
  { v with rdy := v.rdy || (t.dly = 1 && t.tick.stat &&& osStatSuspend = osStatRdy), tcb := some t.tick }

/-- A post hands the task the token. -/
def post : View ε :=
  ⟨v.rdy || t.stat &&& ~~~osStatSem &&& osStatSuspend = osStatRdy,
    some ⟨t.stat &&& ~~~osStatSem, .ok, 0, none⟩, Function.update v.waits e false⟩

def suspend : View ε := { v with rdy := false, tcb := some { t with stat := t.stat ||| osStatSuspend } }

def resume : View ε :=
  { v with
    rdy := v.rdy || (t.stat &&& ~~~osStatSuspend &&& osStatPendAny = osStatRdy && t.dly = 0)
    tcb := some { t with stat := t.stat &&& ~~~osStatSuspend } }

def delay (ticks : ℕ) : View ε := { v with rdy := false, tcb := some { t with dly := ticks } }

/-- The task begins to wait. -/
def wait (timeout : ℕ) : View ε :=
  ⟨false, some ⟨t.stat ||| osStatSem, .ok, timeout, some e⟩, Function.update v.waits e true⟩

/-- The wait has ended. -/
def waitEnd : View ε :=
  { v with tcb := some ⟨osStatRdy, .ok, t.dly, none⟩, waits := Function.update v.waits e false }

/-- `OS_TCBInit` enters the block of the task in `OSTCBPrioTbl`. -/
def enter : View ε := { v with tcb := some .fresh }

/-- `OS_TCBInit` links the block in. -/
def link : View ε := { v with rdy := true }

/-- The task is taken off the lists, and its block still there. -/
def del : View ε := ⟨false, some .fresh, fun _ => false⟩

end View

section Ok

variable {v : View ε} {t : TaskTcb ε} {e : ε} {pending : Option ε} {apart : Prop}

theorem View.Ok.not_apart (h : v.Ok pending apart) (ht : v.tcb = some t) (hne : t ≠ .fresh) : ¬ apart :=
  fun hapart => hne (Option.some.inj (ht.symm.trans (h.gone hapart)))

theorem View.ok_iff (ht : v.tcb = some t) : v.Ok pending apart ↔
    (v.rdy = true ↔ ¬ apart ∧ t.Ready) ∧ (∀ e, v.waits e = true ↔ t.eventPtr = some e) ∧ t.Ok pending ∧
    (apart → t = .fresh) := by
  constructor
  · intro h
    refine ⟨?_, fun e => ?_, h.tcb t ht, fun hapart => Option.some.inj (ht.symm.trans (h.gone hapart))⟩
    · rw [h.ready, ht]
      simp
    · rw [h.waits, ht]
      simp
  · rintro ⟨hready, hwaits, htcb, hgone⟩
    refine ⟨?_, fun e => ?_, ?_, fun hapart => ht.trans (congrArg some (hgone hapart))⟩
    · rw [hready, ht]
      simp
    · rw [hwaits, ht]
      simp
    · rintro t' ht'
      rwa [← Option.some.inj (ht.symm.trans ht')]

theorem TaskTcb.ok_stat (h : t.Ok pending) : t.stat = 0 ∨ t.stat = 1 ∨ t.stat = 8 ∨ t.stat = 9 := by
  simpa [osStatRdy, osStatSem, osStatSuspend] using h.1

theorem TaskTcb.tick_eventPtr (t : TaskTcb ε) : t.tick.eventPtr = t.eventPtr := by
  unfold tick
  split_ifs <;> rfl

theorem TaskTcb.Ok.tick (h : t.Ok pending) : t.tick.Ok pending := by
  have hstat := t.ok_stat h
  obtain ⟨stat, statPend, dly, eventPtr⟩ := t
  unfold TaskTcb.tick
  simp only at hstat
  split_ifs with h₀ h₁ h₂
  · exact h
  · rcases hstat with rfl | rfl | rfl | rfl <;> cases pending <;>
      simp_all [TaskTcb.Ok, osStatRdy, osStatSem, osStatSuspend, osStatPendAny]
  · rcases hstat with rfl | rfl | rfl | rfl <;> cases pending <;>
      simp_all [TaskTcb.Ok, osStatRdy, osStatSem, osStatSuspend, osStatPendAny]
  · rcases hstat with rfl | rfl | rfl | rfl <;> cases pending <;>
      simp_all [TaskTcb.Ok, osStatRdy, osStatSem, osStatSuspend]

theorem TaskTcb.tick_ready (h : t.Ok pending) :
    t.tick.Ready ↔ t.Ready ∨ t.dly = 1 ∧ t.tick.stat &&& osStatSuspend = osStatRdy := by
  have hstat := t.ok_stat h
  obtain ⟨stat, statPend, dly, eventPtr⟩ := t
  unfold TaskTcb.tick TaskTcb.Ready
  simp only at hstat ⊢
  split_ifs with h₀ h₁ h₂
  · simp [h₀]
  · rcases hstat with rfl | rfl | rfl | rfl <;> simp_all [osStatRdy, osStatSuspend, osStatPendAny]
  · rcases hstat with rfl | rfl | rfl | rfl <;> simp_all [osStatRdy, osStatSuspend, osStatPendAny]
  · simp [h₀, h₁]
    omega

theorem View.Ok.tick (h : v.Ok pending apart) (ht : v.tcb = some t) : (v.tick t).Ok pending apart := by
  obtain ⟨hready, hwaits, hok, hgone⟩ := (ok_iff ht).mp h
  refine (ok_iff (t := t.tick) rfl).mpr ⟨?_, ?_, hok.tick, ?_⟩
  · show (v.rdy || (t.dly = 1 && t.tick.stat &&& osStatSuspend = osStatRdy)) = true ↔ _
    rw [Bool.or_eq_true, hready, TaskTcb.tick_ready hok, Bool.and_eq_true, decide_eq_true_eq, decide_eq_true_eq]
    have hdly : t.dly = 1 → ¬ apart := fun hdly => h.not_apart ht fun heq => by simp [heq, TaskTcb.fresh] at hdly
    tauto
  · intro e
    rw [TaskTcb.tick_eventPtr]
    exact hwaits e
  · intro hapart
    rw [hgone hapart]
    rfl

theorem View.tick_fresh (hv : v.tcb = some .fresh) : v.tick .fresh = v := by
  have htick : (TaskTcb.fresh : TaskTcb ε).tick = .fresh := rfl
  rw [View.tick, htick, ← hv]
  simp [TaskTcb.fresh]

theorem TaskTcb.ok_fresh : (TaskTcb.fresh : TaskTcb ε).Ok pending := by
  cases pending <;> simp [TaskTcb.Ok, fresh, osStatRdy]

theorem TaskTcb.ready_fresh : (TaskTcb.fresh : TaskTcb ε).Ready := ⟨rfl, rfl⟩

theorem View.Ok.suspend (h : v.Ok pending apart) (ht : v.tcb = some t) (hapart : ¬ apart) :
    (v.suspend t).Ok pending apart := by
  obtain ⟨-, hwaits, hok, -⟩ := (ok_iff ht).mp h
  have hstat := t.ok_stat hok
  obtain ⟨stat, statPend, dly, eventPtr⟩ := t
  refine (ok_iff rfl).mpr ⟨iff_of_false nofun ?_, hwaits, ?_, fun hapart' => absurd hapart' hapart⟩
  · rintro ⟨-, hready, -⟩
    simp only at hstat hready
    rcases hstat with rfl | rfl | rfl | rfl <;> simp [osStatRdy, osStatSuspend] at hready
  · simp only at hstat
    rcases hstat with rfl | rfl | rfl | rfl <;> cases pending <;>
      simp_all [TaskTcb.Ok, osStatRdy, osStatSem, osStatSuspend]

theorem View.Ok.resume (h : v.Ok pending apart) (ht : v.tcb = some t) (hapart : ¬ apart) :
    (v.resume t).Ok pending apart := by
  obtain ⟨hready, hwaits, hok, -⟩ := (ok_iff ht).mp h
  have hstat := t.ok_stat hok
  obtain ⟨stat, statPend, dly, eventPtr⟩ := t
  refine (ok_iff (t := ⟨stat &&& ~~~osStatSuspend, statPend, dly, eventPtr⟩) rfl).mpr
    ⟨?_, hwaits, ?_, fun hapart' => absurd hapart' hapart⟩
  · show (v.rdy || _) = true ↔ _
    rw [Bool.or_eq_true, hready]
    simp only [TaskTcb.Ready] at hstat ⊢
    rcases hstat with rfl | rfl | rfl | rfl <;> simp [hapart, osStatRdy, osStatSuspend, osStatPendAny]
  · simp only at hstat
    rcases hstat with rfl | rfl | rfl | rfl <;> cases pending <;>
      simp_all [TaskTcb.Ok, osStatRdy, osStatSem, osStatSuspend]

theorem View.Ok.delay {ticks : ℕ} (h : v.Ok none apart) (ht : v.tcb = some t) (hapart : ¬ apart)
    (hticks : 0 < ticks) : (v.delay t ticks).Ok none apart := by
  obtain ⟨-, hwaits, hok, -⟩ := (ok_iff ht).mp h
  refine (ok_iff rfl).mpr ⟨iff_of_false nofun ?_, hwaits, hok, fun hapart' => absurd hapart' hapart⟩
  rintro ⟨-, -, hzero⟩
  simp only at hzero
  omega

theorem View.Ok.enter (h : v.Ok pending apart) (hv : v.tcb = none) : v.enter.Ok pending True := by
  refine (ok_iff rfl).mpr ⟨iff_of_false (fun hrdy => ?_) fun hno => hno.1 trivial,
    fun e => iff_of_false (fun hw => ?_) nofun, TaskTcb.ok_fresh, fun _ => rfl⟩
  · obtain ⟨-, t, ht, -⟩ := h.ready.mp hrdy
    exact absurd (hv.symm.trans ht) nofun
  · obtain ⟨t, ht, -⟩ := (h.waits e).mp hw
    exact absurd (hv.symm.trans ht) nofun

/-- Who is linked in is ready, and waits for nothing, whatever the task was in the middle of that had the priority
before. -/
theorem View.Ok.link {pending' : Option ε} (h : v.Ok pending' True) : v.link.Ok pending False := by
  have hfresh := h.gone trivial
  obtain ⟨-, hwaits, -, -⟩ := (ok_iff hfresh).mp h
  exact (ok_iff (v := v.link) hfresh).mpr ⟨iff_of_true rfl ⟨not_false, TaskTcb.ready_fresh⟩, hwaits, TaskTcb.ok_fresh, nofun⟩

theorem View.Ok.del : (View.del : View ε).Ok pending True := by
  exact (ok_iff rfl).mpr
    ⟨iff_of_false nofun fun h => h.1 trivial, fun _ => iff_of_false nofun nofun, TaskTcb.ok_fresh, fun _ => rfl⟩

theorem View.Ok.pending_eq (h : v.Ok pending apart) (hw : v.waits e = true) : pending = some e := by
  obtain ⟨t, ht, he⟩ := (h.waits e).mp hw
  have hpend := (h.tcb t ht).2
  cases pending with
  | none =>
    rw [he] at hpend
    exact absurd hpend.1 nofun
  | some e' =>
    rcases hpend with ⟨hptr, -⟩ | ⟨-, -, ⟨hptr, -⟩ | ⟨hptr, -⟩⟩
    · exact hptr.symm.trans he
    · exact hptr.symm.trans he
    · exact absurd (he.symm.trans hptr) nofun

variable [DecidableEq ε]

theorem waits_erase (hwaits : ∀ e', v.waits e' = true ↔ t.eventPtr = some e') (hptr : t.eventPtr = some e) (e' : ε) :
    Function.update v.waits e false e' = true ↔ (none : Option ε) = some e' := by
  refine iff_of_false (Bool.not_eq_true _ ▸ ?_) nofun
  by_cases he : e' = e
  · rw [he, Function.update_self]
  · rw [Function.update_of_ne he, ← Bool.not_eq_true, hwaits, hptr]
    exact fun heq => he (Option.some.inj heq).symm

theorem View.Ok.post (h : v.Ok pending apart) (ht : v.tcb = some t) (hw : v.waits e = true) :
    (v.post t e).Ok pending apart := by
  obtain ⟨hready, hwaits, hok, -⟩ := (ok_iff ht).mp h
  have hptr : t.eventPtr = some e := (hwaits e).mp hw
  have hapart : ¬ apart := h.not_apart ht fun heq => by simp [heq, TaskTcb.fresh] at hptr
  obtain rfl := h.pending_eq hw
  have hstat := t.ok_stat hok
  refine (ok_iff (t := ⟨t.stat &&& ~~~osStatSem, .ok, 0, none⟩) rfl).mpr
    ⟨?_, waits_erase hwaits hptr, ?_, fun hapart' => absurd hapart' hapart⟩
  · show (v.rdy || _) = true ↔ _
    rw [Bool.or_eq_true, hready]
    rcases hstat with hs | hs | hs | hs <;>
      simp [hapart, TaskTcb.Ready, hs, osStatRdy, osStatSem, osStatSuspend]
  · rcases hstat with hs | hs | hs | hs <;> simp [TaskTcb.Ok, hs, osStatRdy, osStatSem, osStatSuspend]

theorem View.Ok.wait {timeout : ℕ} (h : v.Ok none apart) (ht : v.tcb = some t) (hready : t.stat = osStatRdy)
    (hapart : ¬ apart) : (v.wait t e timeout).Ok (some e) apart := by
  obtain ⟨-, hwaits, hok, -⟩ := (ok_iff ht).mp h
  refine (ok_iff rfl).mpr ⟨iff_of_false nofun ?_, fun e' => ?_, ?_, fun hapart' => absurd hapart' hapart⟩
  · rintro ⟨-, hstat, -⟩
    simp [hready, osStatRdy, osStatSem] at hstat
  · show Function.update v.waits e true e' = true ↔ some e = some e'
    by_cases he : e' = e
    · simp [he]
    · rw [Function.update_of_ne he, hwaits, hok.2.1]
      exact iff_of_false nofun fun heq => he (Option.some.inj heq).symm
  · simp [TaskTcb.Ok, hready, osStatRdy, osStatSem]

theorem View.Ok.waitEnd (h : v.Ok (some e) apart) (ht : v.tcb = some t) (hready : t.Ready) (hapart : ¬ apart) :
    (v.waitEnd t e).Ok none apart := by
  obtain ⟨hrdy, hwaits, hok, -⟩ := (ok_iff ht).mp h
  refine (ok_iff rfl).mpr ⟨?_, fun e' => ?_, ?_, fun hapart' => absurd hapart' hapart⟩
  · exact hrdy.trans (and_congr_right fun _ => iff_of_true hready ⟨rfl, hready.2⟩)
  · refine iff_of_false ?_ nofun
    show ¬ Function.update v.waits e false e' = true
    by_cases he : e' = e
    · simp [he]
    · rw [Function.update_of_ne he, hwaits]
      intro hptr
      exact he (Option.some.inj (h.pending_eq ((hwaits e').mpr hptr))).symm
  · simp [TaskTcb.Ok, osStatRdy]

end Ok

namespace OsCore

variable (c : OsCore ε)

def view (p : Prio) : View ε := ⟨c.rdy.mem p, c.prioTbl p, fun e => (c.event e).wait.mem p⟩

/-- The words in front of the tables are right. -/
structure Tables : Prop where
  rdy : c.rdy.Ok
  wait : ∀ e, (c.event e).wait.Ok

variable {c} {e : ε} {p q : Prio} {t : TaskTcb ε}

theorem view_setRdy : (c.setRdy p).view = Function.update c.view p { c.view p with rdy := true } := by
  funext q
  by_cases hq : q = p
  · subst hq
    rw [Function.update_self]
    exact congrArg (View.mk · _ _) (Bitmap.mem_insert.mpr (.inl rfl))
  · rw [Function.update_of_ne hq]
    refine congrArg (View.mk · _ _) (Bool.eq_iff_iff.mpr ?_)
    rw [setRdy, Bitmap.mem_insert, or_iff_right hq]

theorem view_clrRdy : (c.clrRdy p).view = Function.update c.view p { c.view p with rdy := false } := by
  funext q
  by_cases hq : q = p
  · subst hq
    rw [Function.update_self]
    refine congrArg (View.mk · _ _) (Bool.eq_false_iff.mpr fun hmem => ?_)
    exact (Bitmap.mem_erase.mp hmem).1 rfl
  · rw [Function.update_of_ne hq]
    refine congrArg (View.mk · _ _) (Bool.eq_iff_iff.mpr ?_)
    rw [clrRdy, Bitmap.mem_erase, and_iff_right hq]

theorem view_setTcb : (c.setTcb p t).view = Function.update c.view p { c.view p with tcb := some t } := by
  funext q
  by_cases hq : q = p
  · subst hq
    simp [view, setTcb]
  · simp [view, setTcb, Function.update_of_ne hq]

variable [DecidableEq ε]

theorem view_setEvent (ev : Ecb) (q : Prio) : (c.setEvent e ev).view q =
    { c.view q with waits := Function.update (c.view q).waits e (ev.wait.mem q) } := by
  refine congrArg (View.mk _ _) (funext fun e' => ?_)
  by_cases he : e' = e
  · subst he
    simp [setEvent]
  · simp [setEvent, view, Function.update_of_ne he]

theorem view_setCnt (n : ℕ) : (c.setEvent e { c.event e with cnt := n }).view = c.view := by
  funext q
  rw [view_setEvent]
  exact congrArg (View.mk _ _) (Function.update_eq_self e _)

theorem view_waitInsert : (c.setEvent e { c.event e with wait := (c.event e).wait.insert p }).view =
    Function.update c.view p { c.view p with waits := Function.update (c.view p).waits e true } := by
  funext q
  rw [view_setEvent]
  by_cases hq : q = p
  · subst hq
    rw [Function.update_self, Bitmap.mem_insert.mpr (.inl rfl)]
  · rw [Function.update_of_ne hq]
    have hmem : ((c.event e).wait.insert p).mem q = (c.view q).waits e := by
      rw [Bool.eq_iff_iff, Bitmap.mem_insert, or_iff_right hq]
      rfl
    rw [hmem, Function.update_eq_self]

theorem view_waitErase : (c.setEvent e { c.event e with wait := (c.event e).wait.erase p }).view =
    Function.update c.view p { c.view p with waits := Function.update (c.view p).waits e false } := by
  funext q
  rw [view_setEvent]
  by_cases hq : q = p
  · subst hq
    have hmem : ((c.event e).wait.erase q).mem q = false :=
      Bool.eq_false_iff.mpr fun hmem => (Bitmap.mem_erase.mp hmem).1 rfl
    rw [Function.update_self, hmem]
  · rw [Function.update_of_ne hq]
    have hmem : ((c.event e).wait.erase p).mem q = (c.view q).waits e := by
      rw [Bool.eq_iff_iff, Bitmap.mem_erase, and_iff_right hq]
      rfl
    rw [hmem, Function.update_eq_self]

/-! ## What the calls change -/

/-- What is no part of the tables. -/
def frame (c : OsCore ε) : ((Prio → Option Stage) × List Prio) × ℕ × Prio × Prio × ℕ × ℕ × Bool :=
  ((c.stage, c.list), c.free, c.prioCur, c.prioHighRdy, c.intNesting, c.lockNesting, c.pendSv)

/-- From `c` to `c'` the view of `p` alone changes, to `v`. -/
structure Change (c c' : OsCore ε) (p : Prio) (v : View ε) : Prop where
  view : c'.view = Function.update c.view p v
  tables : c.Tables → c'.Tables
  frame : c'.frame = c.frame

variable {c' : OsCore ε} {v : View ε}

theorem Tables.setEvent (hc : c.Tables) (e : ε) {ev : Ecb} (hev : ev.wait.Ok) : (c.setEvent e ev).Tables := by
  refine ⟨hc.rdy, fun e' => ?_⟩
  by_cases he : e' = e
  · subst he
    simpa [OsCore.setEvent] using hev
  · simpa [OsCore.setEvent, Function.update_of_ne he] using hc.wait e'

namespace Change

section

omit [DecidableEq ε]

theorem refl (c : OsCore ε) (p : Prio) : Change c c p (c.view p) :=
  ⟨(Function.update_eq_self p c.view).symm, id, rfl⟩

theorem self (h : Change c c' p v) : c'.view p = v := by
  rw [h.view, Function.update_self]

theorem of_ne (h : Change c c' p v) (hq : q ≠ p) : c'.view q = c.view q := by
  rw [h.view, Function.update_of_ne hq]

theorem setRdy (h : Change c c' p v) : Change c (c'.setRdy p) p { v with rdy := true } :=
  ⟨by rw [view_setRdy, h.self, h.view, Function.update_idem],
    fun hc => ⟨(h.tables hc).rdy.insert p, (h.tables hc).wait⟩, h.frame⟩

theorem clrRdy (h : Change c c' p v) : Change c (c'.clrRdy p) p { v with rdy := false } :=
  ⟨by rw [view_clrRdy, h.self, h.view, Function.update_idem],
    fun hc => ⟨(h.tables hc).rdy.erase p, (h.tables hc).wait⟩, h.frame⟩

theorem setTcb (h : Change c c' p v) (t : TaskTcb ε) : Change c (c'.setTcb p t) p { v with tcb := some t } :=
  ⟨by rw [view_setTcb, h.self, h.view, Function.update_idem],
    fun hc => ⟨(h.tables hc).rdy, (h.tables hc).wait⟩, h.frame⟩

end

theorem waitInsert (h : Change c c' p v) (e : ε) :
    Change c (c'.setEvent e { c'.event e with wait := (c'.event e).wait.insert p }) p
      { v with waits := Function.update v.waits e true } :=
  ⟨by rw [view_waitInsert, h.self, h.view, Function.update_idem],
    fun hc => (h.tables hc).setEvent e (((h.tables hc).wait e).insert p), h.frame⟩

theorem osEventTaskRemove (h : Change c c' p v) (t : TaskTcb ε) (e : ε) :
    Change c (c'.osEventTaskRemove p t e) p
      { v with tcb := some { t with eventPtr := none }, waits := Function.update v.waits e false } := by
  have htcb := h.setTcb { t with eventPtr := none }
  refine ⟨?_, fun hc => (htcb.tables hc).setEvent e (((htcb.tables hc).wait e).erase p), htcb.frame⟩
  have hevent : c'.event e = (c'.setTcb p { t with eventPtr := none }).event e := rfl
  rw [OsCore.osEventTaskRemove, hevent, view_waitErase, htcb.self, htcb.view, Function.update_idem]

end Change

/-! ### Time and semaphores -/

theorem change_osEventTaskWait (c : OsCore ε) (e : ε) (t : TaskTcb ε) :
    Change c (c.osEventTaskWait e t) c.prioCur
      ⟨false, some { t with eventPtr := some e }, Function.update (c.view c.prioCur).waits e true⟩ :=
  (((Change.refl c c.prioCur).setTcb { t with eventPtr := some e }).waitInsert e).clrRdy

theorem change_osEventTaskRdy (ht : c.prioTbl ((c.event e).wait.first osUnMap) = some t) :
    Change c (c.osEventTaskRdy e .ok) ((c.event e).wait.first osUnMap)
      ((c.view ((c.event e).wait.first osUnMap)).post t e) := by
  simp only [osEventTaskRdy, ht]
  generalize (c.event e).wait.first osUnMap = p
  split
  · rename_i hstat
    rw [View.post, decide_eq_true hstat, Bool.or_true]
    exact (Change.refl c p).setRdy.osEventTaskRemove ⟨t.stat &&& ~~~osStatSem, .ok, 0, t.eventPtr⟩ e
  · rename_i hstat
    rw [View.post, decide_eq_false hstat, Bool.or_false]
    exact (Change.refl c p).osEventTaskRemove ⟨t.stat &&& ~~~osStatSem, .ok, 0, t.eventPtr⟩ e

omit [DecidableEq ε] in
theorem change_tickTask (ht : c.prioTbl p = some t) : Change c (c.tickTask p) p ((c.view p).tick t) := by
  have hview : (c.view p).tcb = some t := ht
  have hturn : ∀ t' : TaskTcb ε, t.dly = 1 → t.tick = t' →
      Change c (if t'.stat &&& osStatSuspend = osStatRdy then (c.setTcb p t').setRdy p else c.setTcb p t') p
        ((c.view p).tick t) := by
    rintro t' hdly rfl
    rw [View.tick, decide_eq_true hdly, Bool.true_and]
    split
    · rename_i hstat
      rw [decide_eq_true hstat, Bool.or_true]
      exact ((Change.refl c p).setTcb t.tick).setRdy
    · rename_i hstat
      rw [decide_eq_false hstat, Bool.or_false]
      exact (Change.refl c p).setTcb t.tick
  simp only [tickTask, ht]
  split
  · rename_i hdly
    split
    · rename_i hone
      have hdly' : t.dly = 1 := by omega
      refine hturn _ hdly' ?_
      rw [TaskTcb.tick, if_neg hdly, if_pos hdly', hdly']
    · rename_i hmore
      have hdly' : t.dly ≠ 1 := by omega
      have htick : t.tick = { t with dly := t.dly - 1 } := by
        rw [TaskTcb.tick, if_neg hdly, if_neg hdly']
      rw [View.tick, decide_eq_false hdly', Bool.false_and, Bool.or_false, htick]
      exact (Change.refl c p).setTcb _
  · rename_i hdly
    rw [not_not] at hdly
    have hsame : (c.view p).tick t = c.view p := by
      rw [View.tick, TaskTcb.tick, if_pos hdly, hdly, ← hview]
      simp
    rw [hsame]
    exact Change.refl c p

omit [DecidableEq ε] in
theorem tickTasks_spec {l : List Prio} (hidle : osTaskIdlePrio ∉ l) (hnodup : l.Nodup)
    (hl : ∀ q ∈ l, (c.prioTbl q).isSome) (hc : c.Tables) :
    (tickTasks (l ++ [osTaskIdlePrio]) c).Tables ∧ (tickTasks (l ++ [osTaskIdlePrio]) c).frame = c.frame ∧
    (∀ q ∉ l, (tickTasks (l ++ [osTaskIdlePrio]) c).view q = c.view q) ∧
    ∀ q ∈ l, ∀ t, c.prioTbl q = some t → (tickTasks (l ++ [osTaskIdlePrio]) c).view q = (c.view q).tick t := by
  induction l generalizing c with
  | nil =>
    rw [List.nil_append, tickTasks, if_pos rfl]
    exact ⟨hc, rfl, fun _ _ => rfl, nofun⟩
  | cons p l ih =>
    rw [List.mem_cons, not_or] at hidle
    obtain ⟨hp, hnodup⟩ := List.nodup_cons.mp hnodup
    obtain ⟨t, ht⟩ := Option.isSome_iff_exists.mp (hl p List.mem_cons_self)
    have hturn := change_tickTask ht
    have hsame : ∀ q, q ≠ p → (c.tickTask p).prioTbl q = c.prioTbl q := fun q hq => congrArg View.tcb (hturn.of_ne hq)
    rw [List.cons_append, tickTasks, if_neg (Ne.symm hidle.1)]
    obtain ⟨htables, hframe, hout, hin⟩ := ih hidle.2 hnodup
      (fun q hq => by
        have hqp : q ≠ p := fun heq => hp (heq ▸ hq)
        rw [hsame q hqp]
        exact hl q (List.mem_cons_of_mem p hq)) (hturn.tables hc)
    refine ⟨htables, hframe.trans hturn.frame, ?_, ?_⟩
    · intro q hq
      rw [List.mem_cons, not_or] at hq
      rw [hout q hq.2, hturn.of_ne hq.1]
    · intro q hq t' ht'
      rcases List.mem_cons.mp hq with rfl | hq
      · rw [hout q hp, hturn.self, Option.some.inj (ht.symm.trans ht')]
      · have hqp : q ≠ p := fun heq => hp (heq ▸ hq)
        rw [hin q hq t' ((hsame q hqp).trans ht'), hturn.of_ne hqp]

/-! ### Tasks -/

omit [DecidableEq ε] in
theorem osTaskCreate_cases (c : OsCore ε) (p : Prio) : (∃ err, err ≠ .none ∧ c.osTaskCreate p = (err, c)) ∨
    c.intNesting = 0 ∧ c.prioTbl p = none ∧ c.stage p = none ∧
      c.osTaskCreate p = (.none, c.setStage p (some .reserved)) := by
  unfold osTaskCreate
  split_ifs with hint hexist
  · exact .inl ⟨_, by simp, rfl⟩
  · exact .inl ⟨_, by simp, rfl⟩
  · rw [not_or, Option.not_isSome_iff_eq_none, Option.not_isSome_iff_eq_none] at hexist
    exact .inr ⟨Nat.eq_zero_of_not_pos hint, hexist.1, hexist.2, rfl⟩

omit [DecidableEq ε] in
theorem osTcbInit_cases (c : OsCore ε) (p : Prio) : c.osTcbInit p = (.noMoreTcb, c) ∨
    c.free ≠ 0 ∧ c.osTcbInit p = (.none, { c.setStage p (some .taken) with free := c.free - 1 }) := by
  unfold osTcbInit
  split_ifs with hfree
  · exact .inl rfl
  · exact .inr ⟨hfree, rfl⟩

omit [DecidableEq ε] in
theorem osTaskSuspend_some {prio : Option Prio} (ht : c.prioTbl (prio.getD c.prioCur) = some t) :
    ∃ c', c.osTaskSuspend prio = (.none, decide (prio.getD c.prioCur = c.prioCur), c') ∧
      Change c c' (prio.getD c.prioCur) ((c.view (prio.getD c.prioCur)).suspend t) := by
  refine ⟨_, ?_, (Change.refl c _).clrRdy.setTcb { t with stat := t.stat ||| osStatSuspend }⟩
  simp only [osTaskSuspend, ht]

omit [DecidableEq ε] in
theorem osTaskSuspend_none {prio : Option Prio} (ht : c.prioTbl (prio.getD c.prioCur) = none) :
    ∃ err, c.osTaskSuspend prio = (err, false, c) := by
  simp only [osTaskSuspend, ht]
  exact ⟨_, rfl⟩

omit [DecidableEq ε] in
/-- The second component says whether the task has become ready. -/
theorem osTaskResume_some (ht : c.prioTbl p = some t) (hstat : t.stat &&& osStatSuspend ≠ osStatRdy) :
    ∃ c', c.osTaskResume p = (.none, decide (t.stat &&& ~~~osStatSuspend &&& osStatPendAny = osStatRdy ∧ t.dly = 0),
        c') ∧ Change c c' p ((c.view p).resume t) := by
  simp only [osTaskResume, ht, if_pos hstat]
  have htcb := (Change.refl c p).setTcb { t with stat := t.stat &&& ~~~osStatSuspend }
  split
  · rename_i hpend
    split
    · rename_i hdly
      refine ⟨_, congrArg (fun b => (TaskErr.none, b, _)) (decide_eq_true ⟨hpend, hdly⟩).symm, ?_⟩
      rw [View.resume, decide_eq_true hpend, decide_eq_true hdly, Bool.and_true, Bool.or_true]
      exact htcb.setRdy
    · rename_i hdly
      refine ⟨_, congrArg (fun b => (TaskErr.none, b, _)) (decide_eq_false fun h => hdly h.2).symm, ?_⟩
      rw [View.resume, decide_eq_false hdly, Bool.and_false, Bool.or_false]
      exact htcb
  · rename_i hpend
    refine ⟨_, congrArg (fun b => (TaskErr.none, b, _)) (decide_eq_false fun h => hpend h.1).symm, ?_⟩
    rw [View.resume, decide_eq_false hpend, Bool.false_and, Bool.or_false]
    exact htcb

omit [DecidableEq ε] in
theorem osTaskResume_not {p : Prio} (h : ∀ t, c.prioTbl p = some t → t.stat &&& osStatSuspend = osStatRdy) :
    ∃ err, c.osTaskResume p = (err, false, c) := by
  unfold osTaskResume
  split
  · exact ⟨_, rfl⟩
  · rename_i t ht
    rw [if_neg (not_not.mpr (h t ht))]
    exact ⟨_, rfl⟩

omit [DecidableEq ε] in
theorem osTimeDly_some {ticks : ℕ} (hint : c.intNesting = 0) (hlock : c.lockNesting = 0) (hticks : 0 < ticks)
    (ht : c.prioTbl c.prioCur = some t) : ∃ c', c.osTimeDly ticks = (true, c') ∧
      Change c c' c.prioCur ((c.view c.prioCur).delay t ticks) := by
  refine ⟨_, ?_, (Change.refl c c.prioCur).clrRdy.setTcb { t with dly := ticks }⟩
  simp only [osTimeDly, hint, hlock, Nat.lt_irrefl, if_false, if_pos hticks, ht]

theorem osSemPend_wait {timeout : ℕ} (hint : c.intNesting = 0) (hlock : c.lockNesting = 0)
    (hcnt : (c.event e).cnt = 0) (ht : c.prioTbl c.prioCur = some t) :
    ∃ c', c.osSemPend e timeout = (none, c') ∧ Change c c' c.prioCur ((c.view c.prioCur).wait t e timeout) := by
  refine ⟨_, ?_, change_osEventTaskWait c e { t with stat := t.stat ||| osStatSem, statPend := .ok, dly := timeout }⟩
  simp only [osSemPend, hint, hlock, hcnt, Nat.lt_irrefl, if_false, ht]

theorem osSemPendEnd_some (ht : c.prioTbl c.prioCur = some t)
    (hwaits : t.statPend ≠ .timeout → (c.event e).wait.mem c.prioCur = false) :
    Change c (c.osSemPendEnd e).2 c.prioCur ((c.view c.prioCur).waitEnd t e) := by
  have hready := (Change.refl c c.prioCur).setTcb ⟨osStatRdy, .ok, t.dly, none⟩
  have hsame : t.statPend ≠ .timeout → Function.update (c.view c.prioCur).waits e false = (c.view c.prioCur).waits := by
    intro hstat
    exact Function.update_eq_iff.mpr ⟨(hwaits hstat).symm, fun _ _ => rfl⟩
  unfold osSemPendEnd
  rw [ht]
  simp only
  cases hstat : t.statPend with
  | ok =>
    rw [View.waitEnd, hsame (by simp [hstat])]
    exact hready
  | abort =>
    rw [View.waitEnd, hsame (by simp [hstat])]
    exact hready
  | timeout =>
    exact ((Change.refl c c.prioCur).osEventTaskRemove t e).setTcb ⟨osStatRdy, .ok, t.dly, none⟩

theorem osTaskDel_some {prio : Option Prio} (hint : c.intNesting = 0) (hidle : prio ≠ some osTaskIdlePrio)
    (ht : c.prioTbl (prio.getD c.prioCur) = some t)
    (hwaits : ∀ e, (c.view (prio.getD c.prioCur)).waits e = true ↔ t.eventPtr = some e) :
    ∃ c', Change c c' (prio.getD c.prioCur) .del ∧ c.osTaskDel prio = (.none, some (prio.getD c.prioCur),
      if c.lockNesting < 255 then { c' with lockNesting := c.lockNesting + 1 } else c') := by
  simp only [osTaskDel, hint, Nat.lt_irrefl, if_false, if_neg hidle, ht]
  generalize prio.getD c.prioCur = p at hwaits
  cases hptr : t.eventPtr with
  | none =>
    have hchange := (Change.refl c p).clrRdy.setTcb .fresh
    have hnone : (c.view p).waits = fun _ => false := funext fun e => by
      rw [← Bool.not_eq_true, hwaits, hptr]
      exact nofun
    rw [hnone] at hchange
    exact ⟨_, hchange, rfl⟩
  | some e =>
    have hchange := ((Change.refl c p).clrRdy.osEventTaskRemove t e).setTcb .fresh
    have hnone : Function.update (c.view p).waits e false = fun _ => false := funext fun e' => by
      by_cases he : e' = e
      · rw [he, Function.update_self]
      · rw [Function.update_of_ne he, ← Bool.not_eq_true, hwaits, hptr]
        exact fun heq => he (Option.some.inj heq).symm
    simp only [hnone] at hchange
    exact ⟨_, hchange, rfl⟩

omit [DecidableEq ε] in
theorem view_osTaskDelEnd (c : OsCore ε) (p : Prio) :
    (c.osTaskDelEnd p).view = Function.update c.view p { c.view p with tcb := none } := by
  funext q
  by_cases hq : q = p
  · subst hq
    simp [view, osTaskDelEnd]
  · simp [view, osTaskDelEnd, Function.update_of_ne hq]

omit [DecidableEq ε] in
theorem view_osTcbEnter (c : OsCore ε) (p : Prio) :
    (c.osTcbEnter p).view = Function.update c.view p (c.view p).enter :=
  ((Change.refl c p).setTcb .fresh).view

omit [DecidableEq ε] in
theorem view_osTcbLink (c : OsCore ε) (p : Prio) :
    (c.osTcbLink p).view = Function.update c.view p (c.view p).link :=
  (Change.refl c p).setRdy.view

end OsCore

end LoraGateway.Os
