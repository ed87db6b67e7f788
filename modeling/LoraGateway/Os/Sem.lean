import LoraGateway.Lib.Tally

/-!
# Counting semaphores of the kernel

The semaphore calls of `os_sem.c` as functions on the kernel state: event control blocks with a
count and a wait table, and the fields of the task control blocks that a wait uses. Tasks are
numbered by priority, so a wait table is a set of priorities and the task a post readies is the
least of the set. Each call is one step: it runs with interrupts off but for the suspension inside
`OSSemPend`, whose second half is `pendReturn`.

`Coherent k b` ties the tables to `b`, the event each task is suspended on. `tokens k b e` counts
what can be taken from `e`, the tokens a post has handed to a task that has not run yet included:
a post adds one to it whether or not somebody waits, and every successful wait takes one.
-/

namespace LoraGateway.Os

/-- Error codes of the semaphore calls. -/
inductive OsErr
  | none | timeout | pendAbort | pendIsr | pendLocked | semOvf
  deriving DecidableEq, Repr

/-- `OSTCBStatPend`. -/
inductive StatPend
  | ok | timeout | abort
  deriving DecidableEq, Repr

/-- An event control block of type semaphore: `OSEventCnt` and the wait table. -/
structure OsEvent (n : ℕ) where
  cnt : ℕ
  tbl : Finset (Fin n)

/-- The fields of `OS_TCB` a wait uses: `OSTCBDly`, `OSTCBStatPend` and the pend bit of
`OSTCBStat`, which keeps the task off the ready list while it is set. -/
structure OsTcb where
  dly : ℕ
  statPend : StatPend
  pend : Bool

/-- The kernel state: semaphores named by `ε`, tasks by priority, the nesting counters, the number
of event control blocks on `OSEventFreeList`, and the millisecond clock of the port. -/
structure Kernel (ε : Type) (n : ℕ) where
  event : ε → OsEvent n
  tcb : Fin n → OsTcb
  intNesting : ℕ
  lockNesting : ℕ
  eventFree : ℕ
  systemTickNum : BitVec 32

variable {ε : Type} {n : ℕ}

def Kernel.setTcb (k : Kernel ε n) (t : Fin n) (c : OsTcb) : Kernel ε n :=
  { k with tcb := Function.update k.tcb t c }

@[simp] theorem setTcb_self (k : Kernel ε n) (t : Fin n) (c : OsTcb) :
    (k.setTcb t c).tcb t = c := Function.update_self ..

theorem setTcb_of_ne (k : Kernel ε n) {t u : Fin n} (h : u ≠ t) (c : OsTcb) :
    (k.setTcb t c).tcb u = k.tcb u := Function.update_of_ne h ..

@[simp] theorem setTcb_event (k : Kernel ε n) (t : Fin n) (c : OsTcb) :
    (k.setTcb t c).event = k.event := rfl

variable [DecidableEq ε]

def Kernel.setEvent (k : Kernel ε n) (e : ε) (ev : OsEvent n) : Kernel ε n :=
  { k with event := Function.update k.event e ev }

@[simp] theorem setEvent_self (k : Kernel ε n) (e : ε) (ev : OsEvent n) :
    (k.setEvent e ev).event e = ev := Function.update_self ..

theorem setEvent_of_ne (k : Kernel ε n) {e e' : ε} (h : e' ≠ e) (ev : OsEvent n) :
    (k.setEvent e ev).event e' = k.event e' := Function.update_of_ne h ..

@[simp] theorem setEvent_tcb (k : Kernel ε n) (e : ε) (ev : OsEvent n) :
    (k.setEvent e ev).tcb = k.tcb := rfl

/-! ## The calls -/

/-- `OSSemAccept`: the count before the call, and one token less if there was one. -/
def osSemAccept (k : Kernel ε n) (e : ε) : ℕ × Kernel ε n :=
  ((k.event e).cnt,
    if 0 < (k.event e).cnt then
      k.setEvent e { k.event e with cnt := (k.event e).cnt - 1 }
    else k)

/-- `OSSemPend` up to the return or to the suspension (`none`). -/
def osSemPend (k : Kernel ε n) (t : Fin n) (e : ε) (timeout : ℕ) : Option OsErr × Kernel ε n :=
  if 0 < k.intNesting then (some .pendIsr, k)
  else if 0 < k.lockNesting then (some .pendLocked, k)
  else if 0 < (k.event e).cnt then
    (some .none, k.setEvent e { k.event e with cnt := (k.event e).cnt - 1 })
  else
    (none, (k.setTcb t ⟨timeout, .ok, true⟩).setEvent e
      { k.event e with tbl := insert t (k.event e).tbl })

/-- `OSSemPend` after the suspension, once the task is ready again: the error code, and the task
off the wait table if it is the timeout that readied it. -/
def pendReturn (k : Kernel ε n) (t : Fin n) (e : ε) : Option (OsErr × Kernel ε n) :=
  if (k.tcb t).pend then none
  else match (k.tcb t).statPend with
    | .ok => some (.none, k.setTcb t { k.tcb t with statPend := .ok })
    | .abort => some (.pendAbort, k.setTcb t { k.tcb t with statPend := .ok })
    | .timeout =>
      some (.timeout, (k.setTcb t { k.tcb t with statPend := .ok }).setEvent e
        { k.event e with tbl := (k.event e).tbl.erase t })

/-- `OS_EventTaskRdy` for the waiting task `w`. -/
def osEventTaskRdy (k : Kernel ε n) (e : ε) (w : Fin n) (stat : StatPend) : Kernel ε n :=
  (k.setTcb w ⟨0, stat, false⟩).setEvent e { k.event e with tbl := (k.event e).tbl.erase w }

/-- `OSSemPost`: the token goes to the waiting task of highest priority, else to the count. -/
def osSemPost (k : Kernel ε n) (e : ε) : OsErr × Kernel ε n :=
  if h : (k.event e).tbl.Nonempty then
    (.none, osEventTaskRdy k e ((k.event e).tbl.min' h) .ok)
  else if (k.event e).cnt < 65535 then
    (.none, k.setEvent e { k.event e with cnt := (k.event e).cnt + 1 })
  else (.semOvf, k)

/-- `OSTimeTick` on one control block. -/
def OsTcb.tick (c : OsTcb) : OsTcb :=
  if c.dly = 0 then c
  else if c.dly = 1 then
    if c.pend then ⟨0, .timeout, false⟩ else ⟨0, .ok, c.pend⟩
  else { c with dly := c.dly - 1 }

/-- `OS_TICKS_PER_SEC`. -/
def osTicksPerSec : ℕ := 200

/-- `SysTick_Handler`: the port's clock advances by one tick in milliseconds, then `OSTimeTick`. -/
def sysTickHandler (k : Kernel ε n) : Kernel ε n :=
  { k with
    systemTickNum := k.systemTickNum + BitVec.ofNat 32 (1000 / osTicksPerSec)
    tcb := fun t => (k.tcb t).tick }

/-! ## Coherence -/

/-- The wait tables agree with `b`, the event each task is suspended on. -/
structure Coherent (k : Kernel ε n) (b : Fin n → Option ε) : Prop where
  mem : ∀ t e, t ∈ (k.event e).tbl → b t = some e
  ready : ∀ t e, t ∈ (k.event e).tbl → (k.tcb t).pend = true ∨ (k.tcb t).statPend = .timeout
  granted : ∀ t e, b t = some e → t ∉ (k.event e).tbl → (k.tcb t).statPend = .ok
  dly : ∀ t, (k.tcb t).dly ≠ 0 → (k.tcb t).pend = true ∧ ∃ e, t ∈ (k.event e).tbl

/-- `t` was suspended on `e` and a post has handed it the token. -/
def Granted (k : Kernel ε n) (b : Fin n → Option ε) (e : ε) (t : Fin n) : Prop :=
  b t = some e ∧ t ∉ (k.event e).tbl

instance (k : Kernel ε n) (b : Fin n → Option ε) (e : ε) (t : Fin n) :
    Decidable (Granted k b e t) := inferInstanceAs (Decidable (_ ∧ _))

/-- The tokens of `e` not yet taken: those counted and those handed over. -/
def tokens (k : Kernel ε n) (b : Fin n → Option ε) (e : ε) : ℕ :=
  (k.event e).cnt + ∑ t, if Granted k b e t then 1 else 0

theorem tokens_congr {k k' : Kernel ε n} {b b' : Fin n → Option ε} {e : ε}
    (hcnt : (k'.event e).cnt = (k.event e).cnt)
    (hgr : ∀ t, Granted k' b' e t ↔ Granted k b e t) : tokens k' b' e = tokens k b e := by
  simp only [tokens, hcnt, hgr]

theorem tokens_eq_cnt {k : Kernel ε n} {b : Fin n → Option ε} {e : ε}
    (h : ∀ t, ¬ Granted k b e t) : tokens k b e = (k.event e).cnt := by
  simp [tokens, h]

/-- Where at most one task waits, a token is in the count or with that task. -/
theorem tokens_pos {k : Kernel ε n} {b : Fin n → Option ε} {e : ε} {t : Fin n} (hb : ∀ u, u ≠ t → b u ≠ some e)
    (hpos : 0 < tokens k b e) : 0 < (k.event e).cnt ∨ Granted k b e t := by
  by_contra hno
  rw [not_or] at hno
  have hnone : ∀ u, ¬ Granted k b e u := fun u hg => by
    by_cases hu : u = t
    · exact hno.2 (hu ▸ hg)
    · exact hb u hu hg.1
  rw [tokens_eq_cnt hnone] at hpos
  exact hno.1 hpos

theorem tokens_one (k k' : Kernel ε n) (b b' : Fin n → Option ε) {e : ε} (a : Fin n)
    (hcnt : (k'.event e).cnt = (k.event e).cnt)
    (hgr : ∀ t, t ≠ a → (Granted k' b' e t ↔ Granted k b e t)) :
    tokens k' b' e + (if Granted k b e a then 1 else 0)
      = tokens k b e + (if Granted k' b' e a then 1 else 0) := by
  have := Lib.tally_one (f := fun t => if Granted k b e t then 1 else 0)
    (g := fun t => if Granted k' b' e t then 1 else 0) a fun t ht => by simp only [hgr t ht]
  simp only [tokens, hcnt] at this ⊢
  omega

variable {k k' : Kernel ε n} {b : Fin n → Option ε} {e : ε} {t : Fin n}

/-! ## What each call does -/

/-! ### The count alone -/

theorem coherent_setCnt (h : Coherent k b) (e : ε) (c : ℕ) :
    Coherent (k.setEvent e { k.event e with cnt := c }) b := by
  have htbl : ∀ e', ((k.setEvent e { k.event e with cnt := c }).event e').tbl = (k.event e').tbl := by
    intro e'
    by_cases he : e' = e
    · subst he; simp
    · rw [setEvent_of_ne k he]
  refine ⟨?_, ?_, ?_, ?_⟩
  · intro t e' ht; rw [htbl] at ht; exact h.mem t e' ht
  · intro t e' ht; rw [htbl] at ht; exact h.ready t e' ht
  · intro t e' hb ht; rw [htbl] at ht; exact h.granted t e' hb ht
  · intro t ht
    obtain ⟨hp, e', he'⟩ := h.dly t ht
    exact ⟨hp, e', by rw [htbl]; exact he'⟩

theorem tokens_setCnt (c : ℕ) :
    tokens (k.setEvent e { k.event e with cnt := c }) b e + (k.event e).cnt = tokens k b e + c := by
  have hgr : ∀ t, Granted (k.setEvent e { k.event e with cnt := c }) b e t ↔ Granted k b e t := by
    simp [Granted]
  simp only [tokens, hgr, setEvent_self]
  omega

theorem tokens_setEvent_of_ne {e' : ε} (he : e' ≠ e) (ev : OsEvent n) :
    tokens (k.setEvent e ev) b e' = tokens k b e' := by
  exact tokens_congr (by rw [setEvent_of_ne k he]) fun t => by
    rw [Granted, setEvent_of_ne k he, Granted]

theorem coherent_fresh (h : Coherent k b) (hb : ∀ t, b t ≠ some e) (c : ℕ) :
    Coherent (k.setEvent e ⟨c, ∅⟩) b := by
  have hne : ∀ {u e'}, u ∈ ((k.setEvent e ⟨c, ∅⟩).event e').tbl → e' ≠ e ∧ u ∈ (k.event e').tbl := by
    intro u e' hu
    by_cases he : e' = e
    · subst he; simp at hu
    · rw [setEvent_of_ne k he] at hu
      exact ⟨he, hu⟩
  refine ⟨fun u e' hu => h.mem u e' (hne hu).2, fun u e' hu => h.ready u e' (hne hu).2, ?_, ?_⟩
  · intro u e' hbu hu
    have he : e' ≠ e := fun he => hb u (he ▸ hbu)
    rw [setEvent_of_ne k he] at hu
    exact h.granted u e' hbu hu
  · intro u hu
    obtain ⟨hp, e', he'⟩ := h.dly u hu
    have he : e' ≠ e := fun he => hb u (he ▸ h.mem u e' he')
    exact ⟨hp, e', by rw [setEvent_of_ne k he]; exact he'⟩

/-! ### Suspension and return -/

theorem coherent_suspend (h : Coherent k b) (hb : b t = none) (timeout : ℕ) :
    Coherent ((k.setTcb t ⟨timeout, .ok, true⟩).setEvent e
      { k.event e with tbl := insert t (k.event e).tbl }) (Function.update b t (some e)) := by
  have hnot : ∀ e', t ∉ (k.event e').tbl := fun e' he' => by simp [h.mem t e' he'] at hb
  have hmem : ∀ u e', u ∈ (((k.setTcb t ⟨timeout, .ok, true⟩).setEvent e
      { k.event e with tbl := insert t (k.event e).tbl }).event e').tbl ↔
      u ∈ (k.event e').tbl ∨ (u = t ∧ e' = e) := by
    intro u e'
    by_cases he : e' = e
    · subst he; simp [or_comm]
    · simp [setEvent_of_ne _ he, he]
  refine ⟨?_, ?_, ?_, ?_⟩
  · intro u e' hu
    rcases (hmem u e').mp hu with hu | ⟨rfl, rfl⟩
    · have : u ≠ t := fun hut => hnot e' (hut ▸ hu)
      rw [Function.update_of_ne this]
      exact h.mem u e' hu
    · simp
  · intro u e' hu
    by_cases hut : u = t
    · subst hut; simp
    · rcases (hmem u e').mp hu with hu | ⟨rfl, _⟩
      · simpa [setTcb_of_ne _ hut] using h.ready u e' hu
      · exact absurd rfl hut
  · intro u e' hbu hu
    by_cases hut : u = t
    · subst hut
      rw [Function.update_self] at hbu
      exact absurd ((hmem u e').mpr (Or.inr ⟨rfl, (Option.some.inj hbu).symm⟩)) hu
    · rw [Function.update_of_ne hut] at hbu
      have hu' : u ∉ (k.event e').tbl := fun hu' => hu ((hmem u e').mpr (Or.inl hu'))
      simpa [setTcb_of_ne _ hut] using h.granted u e' hbu hu'
  · intro u hu
    by_cases hut : u = t
    · subst hut
      exact ⟨by simp, e, (hmem u e).mpr (Or.inr ⟨rfl, rfl⟩)⟩
    · rw [setEvent_tcb, setTcb_of_ne _ hut] at hu ⊢
      obtain ⟨hp, e', he'⟩ := h.dly u hu
      exact ⟨hp, e', (hmem u e').mpr (Or.inl he')⟩

theorem tokens_suspend (h : Coherent k b) (hb : b t = none) (timeout : ℕ) (e' : ε) :
    tokens ((k.setTcb t ⟨timeout, .ok, true⟩).setEvent e
      { k.event e with tbl := insert t (k.event e).tbl }) (Function.update b t (some e)) e'
      = tokens k b e' := by
  have hnot : t ∉ (k.event e).tbl := fun he' => by simp [h.mem t e he'] at hb
  by_cases he : e' = e
  · subst he
    refine tokens_congr (by simp) fun u => ?_
    by_cases hut : u = t
    · subst hut; simp [Granted, hb]
    · simp [Granted, hut]
  · refine tokens_congr (by rw [setEvent_of_ne _ he, setTcb_event]) fun u => ?_
    by_cases hut : u = t
    · subst hut
      simp [Granted, hb, Ne.symm he]
    · simp [Granted, setEvent_of_ne _ he, hut]

/-- The state after a wait has ended: `t` is off the wait table of `e`. -/
def Kernel.leave (k : Kernel ε n) (t : Fin n) (e : ε) : Kernel ε n :=
  (k.setTcb t { k.tcb t with statPend := .ok }).setEvent e
    { k.event e with tbl := (k.event e).tbl.erase t }

/-- A wait ends because a post handed over a token, or by its timeout. -/
theorem pendReturn_cases (h : Coherent k b) (hb : b t = some e) {err : OsErr}
    (hr : pendReturn k t e = some (err, k')) :
    k' = k.leave t e ∧ (k.tcb t).dly = 0 ∧
      ((err = .none ∧ Granted k b e t) ∨ (err = .timeout ∧ ¬ Granted k b e t)) := by
  unfold pendReturn at hr
  split_ifs at hr with hpend
  have hdly : (k.tcb t).dly = 0 := by
    by_contra hd
    exact hpend (h.dly t hd).1
  by_cases hmem : t ∈ (k.event e).tbl
  · rcases h.ready t e hmem with hp | hst
    · exact absurd hp hpend
    · rw [hst] at hr
      simp only [Option.some.injEq, Prod.mk.injEq] at hr
      exact ⟨hr.2.symm, hdly, Or.inr ⟨hr.1.symm, fun hg => hg.2 hmem⟩⟩
  · rw [h.granted t e hb hmem] at hr
    simp only [Option.some.injEq, Prod.mk.injEq] at hr
    refine ⟨?_, hdly, Or.inl ⟨hr.1.symm, hb, hmem⟩⟩
    rw [← hr.2, Kernel.leave, Finset.erase_eq_of_notMem hmem]
    simp [Kernel.setEvent, Kernel.setTcb]

theorem mem_leave (h : Coherent k b) (hb : b t = some e) (u : Fin n) (e' : ε) :
    u ∈ ((k.leave t e).event e').tbl ↔ u ∈ (k.event e').tbl ∧ u ≠ t := by
  by_cases he : e' = e
  · subst he; simp [Kernel.leave, and_comm]
  · rw [Kernel.leave, setEvent_of_ne _ he, setTcb_event]
    refine ⟨fun hu => ⟨hu, ?_⟩, fun hu => hu.1⟩
    rintro rfl
    have := h.mem u e' hu
    rw [hb] at this
    exact he (Option.some.inj this).symm

theorem coherent_leave (h : Coherent k b) (hb : b t = some e) (hdly : (k.tcb t).dly = 0) :
    Coherent (k.leave t e) (Function.update b t none) := by
  have hmem := mem_leave h hb
  have htcb : ∀ u, u ≠ t → (k.leave t e).tcb u = k.tcb u := fun u hu => setTcb_of_ne k hu _
  refine ⟨?_, ?_, ?_, ?_⟩
  · intro u e' hu
    obtain ⟨hu, hut⟩ := (hmem u e').mp hu
    rw [Function.update_of_ne hut]
    exact h.mem u e' hu
  · intro u e' hu
    obtain ⟨hu, hut⟩ := (hmem u e').mp hu
    rw [htcb u hut]
    exact h.ready u e' hu
  · intro u e' hbu hu
    have hut : u ≠ t := by
      rintro rfl
      simp at hbu
    rw [Function.update_of_ne hut] at hbu
    rw [htcb u hut]
    exact h.granted u e' hbu fun hu' => hu ((hmem u e').mpr ⟨hu', hut⟩)
  · intro u hu
    by_cases hut : u = t
    · subst hut
      have hself : (k.leave u e).tcb u = { k.tcb u with statPend := .ok } := setTcb_self k u _
      rw [hself] at hu
      exact absurd hdly hu
    · rw [htcb u hut] at hu ⊢
      obtain ⟨hp, e', he'⟩ := h.dly u hu
      exact ⟨hp, e', (hmem u e').mpr ⟨he', hut⟩⟩

theorem tokens_leave (h : Coherent k b) (hb : b t = some e) :
    tokens (k.leave t e) (Function.update b t none) e + (if Granted k b e t then 1 else 0)
      = tokens k b e := by
  have := tokens_one k (k.leave t e) b (Function.update b t none) t
    (e := e) (by simp [Kernel.leave]) fun u hu => by
      simp only [Granted, Function.update_of_ne hu, mem_leave h hb, hu, not_and_or, not_false_eq_true,
        ne_eq, not_true_eq_false, or_false]
  rw [this]
  simp [Granted]

theorem tokens_leave_of_ne (h : Coherent k b) (hb : b t = some e) {e' : ε} (he : e' ≠ e) :
    tokens (k.leave t e) (Function.update b t none) e' = tokens k b e' := by
  refine tokens_congr (by rw [Kernel.leave, setEvent_of_ne _ he, setTcb_event]) fun u => ?_
  by_cases hut : u = t
  · subst hut
    simp [Granted, hb, Ne.symm he]
  · simp [Granted, mem_leave h hb, hut]

/-! ### Posting -/

theorem mem_osEventTaskRdy (h : Coherent k b) {w : Fin n} (hw : w ∈ (k.event e).tbl) (stat : StatPend)
    (u : Fin n) (e' : ε) :
    u ∈ ((osEventTaskRdy k e w stat).event e').tbl ↔ u ∈ (k.event e').tbl ∧ u ≠ w := by
  by_cases he : e' = e
  · subst he; simp [osEventTaskRdy, and_comm]
  · rw [osEventTaskRdy, setEvent_of_ne _ he, setTcb_event]
    refine ⟨fun hu => ⟨hu, ?_⟩, fun hu => hu.1⟩
    rintro rfl
    have := h.mem u e' hu
    rw [h.mem u e hw] at this
    exact he (Option.some.inj this).symm

theorem coherent_osEventTaskRdy (h : Coherent k b) {w : Fin n} (hw : w ∈ (k.event e).tbl) :
    Coherent (osEventTaskRdy k e w .ok) b := by
  have hmem := mem_osEventTaskRdy h hw .ok
  have htcb : ∀ u, u ≠ w → (osEventTaskRdy k e w .ok).tcb u = k.tcb u :=
    fun u hu => setTcb_of_ne k hu _
  have hself : (osEventTaskRdy k e w .ok).tcb w = ⟨0, .ok, false⟩ := setTcb_self k w _
  refine ⟨?_, ?_, ?_, ?_⟩
  · intro u e' hu
    exact h.mem u e' ((hmem u e').mp hu).1
  · intro u e' hu
    obtain ⟨hu, huw⟩ := (hmem u e').mp hu
    rw [htcb u huw]
    exact h.ready u e' hu
  · intro u e' hbu hu
    by_cases huw : u = w
    · subst huw; rw [hself]
    · rw [htcb u huw]
      exact h.granted u e' hbu fun hu' => hu ((hmem u e').mpr ⟨hu', huw⟩)
  · intro u hu
    by_cases huw : u = w
    · subst huw; rw [hself] at hu; exact absurd rfl hu
    · rw [htcb u huw] at hu ⊢
      obtain ⟨hp, e', he'⟩ := h.dly u hu
      exact ⟨hp, e', (hmem u e').mpr ⟨he', huw⟩⟩

theorem tokens_osEventTaskRdy (h : Coherent k b) {w : Fin n} (hw : w ∈ (k.event e).tbl) (e' : ε) :
    tokens (osEventTaskRdy k e w .ok) b e' = tokens k b e' + (if e' = e then 1 else 0) := by
  have hcnt : ((osEventTaskRdy k e w .ok).event e').cnt = (k.event e').cnt := by
    by_cases he : e' = e
    · subst he; simp [osEventTaskRdy]
    · rw [osEventTaskRdy, setEvent_of_ne _ he, setTcb_event]
  have := tokens_one k (osEventTaskRdy k e w .ok) b b w hcnt
    fun u hu => by simp [Granted, mem_osEventTaskRdy h hw, hu]
  have hbefore : ¬ Granted k b e' w := by
    rintro ⟨hb, hnot⟩
    rw [h.mem w e hw] at hb
    exact hnot (Option.some.inj hb ▸ hw)
  have hafter : Granted (osEventTaskRdy k e w .ok) b e' w ↔ e' = e := by
    simp [Granted, mem_osEventTaskRdy h hw, h.mem w e hw, eq_comm]
  simp only [hbefore, hafter, if_false] at this
  omega

/-- A post adds a token and keeps coherence, unless the count is at its maximum. -/
theorem osSemPost_spec (h : Coherent k b) (hcnt : (k.event e).cnt < 65535) :
    (osSemPost k e).1 = .none ∧ Coherent (osSemPost k e).2 b ∧
      ∀ e', tokens (osSemPost k e).2 b e' = tokens k b e' + (if e' = e then 1 else 0) := by
  unfold osSemPost
  split_ifs with hne
  · have hw := Finset.min'_mem _ hne
    exact ⟨rfl, coherent_osEventTaskRdy h hw, tokens_osEventTaskRdy h hw⟩
  · refine ⟨rfl, coherent_setCnt h e _, fun e' => ?_⟩
    split_ifs with he
    · subst he
      have := tokens_setCnt (k := k) (b := b) (e := e') ((k.event e').cnt + 1)
      simp only at this ⊢
      omega
    · exact tokens_setEvent_of_ne he _

theorem osSemPost_nesting (k : Kernel ε n) (e : ε) :
    (osSemPost k e).2.intNesting = k.intNesting ∧ (osSemPost k e).2.lockNesting = k.lockNesting := by
  unfold osSemPost
  split_ifs <;> exact ⟨rfl, rfl⟩

theorem osSemPost_event_of_ne (k : Kernel ε n) {e e' : ε} (he : e' ≠ e) :
    (osSemPost k e).2.event e' = k.event e' := by
  unfold osSemPost
  split_ifs
  · exact setEvent_of_ne _ he _
  · exact setEvent_of_ne _ he _
  · rfl

theorem osSemPost_tcb (k : Kernel ε n) (e : ε) (u : Fin n) :
    (osSemPost k e).2.tcb u = k.tcb u ∨ (osSemPost k e).2.tcb u = ⟨0, .ok, false⟩ := by
  unfold osSemPost
  split_ifs with hne
  · by_cases hu : u = (k.event e).tbl.min' hne
    · subst hu
      exact Or.inr (setTcb_self k _ _)
    · exact Or.inl (setTcb_of_ne k hu _)
  · exact Or.inl rfl
  · exact Or.inl rfl

/-! ### The tick -/

omit [DecidableEq ε] in
theorem coherent_tick (h : Coherent k b) : Coherent (sysTickHandler k) b := by
  refine ⟨h.mem, ?_, ?_, ?_⟩
  · intro u e' hu
    have hr := h.ready u e' hu
    simp only [sysTickHandler, OsTcb.tick]
    split_ifs with h0 h1 hp
    · exact hr
    · exact Or.inr rfl
    · exact absurd (h.dly u h0).1 hp
    · exact hr
  · intro u e' hbu hu
    have hg := h.granted u e' hbu hu
    have h0 : (k.tcb u).dly = 0 := by
      by_contra hd
      obtain ⟨_, e'', he''⟩ := h.dly u hd
      have := h.mem u e'' he''
      rw [hbu] at this
      exact hu (Option.some.inj this ▸ he'')
    simpa [sysTickHandler, OsTcb.tick, h0] using hg
  · intro u hu
    have hd := h.dly u
    simp only [sysTickHandler, OsTcb.tick] at hu ⊢
    split_ifs at hu ⊢ with h0 h1 hp
    · exact absurd h0 hu
    · simp at hu
    · simp at hu
    · exact hd h0

theorem tokens_tick (e : ε) : tokens (sysTickHandler k) b e = tokens k b e := rfl

/-! ## Waits that have to be -/

/-- Tasks wait only where there is nothing to take, and one that has been handed a token can run. -/
structure Tidy (k : Kernel ε n) (b : Fin n → Option ε) : Prop where
  cnt : ∀ e, (k.event e).tbl.Nonempty → (k.event e).cnt = 0
  ready : ∀ t e, Granted k b e t → (k.tcb t).pend = false

theorem tidy_take (h : Tidy k b) (e : ε) :
    Tidy (k.setEvent e { k.event e with cnt := (k.event e).cnt - 1 }) b := by
  constructor
  · intro e' hne
    by_cases he : e' = e
    · subst he
      rw [setEvent_self] at hne ⊢
      exact Nat.sub_eq_zero_of_le ((h.cnt e' hne).le.trans (Nat.zero_le 1))
    · rw [setEvent_of_ne k he] at hne ⊢
      exact h.cnt e' hne
  · rintro u e' ⟨hb, hu⟩
    refine h.ready u e' ⟨hb, fun hmem => hu ?_⟩
    by_cases he : e' = e
    · subst he
      rwa [setEvent_self]
    · rwa [setEvent_of_ne k he]

theorem tidy_suspend (h : Tidy k b) (hcnt : (k.event e).cnt = 0) (timeout : ℕ) :
    Tidy ((k.setTcb t ⟨timeout, .ok, true⟩).setEvent e
      { k.event e with tbl := insert t (k.event e).tbl }) (Function.update b t (some e)) := by
  constructor
  · intro e' hne
    by_cases he : e' = e
    · subst he
      rw [setEvent_self]
      exact hcnt
    · rw [setEvent_of_ne _ he, setTcb_event] at hne ⊢
      exact h.cnt e' hne
  · rintro u e' ⟨hb, hu⟩
    by_cases hut : u = t
    · subst hut
      rw [Function.update_self] at hb
      obtain rfl := Option.some.inj hb
      exact absurd (by simp) hu
    · rw [Function.update_of_ne hut] at hb
      rw [setEvent_tcb, setTcb_of_ne _ hut]
      refine h.ready u e' ⟨hb, fun hmem => hu ?_⟩
      by_cases he : e' = e
      · subst he
        simp [hmem]
      · rwa [setEvent_of_ne _ he, setTcb_event]

theorem tidy_leave (hc : Coherent k b) (h : Tidy k b) (hb : b t = some e) :
    Tidy (k.leave t e) (Function.update b t none) := by
  constructor
  · rintro e' ⟨u, hu⟩
    have hcnt : ((k.leave t e).event e').cnt = (k.event e').cnt := by
      by_cases he : e' = e
      · subst he
        simp [Kernel.leave]
      · rw [Kernel.leave, setEvent_of_ne _ he, setTcb_event]
    rw [hcnt]
    exact h.cnt e' ⟨u, ((mem_leave hc hb u e').mp hu).1⟩
  · rintro u e' ⟨hbu, hu⟩
    have hut : u ≠ t := by
      rintro rfl
      simp at hbu
    rw [Function.update_of_ne hut] at hbu
    rw [Kernel.leave, setEvent_tcb, setTcb_of_ne _ hut]
    exact h.ready u e' ⟨hbu, fun hmem => hu ((mem_leave hc hb u e').mpr ⟨hmem, hut⟩)⟩

theorem tidy_osSemPost (hc : Coherent k b) (h : Tidy k b) (e : ε) : Tidy (osSemPost k e).2 b := by
  unfold osSemPost
  split_ifs with hne
  · have hw := Finset.min'_mem _ hne
    have hmem := mem_osEventTaskRdy hc hw .ok
    constructor
    · rintro e' ⟨u, hu⟩
      have hcnt : ((osEventTaskRdy k e ((k.event e).tbl.min' hne) .ok).event e').cnt = (k.event e').cnt := by
        by_cases he : e' = e
        · subst he
          simp [osEventTaskRdy]
        · rw [osEventTaskRdy, setEvent_of_ne _ he, setTcb_event]
      rw [hcnt]
      exact h.cnt e' ⟨u, ((hmem u e').mp hu).1⟩
    · rintro u e' ⟨hb, hu⟩
      by_cases huw : u = (k.event e).tbl.min' hne
      · subst huw
        rw [osEventTaskRdy, setEvent_tcb, setTcb_self]
      · rw [osEventTaskRdy, setEvent_tcb, setTcb_of_ne _ huw]
        exact h.ready u e' ⟨hb, fun hin => hu ((hmem u e').mpr ⟨hin, huw⟩)⟩
  · constructor
    · intro e' hne'
      by_cases he : e' = e
      · subst he
        rw [setEvent_self] at hne'
        exact absurd hne' hne
      · rw [setEvent_of_ne k he] at hne' ⊢
        exact h.cnt e' hne'
    · rintro u e' ⟨hb, hu⟩
      refine h.ready u e' ⟨hb, fun hmem => hu ?_⟩
      by_cases he : e' = e
      · subst he
        rwa [setEvent_self]
      · rwa [setEvent_of_ne k he]
  · exact h

omit [DecidableEq ε] in
theorem tidy_tick (h : Tidy k b) : Tidy (sysTickHandler k) b := by
  refine ⟨h.cnt, fun u e' hg => ?_⟩
  have hpend := h.ready u e' hg
  simp only [sysTickHandler, OsTcb.tick]
  split_ifs <;> simp_all

theorem tidy_fresh (h : Tidy k b) (hb : ∀ t, b t ≠ some e) (c : ℕ) : Tidy (k.setEvent e ⟨c, ∅⟩) b := by
  constructor
  · intro e' hne
    by_cases he : e' = e
    · subst he
      simp at hne
    · rw [setEvent_of_ne k he] at hne ⊢
      exact h.cnt e' hne
  · rintro u e' ⟨hbu, hu⟩
    have he : e' ≠ e := fun he => hb u (he ▸ hbu)
    rw [setEvent_of_ne k he] at hu
    exact h.ready u e' ⟨hbu, hu⟩

end LoraGateway.Os
