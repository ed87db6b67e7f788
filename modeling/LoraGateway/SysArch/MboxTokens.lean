import LoraGateway.SysArch.MboxInvariant

/-!
# Token accounting

The balances of `Inv` counted in tasks: who holds the mutex, which fetchers have a token of the
message semaphore, which posters have yet to signal. A task that a post has handed a token to
(`Granted`) counts as having it, although it has still to run.

All of it holds in every run (`Sys.Accounting`), with one more term in the message balance:
`sys_arch_sem_wait` returns the time it waited, and a wait of `0xffffffff` ms looks to its caller like a
timeout, so the token it took is dropped (`History.strayed`). `Act.measurable` leaves out that one reading of
the clock, and with it the term (`mbox_accounting`).

Proof: each control point has a weight of 0 or 1 in each balance of `Inv`, so the sums there count tasks
(`tally_card`). What the indices and `msg_num` can be is read off the ring, at rest or as the one task inside has it
(`Inv.ring_cases`).
-/

namespace LoraGateway.SysArch

open Os Lib

variable {n : ℕ} {s s' : Sys n} {t : Fin n} {c : Call}

/-! ## Counting tasks -/

/-- The task has taken the mutex or been handed it. -/
def Sys.Holds (s : Sys n) (t : Fin n) : Prop :=
  (s.ctl t).inMutex = 1 ∨ Granted s.kernel s.waits .mutex t

/-- The task is a fetcher that has a token and has not decremented `msg_num` for it. -/
def Sys.HasToken (s : Sys n) (t : Fin n) : Prop :=
  (s.ctl t).tokens = 1 ∨ Granted s.kernel s.waits .sem t

/-- The task is a poster that has incremented `msg_num` and has not signalled. -/
def Sys.Signals (s : Sys n) (t : Fin n) : Prop := (s.ctl t).unsignalled = 1

instance (s : Sys n) : DecidablePred s.Holds := fun _ => inferInstanceAs (Decidable (_ ∨ _))
instance (s : Sys n) : DecidablePred s.HasToken := fun _ => inferInstanceAs (Decidable (_ ∨ _))
instance (s : Sys n) : DecidablePred s.Signals := fun _ => inferInstanceAs (Decidable (_ = _))

def Sys.holders (s : Sys n) : ℕ := (Finset.univ.filter s.Holds).card

def Sys.tokenHolders (s : Sys n) : ℕ := (Finset.univ.filter s.HasToken).card

def Sys.signallers (s : Sys n) : ℕ := (Finset.univ.filter s.Signals).card

theorem Ctl.tokens_le (x : Ctl) : x.tokens ≤ 1 := by
  cases x with
  | idle => exact Nat.zero_le _
  | «at» c pt =>
    cases pt with
    | wait w => exact w.held_le
    | lock | read | tailInc | tailWrap | numDec =>
      simp only [Ctl.tokens_at, Call.tokens]
      split_ifs <;> omega
    | _ => exact Nat.zero_le _

theorem Ctl.unsignalled_le (x : Ctl) : x.unsignalled ≤ x.inMutex := by
  cases x with
  | idle => exact le_rfl
  | «at» c pt => cases pt <;> simp

theorem Ctl.of_waitsOn_mutex {x : Ctl} (h : x.waitsOn t = some (.mutex : Ev n)) :
    x.inMutex = 0 := by
  cases x with
  | idle => rfl
  | «at» c pt =>
    cases pt with
    | lock w => cases w <;> simp_all
    | wait w => cases w <;> simp_all
    | sleep w => cases w <;> simp_all
    | _ => simp at h

theorem Ctl.of_waitsOn_sem {x : Ctl} (h : x.waitsOn t = some (.sem : Ev n)) : x.tokens = 0 := by
  cases x with
  | idle => rfl
  | «at» c pt =>
    cases pt with
    | lock w => cases w <;> simp_all
    | wait w => cases w <;> simp_all
    | sleep w => cases w <;> simp_all
    | _ => simp at h

theorem tally_card {f : Fin n → ℕ} {p : Fin n → Prop} [DecidablePred p] (hf : ∀ t, f t ≤ 1)
    (hex : ∀ t, p t → f t = 0) :
    ∑ t, (if p t then 1 else 0) + ∑ t, f t
      = (Finset.univ.filter fun t => f t = 1 ∨ p t).card := by
  rw [Finset.card_filter, ← Finset.sum_add_distrib]
  refine Finset.sum_congr rfl fun t _ => ?_
  have h1 := hf t
  by_cases hp : p t
  · simp [hp, hex t hp]
  · by_cases h0 : f t = 1
    · simp [hp, h0]
    · simp only [hp, h0, if_false, or_self]
      omega

/-- The mutex token is in the semaphore or with a task. -/
theorem Inv.holders (h : Inv s) : (s.kernel.event .mutex).cnt + s.holders = 1 := by
  have hcard := tally_card (f := fun t => (s.ctl t).inMutex)
    (p := Granted s.kernel s.waits .mutex) (fun t => (s.ctl t).inMutex_le)
    fun t hg => Ctl.of_waitsOn_mutex hg.1
  have hm := h.mutex
  rw [tokens, Nat.add_assoc, hcard] at hm
  exact hm

/-- Every message in the box is counted, with a fetcher, or not signalled yet, strays apart. -/
theorem Inv.tokenHolders (h : Inv s) :
    s.mbox.msgNum = (s.kernel.event .sem).cnt + s.tokenHolders + s.signallers + s.hist.strayed := by
  have hcard := tally_card (f := fun t => (s.ctl t).tokens)
    (p := Granted s.kernel s.waits .sem) (fun t => (s.ctl t).tokens_le)
    fun t hg => Ctl.of_waitsOn_sem hg.1
  have hsig := tally_card (f := fun t => (s.ctl t).unsignalled) (p := fun _ => False)
    (fun t => ((s.ctl t).unsignalled_le).trans (s.ctl t).inMutex_le) fun _ hf => hf.elim
  simp only [if_false, Finset.sum_const_zero, Nat.zero_add, or_false] at hsig
  have hn := h.num
  rw [tokens, Nat.add_assoc (s.kernel.event .sem).cnt, hcard, hsig] at hn
  exact hn

theorem Inv.signallers_le (h : Inv s) : s.signallers ≤ 1 := by
  have hsig := tally_card (f := fun t => (s.ctl t).unsignalled) (p := fun _ => False)
    (fun t => ((s.ctl t).unsignalled_le).trans (s.ctl t).inMutex_le) fun _ hf => hf.elim
  simp only [if_false, Finset.sum_const_zero, Nat.zero_add, or_false] at hsig
  have hle : ∑ t, (s.ctl t).unsignalled ≤ ∑ t, (s.ctl t).inMutex :=
    Finset.sum_le_sum fun t _ => (s.ctl t).unsignalled_le
  have hm := h.mutex
  have heq : s.signallers = ∑ t, (s.ctl t).unsignalled := hsig.symm
  omega

/-! ## The ring -/

/-- The ring is at rest, or as the one task inside the mutex says. -/
theorem Inv.ring_cases (h : Inv s) :
    s.RingRest ∨ ∃ t c pt, s.ctl t = .at c pt ∧ pt.inMutex = 1 ∧ s.RingAt pt := by
  by_cases hall : ∀ t, (s.ctl t).inMutex = 0
  · exact Or.inl (h.rest hall)
  · push Not at hall
    obtain ⟨t, ht⟩ := hall
    cases hc : s.ctl t with
    | idle => simp [hc] at ht
    | «at» c pt =>
      have hin : pt.inMutex = 1 := by
        have := pt.inMutex_le
        rw [hc, Ctl.inMutex_at] at ht
        omega
      exact Or.inr ⟨t, c, pt, hc, hin, h.ring t c pt hc hin⟩

/-- The bounds of the indices and the count; an index is at the end of the buffer only between its
increment and the test that resets it. -/
structure Sys.Bounds (s : Sys n) : Prop where
  head_le : s.mbox.head ≤ maxQueueEntries
  head_end : s.mbox.head = maxQueueEntries → ∃ t c, s.ctl t = .at c .headWrap
  tail_le : s.mbox.tail ≤ maxQueueEntries
  tail_end : s.mbox.tail = maxQueueEntries → ∃ t c, s.ctl t = .at c .tailWrap
  num_le : s.mbox.msgNum ≤ maxQueueEntries

theorem Sys.RingOk.bounds {num : ℕ} (h : s.RingOk s.mbox.head s.mbox.tail num)
    (hnum : s.mbox.msgNum ≤ maxQueueEntries) : s.Bounds :=
  ⟨h.head_lt.le, fun he => absurd h.head_lt (by omega), h.tail_lt.le,
    fun he => absurd h.tail_lt (by omega), hnum⟩

theorem Inv.bounds (h : Inv s) : s.Bounds := by
  rcases h.ring_cases with hrest | ⟨t, c, pt, hc, -, hring⟩
  · exact hrest.bounds hrest.num_le
  · cases pt with
    | write => exact hring.1.bounds hring.1.num_le
    | headInc =>
      obtain ⟨hok, hhead⟩ := hring
      exact ⟨hhead.le, fun he => absurd hhead (by omega), hok.tail_lt.le,
        fun he => absurd hok.tail_lt (by omega), (Nat.le_succ _).trans hok.num_le⟩
    | headWrap =>
      obtain ⟨hok, hhead⟩ := hring
      exact ⟨hhead, fun _ => ⟨t, c, hc⟩, hok.tail_lt.le, fun he => absurd hok.tail_lt (by omega),
        (Nat.le_succ _).trans hok.num_le⟩
    | numInc => exact hring.bounds ((Nat.le_succ _).trans hring.num_le)
    | tailInc =>
      obtain ⟨hok, htail, -, hnum⟩ := hring
      exact ⟨hok.head_lt.le, fun he => absurd hok.head_lt (by omega), htail.le,
        fun he => absurd htail (by omega), hnum⟩
    | tailWrap =>
      obtain ⟨hok, htail, -, hnum⟩ := hring
      exact ⟨hok.head_lt.le, fun he => absurd hok.head_lt (by omega), htail, fun _ => ⟨t, c, hc⟩,
        hnum⟩
    | numDec => exact hring.1.bounds hring.2.2
    | _ => exact Sys.RingOk.bounds (show s.RingRest from hring) (show s.RingRest from hring).num_le

theorem Inv.rest_of_free (h : Inv s) (hfree : (s.kernel.event .mutex).cnt = 1) : s.RingRest := by
  refine h.rest fun t => ?_
  have hle := tally_le (f := fun u => (s.ctl u).inMutex) t
  have hm := h.mutex
  simp only [tokens] at hm
  omega

/-! ## Filling the box -/

/-- What the semaphores and the ring count, nobody waiting. -/
structure Sys.Stock (s : Sys n) (mutex sem head num : ℕ) : Prop where
  mutex : s.kernel.event .mutex = ⟨mutex, ∅⟩
  sem : s.kernel.event .sem = ⟨sem, ∅⟩
  head : s.mbox.head = head
  num : s.mbox.msgNum = num

/-- A post at its lock, run up to the wrap test. -/
theorem Sys.Stock.enter {k : ℕ} (h : s.Stock 1 k k k) (hk : k < maxQueueEntries)
    (hc : s.ctl t = .at c (.lock .accept)) (hop : c.op.isFetch = false) :
    ∃ s', (mboxMachine n).run s (List.replicate 4 (.run t)) = some s' ∧ s'.Stock 0 k (k + 1) k ∧
      s'.ctl = Function.update s.ctl t (.at c .headWrap) := by
  have hroom : ¬ maxQueueEntries ≤ k := by omega
  refine ⟨_, by
    simp only [List.replicate, Machine.run, mboxMachine, Sys.step, Sys.exec, Sys.afterLock,
      Sys.goto, Sys.withKernel, Sys.withMbox, sysArchSemWait, osSemAccept, hc, hop, h.mutex, h.num,
      hroom, Option.bind_some, Function.update_self, Function.update_idem, Nat.one_ne_zero,
      if_false, Bool.false_eq_true, if_pos Nat.one_pos]
    rfl, ?_, rfl⟩
  exact ⟨by simp, by simp [setEvent_of_ne, h.sem], by simp [h.head], rfl⟩

/-- And from there to its return. -/
theorem Sys.Stock.leave {k : ℕ} (h : s.Stock 0 k (k + 1) k) (hk : k < maxQueueEntries)
    (hc : s.ctl t = .at c .headWrap) :
    ∃ s', (mboxMachine n).run s (List.replicate 4 (.run t)) = some s' ∧
      s'.Stock 1 (k + 1) ((k + 1) % maxQueueEntries) (k + 1) ∧
      s'.ctl = Function.update s.ctl t .idle := by
  have hcnt : k < 65535 := by
    simp only [maxQueueEntries] at hk
    omega
  have hwrap : s.exec t c .headWrap = some ((s.withMbox { s.mbox with
      head := (k + 1) % maxQueueEntries }).goto t c .numInc) := by
    rw [Sys.exec, ← wrap_eq (i := k + 1) hk, h.head]
    split_ifs
    · rfl
    · rw [← h.head]
      rfl
  have hrun : (mboxMachine n).run s (List.replicate 4 (.run t)) = (mboxMachine n).run
      ((s.withMbox { s.mbox with head := (k + 1) % maxQueueEntries }).goto t c .numInc)
      (List.replicate 3 (.run t)) := by
    simp only [List.replicate_succ, Machine.run, mboxMachine, Sys.step, hc, hwrap, Option.bind_some]
  refine ⟨_, by
    rw [hrun]
    simp only [List.replicate, Machine.run, mboxMachine, Sys.step, Sys.exec, Sys.goto, Sys.ret,
      Sys.withKernel, Sys.withMbox, Sys.sysSemSignal, osSemPost, h.mutex, h.sem, hcnt,
      Option.bind_some, Function.update_self, Function.update_idem, if_true,
      Finset.not_nonempty_empty, dif_neg, not_false_eq_true,
      setEvent_of_ne _ (show (Ev.mutex : Ev n) ≠ .sem by simp), Nat.zero_lt_succ]
    rfl, ?_, rfl⟩
  constructor <;> simp [setEvent_of_ne, h.num]

/-- A whole `sys_mbox_trypost`. -/
def wholeTrypost (t : Fin n) (m : Msg) : List (Act n) :=
  (.call t (.trypost m) :: List.replicate 4 (.run t)) ++ List.replicate 4 (.run t)

theorem run_call {op : Op} (hc : s.ctl t = .idle) (l : List (Act n)) :
    (mboxMachine n).run s (.call t op :: l) = (mboxMachine n).run
      ({ s with hist := { s.hist with calls := s.hist.calls ++ [op] } }.goto t
        ⟨s.hist.calls.length, op, 0, none⟩ (Sys.entry op)) l := by
  simp only [Machine.run, mboxMachine, Sys.step, hc, Option.bind_some]

theorem Sys.Stock.trypost {k : ℕ} (h : s.Stock 1 k k k) (hk : k < maxQueueEntries)
    (hc : s.ctl t = .idle) (m : Msg) :
    ∃ s' c, (mboxMachine n).run s (.call t (.trypost m) :: List.replicate 4 (.run t)) = some s' ∧
      s'.Stock 0 k (k + 1) k ∧ s'.ctl = Function.update s.ctl t (.at c .headWrap) := by
  obtain ⟨s', hs', hstock', hctl'⟩ := Sys.Stock.enter (t := t)
    (c := ⟨s.hist.calls.length, .trypost m, 0, none⟩)
    (s := { s with hist := { s.hist with calls := s.hist.calls ++ [Op.trypost m] } }.goto t
      ⟨s.hist.calls.length, Op.trypost m, 0, none⟩ (Sys.entry (Op.trypost m)))
    ⟨h.1, h.2, h.3, h.4⟩ hk (Sys.goto_ctl ..) rfl
  refine ⟨s', ⟨s.hist.calls.length, .trypost m, 0, none⟩, by rw [run_call hc, hs'], hstock', ?_⟩
  rw [hctl', Sys.goto, Function.update_idem]

/-- `k` calls of `sys_mbox_trypost` by task `t`. -/
def fill (t : Fin n) (k : ℕ) : List (Act n) := (List.replicate k (wholeTrypost t 0)).flatten

theorem filled (t : Fin n) (free : ℕ) {k : ℕ} (hk : k < maxQueueEntries) :
    ∃ s, (mboxMachine n).run (newSys n free) (fill t k) = some s ∧ s.Stock 1 k k k ∧
      s.ctl = fun _ => .idle := by
  induction k with
  | zero => exact ⟨_, rfl, ⟨by simp [newSys], by simp [newSys, setEvent_of_ne], rfl, rfl⟩, rfl⟩
  | succ k ih =>
    obtain ⟨s, hs, hstock, hidle⟩ := ih (by omega)
    obtain ⟨s₁, c, hs₁, hstock₁, hctl₁⟩ := hstock.trypost (t := t) (by omega) (by rw [hidle]) 0
    obtain ⟨s₂, hs₂, hstock₂, hctl₂⟩ := hstock₁.leave (by omega)
      (by rw [hctl₁, Function.update_self])
    rw [Nat.mod_eq_of_lt hk] at hstock₂
    refine ⟨s₂, ?_, hstock₂, ?_⟩
    · rw [fill, List.replicate_succ', List.flatten_append, Machine.run_append]
      change ((mboxMachine n).run (newSys n free) (fill t k)).bind _ = _
      rw [hs, List.flatten_singleton, Option.bind_some, wholeTrypost, Machine.run_append, hs₁,
        Option.bind_some, hs₂]
    · rw [hctl₂, hctl₁, Function.update_idem, hidle]
      exact Function.update_eq_self t _

theorem run_ticks (hdly : ∀ t, (s.kernel.tcb t).dly = 0) (k : ℕ) :
    (mboxMachine n).run s (List.replicate k .tick) =
      some (s.withKernel { s.kernel with
        systemTickNum := s.kernel.systemTickNum + BitVec.ofNat 32 (5 * k) }) := by
  have htcb : (fun t => (s.kernel.tcb t).tick) = s.kernel.tcb := by
    funext t
    simp [OsTcb.tick, hdly t]
  induction k generalizing s with
  | zero => simp [Machine.run, Sys.withKernel]
  | succ k ih =>
    have hstep : (mboxMachine n).step s .tick = some (s.withKernel { s.kernel with
        systemTickNum := s.kernel.systemTickNum + BitVec.ofNat 32 5 }) := by
      change some (s.withKernel (sysTickHandler s.kernel)) = _
      rw [sysTickHandler, htcb]
      rfl
    have hih := ih (s := s.withKernel { s.kernel with
      systemTickNum := s.kernel.systemTickNum + BitVec.ofNat 32 5 }) hdly htcb
    simp only [List.replicate_succ, Machine.run, hstep, Option.bind_some]
    refine hih.trans ?_
    simp only [Sys.withKernel, BitVec.add_assoc, ← BitVec.ofNat_add, Nat.mul_succ, Nat.add_comm 5]

/-! ## Runs -/

/-- The wait of a fetch that took a token does not read `0xffffffff` ms. -/
def Act.measurable (s : Sys n) (a : Act n) : Prop :=
  ∀ t c start, a = .run t → s.ctl t = .at c (.wait (.finish start .none)) →
    s.kernel.systemTickNum - start ≠ sysArchTimeout

theorem sysArchSemWait_took {k k' : Kernel (Ev n) n} {e : Ev n} {timeout ticks : BitVec 32}
    {w : WaitPt} (hs : sysArchSemWait k t e timeout w = some (.done true ticks, k')) :
    ticks = 0 ∨ ∃ start, w = .finish start .none ∧ ticks = k.systemTickNum - start := by
  cases w with
  | accept =>
    simp only [sysArchSemWait, Option.some.injEq, Prod.mk.injEq] at hs
    split_ifs at hs
    · exact absurd hs.1 (by simp)
    · simp only [WaitOut.done.injEq, true_and] at hs
      exact Or.inl hs.1.symm
  | start => simp [sysArchSemWait] at hs
  | pend start =>
    simp only [sysArchSemWait] at hs
    split at hs <;> simp at hs
  | blocked start =>
    simp only [sysArchSemWait] at hs
    split at hs <;> simp at hs
  | finish start err =>
    simp only [sysArchSemWait] at hs
    split_ifs at hs with herr
    · simp only [Option.some.injEq, Prod.mk.injEq, WaitOut.done.injEq, true_and] at hs
      exact Or.inr ⟨start, by rw [herr], hs.1.symm⟩
    · simp at hs

/-- The same as a test. -/
def Act.measurableB (s : Sys n) : Act n → Bool
  | .run t =>
    match s.ctl t with
    | .at _ (.wait (.finish start .none)) => s.kernel.systemTickNum - start ≠ sysArchTimeout
    | _ => true
  | _ => true

theorem Act.measurableB_iff {a : Act n} : a.measurableB s = true ↔ a.measurable s := by
  constructor
  · rintro h t c start rfl hc
    simpa [Act.measurableB, hc] using h
  · intro h
    cases a with
    | run t =>
      rw [Act.measurableB]
      split
      · rename_i c start hc
        simpa using h t c start rfl hc
      · rfl
    | _ => rfl

instance (a : Act n) : Decidable (Act.measurable s a) := decidable_of_iff _ Act.measurableB_iff

theorem step_strayed {a : Act n} (hok : Act.measurable s a) (hs : s.step a = some s') :
    s'.hist.strayed = s.hist.strayed := by
  cases a with
  | call t op =>
    simp only [Sys.step] at hs
    split at hs
    · simp only [Option.some.injEq] at hs
      subst hs
      rfl
    · exact absurd hs (by simp)
  | tick | events free =>
    simp only [Sys.step, Option.some.injEq] at hs
    subst hs
    rfl
  | run t =>
    simp only [Sys.step] at hs
    split at hs
    · exact absurd hs (by simp)
    · rename_i c pt hc
      cases pt with
      | wait w =>
        simp only [Sys.exec] at hs
        split at hs
        · exact absurd hs (by simp)
        · simp only [Option.some.injEq] at hs
          subst hs
          rfl
        · rename_i took ticks k hw
          simp only [Option.some.injEq, Sys.waited] at hs
          by_cases hticks : ticks = sysArchTimeout
          · rw [if_neg (by simpa using hticks)] at hs
            subst hs
            cases took with
            | false => rfl
            | true =>
              rcases sysArchSemWait_took hw with h0 | ⟨start, rfl, hstart⟩
              · rw [h0] at hticks
                exact absurd hticks (by decide)
              · exact absurd (hstart.symm.trans hticks) (hok t c start rfl hc)
          · rw [if_pos hticks] at hs
            subst hs
            rfl
      | fullUnlock | unlock =>
        simp only [Sys.exec, Option.some.injEq] at hs
        subst hs
        unfold Sys.sysSemSignal
        split <;> rfl
      | signal =>
        simp only [Sys.exec, Option.some.injEq] at hs
        subst hs
        unfold Sys.sysSemSignal
        split <;> rfl
      | sleepNew | sleep w | lock w =>
        simp only [Sys.exec] at hs
        split at hs <;> simp only [Option.some.injEq, reduceCtorEq] at hs <;> subst hs <;> rfl
      | check =>
        simp only [Sys.exec] at hs
        split_ifs at hs
        · split at hs <;> simp only [Option.some.injEq] at hs <;> subst hs <;> rfl
        · simp only [Option.some.injEq] at hs
          subst hs
          rfl
      | fetchPoll =>
        simp only [Sys.exec] at hs
        split_ifs at hs <;> simp only [Option.some.injEq] at hs <;> subst hs <;> rfl
      | headWrap | tailWrap | numDec =>
        simp only [Sys.exec, Option.some.injEq] at hs
        subst hs
        split_ifs <;> rfl
      | _ =>
        simp only [Sys.exec, Option.some.injEq] at hs
        subst hs
        rfl

theorem step_strays {a : Act n} (hno : ¬ Act.measurable s a) (hs : s.step a = some s') :
    s'.hist.strayed = s.hist.strayed + 1 := by
  rw [Act.measurable] at hno
  push Not at hno
  obtain ⟨t, c, start, rfl, hc, hclock⟩ := hno
  simp only [Sys.step, hc, Sys.exec, sysArchSemWait, if_true, Option.some.injEq, Sys.waited, ne_eq, hclock,
    not_true_eq_false, if_false] at hs
  subst hs
  rfl

theorem reach_strayed (hr : (mboxMachine n).Reach Act.measurable s) : s.hist.strayed = 0 :=
  hr.invariant (I := fun s => s.hist.strayed = 0)
    (fun s h => by obtain ⟨k, -, -, -, -, -, hhist⟩ := h; simp [hhist])
    fun s a s' h hok hstep => (step_strayed hok hstep).trans h

/-- The accounting of a state. -/
structure Sys.Accounting (s : Sys n) : Prop where
  bounds : s.Bounds
  free : (s.kernel.event .mutex).cnt = 1 →
    s.mbox.head = (s.mbox.tail + s.mbox.msgNum) % maxQueueEntries
  mutex : (s.kernel.event .mutex).cnt + s.holders = 1
  num : s.mbox.msgNum = (s.kernel.event .sem).cnt + s.tokenHolders + s.signallers + s.hist.strayed
  signallers_le : s.signallers ≤ 1
  /-- the decrement is never skipped, and the error of `sys_arch_mbox_fetch` never printed -/
  dec : ∀ t c, s.ctl t = .at c .numDec → 0 < s.mbox.msgNum
  /-- the posts under way succeed -/
  postSem : ∀ t c, s.ctl t = .at c .signal → (osSemPost s.kernel .sem).1 = .none
  postMutex : ∀ t c pt, s.ctl t = .at c pt → pt = .unlock ∨ pt = .fullUnlock →
    (osSemPost s.kernel .mutex).1 = .none

theorem Inv.accounting (h : Inv s) : s.Accounting where
  bounds := h.bounds
  free hfree := (h.rest_of_free hfree).head_eq
  mutex := h.holders
  num := h.tokenHolders
  signallers_le := h.signallers_le
  dec t c hc := h.msgNum_pos hc (by simp [show c.op.isFetch = true from h.okAt hc])
  postSem t c _ := (osSemPost_spec h.coherent (h.cnt_sem h.bounds.num_le)).1
  postMutex t c pt _ _ := (osSemPost_spec h.coherent h.cnt_mutex).1

/-- Every state reached accounts for its tokens, those that a wait has dropped apart; in runs whose waits the
clock can measure there are none of these. -/
theorem mbox_accounting (hr : (mboxMachine n).Reach Machine.any s) :
    s.Accounting ∧ ((mboxMachine n).Reach Act.measurable s →
      s.mbox.msgNum = (s.kernel.event .sem).cnt + s.tokenHolders + s.signallers) := by
  have h := reach_inv hr
  refine ⟨h.accounting, fun hmeasurable => ?_⟩
  have hnum := h.tokenHolders
  rwa [reach_strayed hmeasurable, Nat.add_zero] at hnum

/-- A fetch that sleeps for a tick and takes the message of a post, while another post has counted its message
and has not signalled it. -/
def handedOver : List (Act 2) :=
  (.call 1 (.fetch true 0) :: List.replicate 3 (.run 1)) ++ (.tick :: wholeTrypost 0 5) ++
    List.replicate 2 (.run 1) ++ (.call 0 (.trypost 6) :: List.replicate 6 (.run 0))

theorem handedOver_run : ((mboxMachine 2).runOk Act.measurable (newSys 2 0) handedOver).map
    (fun s => (s.mbox.msgNum, (s.kernel.event .sem).cnt, s.tokenHolders, s.signallers, s.holders)) =
    some (2, 0, 1, 1, 1) := by
  decide +kernel

theorem mbox_accounting_handedOver : ∃ s : Sys 2, (mboxMachine 2).Reach Act.measurable s ∧
    s.mbox.msgNum = 2 ∧ s.tokenHolders = 1 ∧ s.signallers = 1 ∧ s.holders = 1 ∧ s.Accounting ∧
    s.mbox.msgNum = (s.kernel.event .sem).cnt + s.tokenHolders + s.signallers := by
  obtain ⟨s, hrun, hs⟩ := Option.map_eq_some_iff.mp handedOver_run
  simp only [Prod.mk.injEq] at hs
  obtain ⟨hnum, -, htokens, hsignals, hholders⟩ := hs
  have hreach : (mboxMachine 2).Reach Act.measurable s :=
    (Machine.Reach.init (newSys_fresh 2 0)).steps
      (Machine.Steps.of_runOk hrun)
  obtain ⟨haccounting, hbalance⟩ := mbox_accounting (hreach.mono fun _ _ _ => trivial)
  exact ⟨s, hreach, hnum, htokens, hsignals, hholders, haccounting, hbalance hreach⟩

/-! ### What the bounds leave open -/

/-- A fetch without a timeout that sleeps for `0xffffffff` ms, and a post that wakes it. -/
def oversleep : List (Act 2) :=
  (.call 1 (.fetch true 0) :: List.replicate 3 (.run 1)) ++
    (List.replicate 858993459 .tick ++ (wholeTrypost 0 5 ++ List.replicate 2 (.run 1)))

/-- The state in which the fetch of `oversleep` sleeps. -/
def sleeping : Sys 2 :=
  ((mboxMachine 2).run (newSys 2 0) (.call 1 (.fetch true 0) :: List.replicate 3 (.run 1))).get rfl

/-- The index does reach the end of the buffer, and the fetch of `oversleep` drops its token. -/
theorem accounting_limits :
    (∃ s : Sys 2, (mboxMachine 2).Reach Machine.any s ∧ s.mbox.head = maxQueueEntries) ∧
      ∃ s : Sys 2, (mboxMachine 2).Reach Machine.any s ∧
        s.mbox.msgNum ≠ (s.kernel.event .sem).cnt + s.tokenHolders + s.signallers := by
  have hnew : (mboxMachine 2).Reach Machine.any (newSys 2 0) := .init (newSys_fresh 2 0)
  constructor
  · obtain ⟨s, hs, hstock, hidle⟩ := filled (n := 2) 0 0 (show 99 < maxQueueEntries by decide)
    obtain ⟨s', c, hs', hstock', -⟩ := hstock.trypost (t := 0) (by decide) (by rw [hidle]) 0
    exact ⟨s', (hnew.steps (Machine.steps_of_run hs)).steps (Machine.steps_of_run hs'),
      hstock'.head⟩
  · have hsleep : (mboxMachine 2).run (newSys 2 0)
        (.call 1 (.fetch true 0) :: List.replicate 3 (.run 1)) = some sleeping :=
      (Option.some_get _).symm
    have hdly : ∀ t, (sleeping.kernel.tcb t).dly = 0 := by decide
    have hrun := run_ticks hdly 858993459
    obtain ⟨s, hs⟩ : ∃ s, (mboxMachine 2).run (newSys 2 0) oversleep = some s := by
      rw [oversleep, Machine.run_append, hsleep, Option.bind_some, Machine.run_append, hrun]
      exact ⟨_, rfl⟩
    have hstray : s.hist.strayed = 1 := by
      rw [oversleep, Machine.run_append, hsleep, Option.bind_some, Machine.run_append, hrun,
        Option.bind_some] at hs
      rw [← Option.some.inj hs]
      rfl
    have hreach := hnew.steps (Machine.steps_of_run hs)
    have hnum := (reach_inv hreach).tokenHolders
    exact ⟨s, hreach, by omega⟩

end LoraGateway.SysArch
