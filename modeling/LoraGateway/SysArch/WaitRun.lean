import LoraGateway.Lib.Machine
import LoraGateway.SysArch.SemWait

/-!
# A wait from call to return

One call of `sys_arch_sem_wait` while the rest of the system runs: ticks, and steps of other tasks and of
interrupts, which leave the clock alone and touch the waiting task by a post only (`Elsewhere`). The history
is how many ticks fall into the call, and how many of them between its two reads of the clock. Its value is
the time between these reads, unless the wait has failed (`timed_run`); one that times out has slept for
the whole tick budget (`slept_run`).
-/

namespace LoraGateway.SysArch

open Os Lib

variable {ε : Type} [DecidableEq ε] {n : ℕ}

/-- A call, with the ticks since it was made and those since `start` was read. -/
structure Wait (ε : Type) (n : ℕ) where
  kernel : Kernel ε n
  out : WaitOut
  ticks : ℕ
  elapsed : ℕ

inductive WaitAct (ε : Type) (n : ℕ)
  | run
  | tick
  | other (k : Kernel ε n)

/-- `start` has been read. -/
def WaitPt.started : WaitPt → Bool
  | .accept | .start => false
  | _ => true

/-- A tick in the call. -/
def Wait.tick (s : Wait ε n) (w : WaitPt) : Wait ε n :=
  { s with
    kernel := sysTickHandler s.kernel
    ticks := s.ticks + 1
    elapsed := s.elapsed + w.started.toNat }

/-- Nothing is looked at after the return. -/
def Wait.step (t : Fin n) (e : ε) (timeout : BitVec 32) (s : Wait ε n) (a : WaitAct ε n) : Option (Wait ε n) :=
  match s.out with
  | .done _ _ => none
  | .at w =>
    match a with
    | .run => (sysArchSemWait s.kernel t e timeout w).map fun r => { s with kernel := r.2, out := r.1 }
    | .tick => some (s.tick w)
    | .other k => some { s with kernel := k }

/-- A call by task `t`, made at task level. -/
def waitMachine (t : Fin n) (e : ε) (timeout : BitVec 32) : Machine (Wait ε n) (WaitAct ε n) where
  init s := s.kernel.intNesting = 0 ∧ s.kernel.lockNesting = 0 ∧ s.out = .at .accept ∧ s.ticks = 0 ∧ s.elapsed = 0
  step := Wait.step t e timeout

/-- A step of the rest of the system: a post may ready `t`, if `t` is on a wait table. -/
structure Elsewhere (t : Fin n) (k k' : Kernel ε n) : Prop where
  systemTickNum : k'.systemTickNum = k.systemTickNum
  intNesting : k'.intNesting = k.intNesting
  lockNesting : k'.lockNesting = k.lockNesting
  tcb : k'.tcb t = k.tcb t ∨ (∃ e, t ∈ (k.event e).tbl) ∧ k'.tcb t = ⟨0, .ok, false⟩

/-- What the rest of the system does is done elsewhere. -/
def Undisturbed (t : Fin n) (s : Wait ε n) : WaitAct ε n → Prop
  | .other k => Elsewhere t s.kernel k
  | _ => True

theorem elsewhere_post (t : Fin n) (k : Kernel ε n) (e : ε) : Elsewhere t k (osSemPost k e).2 := by
  obtain ⟨hint, hlock⟩ := osSemPost_nesting k e
  refine ⟨?_, hint, hlock, ?_⟩
  · unfold osSemPost
    split_ifs <;> rfl
  · unfold osSemPost
    split_ifs with hne
    · by_cases ht : t = (k.event e).tbl.min' hne
      · refine .inr ⟨⟨e, ht ▸ Finset.min'_mem _ hne⟩, ?_⟩
        subst ht
        exact setTcb_self k _ _
      · exact .inl (setTcb_of_ne k ht _)
    · exact .inl rfl
    · exact .inl rfl

/-! ## The tick budget -/

theorem waitTicks_toNat {timeout : BitVec 32} (h : timeout ≠ 0) :
    (waitTicks timeout).toNat = min 65535 (max 1 (timeout.toNat * 200 % 2 ^ 32 / 1000)) := by
  have hdiv : (timeout * BitVec.ofNat 32 osTicksPerSec / 1000).toNat = timeout.toNat * 200 % 2 ^ 32 / 1000 := by
    rw [BitVec.toNat_udiv, BitVec.toNat_mul]
    rfl
  rw [waitTicks, if_neg h]
  dsimp only
  split_ifs with h1 h2
  · rw [BitVec.lt_def, hdiv, show (1 : BitVec 32).toNat = 1 from rfl] at h1
    rw [show (1 : BitVec 32).toNat = 1 from rfl]
    omega
  · rw [BitVec.lt_def, hdiv, show (65535 : BitVec 32).toNat = 65535 from rfl] at h2
    rw [show (65535 : BitVec 32).toNat = 65535 from rfl]
    omega
  · rw [BitVec.lt_def, hdiv, show (1 : BitVec 32).toNat = 1 from rfl] at h1
    rw [BitVec.lt_def, hdiv, show (65535 : BitVec 32).toNat = 65535 from rfl] at h2
    rw [hdiv]
    omega

/-! ## The clock -/

/-- The clock has moved by 5 ms a tick since it was read, and that is what a wait that has taken a token
returns. -/
def Wait.Timed (s : Wait ε n) : Prop :=
  match s.out with
  | .at .accept | .at .start => s.elapsed = 0
  | .at (.pend start) | .at (.blocked start) | .at (.finish start _) =>
    s.kernel.systemTickNum = start + BitVec.ofNat 32 (5 * s.elapsed)
  | .done took ticks =>
    took = false ∧ ticks = sysArchTimeout ∨ took = true ∧ ticks = BitVec.ofNat 32 (5 * s.elapsed)

variable {t : Fin n} {e : ε} {timeout : BitVec 32} {s s' : Wait ε n} {k k' : Kernel ε n}

omit [DecidableEq ε] in
theorem timed_tick {w : WaitPt} (h : s.Timed) (hout : s.out = .at w) : (s.tick w).Timed := by
  have hclock : ∀ start : BitVec 32, s.kernel.systemTickNum = start + BitVec.ofNat 32 (5 * s.elapsed) →
      s.kernel.systemTickNum + BitVec.ofNat 32 (1000 / osTicksPerSec) =
        start + BitVec.ofNat 32 (5 * (s.elapsed + 1)) := fun start hs => by
    rw [hs, Nat.mul_succ, BitVec.ofNat_add, BitVec.add_assoc]
    rfl
  rw [Wait.Timed, hout] at h
  rw [Wait.Timed, show (s.tick w).out = .at w from hout]
  cases w with
  | accept | start => exact h
  | pend start | blocked start | finish start err => exact hclock start h

theorem timed_run_step {w : WaitPt} {o : WaitOut} (h : s.Timed) (hout : s.out = .at w)
    (hs : sysArchSemWait s.kernel t e timeout w = some (o, k')) :
    ({ s with kernel := k', out := o } : Wait ε n).Timed := by
  have hclock := (sysArchSemWait_frame hs).systemTickNum
  rw [Wait.Timed, hout] at h
  cases w with
  | accept =>
    simp only [sysArchSemWait, Option.some.injEq, Prod.mk.injEq] at hs
    obtain ⟨rfl, -⟩ := hs
    split_ifs
    · exact h
    · refine .inr ⟨rfl, ?_⟩
      rw [show s.elapsed = 0 from h]
      rfl
  | start =>
    simp only [sysArchSemWait, Option.some.injEq, Prod.mk.injEq] at hs
    obtain ⟨rfl, rfl⟩ := hs
    show s.kernel.systemTickNum = s.kernel.systemTickNum + BitVec.ofNat 32 (5 * s.elapsed)
    rw [show s.elapsed = 0 from h]
    exact (BitVec.add_zero _).symm
  | pend start =>
    simp only [sysArchSemWait] at hs
    split at hs <;> simp only [Option.some.injEq, Prod.mk.injEq] at hs <;> obtain ⟨rfl, rfl⟩ := hs <;>
      exact hclock.trans h
  | blocked start =>
    simp only [sysArchSemWait] at hs
    split at hs
    · exact absurd hs (by simp)
    · simp only [Option.some.injEq, Prod.mk.injEq] at hs
      obtain ⟨rfl, rfl⟩ := hs
      exact hclock.trans h
  | finish start err =>
    simp only [sysArchSemWait] at hs
    split_ifs at hs <;> simp only [Option.some.injEq, Prod.mk.injEq] at hs <;> obtain ⟨rfl, -⟩ := hs
    · refine .inr ⟨rfl, ?_⟩
      rw [show s.kernel.systemTickNum = start + BitVec.ofNat 32 (5 * s.elapsed) from h, BitVec.add_comm,
        BitVec.add_sub_cancel]
    · exact .inl ⟨rfl, rfl⟩

/-- A step with its case: the call goes on, time passes, or something happens elsewhere. -/
theorem Wait.step_cases {a : WaitAct ε n} (hok : Undisturbed t s a) (hstep : s.step t e timeout a = some s') :
    ∃ w, s.out = .at w ∧
      ((∃ o k', sysArchSemWait s.kernel t e timeout w = some (o, k') ∧ s' = { s with kernel := k', out := o }) ∨
        s' = s.tick w ∨ ∃ k', Elsewhere t s.kernel k' ∧ s' = { s with kernel := k' }) := by
  unfold Wait.step at hstep
  split at hstep
  · exact absurd hstep (by simp)
  · rename_i w hout
    refine ⟨w, hout, ?_⟩
    cases a with
    | run =>
      obtain ⟨⟨o, k'⟩, hs, rfl⟩ := Option.map_eq_some_iff.mp hstep
      exact .inl ⟨o, k', hs, rfl⟩
    | tick => exact .inr (.inl (Option.some.inj hstep).symm)
    | other k' => exact .inr (.inr ⟨k', hok, (Option.some.inj hstep).symm⟩)

theorem timed_step {a : WaitAct ε n} (h : s.Timed) (hok : Undisturbed t s a)
    (hstep : (waitMachine t e timeout).step s a = some s') : s'.Timed := by
  obtain ⟨w, hout, ⟨o, k', hs, rfl⟩ | rfl | ⟨k', helse, rfl⟩⟩ := Wait.step_cases hok hstep
  · exact timed_run_step h hout hs
  · exact timed_tick h hout
  · rw [Wait.Timed, hout] at h
    show Wait.Timed ({ s with kernel := k' } : Wait ε n)
    rw [Wait.Timed, show ({ s with kernel := k' } : Wait ε n).out = .at w from hout]
    cases w with
    | accept | start => exact h
    | pend start | blocked start | finish start err => exact helse.systemTickNum.trans h

/-- What a call returns, when `elapsed` ticks have come between its reads of the clock. -/
theorem timed_run {l : List (WaitAct ε n)} (hinit : (waitMachine t e timeout).init s)
    (hs : (waitMachine t e timeout).Steps (Undisturbed t) s l s') : s'.Timed := by
  refine hs.invariant (fun _ _ _ => timed_step) ?_
  rw [Wait.Timed, hinit.2.2.1]
  exact hinit.2.2.2.2

/-! ## The sleep -/

/-- The task is at task level, and a wait that fails has lasted for the tick budget. -/
structure Wait.Slept (t : Fin n) (timeout : BitVec 32) (s : Wait ε n) : Prop where
  intNesting : s.kernel.intNesting = 0
  lockNesting : s.kernel.lockNesting = 0
  elapsed_le : s.elapsed ≤ s.ticks
  out : match s.out with
    | .at (.blocked _) => ((s.kernel.tcb t).pend = false → (s.kernel.tcb t).dly = 0) ∧
      ((waitTicks timeout).toNat ≤ (s.kernel.tcb t).dly + s.elapsed ∨
        (s.kernel.tcb t).pend = false ∧ (s.kernel.tcb t).statPend = .ok)
    | .at (.finish _ err) => err = .none ∨ (waitTicks timeout).toNat ≤ s.elapsed
    | .done took _ => took = true ∨ (waitTicks timeout).toNat ≤ s.elapsed
    | _ => True

theorem tick_dly (c : OsTcb) (hpend : c.pend = false → c.dly = 0) :
    (c.tick.pend = false → c.tick.dly = 0) ∧ c.dly ≤ c.tick.dly + 1 ∧
      (c.pend = false → c.tick = c) := by
  unfold OsTcb.tick
  split_ifs with h0 h1 hp
  · exact ⟨hpend, by omega, fun _ => rfl⟩
  · exact ⟨fun _ => rfl, by show c.dly ≤ 0 + 1; omega, fun hno => by rw [hp] at hno; exact Bool.noConfusion hno⟩
  · exact absurd (hpend (Bool.eq_false_iff.mpr hp)) h0
  · exact ⟨fun hno => absurd (hpend hno) h0, by show c.dly ≤ c.dly - 1 + 1; omega, fun hno => absurd (hpend hno) h0⟩

omit [DecidableEq ε] in
theorem slept_tick {w : WaitPt} (h : s.Slept t timeout) (hout : s.out = .at w) : (s.tick w).Slept t timeout := by
  have hle := h.elapsed_le
  refine ⟨h.intNesting, h.lockNesting, ?_, ?_⟩
  · show s.elapsed + w.started.toNat ≤ s.ticks + 1
    have := Bool.toNat_le w.started
    omega
  · have hs := h.out
    rw [hout] at hs
    rw [show (s.tick w).out = .at w from hout]
    cases w with
    | accept | start | pend start => trivial
    | blocked start =>
      obtain ⟨hpend, hdly⟩ := hs
      obtain ⟨hpend', hle', hsame⟩ := tick_dly (s.kernel.tcb t) hpend
      refine ⟨hpend', ?_⟩
      show _ ≤ (s.kernel.tcb t).tick.dly + (s.elapsed + 1) ∨ _
      rcases hdly with hdly | ⟨hp, hok⟩
      · exact .inl (by omega)
      · refine .inr ?_
        show (s.kernel.tcb t).tick.pend = false ∧ (s.kernel.tcb t).tick.statPend = .ok
        rw [hsame hp]
        exact ⟨hp, hok⟩
    | finish start err =>
      refine hs.imp_right fun hk => ?_
      show _ ≤ s.elapsed + 1
      omega

theorem slept_run_step {w : WaitPt} {o : WaitOut} (h : s.Slept t timeout) (hout : s.out = .at w)
    (hs : sysArchSemWait s.kernel t e timeout w = some (o, k')) :
    ({ s with kernel := k', out := o } : Wait ε n).Slept t timeout := by
  have hframe := sysArchSemWait_frame hs
  refine ⟨hframe.intNesting.trans h.intNesting, hframe.lockNesting.trans h.lockNesting, h.elapsed_le, ?_⟩
  have hslept := h.out
  rw [hout] at hslept
  cases w with
  | accept =>
    simp only [sysArchSemWait, Option.some.injEq, Prod.mk.injEq] at hs
    obtain ⟨rfl, -⟩ := hs
    split_ifs
    · trivial
    · exact .inl rfl
  | start =>
    simp only [sysArchSemWait, Option.some.injEq, Prod.mk.injEq] at hs
    obtain ⟨rfl, -⟩ := hs
    trivial
  | pend start =>
    simp only [sysArchSemWait, osSemPend, h.intNesting, h.lockNesting, Nat.lt_irrefl, if_false] at hs
    split_ifs at hs
    · simp only [Option.some.injEq, Prod.mk.injEq] at hs
      obtain ⟨rfl, -⟩ := hs
      exact .inl rfl
    · simp only [Option.some.injEq, Prod.mk.injEq] at hs
      obtain ⟨rfl, rfl⟩ := hs
      have htcb : (({ (s.kernel.setTcb t ⟨(waitTicks timeout).toNat, .ok, true⟩).setEvent e
          { s.kernel.event e with tbl := insert t (s.kernel.event e).tbl } with } : Kernel ε n)).tcb t =
          ⟨(waitTicks timeout).toNat, .ok, true⟩ := setTcb_self s.kernel t _
      refine ⟨fun hno => ?_, .inl ?_⟩
      · rw [htcb] at hno
        exact Bool.noConfusion hno
      · rw [htcb]
        exact Nat.le_add_right _ _
  | blocked start =>
    obtain ⟨hpend, hdly⟩ := hslept
    simp only [sysArchSemWait, pendReturn] at hs
    split at hs
    · exact absurd hs (by simp)
    · rename_i hr
      simp only [Option.some.injEq, Prod.mk.injEq] at hs
      obtain ⟨rfl, -⟩ := hs
      split_ifs at hr with hready
      have hzero := hpend (Bool.eq_false_iff.mpr hready)
      have hlong : (s.kernel.tcb t).statPend ≠ .ok → (waitTicks timeout).toNat ≤ s.elapsed := fun hne => by
        have := hdly.resolve_right fun hno => hne hno.2
        omega
      split at hr <;> rename_i hstat <;> simp only [Option.some.injEq, Prod.mk.injEq] at hr <;> obtain ⟨rfl, -⟩ := hr
      · exact .inl rfl
      · exact .inr (hlong (by rw [hstat]; decide))
      · exact .inr (hlong (by rw [hstat]; decide))
  | finish start err =>
    simp only [sysArchSemWait] at hs
    split_ifs at hs with herr <;> simp only [Option.some.injEq, Prod.mk.injEq] at hs <;> obtain ⟨rfl, -⟩ := hs
    · exact .inl rfl
    · exact .inr (hslept.resolve_left herr)

theorem slept_step {a : WaitAct ε n} (h : s.Slept t timeout) (hok : Undisturbed t s a)
    (hstep : (waitMachine t e timeout).step s a = some s') : s'.Slept t timeout := by
  obtain ⟨w, hout, ⟨o, k', hs, rfl⟩ | rfl | ⟨k', helse, rfl⟩⟩ := Wait.step_cases hok hstep
  · exact slept_run_step h hout hs
  · exact slept_tick h hout
  · refine ⟨helse.intNesting.trans h.intNesting, helse.lockNesting.trans h.lockNesting, h.elapsed_le, ?_⟩
    have hslept := h.out
    rw [hout] at hslept
    show match s.out with
      | .at (.blocked _) => _
      | .at (.finish _ err) => _
      | .done took _ => _
      | _ => True
    rw [hout]
    cases w with
    | blocked start =>
      rcases helse.tcb with hsame | ⟨-, hposted⟩
      · show ((k'.tcb t).pend = false → _) ∧ _
        rw [hsame]
        exact hslept
      · show ((k'.tcb t).pend = false → _) ∧ _
        rw [hposted]
        exact ⟨fun _ => rfl, .inr ⟨rfl, rfl⟩⟩
    | accept | start | pend start => trivial
    | finish start err => exact hslept

theorem slept_run {l : List (WaitAct ε n)} (hinit : (waitMachine t e timeout).init s)
    (hs : (waitMachine t e timeout).Steps (Undisturbed t) s l s') : s'.Slept t timeout := by
  obtain ⟨hint, hlock, hout, hticks, helapsed⟩ := hinit
  refine hs.invariant (fun _ _ _ => slept_step) ⟨hint, hlock, by rw [helapsed]; exact Nat.zero_le _, ?_⟩
  rw [hout]
  trivial

/-! ## Calls that sleep -/

/-- A kernel with nothing pending and no token. -/
def emptyKernel (clock : BitVec 32) : Kernel ε n := ⟨fun _ => ⟨0, ∅⟩, fun _ => ⟨0, .ok, false⟩, 0, 0, 0, clock⟩

/-- A call on it. -/
def Wait.start (clock : BitVec 32) : Wait ε n := ⟨emptyKernel clock, .at .accept, 0, 0⟩

/-- The same call once `t` is asleep. -/
def Wait.asleep (t : Fin n) (e : ε) (timeout clock : BitVec 32) : Wait ε n :=
  ⟨((emptyKernel clock).setTcb t ⟨(waitTicks timeout).toNat, .ok, true⟩).setEvent e ⟨0, {t}⟩,
    .at (.blocked clock), 0, 0⟩

/-- `m` ticks later. -/
def Wait.later (s : Wait ε n) (m : ℕ) : Wait ε n :=
  ⟨sysTickHandler^[m] s.kernel, s.out, s.ticks + m, s.elapsed + m⟩

theorem run_asleep (clock : BitVec 32) :
    (waitMachine t e timeout).Steps (Undisturbed t) (Wait.start clock) [.run, .run, .run]
      (Wait.asleep t e timeout clock) :=
  .of_run (by simp [Undisturbed]) (by
    simp [Machine.run, waitMachine, Wait.step, Wait.start, Wait.asleep, emptyKernel, sysArchSemWait, osSemAccept,
      osSemPend])

omit [DecidableEq ε] in
theorem iterate_sysTickHandler (k : Kernel ε n) (m : ℕ) :
    (sysTickHandler^[m] k).tcb t = OsTcb.tick^[m] (k.tcb t) ∧
      (sysTickHandler^[m] k).systemTickNum = k.systemTickNum + BitVec.ofNat 32 (5 * m) := by
  induction m generalizing k with
  | zero => exact ⟨rfl, (BitVec.add_zero _).symm⟩
  | succ m ih =>
    obtain ⟨htcb, hclock⟩ := ih (sysTickHandler k)
    refine ⟨htcb, hclock.trans ?_⟩
    rw [Nat.mul_succ, Nat.add_comm (5 * m), BitVec.ofNat_add, ← BitVec.add_assoc]
    rfl

theorem run_tick {w : WaitPt} (hout : s.out = .at w) (hw : w.started = true) (m : ℕ) :
    (waitMachine t e timeout).Steps (Undisturbed t) s (List.replicate m .tick) (s.later m) := by
  induction m generalizing s with
  | zero => exact .nil s
  | succ m ih =>
    have hstep : (waitMachine t e timeout).step s .tick = some (s.tick w) := by
      show Wait.step t e timeout s .tick = _
      rw [Wait.step, hout]
    have hrest := ih (s := s.tick w) hout
    have hlater : (s.tick w).later m = s.later (m + 1) := by
      rw [Wait.later, Wait.later, Wait.tick, hw, Function.iterate_succ_apply, Nat.add_right_comm s.ticks,
        Nat.add_right_comm s.elapsed]
      rfl
    rw [hlater] at hrest
    exact .cons trivial hstep hrest

theorem iterate_tick (m : ℕ) : OsTcb.tick^[m + 1] ⟨m + 1, .ok, true⟩ = ⟨0, .timeout, false⟩ := by
  induction m with
  | zero => rfl
  | succ m ih => exact ih

theorem run_finish (e : ε) (timeout : BitVec 32) {start : BitVec 32} {stat : StatPend} (hout : s.out = .at (.blocked start))
    (htcb : s.kernel.tcb t = ⟨0, stat, false⟩) :
    ∃ s', (waitMachine t e timeout).Steps (Undisturbed t) s [.run, .run] s' ∧
      s'.ticks = s.ticks ∧ s'.elapsed = s.elapsed ∧
      s'.out = if stat = .ok then .done true (s.kernel.systemTickNum - start) else .done false sysArchTimeout := by
  obtain ⟨err, k₁, hreturn, herr, hclock⟩ : ∃ err k₁, pendReturn s.kernel t e = some (err, k₁) ∧
      (err = .none ↔ stat = .ok) ∧ k₁.systemTickNum = s.kernel.systemTickNum := by
    rw [pendReturn, htcb]
    cases stat <;> exact ⟨_, _, rfl, by decide, rfl⟩
  have hfirst : (waitMachine t e timeout).step s .run =
      some ⟨k₁, .at (.finish start err), s.ticks, s.elapsed⟩ := by
    show Wait.step t e timeout s .run = _
    rw [Wait.step, hout]
    simp only [sysArchSemWait, hreturn, Option.map_some]
  let out : WaitOut := if stat = .ok then .done true (s.kernel.systemTickNum - start) else .done false sysArchTimeout
  have hsecond : (waitMachine t e timeout).step ⟨k₁, .at (.finish start err), s.ticks, s.elapsed⟩ .run =
      some ⟨k₁, out, s.ticks, s.elapsed⟩ := by
    show (sysArchSemWait k₁ t e timeout (.finish start err)).map _ = _
    by_cases hok : stat = .ok
    · rw [sysArchSemWait, if_pos (herr.mpr hok), hclock, show out = _ from if_pos hok]
      rfl
    · rw [sysArchSemWait, if_neg (mt herr.mp hok), show out = _ from if_neg hok]
      rfl
  exact ⟨_, .cons trivial hfirst (.cons trivial hsecond (.nil _)), rfl, rfl, rfl⟩

/-- A call that nobody posts to times out when its tick budget has passed. -/
theorem times_out (t : Fin n) (e : ε) {timeout : BitVec 32} (htimeout : timeout ≠ 0) (clock : BitVec 32) :
    ∃ l s', (waitMachine t e timeout).Steps (Undisturbed t) (Wait.start clock) l s' ∧
      s'.out = .done false sysArchTimeout ∧ s'.ticks = (waitTicks timeout).toNat := by
  obtain ⟨m, hm⟩ : ∃ m, (waitTicks timeout).toNat = m + 1 :=
    Nat.exists_eq_add_one.mpr (by rw [waitTicks_toNat htimeout]; omega)
  have hslept : (waitMachine t e timeout).Steps (Undisturbed t) (Wait.asleep t e timeout clock)
      (List.replicate (m + 1) .tick) ((Wait.asleep t e timeout clock).later (m + 1)) := run_tick rfl rfl (m + 1)
  have htcb : ((Wait.asleep t e timeout clock).later (m + 1)).kernel.tcb t = ⟨0, .timeout, false⟩ := by
    have hasleep : (Wait.asleep t e timeout clock).kernel.tcb t = ⟨m + 1, .ok, true⟩ := by
      rw [← hm]
      exact setTcb_self _ t _
    rw [Wait.later, (iterate_sysTickHandler ..).1, hasleep, iterate_tick]
  obtain ⟨s', hfinish, hticks, -, hout⟩ := run_finish e timeout
    (show ((Wait.asleep t e timeout clock).later (m + 1)).out = .at (.blocked clock) from rfl) htcb
  refine ⟨_, s', ((run_asleep clock).append hslept).append hfinish, hout, ?_⟩
  rw [hticks, hm]
  exact Nat.zero_add _

/-- A call that is posted to takes the token, however many ticks later it returns. -/
theorem takes_token (t : Fin n) (e : ε) (timeout clock : BitVec 32) (m : ℕ) :
    ∃ l s', (waitMachine t e timeout).Steps (Undisturbed t) (Wait.start clock) l s' ∧
      s'.out = .done true (BitVec.ofNat 32 (5 * m)) ∧ s'.elapsed = m := by
  let posted := (osSemPost (Wait.asleep t e timeout clock).kernel e).2
  have hposted : posted.tcb t = ⟨0, .ok, false⟩ ∧ posted.systemTickNum = clock := by
    have htbl : ((Wait.asleep t e timeout clock).kernel.event e).tbl = {t} := by
      rw [show (Wait.asleep t e timeout clock).kernel.event e = ⟨0, {t}⟩ from setEvent_self ..]
    have hne : ((Wait.asleep t e timeout clock).kernel.event e).tbl.Nonempty := htbl ▸ Finset.singleton_nonempty t
    have hmin : ((Wait.asleep t e timeout clock).kernel.event e).tbl.min' hne = t :=
      Finset.mem_singleton.mp (htbl ▸ Finset.min'_mem _ hne)
    refine ⟨?_, (elsewhere_post t _ e).systemTickNum⟩
    show (osSemPost (Wait.asleep t e timeout clock).kernel e).2.tcb t = _
    rw [osSemPost, dif_pos hne, hmin]
    exact setTcb_self _ t _
  have hpost : (waitMachine t e timeout).Steps (Undisturbed t) (Wait.asleep t e timeout clock) [.other posted]
      ⟨posted, .at (.blocked clock), 0, 0⟩ := .cons (elsewhere_post t _ e) rfl (.nil _)
  have hslept : (waitMachine t e timeout).Steps (Undisturbed t) ⟨posted, .at (.blocked clock), 0, 0⟩
      (List.replicate m .tick) (Wait.later ⟨posted, .at (.blocked clock), 0, 0⟩ m) := run_tick rfl rfl m
  have htcb : (sysTickHandler^[m] posted).tcb t = ⟨0, .ok, false⟩ := by
    rw [(iterate_sysTickHandler ..).1, hposted.1, Function.iterate_fixed rfl]
  obtain ⟨s', hfinish, -, helapsed, hout⟩ := run_finish e timeout
    (show (Wait.later ⟨posted, .at (.blocked clock), 0, 0⟩ m).out = .at (.blocked clock) from rfl) htcb
  refine ⟨_, s', (((run_asleep clock).append hpost).append hslept).append hfinish, ?_, ?_⟩
  · rw [hout, if_pos rfl, Wait.later, (iterate_sysTickHandler (t := t) ..).2, hposted.2, BitVec.add_comm,
      BitVec.add_sub_cancel]
  · rw [helapsed]
    exact Nat.zero_add _

end LoraGateway.SysArch
