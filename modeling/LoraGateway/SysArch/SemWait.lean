import LoraGateway.Os.Sem

/-!
# Waiting for a semaphore

`sys_arch_sem_wait` of `sys_arch.c`, cut where another task can run: before and after each kernel
call and between the two reads of the clock. The caller learns only the return value; `WaitOut.done`
also records whether a token was taken, which the two can disagree about
(`sysArchTimeout` is a possible difference of two clock values).
-/

namespace LoraGateway.SysArch

open Os

/-- `SYS_ARCH_TIMEOUT`. -/
def sysArchTimeout : BitVec 32 := 0xffffffff#32

/-- The tick budget `sys_arch_sem_wait` computes from its timeout, in 32-bit arithmetic. -/
def waitTicks (timeout : BitVec 32) : BitVec 32 :=
  if timeout = 0 then 0
  else
    let ticks := timeout * BitVec.ofNat 32 osTicksPerSec / 1000
    if ticks < 1 then 1 else if 65535 < ticks then 65535 else ticks

/-- Where a task is in `sys_arch_sem_wait`. -/
inductive WaitPt
  /-- at `OSSemAccept(*sem)` -/
  | accept
  /-- at `start = sys_now()` -/
  | start
  /-- at the call of `OSSemPend` -/
  | pend (start : BitVec 32)
  /-- suspended in `OSSemPend` -/
  | blocked (start : BitVec 32)
  /-- at `end = sys_now()` and the return -/
  | finish (start : BitVec 32) (err : OsErr)
  deriving DecidableEq, Repr

/-- What a step of `sys_arch_sem_wait` leads to: a point further on, or the return of `ticks`. -/
inductive WaitOut
  | at (w : WaitPt)
  | done (took : Bool) (ticks : BitVec 32)

variable {ε : Type} [DecidableEq ε] {n : ℕ}

/-- One step of `sys_arch_sem_wait(&e, timeout)` by task `t`; `none` while it is suspended. -/
def sysArchSemWait (k : Kernel ε n) (t : Fin n) (e : ε) (timeout : BitVec 32) :
    WaitPt → Option (WaitOut × Kernel ε n)
  | .accept =>
    let (cnt, k') := osSemAccept k e
    some (if cnt = 0 then .at .start else .done true 0, k')
  | .start => some (.at (.pend k.systemTickNum), k)
  | .pend start =>
    match osSemPend k t e (waitTicks timeout).toNat with
    | (none, k') => some (.at (.blocked start), k')
    | (some err, k') => some (.at (.finish start err), k')
  | .blocked start =>
    match pendReturn k t e with
    | none => none
    | some (err, k') => some (.at (.finish start err), k')
  | .finish start err =>
    if err = .none then some (.done true (k.systemTickNum - start), k)
    else some (.done false sysArchTimeout, k)

/-- The event a task at this point is suspended on. -/
@[simp] def WaitPt.waitsOn (e : ε) : WaitPt → Option ε
  | .blocked _ => some e
  | _ => none

@[simp] def WaitOut.waitsOn (e : ε) : WaitOut → Option ε
  | .at w => w.waitsOn e
  | .done _ _ => none

/-- A task at this point has taken a token (one handed over in its sleep not counted). -/
@[simp] def WaitPt.held : WaitPt → ℕ
  | .finish _ .none => 1
  | _ => 0

@[simp] def WaitOut.held : WaitOut → ℕ
  | .at w => w.held
  | .done took _ => if took then 1 else 0

/-- What a task in `sys_arch_sem_wait` relies on: only a wait with a timeout can end by one. -/
def WaitPt.Ok (c : OsTcb) (timeout : BitVec 32) : WaitPt → Prop
  | .blocked _ => timeout = 0 → c.dly = 0 ∧ c.statPend = .ok
  | .finish _ err => err = .none ∨ (err = .timeout ∧ timeout ≠ 0)
  | _ => True

def WaitOut.Ok (c : OsTcb) (timeout : BitVec 32) : WaitOut → Prop
  | .at w => w.Ok c timeout
  | .done took ticks => took = true ∨ (timeout ≠ 0 ∧ ticks = sysArchTimeout)

theorem WaitPt.Ok.tick {c : OsTcb} {timeout : BitVec 32} {w : WaitPt} (h : w.Ok c timeout) :
    w.Ok c.tick timeout := by
  cases w with
  | blocked start =>
    intro h0
    obtain ⟨hd, hs⟩ := h h0
    simp [OsTcb.tick, hd, hs]
  | _ => exact h

theorem WaitPt.Ok.posted {c : OsTcb} {timeout : BitVec 32} {w : WaitPt} (h : w.Ok c timeout) :
    w.Ok ⟨0, .ok, false⟩ timeout := by
  cases w with
  | blocked start => exact fun _ => ⟨rfl, rfl⟩
  | _ => exact h

/-- What the tasks and the rest of the kernel keep in a step of `t` that is not about them. -/
structure Frame (k k' : Kernel ε n) (t : Fin n) : Prop where
  intNesting : k'.intNesting = k.intNesting
  lockNesting : k'.lockNesting = k.lockNesting
  eventFree : k'.eventFree = k.eventFree
  systemTickNum : k'.systemTickNum = k.systemTickNum
  tcb : ∀ u, u ≠ t → k'.tcb u = k.tcb u

omit [DecidableEq ε] in
theorem Frame.refl (k : Kernel ε n) (t : Fin n) : Frame k k t := ⟨rfl, rfl, rfl, rfl, fun _ _ => rfl⟩

variable {k k' : Kernel ε n} {b : Fin n → Option ε} {e : ε} {t : Fin n}

theorem osSemAccept_spec (h : Coherent k b) (e : ε) (t : Fin n) :
    Coherent (osSemAccept k e).2 b ∧ Frame k (osSemAccept k e).2 t ∧
      (tokens (osSemAccept k e).2 b e + (if (osSemAccept k e).1 = 0 then 0 else 1) = tokens k b e) ∧
      ∀ e', e' ≠ e → tokens (osSemAccept k e).2 b e' = tokens k b e' := by
  unfold osSemAccept
  dsimp only
  split_ifs with hpos h0 h0
  · omega
  · refine ⟨coherent_setCnt h e _, ⟨rfl, rfl, rfl, rfl, fun _ _ => rfl⟩, ?_,
      fun e' he' => tokens_setEvent_of_ne he' _⟩
    have := tokens_setCnt (k := k) (b := b) (e := e) ((k.event e).cnt - 1)
    dsimp only at this
    omega
  · exact ⟨h, Frame.refl k t, rfl, fun _ _ => rfl⟩
  · omega

theorem sysArchSemWait_event_of_ne {w : WaitPt} {timeout : BitVec 32} {o : WaitOut}
    (hs : sysArchSemWait k t e timeout w = some (o, k')) {e' : ε} (he : e' ≠ e) :
    k'.event e' = k.event e' := by
  cases w with
  | accept =>
    simp only [sysArchSemWait, osSemAccept, Option.some.injEq, Prod.mk.injEq] at hs
    obtain ⟨-, rfl⟩ := hs
    split_ifs
    · exact setEvent_of_ne _ he _
    · rfl
  | start =>
    simp only [sysArchSemWait, Option.some.injEq, Prod.mk.injEq] at hs
    rw [← hs.2]
  | pend start =>
    simp only [sysArchSemWait, osSemPend] at hs
    split_ifs at hs <;> simp only [Option.some.injEq, Prod.mk.injEq] at hs <;>
      obtain ⟨-, rfl⟩ := hs
    · rfl
    · rfl
    · exact setEvent_of_ne _ he _
    · rw [setEvent_of_ne _ he, setTcb_event]
  | blocked start =>
    simp only [sysArchSemWait, pendReturn] at hs
    split at hs
    · exact absurd hs (by simp)
    · rename_i hr
      simp only [Option.some.injEq, Prod.mk.injEq] at hs
      obtain ⟨-, rfl⟩ := hs
      split_ifs at hr
      split at hr <;> simp only [Option.some.injEq, Prod.mk.injEq] at hr <;> obtain ⟨-, rfl⟩ := hr
      · rfl
      · rfl
      · rw [setEvent_of_ne _ he, setTcb_event]
  | finish start err =>
    simp only [sysArchSemWait] at hs
    split_ifs at hs <;> simp only [Option.some.injEq, Prod.mk.injEq] at hs <;> rw [← hs.2]

theorem sysArchSemWait_frame {w : WaitPt} {timeout : BitVec 32} {o : WaitOut}
    (hs : sysArchSemWait k t e timeout w = some (o, k')) : Frame k k' t := by
  have hcb : ∀ c, ∀ u, u ≠ t → (k.setTcb t c).tcb u = k.tcb u := fun c u hu => setTcb_of_ne k hu c
  cases w with
  | accept =>
    simp only [sysArchSemWait, osSemAccept, Option.some.injEq, Prod.mk.injEq] at hs
    obtain ⟨-, rfl⟩ := hs
    split_ifs <;> exact ⟨rfl, rfl, rfl, rfl, fun _ _ => rfl⟩
  | start =>
    simp only [sysArchSemWait, Option.some.injEq, Prod.mk.injEq] at hs
    obtain ⟨-, rfl⟩ := hs
    exact Frame.refl k t
  | pend start =>
    simp only [sysArchSemWait, osSemPend] at hs
    split_ifs at hs <;> simp only [Option.some.injEq, Prod.mk.injEq] at hs <;> obtain ⟨-, rfl⟩ := hs
    · exact Frame.refl k t
    · exact Frame.refl k t
    · exact ⟨rfl, rfl, rfl, rfl, fun _ _ => rfl⟩
    · exact ⟨rfl, rfl, rfl, rfl, hcb _⟩
  | blocked start =>
    simp only [sysArchSemWait, pendReturn] at hs
    split at hs
    · exact absurd hs (by simp)
    · rename_i hr
      simp only [Option.some.injEq, Prod.mk.injEq] at hs
      obtain ⟨-, rfl⟩ := hs
      split_ifs at hr
      split at hr <;> simp only [Option.some.injEq, Prod.mk.injEq] at hr <;> obtain ⟨-, rfl⟩ := hr <;>
        exact ⟨rfl, rfl, rfl, rfl, hcb _⟩
  | finish start err =>
    simp only [sysArchSemWait] at hs
    split_ifs at hs <;> simp only [Option.some.injEq, Prod.mk.injEq] at hs <;> obtain ⟨-, rfl⟩ := hs <;>
      exact Frame.refl k t

/-- One step of a wait: coherence is kept, and the tokens of `e` and those the task has taken
balance. -/
theorem sysArchSemWait_spec (hint : k.intNesting = 0) (hlock : k.lockNesting = 0)
    (h : Coherent k b) {w : WaitPt} (hb : b t = w.waitsOn e) {timeout : BitVec 32}
    (hok : w.Ok (k.tcb t) timeout) {o : WaitOut}
    (hs : sysArchSemWait k t e timeout w = some (o, k')) :
    Coherent k' (Function.update b t (o.waitsOn e)) ∧ o.Ok (k'.tcb t) timeout ∧ Frame k k' t ∧
      tokens k' (Function.update b t (o.waitsOn e)) e + o.held = tokens k b e + w.held ∧
      ∀ e', e' ≠ e → tokens k' (Function.update b t (o.waitsOn e)) e' = tokens k b e' := by
  have hsame : ∀ o : WaitOut, o.waitsOn e = none → b t = none →
      Function.update b t (o.waitsOn e) = b := fun o ho hb => by
    rw [ho, ← hb, Function.update_eq_self]
  cases w with
  | accept =>
    obtain ⟨hc, hf, htok, hother⟩ := osSemAccept_spec h e t
    simp only [sysArchSemWait, Option.some.injEq, Prod.mk.injEq] at hs
    obtain ⟨rfl, rfl⟩ := hs
    split_ifs at htok ⊢ with h0
    · rw [hsame _ rfl hb]
      exact ⟨hc, trivial, hf, by simpa [WaitOut.held, WaitPt.held] using htok, hother⟩
    · rw [hsame _ rfl hb]
      exact ⟨hc, Or.inl rfl, hf, by simpa [WaitOut.held, WaitPt.held] using htok, hother⟩
  | start =>
    simp only [sysArchSemWait, Option.some.injEq, Prod.mk.injEq] at hs
    obtain ⟨rfl, rfl⟩ := hs
    rw [hsame _ rfl hb]
    exact ⟨h, trivial, Frame.refl _ _, rfl, fun _ _ => rfl⟩
  | pend start =>
    simp only [sysArchSemWait, osSemPend, hint, hlock, Nat.lt_irrefl, if_false] at hs
    split_ifs at hs with hpos
    · simp only [Option.some.injEq, Prod.mk.injEq] at hs
      obtain ⟨rfl, rfl⟩ := hs
      rw [hsame _ rfl hb]
      refine ⟨coherent_setCnt h e _, Or.inl rfl, ⟨rfl, rfl, rfl, rfl, fun _ _ => rfl⟩, ?_,
        fun e' he' => tokens_setEvent_of_ne he' _⟩
      have := tokens_setCnt (k := k) (b := b) (e := e) ((k.event e).cnt - 1)
      simp only [WaitOut.held, WaitPt.held] at this ⊢
      omega
    · simp only [Option.some.injEq, Prod.mk.injEq] at hs
      obtain ⟨rfl, rfl⟩ := hs
      refine ⟨coherent_suspend h hb _, ?_,
        ⟨rfl, rfl, rfl, rfl, fun u hu => setTcb_of_ne k hu _⟩, tokens_suspend h hb _ e,
        fun e' _ => tokens_suspend h hb _ e'⟩
      rintro rfl
      simp [waitTicks]
  | blocked start =>
    simp only [sysArchSemWait] at hs
    split at hs
    · exact absurd hs (by simp)
    · rename_i err k₁ hr
      simp only [Option.some.injEq, Prod.mk.injEq] at hs
      obtain ⟨rfl, rfl⟩ := hs
      obtain ⟨rfl, hdly, hcase⟩ := pendReturn_cases h hb hr
      have htok := tokens_leave h hb
      refine ⟨coherent_leave h hb hdly, ?_, ⟨rfl, rfl, rfl, rfl, fun u hu => setTcb_of_ne k hu _⟩, ?_,
        fun e' he' => tokens_leave_of_ne h hb he'⟩
      · rcases hcase with ⟨rfl, -⟩ | ⟨rfl, hg⟩
        · exact Or.inl rfl
        · refine Or.inr ⟨rfl, fun h0 => hg ⟨hb, fun hmem => ?_⟩⟩
          -- a wait without a timeout is still pending while it is on the table
          rcases h.ready t e hmem with hp | hst
          · simp [pendReturn, hp] at hr
          · rw [(hok h0).2] at hst
            exact absurd hst (by decide)
      · rcases hcase with ⟨rfl, hg⟩ | ⟨rfl, hg⟩
        · simp only [hg, if_true] at htok
          simpa [WaitOut.held, WaitOut.waitsOn, WaitPt.waitsOn, WaitPt.held] using htok
        · simp only [hg, if_false] at htok
          simpa [WaitOut.held, WaitOut.waitsOn, WaitPt.waitsOn, WaitPt.held] using htok
  | finish start err =>
    simp only [sysArchSemWait] at hs
    split_ifs at hs with herr
    · simp only [Option.some.injEq, Prod.mk.injEq] at hs
      obtain ⟨rfl, rfl⟩ := hs
      subst herr
      rw [hsame _ rfl hb]
      exact ⟨h, Or.inl rfl, Frame.refl _ _, rfl, fun _ _ => rfl⟩
    · simp only [Option.some.injEq, Prod.mk.injEq] at hs
      obtain ⟨rfl, rfl⟩ := hs
      rw [hsame _ rfl hb]
      have htime : err = .timeout ∧ timeout ≠ 0 := hok.resolve_left herr
      refine ⟨h, Or.inr ⟨htime.2, rfl⟩, Frame.refl _ _, ?_, fun _ _ => rfl⟩
      cases err <;> simp_all [WaitOut.held, WaitPt.held]

theorem sysArchSemWait_tidy (hint : k.intNesting = 0) (hlock : k.lockNesting = 0) (hc : Coherent k b)
    (h : Tidy k b) {w : WaitPt} (hb : b t = w.waitsOn e) {timeout : BitVec 32} {o : WaitOut}
    (hs : sysArchSemWait k t e timeout w = some (o, k')) :
    Tidy k' (Function.update b t (o.waitsOn e)) := by
  have hsame : ∀ o : WaitOut, o.waitsOn e = none → b t = none →
      Function.update b t (o.waitsOn e) = b := fun o ho hb => by
    rw [ho, ← hb, Function.update_eq_self]
  cases w with
  | accept =>
    simp only [sysArchSemWait, osSemAccept, Option.some.injEq, Prod.mk.injEq] at hs
    obtain ⟨rfl, rfl⟩ := hs
    rw [hsame _ (by split_ifs <;> rfl) hb]
    split_ifs
    · exact tidy_take h e
    · exact h
  | start =>
    simp only [sysArchSemWait, Option.some.injEq, Prod.mk.injEq] at hs
    obtain ⟨rfl, rfl⟩ := hs
    rwa [hsame _ rfl hb]
  | pend start =>
    simp only [sysArchSemWait, osSemPend, hint, hlock, Nat.lt_irrefl, if_false] at hs
    split_ifs at hs with hpos
    · simp only [Option.some.injEq, Prod.mk.injEq] at hs
      obtain ⟨rfl, rfl⟩ := hs
      rw [hsame _ rfl hb]
      exact tidy_take h e
    · simp only [Option.some.injEq, Prod.mk.injEq] at hs
      obtain ⟨rfl, rfl⟩ := hs
      exact tidy_suspend h (Nat.eq_zero_of_not_pos hpos) _
  | blocked start =>
    simp only [sysArchSemWait] at hs
    split at hs
    · exact absurd hs (by simp)
    · rename_i err k₁ hr
      simp only [Option.some.injEq, Prod.mk.injEq] at hs
      obtain ⟨rfl, rfl⟩ := hs
      obtain ⟨rfl, -, -⟩ := pendReturn_cases hc hb hr
      exact tidy_leave hc h hb
  | finish start err =>
    simp only [sysArchSemWait] at hs
    split_ifs at hs <;> simp only [Option.some.injEq, Prod.mk.injEq] at hs <;> obtain ⟨rfl, rfl⟩ := hs <;>
      rwa [hsame _ rfl hb]

/-- Where a wait goes that finds a token. -/
def WaitPt.found (now : BitVec 32) : WaitPt → WaitOut
  | .accept => .done true 0
  | .start => .at (.pend now)
  | .pend begun | .blocked begun => .at (.finish begun .none)
  | .finish begun err => .at (.finish begun err)

/-- With a token there, or handed over, a wait that has not ended yet goes on and takes it. -/
theorem sysArchSemWait_found (hint : k.intNesting = 0) (hlock : k.lockNesting = 0) (hc : Coherent k b)
    (h : Tidy k b) {w : WaitPt} (hb : b t = w.waitsOn e) (hthere : 0 < (k.event e).cnt ∨ Granted k b e t)
    (hw : ∀ start err, w ≠ .finish start err) (timeout : BitVec 32) :
    ∃ k', sysArchSemWait k t e timeout w = some (w.found k.systemTickNum, k') := by
  have hcnt : b t = none → 0 < (k.event e).cnt := fun hnone =>
    hthere.resolve_right fun hg => by simp [hg.1] at hnone
  cases w with
  | accept =>
    have hpos := hcnt hb
    refine ⟨(osSemAccept k e).2, ?_⟩
    simp only [sysArchSemWait, osSemAccept, if_neg hpos.ne']
    rfl
  | start => exact ⟨k, rfl⟩
  | pend start =>
    have hpos := hcnt hb
    refine ⟨k.setEvent e { k.event e with cnt := (k.event e).cnt - 1 }, ?_⟩
    simp only [sysArchSemWait, osSemPend, hint, hlock, Nat.lt_irrefl, if_false, if_pos hpos]
    rfl
  | blocked start =>
    -- a task on the wait table has nothing to take
    have hg : Granted k b e t := by
      refine ⟨hb, fun hmem => ?_⟩
      rcases hthere with hpos | hg
      · exact absurd (h.cnt e ⟨t, hmem⟩) hpos.ne'
      · exact hg.2 hmem
    refine ⟨k.setTcb t { k.tcb t with statPend := .ok }, ?_⟩
    simp only [sysArchSemWait, pendReturn, h.ready t e hg, hc.granted t e hg.1 hg.2, Bool.false_eq_true, if_false]
    rfl
  | finish start err => exact absurd rfl (hw start err)

end LoraGateway.SysArch
