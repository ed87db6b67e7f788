import LoraGateway.SysArch.MboxPost

/-!
# A lock that fails

`sys_mutex_lock` is `sys_arch_sem_wait` with its result dropped, and `OSSemPend` on the mutex can
return without the token: called from an interrupt, called with the scheduler locked, or aborted
while it waits. `LockSys` adds these three to the mailbox, and a flag for each caller that says
whether it holds the mutex: set by the kernel call that takes the token, cleared by the one that
gives it back. The mailbox functions do not look at it.

`LockSafe` is what the mutex is for. It holds in every state of a run in which each lock is obtained
and `sys_arch_mbox_tryfetch`, whose first test reads `msg_num` outside the mutex, is not called.
-/

namespace LoraGateway.Os

variable {ε : Type} [DecidableEq ε] {n : ℕ}

/-- `OSSemPendAbort` with `OS_PEND_OPT_NONE`; a broadcast is one for each task waiting. -/
def osSemPendAbort (k : Kernel ε n) (e : ε) : Kernel ε n :=
  if h : (k.event e).tbl.Nonempty then osEventTaskRdy k e ((k.event e).tbl.min' h) .abort else k

end LoraGateway.Os

namespace LoraGateway.SysArch

open Os Lib

variable {n : ℕ}

/-- Where `OSSemPend` refuses to wait: an interrupt handler, or a locked scheduler. -/
inductive Context
  | isr
  | locked
  deriving DecidableEq, Repr

def Context.raise (k : Kernel (Ev n) n) : Context → Kernel (Ev n) n
  | .isr => { k with intNesting := k.intNesting + 1 }
  | .locked => { k with lockNesting := k.lockNesting + 1 }

/-- The error `OSSemPend` returns there. -/
def Context.err : Context → OsErr
  | .isr => .pendIsr
  | .locked => .pendLocked

/-- The mailbox with its callers, and which of them hold the mutex. -/
structure LockSys (n : ℕ) where
  sys : Sys n
  holds : Fin n → Bool

/-- A step of the mailbox, a call of `OSSemPend` on the mutex by `t` in a context, and a call of
`OSSemPendAbort` on the mutex. -/
inductive LockAct (n : ℕ)
  | act (a : Act n)
  | pendIn (x : Context) (t : Fin n)
  | abort

/-- Whether `t` holds the mutex after its next step. -/
def Sys.holdsAfter (s : Sys n) (t : Fin n) (held : Bool) : Bool :=
  match s.ctl t with
  | .at _ (.lock w) =>
    match sysArchSemWait s.kernel t .mutex 0 w with
    | some (o, _) => o.held == 1
    | none => held
  | .at _ .fullUnlock | .at _ .unlock => false
  | _ => held

def LockSys.step (s : LockSys n) : LockAct n → Option (LockSys n)
  | .act (.run t) =>
    (s.sys.step (.run t)).map fun sys =>
      ⟨sys, Function.update s.holds t (s.sys.holdsAfter t (s.holds t))⟩
  | .act a => (s.sys.step a).map fun sys => ⟨sys, s.holds⟩
  | .pendIn x t =>
    match s.sys.ctl t with
    | .at c (.lock (.pend start)) =>
      match osSemPend (x.raise s.sys.kernel) t .mutex (waitTicks 0).toNat with
      | (some err, _) => some { s with sys := s.sys.goto t c (.lock (.finish start err)) }
      | (none, _) => none
    | _ => none
  | .abort => some { s with sys := s.sys.withKernel (osSemPendAbort s.sys.kernel .mutex) }

/-- A fresh mailbox, and nobody holds its mutex. -/
def lockMachine (n : ℕ) : Machine (LockSys n) (LockAct n) where
  init s := s.sys.Fresh ∧ s.holds = fun _ => false
  step := LockSys.step

/-! ## What the mutex is for -/

/-- The statement at this point reads or writes `q_mem`, `head`, `tail` or `msg_num`. -/
def Point.touches : Point → Bool
  | .poll | .fetchPoll | .check => true
  | .write | .headInc | .headWrap | .numInc | .read | .tailInc | .tailWrap | .numDec => true
  | _ => false

/-- Task `t`, run alone, returns `ERR_MEM` from its call with the mailbox as it is. -/
def Sys.Refuses (s : Sys n) (t : Fin n) (c : Call) : Prop :=
  ∃ j s', (mboxMachine n).run s (List.replicate j (.run t)) = some s' ∧ s'.mbox = s.mbox ∧
    s'.ctl t = .idle ∧ s'.hist.returned = s.hist.returned ++ [(c, .errMem)]

/-- `sys_mbox_trypost` and the two fetches are about to read or write the ring only with the mutex in
hand, the mutex has at most one token, and a `sys_mbox_trypost` whose lock failed is refused. -/
structure LockSys.LockSafe (s : LockSys n) : Prop where
  guarded : ∀ t c pt, s.sys.ctl t = .at c pt → ¬ c.IsPost → pt.touches = true → s.holds t = true
  count : (s.sys.kernel.event .mutex).cnt ≤ 1
  refused : ∀ t c m start err, s.sys.ctl t = .at c (.lock (.finish start err)) → c.op = .trypost m →
    err ≠ .none → s.sys.Refuses t c

/-- No `sys_arch_mbox_tryfetch`, and every lock is obtained: `OSSemPend` on the mutex is called
neither in an interrupt nor under a locked scheduler, and no wait for the mutex is aborted. -/
def LockSys.LockObtained (s : LockSys n) : LockAct n → Prop
  | .act (.call _ (.tryfetch _)) => False
  | .act _ => True
  | .pendIn _ _ => False
  | .abort => (s.sys.kernel.event .mutex).tbl = ∅

instance (s : LockSys n) (a : LockAct n) : Decidable (s.LockObtained a) :=
  match a with
  | .act (.call _ (.tryfetch _)) => instDecidableFalse
  | .act (.call _ (.post _)) | .act (.call _ (.trypost _)) | .act (.call _ (.fetch _ _)) =>
    instDecidableTrue
  | .act (.run _) | .act .tick | .act (.events _) => instDecidableTrue
  | .pendIn _ _ => instDecidableFalse
  | .abort => inferInstanceAs (Decidable ((s.sys.kernel.event .mutex).tbl = ∅))

/-! ## The invariant -/

/-- The mailbox's own invariant, and whoever is inside the mutex holds it. -/
structure LockInv (s : LockSys n) : Prop where
  inv : Inv s.sys
  holds : ∀ t c pt, s.sys.ctl t = .at c pt → pt ≠ .fetchPoll ∧ (pt.inMutex = 1 → s.holds t = true)

variable {s s' : Sys n} {t : Fin n} {c : Call} {pt : Point}

theorem Sys.goto_point {b : Sys n} {d c' : Call} {q pt' : Point} (hs : b.goto t d q = s')
    (hc' : s'.ctl t = .at c' pt') : pt' = q := by
  rw [← hs, Sys.goto_ctl, Ctl.at.injEq] at hc'
  exact hc'.2.symm

theorem Sys.ret_idle {b : Sys n} {d : Call} {r : Ret} (hs : b.ret t d r = s') :
    s'.ctl t = .idle := by
  rw [← hs]
  exact Function.update_self ..

/-- A step that goes on takes the mutex only by the semaphore, and never back to the first test of
`sys_arch_mbox_tryfetch`. -/
theorem Inv.exec_holds (h : Inv s) (hc : s.ctl t = .at c pt) (hs : s.exec t c pt = some s')
    {held : Bool} (hheld : pt.inMutex = 1 → held = true) {c' : Call} {pt' : Point}
    (hc' : s'.ctl t = .at c' pt') (hpt : pt ≠ .fetchPoll) :
    pt' ≠ .fetchPoll ∧ (pt'.inMutex = 1 → s.holdsAfter t held = true) := by
  have hret : ∀ {b : Sys n} {d : Call} {r : Ret}, b.ret t d r = s' → False := fun hs => by
    rw [Sys.ret_idle hs] at hc'
    exact absurd hc' (by simp)
  unfold Sys.holdsAfter
  rw [hc]
  cases pt with
  | fetchPoll => exact absurd rfl hpt
  | lock w =>
    rw [Sys.exec] at hs
    cases hw : sysArchSemWait s.kernel t .mutex 0 w with
    | none =>
      rw [hw] at hs
      exact absurd hs (by simp)
    | some p =>
      obtain ⟨o, k⟩ := p
      rw [hw] at hs
      dsimp only
      rw [hw]
      cases o with
      | «at» w' =>
        obtain rfl := Sys.goto_point (Option.some.inj hs) hc'
        exact ⟨by simp, fun hin => by simpa using hin⟩
      | done took ticks =>
        -- a wait without a timeout ends with the token
        have htook : took = true :=
          (h.waitSpec (Sys.waits_at hc) (h.okAt hc) hw).2.1.resolve_right (by simp)
        obtain rfl := Sys.goto_point (Option.some.inj hs) hc'
        refine ⟨?_, fun _ => by simp [htook]⟩
        unfold Sys.afterLock
        split <;> simp
  | wait w =>
    simp only [Sys.exec] at hs
    split at hs
    · exact absurd hs (by simp)
    · obtain rfl := Sys.goto_point (Option.some.inj hs) hc'
      simp
    · simp only [Option.some.injEq, Sys.waited] at hs
      split at hs
      · obtain rfl := Sys.goto_point hs hc'
        simp
      · exact absurd hs fun hs => hret hs
  | sleep w =>
    simp only [Sys.exec] at hs
    split at hs
    · exact absurd hs (by simp)
    · obtain rfl := Sys.goto_point (Option.some.inj hs) hc'
      simp
    · obtain rfl := Sys.goto_point (Option.some.inj hs) hc'
      simp
  | sleepNew =>
    simp only [Sys.exec] at hs
    split at hs
    · rename_i site hsite
      have hcreating : site = .creatingSem := by
        unfold sysSemNew at hsite
        split at hsite <;> simp_all
      obtain rfl := Sys.goto_point (Option.some.inj hs) hc'
      simp [hcreating]
    · obtain rfl := Sys.goto_point (Option.some.inj hs) hc'
      simp
  | poll =>
    obtain rfl := Sys.goto_point (Option.some.inj hs) hc'
    split_ifs <;> simp
  | check =>
    simp only [Sys.exec] at hs
    refine ⟨?_, fun _ => hheld rfl⟩
    split_ifs at hs
    · split at hs <;> obtain rfl := Sys.goto_point (Option.some.inj hs) hc' <;> simp
    · obtain rfl := Sys.goto_point (Option.some.inj hs) hc'
      simp
  | signal =>
    simp only [Sys.exec, h.signal_sem hc, Option.some.injEq] at hs
    obtain rfl := Sys.goto_point hs hc'
    exact ⟨by simp, fun _ => hheld rfl⟩
  | fullUnlock | unlock =>
    simp only [Sys.exec, h.signal_mutex, Option.some.injEq] at hs
    exact absurd hs fun hs => hret hs
  | spin site =>
    obtain rfl := Option.some.inj hs
    rw [hc, Ctl.at.injEq] at hc'
    rw [← hc'.2]
    exact ⟨by simp, hheld⟩
  | _ =>
    obtain rfl := Sys.goto_point (Option.some.inj hs) hc'
    first | exact ⟨by simp, fun _ => hheld rfl⟩ | simp

theorem LockInv.step {s s' : LockSys n} (h : LockInv s) {a : LockAct n} (hok : s.LockObtained a)
    (hs : s.step a = some s') : LockInv s' := by
  cases a with
  | pendIn x t => exact hok.elim
  | abort =>
    have hempty : ¬ (s.sys.kernel.event .mutex).tbl.Nonempty := by
      rw [show (s.sys.kernel.event .mutex).tbl = ∅ from hok]
      exact Finset.not_nonempty_empty
    simp only [LockSys.step, osSemPendAbort, dif_neg hempty, Option.some.injEq] at hs
    subst hs
    exact h
  | act a =>
    cases a with
    | run t =>
      simp only [LockSys.step, Option.map_eq_some_iff] at hs
      obtain ⟨sys', hs, rfl⟩ := hs
      refine ⟨h.inv.step hs, fun u d q hd => ?_⟩
      dsimp only at hd ⊢
      simp only [Sys.step] at hs
      split at hs
      · exact absurd hs (by simp)
      · rename_i c pt hc
        by_cases hu : u = t
        · subst hu
          rw [Function.update_self]
          exact h.inv.exec_holds hc hs (h.holds u c pt hc).2 hd (h.holds u c pt hc).1
        · rw [Function.update_of_ne hu]
          have hsame : sys'.ctl u = s.sys.ctl u := by
            obtain ⟨-, -, -, c', -, -, ⟨pt', hctl, -⟩ | ⟨r, hctl, -⟩⟩ := h.inv.turn hc hs <;>
              rw [hctl, Function.update_of_ne hu]
          exact h.holds u d q (hsame ▸ hd)
    | call t op =>
      simp only [LockSys.step, Option.map_eq_some_iff] at hs
      obtain ⟨sys', hs, rfl⟩ := hs
      refine ⟨h.inv.step hs, fun u d q hd => ?_⟩
      dsimp only at hd ⊢
      simp only [Sys.step] at hs
      split at hs
      · simp only [Option.some.injEq] at hs
        by_cases hu : u = t
        · subst hu
          obtain rfl := Sys.goto_point hs hd
          cases op with
          | tryfetch b => exact hok.elim
          | _ => simp [Sys.entry]
        · rw [← hs, Sys.goto_ctl_of_ne _ _ _ _ hu] at hd
          exact h.holds u d q hd
      · exact absurd hs (by simp)
    | tick | events free =>
      simp only [LockSys.step, Option.map_eq_some_iff] at hs
      obtain ⟨sys', hs, rfl⟩ := hs
      refine ⟨h.inv.step hs, fun u d q hd => ?_⟩
      simp only [Sys.step, Option.some.injEq] at hs
      subst hs
      exact h.holds u d q hd

theorem LockInv.safe {s : LockSys n} (h : LockInv s) : s.LockSafe where
  guarded t c pt hc hpost htouch := by
    refine (h.holds t c pt hc).2 ?_
    have hok := h.inv.okAt hc
    cases pt with
    | poll => exact absurd hok hpost
    | fetchPoll => exact absurd rfl (h.holds t c _ hc).1
    | check | write | headInc | headWrap | numInc | read | tailInc | tailWrap | numDec => rfl
    | _ => simp [Point.touches] at htouch
  count := by
    have := h.inv.mutex
    simp only [tokens] at this
    omega
  refused t c m start err hc _ herr := by
    rcases h.inv.okAt hc with hnone | htimeout
    · exact absurd hnone herr
    · exact absurd rfl htimeout.2

theorem reach_lockInv {s : LockSys n} (hs : (lockMachine n).Reach LockSys.LockObtained s) :
    LockInv s := by
  refine hs.invariant (I := LockInv) (fun s (h : s.sys.Fresh ∧ _) => ⟨h.1.inv, fun t c pt hc => ?_⟩)
    fun _ _ _ h hok hstep => h.step hok hstep
  obtain ⟨k, -, -, -, -, hctl, -⟩ := h.1
  rw [hctl] at hc
  exact absurd hc (by simp)

/-- As long as every lock is obtained and nobody calls `sys_arch_mbox_tryfetch`, the mutex does what it
is for. -/
theorem mbox_lock_safe {s : LockSys n} (hs : (lockMachine n).Reach LockSys.LockObtained s) :
    s.LockSafe :=
  (reach_lockInv hs).safe

/-- A new mailbox, its mutex free. -/
def newLockSys (n free : ℕ) : LockSys n := ⟨newSys n free, fun _ => false⟩

theorem newLockSys_init (n free : ℕ) : (lockMachine n).init (newLockSys n free) :=
  ⟨newSys_fresh n free, rfl⟩

/-- Task 1 has the mutex for a post, and task 0 goes to sleep on it. -/
theorem mbox_lock_safe_new : ∃ s : LockSys 2,
    (lockMachine 2).runOk LockSys.LockObtained (newLockSys 2 0)
      [.abort, .act (.call 1 (.trypost 7)), .act (.run 1), .act (.call 0 (.trypost 5)),
        .act (.run 0), .act (.run 0), .act (.run 0)] = some s ∧ s.LockSafe := by
  have hrun : ((lockMachine 2).runOk LockSys.LockObtained (newLockSys 2 0)
      [.abort, .act (.call 1 (.trypost 7)), .act (.run 1), .act (.call 0 (.trypost 5)),
        .act (.run 0), .act (.run 0), .act (.run 0)]).isSome = true := by decide +kernel
  obtain ⟨s, hs⟩ := Option.isSome_iff_exists.mp hrun
  exact ⟨s, hs, mbox_lock_safe ((Machine.Reach.init (newLockSys_init 2 0)).steps (.of_runOk hs))⟩

/-! ## A post in an interrupt -/

/-- Task 1 posts 7 and is interrupted between its write and the step of the head; caller 0 is the
interrupt, posts 5 and gets as far as its test. -/
def interrupted : List (LockAct 2) :=
  [.act (.call 1 (.trypost 7)), .act (.run 1), .act (.run 1), .act (.run 1),
    .act (.call 0 (.trypost 5)), .act (.run 0), .act (.run 0), .pendIn .isr 0, .act (.run 0)]

/-- The interrupt finishes, then the task. -/
def resumed : List (LockAct 2) :=
  List.replicate 7 (.act (.run 0)) ++ List.replicate 5 (.act (.run 1))

/-- Caller 0 is at the test of a `sys_mbox_trypost` of 5 without the mutex. -/
def LockSys.intrudes (s : LockSys 2) : Bool :=
  match s.sys.ctl 0 with
  | .at c .check => c.op == .trypost 5 && !s.holds 0
  | _ => false

/-- Both posts have returned `ERR_OK`, the mutex has two tokens, the box counts two messages, the first
cell has the 5 that was written over the 7, and the second was never written. -/
def LockSys.corrupted (s : LockSys 2) : Bool :=
  s.sys.hist.returned.map Prod.snd == [.errOk, .errOk] && (s.sys.kernel.event .mutex).cnt == 2 &&
    s.sys.mbox.msgNum == 2 && s.sys.mbox.qMem 0 == 5 && s.sys.mbox.qMem 1 == 0

theorem mbox_lock_isr : ∃ s s' : LockSys 2,
    (lockMachine 2).run (newLockSys 2 0) interrupted = some s ∧ ¬ s.LockSafe ∧
      (lockMachine 2).run s resumed = some s' ∧ s'.corrupted = true := by
  have hrun : (((lockMachine 2).run (newLockSys 2 0) interrupted).any fun s =>
      s.intrudes && ((lockMachine 2).run s resumed).any LockSys.corrupted) = true := by
    decide +kernel
  obtain ⟨s, hs, hboth⟩ := Option.any_eq_true _ _ |>.mp hrun
  rw [Bool.and_eq_true] at hboth
  obtain ⟨s', hs', hcorrupt⟩ := Option.any_eq_true _ _ |>.mp hboth.2
  refine ⟨s, s', hs, fun hsafe => ?_, hs', hcorrupt⟩
  have hintrude := hboth.1
  unfold LockSys.intrudes at hintrude
  split at hintrude
  · rename_i c hc
    simp only [Bool.and_eq_true, beq_iff_eq, Bool.not_eq_true'] at hintrude
    have hheld := hsafe.guarded 0 c .check hc (by simp [Call.IsPost, hintrude.1]) rfl
    rw [hintrude.2] at hheld
    exact absurd hheld (by decide)
  · exact absurd hintrude (by decide)

end LoraGateway.SysArch
