import LoraGateway.SysArch.MboxCall
import LoraGateway.SysArch.MboxTokens

/-!
# A fetch that has a message to fetch

A task that is suspended in `OSSemPend` has nothing to take (`Tidy`), in any state reached. So a fetch that no
other task keeps from the mutex (`Sys.Alone`) can always take its next step while there is a message in the box, and
each of its steps but the last brings it nearer to its return (`Inv.fetch_goes`, with `Point.left` for the distance).
The message balance of `Inv` says that the token is there, if none has strayed.
-/

namespace LoraGateway.SysArch

open Os Lib

variable {n : ℕ} {s s' : Sys n} {t : Fin n} {c : Call} {pt : Point}

/-! ## Nobody waits for what is there -/

theorem Sys.Fresh.tidy (h : s.Fresh) : Tidy s.kernel s.waits := by
  obtain ⟨k, -, -, hcoh, hnew, hctl, -⟩ := h
  obtain ⟨-, hk⟩ := sysMboxNew_ok hnew
  have hnone : s.waits = fun _ => none := by
    funext t
    simp [Sys.waits, hctl]
  have hk' : Tidy { k with eventFree := k.eventFree - 1 - 1 } s.waits := by
    constructor
    · rintro e ⟨t, ht⟩
      exact absurd (hcoh.mem t e ht) (Option.some_ne_none e).symm
    · rintro t e ⟨hb, -⟩
      rw [hnone] at hb
      exact absurd hb (Option.some_ne_none e).symm
  have hb : ∀ e t, s.waits t ≠ some e := fun e t => by simp [hnone]
  rw [hk]
  exact tidy_fresh (tidy_fresh hk' (hb _) 0) (hb _) 1

theorem tidy_still (h : Tidy s.kernel s.waits) (hevent : s'.kernel.event = s.kernel.event)
    (htcb : s'.kernel.tcb = s.kernel.tcb) (hwaits : s'.waits = s.waits) : Tidy s'.kernel s'.waits := by
  rw [hwaits]
  refine ⟨fun e hne => ?_, fun t e hg => ?_⟩
  · rw [hevent] at hne ⊢
    exact h.cnt e hne
  · rw [htcb]
    exact h.ready t e ⟨hg.1, hevent ▸ hg.2⟩

theorem Sys.waits_still {x : Ctl} (hc : s.ctl t = .at c pt) (hw : (Ctl.at c pt).waitsOn t = none)
    (hctl : s'.ctl = Function.update s.ctl t x) (hx : x.waitsOn t = none) : s'.waits = s.waits := by
  have hnone : s.waits t = none := (Sys.waits_at hc).trans hw
  rw [Sys.waits_update hctl, hx, ← hnone, Function.update_eq_self]

theorem Inv.tidy_wait (h : Inv s) (ht : Tidy s.kernel s.waits) {e : Ev n} {timeout : BitVec 32} {w : WaitPt}
    {o : WaitOut} {k : Kernel (Ev n) n} {x : Ctl} (hb : s.waits t = w.waitsOn e)
    (hs : sysArchSemWait s.kernel t e timeout w = some (o, k)) (hk : s'.kernel = k)
    (hctl : s'.ctl = Function.update s.ctl t x) (hx : x.waitsOn t = o.waitsOn e) : Tidy s'.kernel s'.waits := by
  rw [Sys.waits_update hctl, hx, hk]
  exact sysArchSemWait_tidy h.intNesting h.lockNesting h.coherent ht hb hs

theorem Inv.tidy_post (h : Inv s) (ht : Tidy s.kernel s.waits) {e : Ev n} (hk : s'.kernel = (osSemPost s.kernel e).2)
    (hwaits : s'.waits = s.waits) : Tidy s'.kernel s'.waits := by
  rw [hk, hwaits]
  exact tidy_osSemPost h.coherent ht e

theorem Inv.tidy_exec (h : Inv s) (ht : Tidy s.kernel s.waits) (hc : s.ctl t = .at c pt)
    (hs : s.exec t c pt = some s') : Tidy s'.kernel s'.waits := by
  cases pt with
  | wait w =>
    simp only [Sys.exec] at hs
    split at hs
    · exact absurd hs (by simp)
    · rename_i w' k hw
      obtain rfl := Option.some.inj hs
      exact h.tidy_wait ht (Sys.waits_at hc) hw rfl rfl rfl
    · rename_i took ticks k hw
      obtain rfl := Option.some.inj hs
      unfold Sys.waited
      split_ifs <;> exact h.tidy_wait ht (Sys.waits_at hc) hw rfl rfl rfl
  | lock w | sleep w =>
    simp only [Sys.exec] at hs
    split at hs
    · exact absurd hs (by simp)
    · rename_i w' k hw
      obtain rfl := Option.some.inj hs
      exact h.tidy_wait ht (Sys.waits_at hc) hw rfl rfl rfl
    · rename_i took ticks k hw
      obtain rfl := Option.some.inj hs
      refine h.tidy_wait ht (Sys.waits_at hc) hw rfl rfl ?_
      first | rfl | (unfold Sys.afterLock; split <;> rfl)
  | fullUnlock | unlock =>
    obtain rfl := Option.some.inj hs
    rw [h.signal_mutex]
    exact h.tidy_post ht rfl (Sys.waits_still hc rfl rfl rfl)
  | signal =>
    obtain rfl := Option.some.inj hs
    rw [h.signal_sem hc]
    exact h.tidy_post ht rfl (Sys.waits_still hc rfl rfl rfl)
  | sleepNew =>
    simp only [Sys.exec] at hs
    split at hs <;> obtain rfl := Option.some.inj hs
    · exact tidy_still ht rfl rfl (Sys.waits_still hc rfl rfl rfl)
    · rename_i k hk
      obtain ⟨-, -, rfl⟩ := sysSemNew_ok hk
      have hwaits : ((s.withKernel (({ s.kernel with eventFree := s.kernel.eventFree - 1 }).setEvent (.delay t)
          ⟨0, ∅⟩)).goto t c (.sleep .accept)).waits = s.waits :=
        Sys.waits_still hc rfl rfl rfl
      have hnobody : ∀ u, s.waits u ≠ some (.delay t) := by
        intro u hu
        obtain rfl := Sys.waits_delay hu
        rw [Sys.waits_at hc] at hu
        exact absurd hu (by simp)
      rw [hwaits]
      exact tidy_fresh (k := { s.kernel with eventFree := s.kernel.eventFree - 1 }) ⟨ht.cnt, ht.ready⟩ hnobody 0
  | spin site =>
    obtain rfl := Option.some.inj hs
    exact ht
  | check =>
    simp only [Sys.exec] at hs
    split_ifs at hs
    · split at hs <;> obtain rfl := Option.some.inj hs <;> exact tidy_still ht rfl rfl (Sys.waits_still hc rfl rfl rfl)
    · obtain rfl := Option.some.inj hs
      exact tidy_still ht rfl rfl (Sys.waits_still hc rfl rfl rfl)
  | poll | headWrap | tailWrap | numDec =>
    obtain rfl := Option.some.inj hs
    split_ifs <;> exact tidy_still ht rfl rfl (Sys.waits_still hc rfl rfl rfl)
  | fetchPoll =>
    simp only [Sys.exec] at hs
    split_ifs at hs <;> obtain rfl := Option.some.inj hs <;>
      exact tidy_still ht rfl rfl (Sys.waits_still hc rfl rfl rfl)
  | _ =>
    obtain rfl := Option.some.inj hs
    exact tidy_still ht rfl rfl (Sys.waits_still hc rfl rfl rfl)

theorem Inv.tidy_step (h : Inv s) (ht : Tidy s.kernel s.waits) {a : Act n} (hs : s.step a = some s') :
    Tidy s'.kernel s'.waits := by
  cases a with
  | call t op =>
    obtain ⟨hidle, ⟨c, -, hctl⟩, -⟩ := Sys.call_step hs
    have hkernel : s'.kernel = s.kernel := by
      simp only [Sys.step, hidle] at hs
      rw [← Option.some.inj hs]
      rfl
    refine tidy_still ht (by rw [hkernel]) (by rw [hkernel]) ?_
    have hnone : s.waits t = none := by rw [Sys.waits, hidle]; rfl
    have hentry : (Ctl.at c (Sys.entry op)).waitsOn t = none := by cases op <;> rfl
    rw [Sys.waits_update hctl, hentry, ← hnone, Function.update_eq_self]
  | run t =>
    cases hc : s.ctl t with
    | idle => simp [Sys.step, hc] at hs
    | «at» c pt => exact h.tidy_exec ht hc (by simpa only [Sys.step, hc] using hs)
  | tick =>
    obtain rfl := Option.some.inj hs
    exact tidy_tick ht
  | events free =>
    obtain rfl := Option.some.inj hs
    exact ⟨ht.cnt, ht.ready⟩

/-! ## A fetch goes on -/

/-- No other task has the mutex or waits for it. -/
def Sys.Alone (s : Sys n) (t : Fin n) : Prop :=
  ∀ u, u ≠ t → (s.ctl u).inMutex = 0 ∧ s.waits u ≠ some .mutex

instance (s : Sys n) (t : Fin n) : Decidable (s.Alone t) :=
  inferInstanceAs (Decidable (∀ u, u ≠ t → (s.ctl u).inMutex = 0 ∧ s.waits u ≠ some .mutex))

/-- How many steps a wait that finds its token still has to take after this one. -/
def WaitPt.left : WaitPt → ℕ
  | .accept => 4
  | .start => 3
  | .pend _ => 2
  | .blocked _ => 1
  | .finish _ _ => 0

/-- The wait has timed out. -/
def WaitPt.late : WaitPt → Bool
  | .finish _ err => err ≠ .none
  | _ => false

/-- The same for a fetch. One that has timed out has to be called again. -/
def Point.left : Point → ℕ
  | .wait w => if w.late then 22 else 15 + w.left
  | .lock w => 10 + w.left
  | .read => 9
  | .tailInc => 8
  | .tailWrap => 7
  | .numDec => 6
  | .unlock => 5
  | _ => 0

def Ctl.left : Ctl → ℕ
  | .idle => 0
  | .at _ pt => pt.left

theorem Point.left_le (pt : Point) : pt.left ≤ 22 := by
  cases pt with
  | wait w =>
    rw [Point.left]
    cases w <;> split_ifs <;> simp [WaitPt.left]
  | lock w => cases w <;> simp [Point.left, WaitPt.left]
  | _ => simp [Point.left]

theorem Ctl.left_le (x : Ctl) : x.left ≤ 22 := by
  cases x with
  | idle => exact Nat.zero_le _
  | «at» c pt => exact pt.left_le

theorem Inv.fetch_outside (h : Inv s) (hc : s.ctl t = .at c pt) (hop : c.op.isFetch = true)
    (hbefore : pt.afterWait = false) : (s.ctl t).inMutex = 0 ∧ c.hasRead pt = false := by
  have hcall := h.okAt hc
  rw [hc]
  cases pt with
  | fullUnlock =>
    obtain ⟨m, hm⟩ := hcall
    simp [hm, Op.isFetch] at hop
  | check | write | headInc | headWrap | numInc | signal =>
    have hfetch : c.op.isFetch = false := hcall
    simp [hop] at hfetch
  | spin site =>
    cases site with
    | mboxPost =>
      obtain ⟨m, hm⟩ := hcall
      simp [hm, Op.isFetch] at hop
    | _ => exact ⟨rfl, rfl⟩
  | lock | read | tailInc | tailWrap | numDec | unlock => exact absurd hbefore Bool.noConfusion
  | _ => exact ⟨rfl, rfl⟩

/-- The task a step is of. -/
def Act.task : Act n → Option (Fin n)
  | .call t _ | .run t => some t
  | _ => none

theorem Inv.ctl_of_ne (h : Inv s) {a : Act n} (hs : s.step a = some s') (ht : a.task ≠ some t) :
    s'.ctl t = s.ctl t := by
  cases a with
  | call u op =>
    have hu : t ≠ u := fun hu => ht (congrArg some hu.symm)
    obtain ⟨-, ⟨c, -, hctl⟩, -⟩ := Sys.call_step hs
    rw [hctl, Function.update_of_ne hu]
  | run u =>
    have hu : t ≠ u := fun hu => ht (congrArg some hu.symm)
    cases hc : s.ctl u with
    | idle => simp [Sys.step, hc] at hs
    | «at» c pt =>
      obtain ⟨-, -, -, c', -, -, hnext⟩ := h.turn hc (by simpa only [Sys.step, hc] using hs)
      rcases hnext with ⟨pt', hctl, -⟩ | ⟨r, hctl, -⟩ <;> rw [hctl, Function.update_of_ne hu]
  | tick | events free =>
    obtain rfl := Option.some.inj hs
    rfl

theorem Inv.label_deq (h : Inv s) {a : Act n} {m : Msg} (hl : s.label a = some (.deq m)) :
    ∃ t c pt, a = .run t ∧ s.ctl t = .at c pt ∧ c.op.isFetch = true := by
  cases a with
  | run t =>
    rw [Sys.label] at hl
    split at hl
    · exact absurd (Option.some.inj hl) (by simp)
    · rename_i c hc
      exact ⟨t, c, _, rfl, hc, h.okAt hc⟩
    · exact absurd hl (by simp)
  | _ => exact absurd hl (by simp [Sys.label])

/-- The token of a message that is stored is there for the one task that fetches. -/
theorem Inv.sem_there (h : Inv s) (halone : s.Alone t) (hin : (s.ctl t).inMutex = 0) (htokens : (s.ctl t).tokens = 0)
    (honly : ∀ u, u ≠ t → ∀ c pt, s.ctl u = .at c pt → c.op.isFetch = false) (hstrayed : s.hist.strayed = 0)
    (hpos : 0 < s.mbox.msgNum) : 0 < (s.kernel.event .sem).cnt ∨ Granted s.kernel s.waits .sem t := by
  have hunsignalled : ∑ u, (s.ctl u).unsignalled = 0 := by
    refine Finset.sum_eq_zero fun u _ => ?_
    have hle := (s.ctl u).unsignalled_le
    by_cases hu : u = t
    · rw [hu] at hle ⊢
      omega
    · have hout := (halone u hu).1
      omega
  have hothers : ∑ u, (s.ctl u).tokens = 0 := by
    refine Finset.sum_eq_zero fun u _ => ?_
    by_cases hu : u = t
    · rw [hu, htokens]
    · cases hc : s.ctl u with
      | idle => rfl
      | «at» c pt =>
        have hop := honly u hu c pt hc
        have hok := h.okAt hc
        cases pt with
        | wait w => exact absurd hok.1 (by simp [hop])
        | lock | read | tailInc | tailWrap | numDec => simp [hop]
        | _ => rfl
  have hnum := h.num
  rw [hunsignalled, hothers, hstrayed] at hnum
  refine tokens_pos (fun u hu hw => ?_) (by omega)
  -- who waits for the semaphore fetches
  rw [Sys.waits] at hw
  cases hc : s.ctl u with
  | idle => simp [hc] at hw
  | «at» c pt =>
    have hop := honly u hu c pt hc
    have hok := h.okAt hc
    rw [hc] at hw
    cases pt with
    | wait w => exact absurd hok.1 (by simp [hop])
    | lock w => cases w <;> simp at hw
    | sleep w => cases w <;> simp at hw
    | _ => simp at hw

theorem Inv.mutex_there (h : Inv s) (halone : s.Alone t) (hin : (s.ctl t).inMutex = 0) :
    0 < (s.kernel.event .mutex).cnt ∨ Granted s.kernel s.waits .mutex t := by
  have hsum : ∑ u, (s.ctl u).inMutex = 0 := by
    refine Finset.sum_eq_zero fun u _ => ?_
    by_cases hu : u = t
    · rw [hu, hin]
    · exact (halone u hu).1
  have hmutex := h.mutex
  refine tokens_pos (fun u hu => (halone u hu).2) (by omega)

/-- Where a fetch can be. -/
theorem Inv.fetch_at (h : Inv s) {timeout : BitVec 32} (hc : s.ctl t = .at c pt) (hop : c.op = .fetch true timeout) :
    (∃ w, pt = .wait w) ∨ (∃ w, pt = .lock w) ∨
      (pt = .read ∨ pt = .tailInc ∨ pt = .tailWrap ∨ pt = .numDec) ∨ pt = .unlock := by
  have hcall := h.okAt hc
  cases pt with
  | poll | sleepNew | sleepFree | fullUnlock | fetchPoll =>
    obtain ⟨m, hm⟩ := hcall
    exact absurd (hop.symm.trans hm) (by simp)
  | sleep w =>
    obtain ⟨⟨m, hm⟩, -⟩ := hcall
    exact absurd (hop.symm.trans hm) (by simp)
  | spin site =>
    cases site with
    | releasingSem => exact hcall.elim
    | creatingSem | mboxPost =>
      obtain ⟨m, hm⟩ := hcall
      exact absurd (hop.symm.trans hm) (by simp)
  | check | write | headInc | headWrap | numInc | signal =>
    have hfetch : c.op.isFetch = false := hcall
    simp [hop, Op.isFetch] at hfetch
  | wait w => exact .inl ⟨w, rfl⟩
  | lock w => exact .inr (.inl ⟨w, rfl⟩)
  | read | tailInc | tailWrap | numDec => simp
  | unlock => exact .inr (.inr (.inr rfl))

/-- The next step can be taken, and comes nearer to the return, or is the return from the last statement or with a
timeout. -/
def Sys.Nearer (s : Sys n) (t : Fin n) (c : Call) (pt : Point) : Prop :=
  ∃ s', s.exec t c pt = some s' ∧
    ((∃ c' pt', s'.ctl t = .at c' pt' ∧ pt'.left < pt.left) ∨
      s'.ctl t = .idle ∧ (pt = .unlock ∨ ∃ w, w.late = true ∧ pt = .wait w))

theorem Sys.Nearer.goto {b : Sys n} {c' : Call} {pt' : Point} (hs : s.exec t c pt = some (b.goto t c' pt'))
    (hlt : pt'.left < pt.left) : s.Nearer t c pt :=
  ⟨_, hs, .inl ⟨_, _, Sys.goto_ctl .., hlt⟩⟩

/-- The wait for a message, where the token of one is there. -/
theorem Inv.wait_nearer (h : Inv s) (ht : Tidy s.kernel s.waits) {w : WaitPt} (hc : s.ctl t = .at c (.wait w))
    (hthere : (∀ begun err, w ≠ .finish begun err) →
      0 < (s.kernel.event .sem).cnt ∨ Granted s.kernel s.waits .sem t)
    (hok : Act.measurable s (.run t)) : s.Nearer t c (.wait w) := by
  by_cases hfinish : ∃ begun err, w = .finish begun err
  · obtain ⟨begun, err, rfl⟩ := hfinish
    by_cases herr : err = .none
    · subst herr
      have hs : s.exec t c (.wait (.finish begun .none)) = some (s.goto t
          { c with waitTicks := s.kernel.systemTickNum - begun } (.lock .accept)) := by
        simp only [Sys.exec, sysArchSemWait, if_true, Sys.waited, if_pos (hok t c begun rfl hc)]
        rfl
      exact .goto hs (show 14 < 15 by decide)
    · refine ⟨_, by simp only [Sys.exec, sysArchSemWait, if_neg herr]; rfl, .inr ⟨?_, .inr
        ⟨.finish begun err, decide_eq_true herr, rfl⟩⟩⟩
      rw [Sys.waited, if_neg (by simp)]
      exact Function.update_self ..
  · have hnot : ∀ begun err, w ≠ .finish begun err := fun begun err hw => hfinish ⟨begun, err, hw⟩
    obtain ⟨k, hk⟩ := sysArchSemWait_found h.intNesting h.lockNesting h.coherent ht (Sys.waits_at hc) (hthere hnot) hnot
      c.op.timeout
    cases w with
    | accept =>
      have hs : s.exec t c (.wait .accept) = some ((s.withKernel k).goto t { c with waitTicks := 0 }
          (.lock .accept)) := by
        simp only [Sys.exec, hk, WaitPt.found, Sys.waited]
        rw [if_pos (by decide)]
      exact .goto hs (show 14 < 19 by decide)
    | start =>
      have hs : s.exec t c (.wait .start) = some ((s.withKernel k).goto t c
          (.wait (.pend s.kernel.systemTickNum))) := by
        simp only [Sys.exec, hk, WaitPt.found]
      exact .goto hs (show 17 < 18 by decide)
    | pend begun =>
      have hs : s.exec t c (.wait (.pend begun)) = some ((s.withKernel k).goto t c
          (.wait (.finish begun .none))) := by
        simp only [Sys.exec, hk, WaitPt.found]
      exact .goto hs (show 15 < 17 by decide)
    | blocked begun =>
      have hs : s.exec t c (.wait (.blocked begun)) = some ((s.withKernel k).goto t c
          (.wait (.finish begun .none))) := by
        simp only [Sys.exec, hk, WaitPt.found]
      exact .goto hs (show 15 < 16 by decide)
    | finish begun err => exact absurd rfl (hnot begun err)

/-- The wait for the mutex, where that is free or has been handed over. -/
theorem Inv.lock_nearer (h : Inv s) (ht : Tidy s.kernel s.waits) {timeout : BitVec 32} {w : WaitPt}
    (hc : s.ctl t = .at c (.lock w)) (hop : c.op = .fetch true timeout)
    (hthere : (s.ctl t).inMutex = 0 → 0 < (s.kernel.event .mutex).cnt ∨ Granted s.kernel s.waits .mutex t) :
    s.Nearer t c (.lock w) := by
  have hread : Sys.afterLock c.op = .read := by rw [Sys.afterLock, hop]; rfl
  by_cases hfinish : ∃ begun err, w = .finish begun err
  · obtain ⟨begun, err, rfl⟩ := hfinish
    have hs : s.exec t c (.lock (.finish begun err)) = some (s.goto t c .read) := by
      simp only [Sys.exec, sysArchSemWait, hread]
      by_cases herr : err = .none <;> simp only [herr, if_true, if_false] <;> rfl
    exact .goto hs (show 9 < 10 by decide)
  · have hnot : ∀ begun err, w ≠ .finish begun err := fun begun err hw => hfinish ⟨begun, err, hw⟩
    have hin : (s.ctl t).inMutex = 0 := by
      rw [hc]
      cases w with
      | finish begun err => exact absurd rfl (hnot begun err)
      | _ => rfl
    obtain ⟨k, hk⟩ := sysArchSemWait_found h.intNesting h.lockNesting h.coherent ht (Sys.waits_at hc) (hthere hin) hnot 0
    cases w with
    | accept =>
      have hs : s.exec t c (.lock .accept) = some ((s.withKernel k).goto t c .read) := by
        simp only [Sys.exec, hk, WaitPt.found, hread]
      exact .goto hs (show 9 < 14 by decide)
    | start =>
      have hs : s.exec t c (.lock .start) = some ((s.withKernel k).goto t c
          (.lock (.pend s.kernel.systemTickNum))) := by
        simp only [Sys.exec, hk, WaitPt.found]
      exact .goto hs (show 12 < 13 by decide)
    | pend begun =>
      have hs : s.exec t c (.lock (.pend begun)) = some ((s.withKernel k).goto t c
          (.lock (.finish begun .none))) := by
        simp only [Sys.exec, hk, WaitPt.found]
      exact .goto hs (show 10 < 12 by decide)
    | blocked begun =>
      have hs : s.exec t c (.lock (.blocked begun)) = some ((s.withKernel k).goto t c
          (.lock (.finish begun .none))) := by
        simp only [Sys.exec, hk, WaitPt.found]
      exact .goto hs (show 10 < 11 by decide)
    | finish begun err => exact absurd rfl (hnot begun err)

/-- The next step of a fetch that has a message to fetch. -/
theorem Inv.fetch_goes (h : Inv s) (ht : Tidy s.kernel s.waits) {timeout : BitVec 32} (hc : s.ctl t = .at c pt)
    (hop : c.op = .fetch true timeout) (halone : s.Alone t)
    (honly : ∀ u, u ≠ t → ∀ c pt, s.ctl u = .at c pt → c.op.isFetch = false) (hstrayed : s.hist.strayed = 0)
    (hpos : pt.afterWait = false → 0 < s.mbox.msgNum) (hok : Act.measurable s (.run t)) : s.Nearer t c pt := by
  rcases h.fetch_at hc hop with ⟨w, rfl⟩ | ⟨w, rfl⟩ | hring | rfl
  · refine h.wait_nearer ht hc (fun hnot => ?_) hok
    have hheld : (s.ctl t).tokens = 0 := by
      rw [hc]
      cases w with
      | finish begun err => exact absurd rfl (hnot begun err)
      | _ => rfl
    exact h.sem_there halone (by rw [hc]; rfl) hheld honly hstrayed (hpos rfl)
  · exact h.lock_nearer ht hc hop (h.mutex_there halone)
  · rcases hring with rfl | rfl | rfl | rfl <;> exact .goto rfl (by decide)
  · refine ⟨_, rfl, .inr ⟨?_, .inl rfl⟩⟩
    rw [h.signal_mutex]
    exact Function.update_self ..

/-- Without a timeout a fetch returns from its last statement only. -/
theorem Inv.fetch_ends (h : Inv s) {timeout : BitVec 32} (hc : s.ctl t = .at c pt) (hop : c.op = .fetch true timeout)
    (hok : Act.measurable s (.run t)) (hs : s.exec t c pt = some s') (hidle : s'.ctl t = .idle) :
    pt = .unlock ∨ timeout ≠ 0 := by
  have hgoto : ∀ {b : Sys n} {c' : Call} {pt' : Point}, s' ≠ b.goto t c' pt' := by
    rintro b c' pt' rfl
    rw [Sys.goto_ctl] at hidle
    exact absurd hidle (by simp)
  rcases h.fetch_at hc hop with ⟨w, rfl⟩ | ⟨w, rfl⟩ | hring | rfl
  · simp only [Sys.exec] at hs
    split at hs
    · exact absurd hs (by simp)
    · exact absurd (Option.some.inj hs).symm hgoto
    · rename_i took ticks k hw
      have hcall := h.okAt hc
      obtain ⟨-, ho, -⟩ := h.waitSpec (Sys.waits_at hc) hcall.2 hw
      have hs' := (Option.some.inj hs).symm
      by_cases hticks : ticks ≠ sysArchTimeout
      · rw [Sys.waited, if_pos hticks] at hs'
        exact absurd hs' hgoto
      · rcases ho with rfl | ⟨htimeout, -⟩
        · exfalso
          rcases sysArchSemWait_took hw with h0 | ⟨start, rfl, hstart⟩
          · exact hticks (by rw [h0]; decide)
          · exact hticks (hstart ▸ hok t c start rfl hc)
        · rw [hop] at htimeout
          exact .inr htimeout
  · simp only [Sys.exec] at hs
    split at hs
    · exact absurd hs (by simp)
    · exact absurd (Option.some.inj hs).symm hgoto
    · exact absurd (Option.some.inj hs).symm hgoto
  · rcases hring with rfl | rfl | rfl | rfl <;> exact absurd (Option.some.inj hs).symm hgoto
  · exact .inl rfl

end LoraGateway.SysArch
