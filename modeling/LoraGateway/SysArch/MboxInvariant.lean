import LoraGateway.Lib.Ring
import LoraGateway.SysArch.Mbox

/-!
# The invariant of the mailbox

`Inv` says of every reachable state that the semaphores balance and that the ring, as the task inside
the mutex will leave it, is a queue: what was stored is what was handed out followed by the slice of
`msgNum` cells from `tail`. The mutex protects the second part: whoever takes it finds `RingOk` and
gives it back (`RingAt` says what holds in between, point by point), so a step outside the mutex
has nothing to show about the ring.

Every step of a task changes its own control point and leaves those of the others, which
`Inv.advance` uses once for all of them.
-/

namespace LoraGateway.SysArch

open Os Lib

variable {n : ℕ}

/-! ## What a control point means -/

/-- The event a task is suspended on. -/
@[simp] def Ctl.waitsOn (t : Fin n) : Ctl → Option (Ev n)
  | .at _ (.wait w) => w.waitsOn .sem
  | .at _ (.lock w) => w.waitsOn .mutex
  | .at _ (.sleep w) => w.waitsOn (.delay t)
  | _ => none

def Sys.waits (s : Sys n) : Fin n → Option (Ev n) := fun t => (s.ctl t).waitsOn t

/-- The mutex tokens a task has taken. -/
@[simp] def Point.inMutex : Point → ℕ
  | .lock w => w.held
  | .check | .fullUnlock | .write | .headInc | .headWrap | .numInc | .signal => 1
  | .read | .tailInc | .tailWrap | .numDec | .unlock => 1
  | .spin .mboxPost => 1
  | _ => 0

/-- The message tokens a call has taken without a decrement of `msg_num` for them yet. -/
@[simp] def Call.tokens (c : Call) : Point → ℕ
  | .wait w => w.held
  | .lock _ | .read | .tailInc | .tailWrap | .numDec => if c.op.isFetch then 1 else 0
  | _ => 0

/-- The increments of `msg_num` not signalled yet. -/
@[simp] def Point.unsignalled : Point → ℕ
  | .signal => 1
  | _ => 0

def Ctl.inMutex : Ctl → ℕ
  | .idle => 0
  | .at _ pt => pt.inMutex

def Ctl.tokens : Ctl → ℕ
  | .idle => 0
  | .at c pt => c.tokens pt

def Ctl.unsignalled : Ctl → ℕ
  | .idle => 0
  | .at _ pt => pt.unsignalled

@[simp] theorem Ctl.inMutex_idle : Ctl.idle.inMutex = 0 := rfl
@[simp] theorem Ctl.inMutex_at (c : Call) (pt : Point) : (Ctl.at c pt).inMutex = pt.inMutex := rfl
@[simp] theorem Ctl.tokens_idle : Ctl.idle.tokens = 0 := rfl
@[simp] theorem Ctl.tokens_at (c : Call) (pt : Point) : (Ctl.at c pt).tokens = c.tokens pt := rfl
@[simp] theorem Ctl.unsignalled_idle : Ctl.idle.unsignalled = 0 := rfl
@[simp] theorem Ctl.unsignalled_at (c : Call) (pt : Point) :
    (Ctl.at c pt).unsignalled = pt.unsignalled := rfl

theorem WaitPt.held_le (w : WaitPt) : w.held ≤ 1 := by
  cases w with
  | finish _ err => cases err <;> simp [WaitPt.held]
  | _ => simp [WaitPt.held]

theorem Point.inMutex_le (pt : Point) : pt.inMutex ≤ 1 := by
  cases pt with
  | lock w => exact w.held_le
  | spin site => cases site <;> simp [Point.inMutex]
  | _ => simp [Point.inMutex]

/-- Which calls reach a point, and what their waits rely on. -/
def Call.Ok (c : Call) (tcb : OsTcb) : Point → Prop
  | .poll | .sleepNew | .sleepFree => ∃ m, c.op = .post m
  | .sleep w => (∃ m, c.op = .post m) ∧ w.Ok tcb 1
  | .fetchPoll => ∃ msg, c.op = .tryfetch msg
  | .wait w => c.op.isFetch = true ∧ w.Ok tcb c.op.timeout
  | .lock w => w.Ok tcb 0
  | .check | .write | .headInc | .headWrap | .numInc | .signal => c.op.isFetch = false
  | .fullUnlock => ∃ m, c.op = .trypost m
  | .read | .tailInc | .tailWrap | .numDec => c.op.isFetch = true
  | .unlock => True
  | .spin .releasingSem => False
  | .spin _ => ∃ m, c.op = .post m

def Ctl.Ok (tcb : OsTcb) : Ctl → Prop
  | .idle => True
  | .at c pt => c.Ok tcb pt

theorem Ctl.Ok.tcb {x : Ctl} {tcb tcb' : OsTcb} (h : x.Ok tcb)
    (hw : ∀ (w : WaitPt) (timeout : BitVec 32), w.Ok tcb timeout → w.Ok tcb' timeout) :
    x.Ok tcb' := by
  cases x with
  | idle => trivial
  | «at» c pt =>
    cases pt with
    | sleep w => exact ⟨h.1, hw w _ h.2⟩
    | wait w => exact ⟨h.1, hw w _ h.2⟩
    | lock w => exact hw w _ h
    | spin site => cases site <;> exact h
    | _ => exact h

/-! ## The ring -/

/-- The ring with the given indices and count holds what was stored and not handed out. -/
structure Sys.RingOk (s : Sys n) (head tail num : ℕ) : Prop where
  head_lt : head < maxQueueEntries
  tail_lt : tail < maxQueueEntries
  num_le : num ≤ maxQueueEntries
  head_eq : head = (tail + num) % maxQueueEntries
  queue : s.hist.stored.map Prod.snd =
    s.hist.handed.map Prod.snd ++ Ring.slice s.mbox.qMem maxQueueEntries tail num

/-- The ring as nobody inside the mutex leaves it. -/
def Sys.RingRest (s : Sys n) : Prop := s.RingOk s.mbox.head s.mbox.tail s.mbox.msgNum

/-- The ring while the task inside the mutex is at the given point. -/
def Sys.RingAt (s : Sys n) : Point → Prop
  | .write => s.RingRest ∧ s.mbox.msgNum < maxQueueEntries
  | .headInc => s.RingOk ((s.mbox.head + 1) % maxQueueEntries) s.mbox.tail (s.mbox.msgNum + 1) ∧
      s.mbox.head < maxQueueEntries
  | .headWrap => s.RingOk (s.mbox.head % maxQueueEntries) s.mbox.tail (s.mbox.msgNum + 1) ∧
      s.mbox.head ≤ maxQueueEntries
  | .numInc => s.RingOk s.mbox.head s.mbox.tail (s.mbox.msgNum + 1)
  | .tailInc => s.RingOk s.mbox.head ((s.mbox.tail + 1) % maxQueueEntries) (s.mbox.msgNum - 1) ∧
      s.mbox.tail < maxQueueEntries ∧ 0 < s.mbox.msgNum ∧ s.mbox.msgNum ≤ maxQueueEntries
  | .tailWrap => s.RingOk s.mbox.head (s.mbox.tail % maxQueueEntries) (s.mbox.msgNum - 1) ∧
      s.mbox.tail ≤ maxQueueEntries ∧ 0 < s.mbox.msgNum ∧ s.mbox.msgNum ≤ maxQueueEntries
  | .numDec => s.RingOk s.mbox.head s.mbox.tail (s.mbox.msgNum - 1) ∧
      0 < s.mbox.msgNum ∧ s.mbox.msgNum ≤ maxQueueEntries
  | _ => s.RingRest

/-- The mailbox and the part of the history its ring is about are the same. -/
def SameRing (s s' : Sys n) : Prop :=
  s'.mbox = s.mbox ∧ s'.hist.stored = s.hist.stored ∧ s'.hist.handed = s.hist.handed

theorem SameRing.ok {s s' : Sys n} (h : SameRing s s') {head tail num : ℕ} :
    s'.RingOk head tail num ↔ s.RingOk head tail num := by
  obtain ⟨hm, hst, hh⟩ := h
  constructor
  · rintro ⟨h1, h2, h3, h4, h5⟩
    exact ⟨h1, h2, h3, h4, by rw [hm, hst, hh] at h5; exact h5⟩
  · rintro ⟨h1, h2, h3, h4, h5⟩
    exact ⟨h1, h2, h3, h4, by rw [hm, hst, hh]; exact h5⟩

theorem SameRing.rest {s s' : Sys n} (h : SameRing s s') : s'.RingRest ↔ s.RingRest := by
  simp only [Sys.RingRest, h.ok, h.1]

theorem SameRing.at {s s' : Sys n} (h : SameRing s s') (pt : Point) :
    s'.RingAt pt ↔ s.RingAt pt := by
  cases pt <;> simp only [Sys.RingAt, h.ok, h.rest, h.1]

theorem sameRing_goto (s : Sys n) (t : Fin n) (c : Call) (pt : Point) :
    SameRing s (s.goto t c pt) := ⟨rfl, rfl, rfl⟩

/-! ## The invariant -/

structure Inv (s : Sys n) : Prop where
  intNesting : s.kernel.intNesting = 0
  lockNesting : s.kernel.lockNesting = 0
  coherent : Coherent s.kernel s.waits
  ok : ∀ t, (s.ctl t).Ok (s.kernel.tcb t)
  mutex : tokens s.kernel s.waits .mutex + ∑ t, (s.ctl t).inMutex = 1
  num : s.mbox.msgNum = tokens s.kernel s.waits .sem + ∑ t, (s.ctl t).tokens +
    ∑ t, (s.ctl t).unsignalled + s.hist.strayed
  ring : ∀ t c pt, s.ctl t = .at c pt → pt.inMutex = 1 → s.RingAt pt
  rest : (∀ t, (s.ctl t).inMutex = 0) → s.RingRest

theorem sysSemNew_ok {k k' : Kernel (Ev n) n} {e : Ev n} {count : ℕ}
    (h : sysSemNew k e count = .ok k') :
    k.intNesting = 0 ∧ 0 < k.eventFree ∧
      k' = ({ k with eventFree := k.eventFree - 1 }).setEvent e ⟨count, ∅⟩ := by
  unfold sysSemNew osSemCreate at h
  split_ifs at h with hint hfree
  simp only [Except.ok.injEq] at h
  exact ⟨by omega, by omega, h.symm⟩

theorem sysMboxNew_ok {k k' : Kernel (Ev n) n} {m : LwipMbox} (h : sysMboxNew k = .ok (m, k')) :
    m = ⟨fun _ => 0, 0, 0, 0⟩ ∧
      k' = (({ k with eventFree := k.eventFree - 1 - 1 }).setEvent .sem ⟨0, ∅⟩).setEvent
        .mutex ⟨1, ∅⟩ := by
  simp only [sysMboxNew, bind, Except.bind] at h
  split at h
  · exact absurd h (by simp)
  · rename_i k₁ h₁
    split at h
    · exact absurd h (by simp)
    · rename_i k₂ h₂
      obtain ⟨-, -, rfl⟩ := sysSemNew_ok h₁
      obtain ⟨-, -, rfl⟩ := sysSemNew_ok h₂
      simp only [pure, Except.pure, Except.ok.injEq, Prod.mk.injEq] at h
      exact ⟨h.1.symm, h.2.symm⟩

theorem Sys.Fresh.inv {s : Sys n} (h : s.Fresh) : Inv s := by
  obtain ⟨k, hint, hlock, hcoh, hnew, hctl, hhist⟩ := h
  obtain ⟨hm, hk⟩ := sysMboxNew_ok hnew
  have hwaits : s.waits = fun _ => none := by
    funext t
    simp [Sys.waits, hctl, Ctl.waitsOn]
  have hcoh' : Coherent s.kernel s.waits := by
    rw [hk, hwaits]
    exact coherent_fresh (coherent_fresh
      (k := { k with eventFree := k.eventFree - 1 - 1 }) ⟨hcoh.1, hcoh.2, hcoh.3, hcoh.4⟩
      (fun _ => by simp) 0) (fun _ => by simp) 1
  have htok : ∀ e, tokens s.kernel s.waits e = (s.kernel.event e).cnt := fun e =>
    tokens_eq_cnt fun t hg => by simpa [hwaits] using hg.1
  refine ⟨by rw [hk]; exact hint, by rw [hk]; exact hlock, hcoh', ?_, ?_, ?_, ?_, ?_⟩
  · intro t
    rw [hctl]
    trivial
  · rw [htok, hk]
    simp [hctl]
  · rw [htok, hk]
    simp [hctl, hm, hhist, setEvent_of_ne]
  · intro t c pt hpt
    rw [hctl] at hpt
    exact absurd hpt (by simp)
  · intro _
    constructor <;> simp [hm, hhist, maxQueueEntries]

/-! ## One step -/

/-- What the ring is at a control point. -/
def Sys.RingCtl (s : Sys n) : Ctl → Prop
  | .idle => s.RingRest
  | .at _ pt => s.RingAt pt

theorem Sys.ringCtl_outside {s : Sys n} {x : Ctl} (hx : x.inMutex = 0) (h : s.RingCtl x) :
    s.RingRest := by
  cases x with
  | idle => exact h
  | «at» c pt => cases pt <;> first | exact h | exact absurd hx (by simp)

theorem Ctl.inMutex_le (x : Ctl) : x.inMutex ≤ 1 := by
  cases x with
  | idle => exact Nat.zero_le _
  | «at» c pt => exact pt.inMutex_le

theorem Inv.alone {s : Sys n} (h : Inv s) {t u : Fin n} (ht : (s.ctl t).inMutex = 1) (hu : u ≠ t) :
    (s.ctl u).inMutex = 0 := by
  have hpair := tally_pair_le (f := fun v => (s.ctl v).inMutex) hu
  have := h.mutex
  omega

variable {s s' : Sys n} {t : Fin n} {x : Ctl}

theorem Sys.waits_update (hctl : s'.ctl = Function.update s.ctl t x) :
    s'.waits = Function.update s.waits t (x.waitsOn t) := by
  funext u
  by_cases hu : u = t
  · subst hu; simp [Sys.waits, hctl]
  · simp [Sys.waits, hctl, hu]

/-- A step of `t` that takes it to `x` keeps the invariant, if it keeps the balances and gives the
ring back as `x` wants it. -/
theorem Inv.advance (h : Inv s) (hctl : s'.ctl = Function.update s.ctl t x)
    (hint : s'.kernel.intNesting = 0) (hlock : s'.kernel.lockNesting = 0)
    (hcoh : Coherent s'.kernel (Function.update s.waits t (x.waitsOn t)))
    (htcb : ∀ u, u ≠ t →
      s'.kernel.tcb u = s.kernel.tcb u ∨ s'.kernel.tcb u = ⟨0, .ok, false⟩)
    (hok : x.Ok (s'.kernel.tcb t))
    (hmutex : tokens s'.kernel (Function.update s.waits t (x.waitsOn t)) .mutex + x.inMutex
      = tokens s.kernel s.waits .mutex + (s.ctl t).inMutex)
    (hnum : s'.mbox.msgNum + (tokens s.kernel s.waits .sem + (s.ctl t).tokens +
        (s.ctl t).unsignalled + s.hist.strayed)
      = s.mbox.msgNum + (tokens s'.kernel (Function.update s.waits t (x.waitsOn t)) .sem + x.tokens +
        x.unsignalled + s'.hist.strayed))
    (hin : (s.ctl t).inMutex = 1 → s'.RingCtl x)
    (hout : (s.ctl t).inMutex = 0 → SameRing s s' ∧ (s'.RingRest → s'.RingCtl x)) : Inv s' := by
  have hself : s'.ctl t = x := by rw [hctl, Function.update_self]
  have hother : ∀ u, u ≠ t → s'.ctl u = s.ctl u := fun u hu => by
    rw [hctl, Function.update_of_ne hu]
  have hwaits := Sys.waits_update hctl
  have tally : ∀ f : Ctl → ℕ, ∑ u, f (s'.ctl u) + f (s.ctl t) = ∑ u, f (s.ctl u) + f x := by
    intro f
    have := tally_one (f := fun u => f (s.ctl u)) (g := fun u => f (s'.ctl u)) t fun u hu => by
      rw [hother u hu]
    rwa [hself] at this
  have hmutex' : tokens s'.kernel s'.waits .mutex + ∑ u, (s'.ctl u).inMutex = 1 := by
    have h1 := tally Ctl.inMutex
    have h2 := h.mutex
    rw [hwaits]
    omega
  -- the ring of a state in which nobody else is inside
  have hrest : (∀ u, u ≠ t → (s.ctl u).inMutex = 0) → s'.RingCtl x := by
    intro halone
    by_cases ht : (s.ctl t).inMutex = 0
    · obtain ⟨hsame, hto⟩ := hout ht
      refine hto (hsame.rest.mpr (h.rest fun u => ?_))
      by_cases hu : u = t
      · rw [hu, ht]
      · exact halone u hu
    · exact hin (by have := (s.ctl t).inMutex_le; omega)
  refine ⟨hint, hlock, by rw [hwaits]; exact hcoh, ?_, hmutex', ?_, ?_, ?_⟩
  · intro u
    by_cases hu : u = t
    · rw [hu, hself]; exact hok
    · rw [hother u hu]
      rcases htcb u hu with he | he
      · rw [he]; exact h.ok u
      · rw [he]; exact (h.ok u).tcb fun w timeout hw => hw.posted
  · have h1 := tally Ctl.tokens
    have h2 := tally Ctl.unsignalled
    have h3 := h.num
    rw [hwaits]
    omega
  · intro u c pt hpt hm
    by_cases hu : u = t
    · subst hu
      rw [hself] at hpt
      subst hpt
      refine hrest fun v hv => ?_
      have := tally_pair_le (f := fun w => (s'.ctl w).inMutex) hv
      simp only [hself, hother v hv, Ctl.inMutex_at] at this
      rw [← hother v hv]
      have hle : (s'.ctl v).inMutex + pt.inMutex ≤ ∑ w, (s'.ctl w).inMutex := by
        rw [hother v hv]; exact this
      omega
    · rw [hother u hu] at hpt
      have hu1 : (s.ctl u).inMutex = 1 := by rw [hpt]; exact hm
      exact ((hout (h.alone hu1 (Ne.symm hu))).1.at pt).mpr (h.ring u c pt hpt hm)
  · intro hall
    refine Sys.ringCtl_outside (by rw [← hself]; exact hall t) (hrest fun u hu => ?_)
    rw [← hother u hu]
    exact hall u

/-- The same for a step that leaves the kernel alone. -/
theorem Inv.move (h : Inv s) (hctl : s'.ctl = Function.update s.ctl t x)
    (hk : s'.kernel = s.kernel) (hw : x.waitsOn t = (s.ctl t).waitsOn t)
    (hok : x.Ok (s.kernel.tcb t)) (hmutex : x.inMutex = (s.ctl t).inMutex)
    (hnum : s'.mbox.msgNum + ((s.ctl t).tokens + (s.ctl t).unsignalled + s.hist.strayed)
      = s.mbox.msgNum + (x.tokens + x.unsignalled + s'.hist.strayed))
    (hin : (s.ctl t).inMutex = 1 → s'.RingCtl x)
    (hout : (s.ctl t).inMutex = 0 → SameRing s s' ∧ (s'.RingRest → s'.RingCtl x)) : Inv s' := by
  have hwaits : Function.update s.waits t (x.waitsOn t) = s.waits := by
    rw [hw]
    exact Function.update_eq_self t s.waits
  refine h.advance hctl (hk ▸ h.intNesting) (hk ▸ h.lockNesting) ?_ (fun u _ => Or.inl (by rw [hk]))
    (hk ▸ hok) ?_ ?_ hin hout
  · rw [hk, hwaits]; exact h.coherent
  · rw [hk, hwaits, hmutex]
  · rw [hk, hwaits]; omega

/-! ### Waits -/

/-- A step inside a wait for `e`, as `Inv.advance` needs it. -/
theorem Inv.waitSpec (h : Inv s) {e : Ev n} {timeout : BitVec 32} {w : WaitPt} {o : WaitOut}
    {k : Kernel (Ev n) n} (hb : s.waits t = w.waitsOn e) (hok : w.Ok (s.kernel.tcb t) timeout)
    (hs : sysArchSemWait s.kernel t e timeout w = some (o, k)) :
    Coherent k (Function.update s.waits t (o.waitsOn e)) ∧ o.Ok (k.tcb t) timeout ∧
      Frame s.kernel k t ∧
      tokens k (Function.update s.waits t (o.waitsOn e)) e + o.held
        = tokens s.kernel s.waits e + w.held ∧
      ∀ e', e' ≠ e →
        tokens k (Function.update s.waits t (o.waitsOn e)) e' = tokens s.kernel s.waits e' :=
  sysArchSemWait_spec h.intNesting h.lockNesting h.coherent hb hok hs

variable {c : Call}

theorem Sys.waits_at {pt : Point} (hc : s.ctl t = .at c pt) :
    s.waits t = (Ctl.at c pt).waitsOn t := by rw [Sys.waits, hc]

theorem Inv.okAt (h : Inv s) {pt : Point} (hc : s.ctl t = .at c pt) :
    c.Ok (s.kernel.tcb t) pt := by
  have := h.ok t
  rwa [hc] at this

theorem Inv.ringCtl (h : Inv s) {pt : Point} (hc : s.ctl t = .at c pt) (hin : (s.ctl t).inMutex = 1) :
    s.RingAt pt :=
  h.ring t c pt hc (by rwa [hc] at hin)

theorem Inv.exec_sleep (h : Inv s) {w : WaitPt} (hc : s.ctl t = .at c (.sleep w))
    (hs : s.exec t c (.sleep w) = some s') : Inv s' := by
  have hok := h.okAt hc
  simp only [Sys.exec] at hs
  split at hs
  · exact absurd hs (by simp)
  · rename_i w' k hw
    obtain ⟨hcoh, ho, hf, -, htok⟩ := h.waitSpec (Sys.waits_at hc) hok.2 hw
    have hm := htok .mutex (by simp)
    have hn := htok .sem (by simp)
    simp only [Option.some.injEq] at hs
    subst hs
    refine h.advance rfl (hf.intNesting.trans h.intNesting) (hf.lockNesting.trans h.lockNesting)
      hcoh (fun u hu => Or.inl (hf.tcb u hu)) ⟨hok.1, ho⟩ ?_ ?_ (by simp [hc])
      fun _ => ⟨⟨rfl, rfl, rfl⟩, id⟩
    · simpa [hc] using hm
    · simp [hc] at hn ⊢
      omega
  · rename_i took ticks k hw
    obtain ⟨hcoh, ho, hf, -, htok⟩ := h.waitSpec (Sys.waits_at hc) hok.2 hw
    have hm := htok .mutex (by simp)
    have hn := htok .sem (by simp)
    simp only [Option.some.injEq] at hs
    subst hs
    refine h.advance rfl (hf.intNesting.trans h.intNesting) (hf.lockNesting.trans h.lockNesting)
      hcoh (fun u hu => Or.inl (hf.tcb u hu)) hok.1 ?_ ?_ (by simp [hc])
      fun _ => ⟨⟨rfl, rfl, rfl⟩, id⟩
    · simpa [hc] using hm
    · simp [hc] at hn ⊢
      omega

theorem Sys.ringAt_afterLock (s : Sys n) (op : Op) : s.RingAt (Sys.afterLock op) ↔ s.RingRest := by
  unfold Sys.afterLock
  split <;> rfl

theorem Inv.exec_lock (h : Inv s) {w : WaitPt} (hc : s.ctl t = .at c (.lock w))
    (hs : s.exec t c (.lock w) = some s') : Inv s' := by
  simp only [Sys.exec] at hs
  split at hs
  · exact absurd hs (by simp)
  · rename_i w' k hw
    obtain ⟨hcoh, ho, hf, hm, htok⟩ := h.waitSpec (Sys.waits_at hc) (h.okAt hc) hw
    have hn := htok .sem (by simp)
    simp only [Option.some.injEq] at hs
    subst hs
    have hsame : SameRing s ((s.withKernel k).goto t c (.lock w')) := ⟨rfl, rfl, rfl⟩
    refine h.advance rfl (hf.intNesting.trans h.intNesting) (hf.lockNesting.trans h.lockNesting)
      hcoh (fun u hu => Or.inl (hf.tcb u hu)) ho ?_ ?_ (fun hin => ?_) fun _ => ⟨hsame, id⟩
    · simpa [hc] using hm
    · simp [hc] at hn ⊢
      omega
    · exact (hsame.at _).mpr (h.ringCtl hc hin)
  · rename_i took ticks k hw
    obtain ⟨hcoh, ho, hf, hm, htok⟩ := h.waitSpec (Sys.waits_at hc) (h.okAt hc) hw
    have hn := htok .sem (by simp)
    -- a wait for the mutex has no timeout, so it ends with the token
    have htook : took = true := ho.resolve_right (by simp)
    subst htook
    simp only [Option.some.injEq] at hs
    subst hs
    have hsame : SameRing s ((s.withKernel k).goto t c (Sys.afterLock c.op)) := ⟨rfl, rfl, rfl⟩
    refine h.advance rfl (hf.intNesting.trans h.intNesting) (hf.lockNesting.trans h.lockNesting)
      ?_ (fun u hu => Or.inl (hf.tcb u hu)) ?_ ?_ ?_ (fun hin => ?_) fun _ => ⟨hsame, fun hr => ?_⟩
    · unfold Sys.afterLock
      split <;> exact hcoh
    · unfold Sys.afterLock
      split_ifs with hop
      · exact hop
      · exact Bool.eq_false_iff.mpr hop
    · unfold Sys.afterLock
      split_ifs <;> simpa [hc] using hm
    · unfold Sys.afterLock
      split_ifs with hop <;> simp [hc, hop] at hn ⊢ <;> omega
    · exact (Sys.ringAt_afterLock _ _).mpr (hsame.rest.mpr (h.ringCtl hc hin))
    · exact (Sys.ringAt_afterLock _ _).mpr hr

theorem Inv.exec_wait (h : Inv s) {w : WaitPt} (hc : s.ctl t = .at c (.wait w))
    (hs : s.exec t c (.wait w) = some s') : Inv s' := by
  have hok := h.okAt hc
  simp only [Sys.exec] at hs
  split at hs
  · exact absurd hs (by simp)
  · rename_i w' k hw
    obtain ⟨hcoh, ho, hf, hn, htok⟩ := h.waitSpec (Sys.waits_at hc) hok.2 hw
    have hm := htok .mutex (by simp)
    simp only [Option.some.injEq] at hs
    subst hs
    refine h.advance rfl (hf.intNesting.trans h.intNesting) (hf.lockNesting.trans h.lockNesting)
      hcoh (fun u hu => Or.inl (hf.tcb u hu)) ⟨hok.1, ho⟩ ?_ ?_ (by simp [hc])
      fun _ => ⟨⟨rfl, rfl, rfl⟩, id⟩
    · simpa [hc] using hm
    · simp [hc] at hn ⊢
      omega
  · rename_i took ticks k hw
    obtain ⟨hcoh, ho, hf, hn, htok⟩ := h.waitSpec (Sys.waits_at hc) hok.2 hw
    have hm := htok .mutex (by simp)
    simp only [Option.some.injEq, Sys.waited] at hs
    by_cases hticks : ticks = sysArchTimeout
    · rw [if_neg (by simpa using hticks)] at hs
      subst hs
      refine h.advance rfl (hf.intNesting.trans h.intNesting)
        (hf.lockNesting.trans h.lockNesting) hcoh (fun u hu => Or.inl (hf.tcb u hu)) trivial
        ?_ ?_ (by simp [hc]) fun _ => ⟨⟨rfl, rfl, rfl⟩, id⟩
      · simpa [hc] using hm
      · simp [hc] at hn ⊢
        omega
    · rw [if_pos hticks] at hs
      subst hs
      have htook : took = true := ho.resolve_right fun hr => hticks hr.2
      refine h.advance rfl (hf.intNesting.trans h.intNesting)
        (hf.lockNesting.trans h.lockNesting) hcoh (fun u hu => Or.inl (hf.tcb u hu)) trivial
        ?_ ?_ (by simp [hc]) fun _ => ⟨⟨rfl, rfl, rfl⟩, id⟩
      · simpa [hc] using hm
      · simp [hc, hok.1, htook] at hn ⊢
        omega

/-! ### Posts -/

theorem Inv.cnt_mutex (h : Inv s) : (s.kernel.event .mutex).cnt < 65535 := by
  have := h.mutex
  simp only [tokens] at this
  omega

theorem Inv.cnt_sem (h : Inv s) (hnum : s.mbox.msgNum ≤ maxQueueEntries) :
    (s.kernel.event .sem).cnt < 65535 := by
  have := h.num
  simp only [tokens, maxQueueEntries] at this hnum
  omega

theorem Sys.sysSemSignal_eq {e : Ev n} (hpost : (osSemPost s.kernel e).1 = .none)
    (next : Sys n → Sys n) :
    s.sysSemSignal t c e next = next (s.withKernel (osSemPost s.kernel e).2) := by
  unfold Sys.sysSemSignal
  split
  · rename_i hk; rw [hk]
  · rename_i hne hk
    rw [hk] at hpost
    exact absurd hpost hne

theorem Inv.unlock (h : Inv s) {pt : Point} (hc : s.ctl t = .at c pt) (hin : pt.inMutex = 1)
    (hw : (Ctl.at c pt).waitsOn t = none) (hring : s.RingRest)
    (hnum : c.tokens pt = 0 ∧ pt.unsignalled = 0) (r : Ret) :
    Inv (s.sysSemSignal t c .mutex fun s => s.ret t c r) := by
  obtain ⟨herr, hcoh, htok⟩ := osSemPost_spec h.coherent h.cnt_mutex
  obtain ⟨hint, hlock⟩ := osSemPost_nesting s.kernel .mutex
  have hwaits : Function.update s.waits t none = s.waits := by
    have := Sys.waits_at hc
    rw [hw] at this
    rw [← this, Function.update_eq_self]
  have hsame : SameRing s ((s.withKernel (osSemPost s.kernel .mutex).2).ret t c r) := ⟨rfl, rfl, rfl⟩
  rw [Sys.sysSemSignal_eq herr]
  refine h.advance (x := .idle) rfl (hint.trans h.intNesting) (hlock.trans h.lockNesting) ?_
    (fun u _ => osSemPost_tcb _ _ u) trivial ?_ ?_ (fun _ => hsame.rest.mpr hring)
    fun _ => ⟨hsame, id⟩
  · simp only [Ctl.waitsOn, hwaits]
    exact hcoh
  · simp only [Sys.ret_kernel, Sys.withKernel_kernel, Ctl.waitsOn, hwaits, hc, Ctl.inMutex_at, Ctl.inMutex_idle, hin,
      htok, if_true, Nat.add_zero]
  · simp only [Sys.ret_kernel, Sys.withKernel_kernel, Sys.ret_mbox, Sys.withKernel_mbox,
      Sys.ret_strayed, Sys.withKernel_hist, Ctl.waitsOn, hwaits, hc, Ctl.tokens_at, Ctl.unsignalled_at,
      Ctl.tokens_idle, Ctl.unsignalled_idle, hnum.1, hnum.2, htok, reduceCtorEq, if_false, Nat.add_zero]

theorem Inv.exec_signal (h : Inv s) (hc : s.ctl t = .at c .signal) :
    Inv (s.sysSemSignal t c .sem fun s => s.goto t c .unlock) := by
  have hring : s.RingRest := h.ringCtl hc (by simp [hc])
  obtain ⟨herr, hcoh, htok⟩ := osSemPost_spec h.coherent (h.cnt_sem hring.num_le)
  obtain ⟨hint, hlock⟩ := osSemPost_nesting s.kernel .sem
  have hwaits : Function.update s.waits t none = s.waits := by
    have : s.waits t = none := Sys.waits_at hc
    rw [← this, Function.update_eq_self]
  have hsame : SameRing s ((s.withKernel (osSemPost s.kernel .sem).2).goto t c .unlock) :=
    ⟨rfl, rfl, rfl⟩
  rw [Sys.sysSemSignal_eq herr]
  refine h.advance (x := .at c .unlock) rfl (hint.trans h.intNesting) (hlock.trans h.lockNesting) ?_
    (fun u _ => osSemPost_tcb _ _ u) trivial ?_ ?_ (fun _ => hsame.rest.mpr hring)
    fun _ => ⟨hsame, id⟩
  · simp only [Ctl.waitsOn, hwaits]
    exact hcoh
  · simp [hwaits, hc, htok]
  · simp [hwaits, hc, htok]

/-! ### Outside the mutex -/

theorem Inv.outside (h : Inv s) {pt : Point} (hc : s.ctl t = .at c pt)
    (hctl : s'.ctl = Function.update s.ctl t x) (hk : s'.kernel = s.kernel)
    (hsame : SameRing s s') (hstray : s'.hist.strayed = s.hist.strayed)
    (hw : x.waitsOn t = (Ctl.at c pt).waitsOn t) (hok : x.Ok (s.kernel.tcb t))
    (hin : pt.inMutex = 0) (hin' : x.inMutex = 0)
    (hnum : x.tokens + x.unsignalled = c.tokens pt + pt.unsignalled)
    (hring : s'.RingRest → s'.RingCtl x) : Inv s' := by
  refine h.move hctl hk (by rw [hc]; exact hw) hok (by rw [hc]; exact hin'.trans hin.symm) ?_
    (fun h1 => ?_) fun _ => ⟨hsame, hring⟩
  · rw [hsame.1, hc, hstray]
    simp only [Ctl.tokens_at, Ctl.unsignalled_at]
    omega
  · rw [hc, Ctl.inMutex_at, hin] at h1
    exact absurd h1 (by decide)

theorem Inv.exec_poll (h : Inv s) (hc : s.ctl t = .at c .poll)
    (hs : s.exec t c .poll = some s') : Inv s' := by
  obtain ⟨m, hop⟩ := h.okAt hc
  simp only [Sys.exec, Option.some.injEq] at hs
  subst hs
  split_ifs with hfull
  · exact h.outside hc rfl rfl ⟨rfl, rfl, rfl⟩ rfl rfl ⟨m, hop⟩ rfl rfl rfl id
  · exact h.outside hc rfl rfl ⟨rfl, rfl, rfl⟩ rfl rfl trivial rfl rfl
      (by simp [hop, Op.isFetch]) id

theorem Inv.exec_fetchPoll (h : Inv s) (hc : s.ctl t = .at c .fetchPoll)
    (hs : s.exec t c .fetchPoll = some s') : Inv s' := by
  obtain ⟨msg, hop⟩ := h.okAt hc
  simp only [Sys.exec] at hs
  split_ifs at hs with hempty <;> simp only [Option.some.injEq] at hs <;> subst hs
  · exact h.outside hc rfl rfl ⟨rfl, rfl, rfl⟩ rfl rfl trivial rfl rfl rfl id
  · exact h.outside hc rfl rfl ⟨rfl, rfl, rfl⟩ rfl rfl ⟨by rw [hop]; rfl, trivial⟩ rfl rfl rfl id

theorem Sys.waits_delay {u : Fin n} (hu : s.waits u = some (.delay t)) : u = t := by
  rw [Sys.waits] at hu
  cases hx : s.ctl u with
  | idle => rw [hx] at hu; exact absurd hu (by simp)
  | «at» c' pt =>
    rw [hx] at hu
    cases pt with
    | sleep w =>
      cases w <;> simp at hu
      exact hu
    | wait w => cases w <;> simp at hu
    | lock w => cases w <;> simp at hu
    | _ => simp at hu

/-- `sys_msleep` makes its semaphore, or spins when it cannot. -/
theorem Inv.exec_sleepNew (h : Inv s) (hc : s.ctl t = .at c .sleepNew)
    (hs : s.exec t c .sleepNew = some s') : Inv s' := by
  obtain ⟨m, hop⟩ := h.okAt hc
  simp only [Sys.exec] at hs
  split at hs <;> simp only [Option.some.injEq] at hs <;> subst hs
  · rename_i site hsite
    have hcreating : site = .creatingSem := by
      unfold sysSemNew at hsite
      split at hsite <;> simp_all
    subst hcreating
    exact h.outside hc rfl rfl ⟨rfl, rfl, rfl⟩ rfl rfl ⟨m, hop⟩ rfl rfl rfl id
  · rename_i k hk
    obtain ⟨-, -, rfl⟩ := sysSemNew_ok hk
    -- nobody else waits on the semaphore of this task
    have hnobody : ∀ u, s.waits u ≠ some (.delay t) := by
      intro u hu
      obtain rfl := Sys.waits_delay hu
      rw [Sys.waits_at hc] at hu
      exact absurd hu (by simp)
    have hwaits : Function.update s.waits t none = s.waits := by
      have : s.waits t = none := Sys.waits_at hc
      rw [← this, Function.update_eq_self]
    have hcoh : Coherent { s.kernel with eventFree := s.kernel.eventFree - 1 } s.waits :=
      ⟨h.coherent.1, h.coherent.2, h.coherent.3, h.coherent.4⟩
    have htok : ∀ e, e ≠ .delay t → tokens
        (({ s.kernel with eventFree := s.kernel.eventFree - 1 }).setEvent (.delay t) ⟨0, ∅⟩)
        s.waits e = tokens s.kernel s.waits e := fun e he => tokens_setEvent_of_ne he _
    refine h.advance (x := .at c (.sleep .accept)) rfl h.intNesting h.lockNesting ?_
      (fun u _ => Or.inl rfl) ⟨⟨m, hop⟩, trivial⟩ ?_ ?_ (by simp [hc])
      fun _ => ⟨⟨rfl, rfl, rfl⟩, id⟩
    · simp only [Ctl.waitsOn, WaitPt.waitsOn, hwaits]
      exact coherent_fresh hcoh hnobody 0
    · simp [hwaits, hc, htok]
    · simp [hwaits, hc, htok]

theorem Inv.exec_sleepFree (h : Inv s) (hc : s.ctl t = .at c .sleepFree)
    (hs : s.exec t c .sleepFree = some s') : Inv s' := by
  have hop := h.okAt hc
  have hwaits : Function.update s.waits t none = s.waits := by
    have : s.waits t = none := Sys.waits_at hc
    rw [← this, Function.update_eq_self]
  simp only [Sys.exec, Option.some.injEq] at hs
  subst hs
  refine h.advance (x := .at c .poll) rfl h.intNesting h.lockNesting ?_ (fun u _ => Or.inl rfl) hop
    ?_ ?_ (by simp [hc]) fun _ => ⟨⟨rfl, rfl, rfl⟩, id⟩
  · simp only [Ctl.waitsOn, hwaits]
    exact ⟨h.coherent.1, h.coherent.2, h.coherent.3, h.coherent.4⟩
  · simp only [Ctl.waitsOn, hwaits, hc, Ctl.inMutex_at, Point.inMutex]
    rfl
  · simp only [Ctl.waitsOn, hwaits, hc, Ctl.tokens_at, Call.tokens, Ctl.unsignalled_at,
      Point.unsignalled]
    rfl

/-! ### Inside the mutex -/

theorem Inv.inside (h : Inv s) {c' : Call} {pt pt' : Point} (hc : s.ctl t = .at c pt)
    (hctl : s'.ctl = Function.update s.ctl t (.at c' pt')) (hk : s'.kernel = s.kernel)
    (hstray : s'.hist.strayed = s.hist.strayed)
    (hw : (Ctl.at c' pt').waitsOn t = (Ctl.at c pt).waitsOn t)
    (hok : c'.Ok (s.kernel.tcb t) pt') (hin : pt.inMutex = 1) (hin' : pt'.inMutex = 1)
    (hnum : s'.mbox.msgNum + (c.tokens pt + pt.unsignalled)
      = s.mbox.msgNum + (c'.tokens pt' + pt'.unsignalled))
    (hring : s.RingAt pt → s'.RingAt pt') : Inv s' := by
  have hin1 : (s.ctl t).inMutex = 1 := by rw [hc]; exact hin
  refine h.move (x := .at c' pt') hctl hk (by rw [hc]; exact hw) hok
    (by rw [hc]; exact hin'.trans hin.symm) ?_
    (fun _ => hring (h.ringCtl hc hin1)) fun h0 => ?_
  · rw [hc, hstray]
    simp only [Ctl.tokens_at, Ctl.unsignalled_at]
    omega
  · rw [hin1] at h0
    exact absurd h0 (by decide)

theorem Inv.exec_check (h : Inv s) (hc : s.ctl t = .at c .check)
    (hs : s.exec t c .check = some s') : Inv s' := by
  have hop : c.op.isFetch = false := h.okAt hc
  simp only [Sys.exec] at hs
  split_ifs at hs with hfull
  · split at hs <;> simp only [Option.some.injEq] at hs <;> subst hs
    · rename_i m hpost
      exact h.inside hc rfl rfl rfl rfl ⟨m, hpost⟩ rfl rfl rfl
        (sameRing_goto s t c _).rest.mpr
    · rename_i hpost
      have htry : ∃ m, c.op = .trypost m := by
        cases hcop : c.op with
        | post m => exact absurd hcop (hpost m)
        | trypost m => exact ⟨m, rfl⟩
        | fetch b timeout => simp [hcop, Op.isFetch] at hop
        | tryfetch b => simp [hcop, Op.isFetch] at hop
      exact h.inside hc rfl rfl rfl rfl htry rfl rfl rfl
        (sameRing_goto s t c _).rest.mpr
  · simp only [Option.some.injEq] at hs
    subst hs
    exact h.inside hc rfl rfl rfl rfl hop rfl rfl rfl fun hring =>
      ⟨(sameRing_goto s t c _).rest.mpr hring, by simpa using hfull⟩

theorem Inv.exec_write (h : Inv s) (hc : s.ctl t = .at c .write)
    (hs : s.exec t c .write = some s') : Inv s' := by
  have hok : c.op.isFetch = false := h.okAt hc
  simp only [Sys.exec, Option.some.injEq] at hs
  subst hs
  refine h.inside hc rfl rfl rfl rfl hok rfl rfl rfl ?_
  rintro ⟨⟨hhead, htail, -, heq, hq⟩, hroom⟩
  refine ⟨⟨Nat.mod_lt _ (by decide), htail, hroom, ?_, ?_⟩, hhead⟩
  · simp only [Sys.goto_mbox, Sys.withMbox_mbox]
    rw [heq, Nat.mod_add_mod, Nat.add_assoc]
  · simp only [Sys.goto_mbox, Sys.withMbox_mbox, Sys.goto_hist, List.map_append, List.map_cons,
      List.map_nil]
    rw [hq, heq, Ring.slice_push hroom, List.append_assoc]

theorem Inv.exec_headInc (h : Inv s) (hc : s.ctl t = .at c .headInc)
    (hs : s.exec t c .headInc = some s') : Inv s' := by
  have hok : c.op.isFetch = false := h.okAt hc
  simp only [Sys.exec, Option.some.injEq] at hs
  subst hs
  refine h.inside hc rfl rfl rfl rfl hok rfl rfl rfl ?_
  rintro ⟨⟨h1, h2, h3, h4, h5⟩, hhead⟩
  exact ⟨⟨h1, h2, h3, h4, h5⟩, hhead⟩

theorem wrap_eq {i : ℕ} (hi : i ≤ maxQueueEntries) :
    (if maxQueueEntries ≤ i then 0 else i) = i % maxQueueEntries := by
  split_ifs with hw
  · rw [Nat.le_antisymm hi hw, Nat.mod_self]
  · exact (Nat.mod_eq_of_lt (by omega)).symm

theorem Inv.exec_headWrap (h : Inv s) (hc : s.ctl t = .at c .headWrap)
    (hs : s.exec t c .headWrap = some s') : Inv s' := by
  have hok : c.op.isFetch = false := h.okAt hc
  simp only [Sys.exec, Option.some.injEq] at hs
  subst hs
  have hmbox : ∀ m : LwipMbox, m = { s.mbox with
      head := if maxQueueEntries ≤ s.mbox.head then 0 else s.mbox.head } →
      Inv ((s.withMbox m).goto t c .numInc) := by
    rintro m rfl
    refine h.inside hc rfl rfl rfl rfl hok rfl rfl rfl ?_
    rintro ⟨⟨h1, h2, h3, h4, h5⟩, hhead⟩
    simp only [Sys.RingAt, Sys.goto_mbox, Sys.withMbox_mbox, wrap_eq hhead]
    exact ⟨h1, h2, h3, h4, h5⟩
  split_ifs with hw
  · exact hmbox _ (by rw [if_pos hw])
  · exact hmbox s.mbox (by rw [if_neg hw])

theorem Inv.exec_numInc (h : Inv s) (hc : s.ctl t = .at c .numInc)
    (hs : s.exec t c .numInc = some s') : Inv s' := by
  have hok : c.op.isFetch = false := h.okAt hc
  simp only [Sys.exec, Option.some.injEq] at hs
  subst hs
  refine h.inside hc rfl rfl rfl rfl hok rfl rfl rfl ?_
  rintro ⟨h1, h2, h3, h4, h5⟩
  exact ⟨h1, h2, h3, h4, h5⟩

/-- A fetch that has its token finds a message. -/
theorem Inv.msgNum_pos (h : Inv s) {pt : Point} (hc : s.ctl t = .at c pt)
    (htok : c.tokens pt = 1) : 0 < s.mbox.msgNum := by
  have hle := tally_le (f := fun u => (s.ctl u).tokens) t
  simp only [hc, Ctl.tokens_at, htok] at hle
  have := h.num
  omega

theorem Inv.exec_read (h : Inv s) (hc : s.ctl t = .at c .read)
    (hs : s.exec t c .read = some s') : Inv s' := by
  have hop : c.op.isFetch = true := h.okAt hc
  have hpos : 0 < s.mbox.msgNum := h.msgNum_pos hc (by simp [hop])
  simp only [Sys.exec, Option.some.injEq] at hs
  subst hs
  have hcall : ∀ c' : Call, c'.op = c.op → ∀ s' : Sys n,
      s' = { s with hist := { s.hist with
        handed := s.hist.handed ++ [(c.id, s.mbox.qMem s.mbox.tail)] } }.goto t c' .tailInc →
      Inv s' := by
    rintro c' hc' s' rfl
    refine h.inside hc rfl rfl rfl rfl ?_ rfl rfl (by simp [hc']) ?_
    · rw [Call.Ok, hc']
      exact hop
    · rintro ⟨hhead, htail, hle, heq, hq⟩
      obtain ⟨m, hm⟩ : ∃ m, s.mbox.msgNum = m + 1 := ⟨s.mbox.msgNum - 1, by omega⟩
      refine ⟨⟨hhead, Nat.mod_lt _ (by decide), ?_, ?_, ?_⟩, htail, hpos, hle⟩
      · simp only [Sys.goto_mbox]
        omega
      · simp only [Sys.goto_mbox]
        rw [heq, hm, Nat.mod_add_mod, Nat.add_sub_cancel]
        congr 1
        omega
      · simp only [Sys.goto_mbox, Sys.goto_hist, List.map_append, List.map_cons, List.map_nil]
        rw [hq, hm, Ring.slice_succ, Nat.mod_eq_of_lt htail, Nat.add_sub_cancel, Ring.slice_mod,
          List.append_assoc, List.singleton_append]
  refine hcall (if c.op.stores then { c with out := some (s.mbox.qMem s.mbox.tail) } else c) ?_ _ rfl
  split_ifs <;> rfl

theorem Inv.exec_tailInc (h : Inv s) (hc : s.ctl t = .at c .tailInc)
    (hs : s.exec t c .tailInc = some s') : Inv s' := by
  have hok : c.op.isFetch = true := h.okAt hc
  simp only [Sys.exec, Option.some.injEq] at hs
  subst hs
  refine h.inside hc rfl rfl rfl rfl hok rfl rfl rfl ?_
  rintro ⟨⟨h1, h2, h3, h4, h5⟩, htail, hpos⟩
  exact ⟨⟨h1, h2, h3, h4, h5⟩, htail, hpos⟩

theorem Inv.exec_tailWrap (h : Inv s) (hc : s.ctl t = .at c .tailWrap)
    (hs : s.exec t c .tailWrap = some s') : Inv s' := by
  have hok : c.op.isFetch = true := h.okAt hc
  simp only [Sys.exec, Option.some.injEq] at hs
  subst hs
  have hmbox : ∀ m : LwipMbox, m = { s.mbox with
      tail := if maxQueueEntries ≤ s.mbox.tail then 0 else s.mbox.tail } →
      Inv ((s.withMbox m).goto t c .numDec) := by
    rintro m rfl
    refine h.inside hc rfl rfl rfl rfl hok rfl rfl rfl ?_
    rintro ⟨⟨h1, h2, h3, h4, h5⟩, htail, hpos⟩
    simp only [Sys.RingAt, Sys.goto_mbox, Sys.withMbox_mbox, wrap_eq htail]
    exact ⟨⟨h1, h2, h3, h4, h5⟩, hpos⟩
  split_ifs with hw
  · exact hmbox _ (by rw [if_pos hw])
  · exact hmbox s.mbox (by rw [if_neg hw])

theorem Inv.exec_numDec (h : Inv s) (hc : s.ctl t = .at c .numDec)
    (hs : s.exec t c .numDec = some s') : Inv s' := by
  have hop : c.op.isFetch = true := h.okAt hc
  have hpos : 0 < s.mbox.msgNum := h.msgNum_pos hc (by simp [hop])
  simp only [Sys.exec, Option.some.injEq, if_pos hpos] at hs
  subst hs
  refine h.inside hc rfl rfl rfl rfl trivial rfl rfl ?_ ?_
  · simp [hop]
    omega
  · rintro ⟨⟨h1, h2, h3, h4, h5⟩, -⟩
    exact ⟨h1, h2, h3, h4, h5⟩

/-! ### Any step -/

theorem Inv.exec (h : Inv s) {pt : Point} (hc : s.ctl t = .at c pt)
    (hs : s.exec t c pt = some s') : Inv s' := by
  cases pt with
  | poll => exact h.exec_poll hc hs
  | sleepNew => exact h.exec_sleepNew hc hs
  | sleep w => exact h.exec_sleep hc hs
  | sleepFree => exact h.exec_sleepFree hc hs
  | fetchPoll => exact h.exec_fetchPoll hc hs
  | wait w => exact h.exec_wait hc hs
  | lock w => exact h.exec_lock hc hs
  | check => exact h.exec_check hc hs
  | fullUnlock =>
    have hring : s.RingRest := h.ringCtl hc (by simp [hc])
    simp only [Sys.exec, Option.some.injEq] at hs
    subst hs
    exact h.unlock hc rfl rfl hring ⟨rfl, rfl⟩ _
  | write => exact h.exec_write hc hs
  | headInc => exact h.exec_headInc hc hs
  | headWrap => exact h.exec_headWrap hc hs
  | numInc => exact h.exec_numInc hc hs
  | signal =>
    simp only [Sys.exec, Option.some.injEq] at hs
    subst hs
    exact h.exec_signal hc
  | read => exact h.exec_read hc hs
  | tailInc => exact h.exec_tailInc hc hs
  | tailWrap => exact h.exec_tailWrap hc hs
  | numDec => exact h.exec_numDec hc hs
  | unlock =>
    have hring : s.RingRest := h.ringCtl hc (by simp [hc])
    simp only [Sys.exec, Option.some.injEq] at hs
    subst hs
    exact h.unlock hc rfl rfl hring ⟨rfl, rfl⟩ _
  | spin site =>
    simp only [Sys.exec, Option.some.injEq] at hs
    exact hs ▸ h

theorem Inv.call (h : Inv s) (hc : s.ctl t = .idle) (op : Op) :
    Inv ({ s with hist := { s.hist with calls := s.hist.calls ++ [op] } }.goto t
      ⟨s.hist.calls.length, op, 0, none⟩ (Sys.entry op)) := by
  have hpt : ∀ pt, (Ctl.at ⟨s.hist.calls.length, op, 0, none⟩ pt).waitsOn t = none → pt.inMutex = 0 →
      (⟨s.hist.calls.length, op, 0, none⟩ : Call).tokens pt = 0 → pt.unsignalled = 0 →
      (⟨s.hist.calls.length, op, 0, none⟩ : Call).Ok (s.kernel.tcb t) pt →
      Inv ({ s with hist := { s.hist with calls := s.hist.calls ++ [op] } }.goto t
        ⟨s.hist.calls.length, op, 0, none⟩ pt) := by
    intro pt hw hin htok huns hok
    refine h.move (x := .at ⟨s.hist.calls.length, op, 0, none⟩ pt) rfl rfl ?_ hok ?_ ?_ ?_ fun _ =>
      ⟨⟨rfl, rfl, rfl⟩, ?_⟩
    · rw [hc, hw]
      rfl
    · rw [hc, Ctl.inMutex_at, hin]
      rfl
    · simp only [hc, Ctl.tokens_at, Ctl.unsignalled_at, Ctl.tokens_idle, Ctl.unsignalled_idle, htok,
        huns, Sys.goto_mbox, Sys.goto_hist]
    · simp [hc]
    · intro hr
      cases pt <;> first | exact hr | exact absurd hin (by decide)
  cases op with
  | post m => exact hpt .poll rfl rfl rfl rfl ⟨m, rfl⟩
  | trypost m => exact hpt (.lock .accept) rfl rfl rfl rfl trivial
  | fetch b timeout => exact hpt (.wait .accept) rfl rfl rfl rfl ⟨rfl, trivial⟩
  | tryfetch b => exact hpt .fetchPoll rfl rfl rfl rfl ⟨b, rfl⟩

theorem Inv.kernel (h : Inv s) {k : Kernel (Ev n) n} (hint : k.intNesting = 0)
    (hlock : k.lockNesting = 0) (hcoh : Coherent k s.waits)
    (htok : ∀ e, tokens k s.waits e = tokens s.kernel s.waits e)
    (hok : ∀ t, (s.ctl t).Ok (k.tcb t)) : Inv (s.withKernel k) := by
  have hsame : SameRing s (s.withKernel k) := ⟨rfl, rfl, rfl⟩
  refine ⟨hint, hlock, hcoh, hok, ?_, ?_, fun t c pt hc hin => (hsame.at pt).mpr (h.ring t c pt hc hin),
    fun hall => hsame.rest.mpr (h.rest hall)⟩
  · have := h.mutex
    rw [← htok .mutex] at this
    exact this
  · have := h.num
    rw [← htok .sem] at this
    exact this

theorem Inv.step (h : Inv s) {a : Act n} (hs : s.step a = some s') : Inv s' := by
  cases a with
  | call t op =>
    simp only [Sys.step] at hs
    split at hs
    · rename_i hc
      simp only [Option.some.injEq] at hs
      subst hs
      exact h.call hc op
    · exact absurd hs (by simp)
  | run t =>
    simp only [Sys.step] at hs
    split at hs
    · exact absurd hs (by simp)
    · rename_i c pt hc
      exact h.exec hc hs
  | tick =>
    simp only [Sys.step, Option.some.injEq] at hs
    subst hs
    exact h.kernel h.intNesting h.lockNesting (coherent_tick h.coherent) (fun e => tokens_tick e)
      fun t => (h.ok t).tcb fun w timeout hw => hw.tick
  | events free =>
    simp only [Sys.step, Option.some.injEq] at hs
    subst hs
    exact h.kernel h.intNesting h.lockNesting
      ⟨h.coherent.1, h.coherent.2, h.coherent.3, h.coherent.4⟩ (fun e => rfl) h.ok

theorem reach_inv {ok : Sys n → Act n → Prop} (hs : (mboxMachine n).Reach ok s) : Inv s :=
  hs.invariant (I := Inv) (fun _ h => Sys.Fresh.inv h) fun _ _ _ h _ hstep => h.step hstep

end LoraGateway.SysArch
