import LoraGateway.Lib.Fifo
import LoraGateway.SysArch.MboxLog

/-!
# The mailbox is a bounded queue

Writing the cell at `head` is the enqueue and reading the cell at `tail` the dequeue; every other
step is invisible. `Sys.Queue s q` says that `q` sits in the ring, and which cells it takes while
nobody is inside the mutex. Since the contents are what was stored less what was handed out, a step
need only be told apart by what it does to the history.
-/

namespace LoraGateway.SysArch

open Os Lib

variable {n : ℕ} {s s' : Sys n} {t : Fin n} {c : Call}

/-- The ring holds `q`, the messages stored and not handed out yet. -/
def Sys.Queue (s : Sys n) (q : List Msg) : Prop :=
  s.hist.stored.map Prod.snd = s.hist.handed.map Prod.snd ++ q ∧
    ∃ start len, len ≤ maxQueueEntries ∧ q = Ring.slice s.mbox.qMem maxQueueEntries start len ∧
      ((∀ t, (s.ctl t).inMutex = 0) → start = s.mbox.tail ∧ len = s.mbox.msgNum)

theorem Sys.Queue.length_le {q : List Msg} (h : s.Queue q) : q.length ≤ maxQueueEntries := by
  obtain ⟨-, start, len, hle, rfl, -⟩ := h
  rwa [Ring.length_slice]

theorem Sys.RingOk.inRing {head tail num : ℕ} (h : s.RingOk head tail num)
    (hin : (s.ctl t).inMutex = 1) :
    s.Queue (Ring.slice s.mbox.qMem maxQueueEntries tail num) :=
  ⟨h.queue, tail, num, h.num_le, rfl, fun hall => absurd (hall t) (by omega)⟩

theorem Inv.queue (h : Inv s) : ∃ q, s.Queue q := by
  by_cases hall : ∀ t, (s.ctl t).inMutex = 0
  · have hrest := h.rest hall
    exact ⟨_, hrest.queue, _, _, hrest.num_le, rfl, fun _ => ⟨rfl, rfl⟩⟩
  · push Not at hall
    obtain ⟨t, ht⟩ := hall
    have hin : (s.ctl t).inMutex = 1 := by
      have := (s.ctl t).inMutex_le
      omega
    cases hc : s.ctl t with
    | idle => simp [hc] at ht
    | «at» c pt =>
      have hring := h.ringCtl hc hin
      cases pt with
      | write => exact ⟨_, hring.1.inRing hin⟩
      | headInc | headWrap | tailInc | tailWrap => exact ⟨_, hring.1.inRing hin⟩
      | numInc => exact ⟨_, hring.inRing hin⟩
      | numDec => exact ⟨_, hring.1.inRing hin⟩
      | _ => exact ⟨_, Sys.RingOk.inRing (show s.RingRest from hring) hin⟩

theorem Inv.queue_read (h : Inv s) (hc : s.ctl t = .at c .read) :
    ∃ q, s.Queue (s.mbox.qMem s.mbox.tail :: q) := by
  have hin : (s.ctl t).inMutex = 1 := by simp [hc]
  have hring : s.RingRest := h.ringCtl hc hin
  have hop : c.op.isFetch = true := h.okAt hc
  have hpos : 0 < s.mbox.msgNum := h.msgNum_pos hc (by simp [hop])
  obtain ⟨m, hm⟩ : ∃ m, s.mbox.msgNum = m + 1 := ⟨s.mbox.msgNum - 1, by omega⟩
  have hq := hring.inRing hin
  rw [hm, Ring.slice_succ, Nat.mod_eq_of_lt hring.tail_lt] at hq
  exact ⟨_, hq⟩

/-! ## The simulation -/

/-- What a step does to the queue. -/
def Sys.label (s : Sys n) : Act n → Option (FifoAct Msg)
  | .run t =>
    match s.ctl t with
    | .at c .write => some (.enq c.op.msg)
    | .at _ .read => some (.deq (s.mbox.qMem s.mbox.tail))
    | _ => none
  | _ => none

theorem Inv.step_hist (h : Inv s) {a : Act n} (hs : s.step a = some s') :
    s'.hist.stored.map Prod.snd
        = s.hist.stored.map Prod.snd ++ (s.label a).toList.filterMap FifoAct.enq? ∧
      s'.hist.handed.map Prod.snd
        = s.hist.handed.map Prod.snd ++ (s.label a).toList.filterMap FifoAct.deq? := by
  cases a with
  | call t op =>
    simp only [Sys.step] at hs
    split at hs
    · simp only [Option.some.injEq] at hs
      subst hs
      simp [Sys.label]
    · exact absurd hs (by simp)
  | run t =>
    simp only [Sys.step] at hs
    split at hs
    · exact absurd hs (by simp)
    · rename_i c pt hc
      obtain ⟨-, hst, hha, -⟩ := h.turn hc hs
      rw [hst, hha, Sys.label, hc]
      cases pt <;> simp [FifoAct.enq?, FifoAct.deq?]
  | tick | events free =>
    simp only [Sys.step, Option.some.injEq] at hs
    subst hs
    simp [Sys.label]

/-- The mailbox simulates a queue of `maxQueueEntries` messages. -/
theorem mbox_sim (n : ℕ) :
    (mboxMachine n).Sim (fifo maxQueueEntries) Sys.label fun s q => Inv s ∧ s.Queue q where
  init s hs := by
    have hinv := Sys.Fresh.inv hs
    obtain ⟨q, hq⟩ := hinv.queue
    obtain ⟨k, -, -, -, -, -, hhist⟩ := hs
    have hnil : q = [] := by simpa [hhist] using hq.1.symm
    exact ⟨q, hnil, hinv, hq⟩
  silent s a s' q hR hstep hlabel := by
    obtain ⟨hinv, hq⟩ := hR
    have hinv' := hinv.step hstep
    obtain ⟨q', hq'⟩ := hinv'.queue
    obtain ⟨hst, hha⟩ := hinv.step_hist hstep
    have heq : s'.hist.stored.map Prod.snd = s'.hist.handed.map Prod.snd ++ q := by
      rw [hst, hha, hlabel]
      simpa using hq.1
    rw [List.append_cancel_left (heq.symm.trans hq'.1)]
    exact ⟨hinv', hq'⟩
  visible s a s' q b hR hstep hlabel := by
    obtain ⟨hinv, hq⟩ := hR
    have hinv' := hinv.step hstep
    obtain ⟨q', hq'⟩ := hinv'.queue
    obtain ⟨hst, hha⟩ := hinv.step_hist hstep
    have hq'1 := hq'.1
    rw [hst, hha, hlabel, hq.1] at hq'1
    cases b with
    | enq m =>
      have heq : q' = q ++ [m] := by
        simpa [List.filterMap_cons, FifoAct.enq?, FifoAct.deq?] using hq'1.symm
      exact ⟨q', heq ▸ fifoStep_enq (heq ▸ hq'.length_le), hinv', hq'⟩
    | deq m =>
      have heq : q = m :: q' := by
        simpa [List.filterMap_cons, FifoAct.enq?, FifoAct.deq?] using hq'1
      subst heq
      exact ⟨q', show fifoStep maxQueueEntries _ _ = _ from fifoStep_deq, hinv', hq'⟩

theorem trace_hist {ok : Sys n → Act n → Prop} {l : List (Act n)} (hinv : Inv s)
    (hl : (mboxMachine n).Steps ok s l s') :
    s'.hist.stored.map Prod.snd = s.hist.stored.map Prod.snd ++
        ((mboxMachine n).trace Sys.label s l).filterMap FifoAct.enq? ∧
      s'.hist.handed.map Prod.snd = s.hist.handed.map Prod.snd ++
        ((mboxMachine n).trace Sys.label s l).filterMap FifoAct.deq? := by
  induction hl with
  | nil => simp [Machine.trace]
  | cons _ hstep _ ih =>
    obtain ⟨hst, hha⟩ := hinv.step_hist hstep
    obtain ⟨hst', hha'⟩ := ih (hinv.step hstep)
    simp only [Machine.trace, hstep, List.filterMap_append, ← List.append_assoc]
    exact ⟨by rw [hst', hst], by rw [hha', hha]⟩

/-! ## The call that finds the box full -/

theorem steps_grow {ok : Sys n → Act n → Prop} {l : List (Act n)} (hinv : Inv s)
    (hl : (mboxMachine n).Steps ok s l s') :
    s.hist.stored <+: s'.hist.stored ∧ s.hist.calls <+: s'.hist.calls := by
  refine (hl.invariant (I := fun u => Inv u ∧ s.hist.stored <+: u.hist.stored ∧
    s.hist.calls <+: u.hist.calls) (fun u a u' hu _ hstep => ?_)
    ⟨hinv, List.prefix_rfl, List.prefix_rfl⟩).2
  obtain ⟨hu, hst, hca⟩ := hu
  refine ⟨hu.step hstep, ?_⟩
  change u.step a = some u' at hstep
  cases a with
  | call t op =>
    simp only [Sys.step] at hstep
    split at hstep
    · simp only [Option.some.injEq] at hstep
      subst hstep
      exact ⟨hst, hca.trans (List.prefix_append ..)⟩
    · exact absurd hstep (by simp)
  | run t =>
    simp only [Sys.step] at hstep
    split at hstep
    · exact absurd hstep (by simp)
    · rename_i c pt hc
      have hturn := hu.turn hc hstep
      rw [hturn.calls, hturn.stored]
      exact ⟨hst.trans (List.prefix_append ..), hca⟩
  | tick | events free =>
    simp only [Sys.step, Option.some.injEq] at hstep
    subst hstep
    exact ⟨hst, hca⟩

/-- A `trypost` that has not come to its write leaves the mailbox and its semaphore alone. -/
theorem Inv.trypost_frame (h : Inv s) {pt : Point} (hc : s.ctl t = .at c pt)
    (hop : ∃ m, c.op = .trypost m) (hw : pt ≠ .write) (hst : c.hasStored pt = false)
    (hs : s.exec t c pt = some s') :
    s'.mbox = s.mbox ∧ s'.kernel.event .sem = s.kernel.event .sem := by
  obtain ⟨m, hop⟩ := hop
  have hok := h.okAt hc
  cases pt with
  | lock w =>
    simp only [Sys.exec] at hs
    split at hs
    · exact absurd hs (by simp)
    all_goals
      rename_i hwait
      simp only [Option.some.injEq] at hs
      subst hs
      exact ⟨rfl, sysArchSemWait_event_of_ne hwait (by simp)⟩
  | check =>
    simp only [Sys.exec, hop] at hs
    split_ifs at hs <;> simp only [Option.some.injEq] at hs <;> subst hs <;> exact ⟨rfl, rfl⟩
  | fullUnlock =>
    simp only [Sys.exec, h.signal_mutex, Option.some.injEq] at hs
    subst hs
    exact ⟨rfl, osSemPost_event_of_ne _ (by simp)⟩
  | write => exact absurd rfl hw
  | headInc | headWrap | numInc | signal => simp [Call.hasStored] at hst
  | unlock => simp [Call.hasStored, hop, Op.isFetch] at hst
  | spin site =>
    simp only [Sys.exec, Option.some.injEq] at hs
    exact hs ▸ ⟨rfl, rfl⟩
  | poll | sleepNew | sleepFree => simp [Call.Ok, hop] at hok
  | sleep w => simp [Call.Ok, hop] at hok
  | fetchPoll | read | tailInc | tailWrap | numDec => simp [Call.Ok, hop, Op.isFetch] at hok
  | wait w => simp [Call.Ok, hop, Op.isFetch] at hok

theorem errMem_frame {s₁ s₂ : Sys n} (hr : (mboxMachine n).Reach Machine.any s₁)
    (hstep : s₁.step (.run t) = some s₂) {l : List (Act n)}
    (hl : (mboxMachine n).Steps Machine.any s₂ l s) {pt : Point} (hc : s₁.ctl t = .at c pt)
    {c' : Call} (hret : (c', Ret.errMem) ∈ s.hist.returned) (hid : c'.id = c.id) :
    s₂.mbox = s₁.mbox ∧ s₂.kernel.event .sem = s₁.kernel.event .sem := by
  have hinv := reach_inv hr
  have hlog := reach_log hr
  have hr₂ : (mboxMachine n).Reach Machine.any s₂ := hr.step (a := .run t) trivial hstep
  have hlogs := reach_log (hr₂.steps hl)
  obtain ⟨hst, hca⟩ := steps_grow (reach_inv hr₂) hl
  have hexec : s₁.exec t c pt = some s₂ := by
    simpa only [Sys.step, hc] using hstep
  have hturn := hinv.turn hc hexec
  obtain ⟨⟨m, hop'⟩, hnone, -⟩ := hlogs.settled _ hret
  -- the number of the call tells its operation
  have hop : c'.op = c.op := by
    have h1 := hlogs.opReturned _ hret
    have h2 : s.hist.calls[c.id]? = some c.op := by
      obtain ⟨rest, hrest⟩ := hca
      rw [← hrest, hturn.calls, List.getElem?_append_left (id_lt (hlog.op t c pt hc))]
      exact hlog.op t c pt hc
    simp only [hid] at h1
    exact Option.some.inj (h1.symm.trans h2)
  -- and what it has stored would still be there
  have hempty : entries s₂.hist.stored c.id = [] := by
    obtain ⟨rest, hrest⟩ := hst
    simp only [hid, ← hrest, entries_append] at hnone
    exact (List.append_eq_nil_iff.mp hnone).1
  rw [hturn.stored, entries_append] at hempty
  obtain ⟨hbefore, hnow⟩ := List.append_eq_nil_iff.mp hempty
  refine hinv.trypost_frame hc ⟨m, hop ▸ hop'⟩ (fun hw => ?_) ?_ hexec
  · simp [hw] at hnow
  · by_contra hst
    have := (hlog.logged t c pt hc).stored
    rw [hbefore, if_pos (by simpa using hst)] at this
    exact absurd this (by simp)

/-! ## Refinement -/

/-- From a fresh mailbox, in any interleaving: the writes and reads of a run are one of a queue of
`maxQueueEntries` messages whose contents sit in the ring; they happen one task at a time; a read
takes the oldest message of the ring; every call that has returned has stored or handed out what its
result says; and no step of a call that returns `errMem` touches the ring, `msg_num` or the
semaphore. -/
theorem mbox_refines_fifo {s₀ s : Sys n} {l : List (Act n)} (h₀ : s₀.Fresh)
    (hl : (mboxMachine n).Steps Machine.any s₀ l s) :
    (∃ q, (fifo maxQueueEntries).Steps Machine.any []
        ((mboxMachine n).trace Sys.label s₀ l) q ∧ s.Queue q) ∧
      ((mboxMachine n).trace Sys.label s₀ l).filterMap FifoAct.deq? <+:
        ((mboxMachine n).trace Sys.label s₀ l).filterMap FifoAct.enq? ∧
      s.hist.stored.map Prod.snd =
        ((mboxMachine n).trace Sys.label s₀ l).filterMap FifoAct.enq? ∧
      s.hist.handed.map Prod.snd =
        ((mboxMachine n).trace Sys.label s₀ l).filterMap FifoAct.deq? ∧
      (∀ t u, (s.ctl t).inMutex = 1 → (s.ctl u).inMutex = 1 → t = u) ∧
      (∀ t c, s.ctl t = .at c .read → ∃ q, s.Queue (s.mbox.qMem s.mbox.tail :: q)) ∧
      (∀ p ∈ s.hist.returned,
        p.1.Settled (entries s.hist.stored p.1.id) (entries s.hist.handed p.1.id) p.2) ∧
      (∀ (s₁ s₂ : Sys n) (l₁ l₂ : List (Act n)) (t : Fin n) (c : Call) (pt : Point) (c' : Call),
        (mboxMachine n).Steps Machine.any s₀ l₁ s₁ → s₁.step (.run t) = some s₂ →
        (mboxMachine n).Steps Machine.any s₂ l₂ s → s₁.ctl t = .at c pt →
        (c', Ret.errMem) ∈ s.hist.returned → c'.id = c.id →
        s₂.mbox = s₁.mbox ∧ s₂.kernel.event .sem = s₁.kernel.event .sem) := by
  have hr₀ : (mboxMachine n).Reach Machine.any s₀ := .init h₀
  have hinv₀ := Sys.Fresh.inv h₀
  have hr := hr₀.steps hl
  have hinv := reach_inv hr
  obtain ⟨q₀, hq₀, hR₀⟩ := (mbox_sim n).init s₀ h₀
  obtain ⟨q, hfifo, -, hq⟩ := (mbox_sim n).run hl hR₀
  obtain rfl : q₀ = [] := hq₀
  obtain ⟨hst, hha⟩ := trace_hist hinv₀ hl
  have hhist₀ : s₀.hist.stored = [] ∧ s₀.hist.handed = [] := by
    obtain ⟨k, -, -, -, -, -, hhist⟩ := h₀
    simp [hhist]
  rw [hhist₀.1, List.map_nil, List.nil_append] at hst
  rw [hhist₀.2, List.map_nil, List.nil_append] at hha
  refine ⟨⟨q, hfifo, hq⟩, fifo_prefix hfifo, hst, hha, fun t u ht hu => ?_, fun t c hc => ?_,
    (reach_log hr).settled, fun s₁ s₂ l₁ l₂ t c pt c' hl₁ hstep hl₂ hc hret hid =>
      errMem_frame (hr₀.steps hl₁) hstep hl₂ hc hret hid⟩
  · by_contra hne
    have := hinv.alone ht (Ne.symm hne)
    omega
  · exact hinv.queue_read hc

/-- A `trypost` and the steps it takes, eight or, when the box is full, three. -/
def trypostRun (t : Fin 2) (m : Msg) (steps : ℕ) : List (Act 2) := .call t (.trypost m) :: List.replicate steps (.run t)

/-- Two tasks fill the box, another `trypost` is refused, and each task fetches a message. -/
def handover : List (Act 2) :=
  trypostRun 0 5 8 ++ trypostRun 1 6 8 ++ (List.replicate 98 (trypostRun 0 7 8)).flatten ++ trypostRun 1 8 3 ++
    .call 1 (.fetch true 0) :: List.replicate 7 (.run 1) ++ .call 0 (.fetch true 0) :: List.replicate 7 (.run 0)

theorem mbox_refines_fifo_handover :
    ∃ s : Sys 2, (mboxMachine 2).run (newSys 2 0) handover = some s ∧
      s.hist.stored.map Prod.snd = 5 :: 6 :: List.replicate 98 7 ∧ s.hist.handed.map Prod.snd = [5, 6] ∧
      s.Queue (List.replicate 98 7) ∧ ∃ c, (c, Ret.errMem) ∈ s.hist.returned ∧ entries s.hist.stored c.id = [] := by
  have hrun : (((mboxMachine 2).run (newSys 2 0) handover).any fun s =>
      s.hist.stored.map Prod.snd = 5 :: 6 :: List.replicate 98 7 ∧ s.hist.handed.map Prod.snd = [5, 6] ∧
        s.hist.returned.any fun p => p.2 = .errMem) = true := by
    decide +kernel
  obtain ⟨s, hs, hfacts⟩ := Option.any_eq_true _ _ |>.mp hrun
  obtain ⟨hst, hha, hret⟩ := of_decide_eq_true hfacts
  obtain ⟨⟨c, r⟩, hmem, hr⟩ := List.any_eq_true.mp hret
  obtain rfl : r = .errMem := of_decide_eq_true hr
  obtain ⟨⟨q, -, hq⟩, -, -, -, -, -, hsettled, -⟩ :=
    mbox_refines_fifo (newSys_fresh 2 0) (Machine.steps_of_run hs)
  have hqueue : q = List.replicate 98 7 := by
    have hall := hq.1
    rw [hst, hha] at hall
    exact (List.cons.inj (List.cons.inj hall).2).2.symm
  exact ⟨s, hs, hst, hha, hqueue ▸ hq, c, hmem, (hsettled _ hmem).2.1⟩

end LoraGateway.SysArch
