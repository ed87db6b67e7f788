import LoraGateway.SysArch.MboxInvariant

/-!
# What each call has done

The number of a call appears in the history at most once on each side: in `stored` from the write of
a post on, in `handed` from the read of a fetch on. `Call.Logged` says so for a call in progress, point
by point, and `Call.Settled` for one that has returned. Both are about the entries under the call's
own number only, which no other task adds to (`Log.alone`), so a step has to show them for the call
that made it and nothing for the others.
-/

namespace LoraGateway.SysArch

open Os Lib

variable {n : ℕ}

/-- The messages entered under the number `i`. -/
def entries (l : List (ℕ × Msg)) (i : ℕ) : List Msg :=
  l.filterMap fun e => if e.1 = i then some e.2 else none

@[simp] theorem entries_nil (i : ℕ) : entries [] i = [] := rfl

@[simp] theorem entries_append (l l' : List (ℕ × Msg)) (i : ℕ) :
    entries (l ++ l') i = entries l i ++ entries l' i := List.filterMap_append

theorem mem_of_entries {l : List (ℕ × Msg)} {i : ℕ} {m : Msg} (h : m ∈ entries l i) : m ∈ l.map Prod.snd := by
  obtain ⟨e, he, hm⟩ := List.mem_filterMap.mp h
  split_ifs at hm
  exact List.mem_map.mpr ⟨e, he, Option.some.inj hm⟩

@[simp] theorem entries_self (i : ℕ) (m : Msg) : entries [(i, m)] i = [m] := by simp [entries]

theorem entries_of_ne {i j : ℕ} (h : j ≠ i) (m : Msg) : entries [(j, m)] i = [] := by
  simp [entries, h]

theorem entries_fresh {l : List (ℕ × Msg)} {i : ℕ} (h : ∀ e ∈ l, e.1 < i) : entries l i = [] :=
  List.filterMap_eq_nil_iff.mpr fun e he => if_neg (Nat.ne_of_lt (h e he))

/-! ## One call -/

/-- The call has written its message. -/
def Call.hasStored (c : Call) : Point → Bool
  | .headInc | .headWrap | .numInc | .signal => true
  | .unlock => !c.op.isFetch
  | _ => false

/-- The call has read its message. -/
def Call.hasRead (c : Call) : Point → Bool
  | .tailInc | .tailWrap | .numDec => true
  | .unlock => c.op.isFetch
  | _ => false

/-- A fetch here has its token. -/
def Point.afterWait : Point → Bool
  | .lock _ | .read | .tailInc | .tailWrap | .numDec | .unlock => true
  | _ => false

/-- The entries of a call in progress. -/
structure Call.Logged (c : Call) (stored handed : List Msg) (pt : Point) : Prop where
  stored : stored = if c.hasStored pt then [c.op.msg] else []
  unread : c.hasRead pt = false → handed = [] ∧ c.out = none
  read : c.hasRead pt = true → ∃ m, handed = [m] ∧ (c.op.stores = true → c.out = some m)
  ticks : c.op.isFetch = true → pt.afterWait = true → c.waitTicks ≠ sysArchTimeout

/-- The entries of a call that has returned `r`. -/
def Call.Settled (c : Call) (stored handed : List Msg) : Ret → Prop
  | .void => (∃ m, c.op = .post m) ∧ stored = [c.op.msg] ∧ handed = []
  | .errOk => (∃ m, c.op = .trypost m) ∧ stored = [c.op.msg] ∧ handed = []
  | .errMem => (∃ m, c.op = .trypost m) ∧ stored = [] ∧ handed = []
  | .time ticks => c.op.isFetch = true ∧ stored = [] ∧
      (ticks = sysArchTimeout → handed = [] ∧ ∀ m, c.out = some m → m = 0) ∧
      (ticks ≠ sysArchTimeout → ∃ m, handed = [m] ∧ (c.op.stores = true → c.out = some m))

theorem Call.Logged.next {c c' : Call} {stored handed : List Msg} {pt pt' : Point}
    (h : c.Logged stored handed pt) (hop : c'.op = c.op) (hout : c'.out = c.out)
    (hst : c.hasStored pt' = c.hasStored pt) (hrd : c.hasRead pt' = c.hasRead pt)
    (hticks : c.op.isFetch = true → pt'.afterWait = true → c'.waitTicks ≠ sysArchTimeout) :
    c'.Logged stored handed pt' := by
  have hst' : c'.hasStored pt' = c.hasStored pt := by
    rw [← hst]
    cases pt' <;> simp [Call.hasStored, hop]
  have hrd' : c'.hasRead pt' = c.hasRead pt := by
    rw [← hrd]
    cases pt' <;> simp [Call.hasRead, hop]
  refine ⟨by rw [hst', hop]; exact h.stored, ?_, ?_, by rw [hop]; exact hticks⟩
  · rw [hrd', hout]
    exact h.unread
  · rw [hrd', hout, hop]
    exact h.read

/-! ## The history -/

/-- How a step of `t` in call `c` shows in the history: what it stores and hands out, and how the
call goes on. -/
structure Turn (s s' : Sys n) (t : Fin n) (c : Call) (pt : Point) : Prop where
  calls : s'.hist.calls = s.hist.calls
  stored : s'.hist.stored = s.hist.stored ++ if pt = .write then [(c.id, c.op.msg)] else []
  handed : s'.hist.handed =
    s.hist.handed ++ if pt = .read then [(c.id, s.mbox.qMem s.mbox.tail)] else []
  next : ∃ c' : Call, c'.id = c.id ∧ c'.op = c.op ∧
    ((∃ pt', s'.ctl = Function.update s.ctl t (.at c' pt') ∧ s'.hist.returned = s.hist.returned ∧
        (c.Logged (entries s.hist.stored c.id) (entries s.hist.handed c.id) pt →
          c'.Logged (entries s'.hist.stored c.id) (entries s'.hist.handed c.id) pt')) ∨
      ∃ r, s'.ctl = Function.update s.ctl t .idle ∧
        s'.hist.returned = s.hist.returned ++ [(c', r)] ∧
        (c.Logged (entries s.hist.stored c.id) (entries s.hist.handed c.id) pt →
          c'.Settled (entries s'.hist.stored c.id) (entries s'.hist.handed c.id) r))

variable {s s' : Sys n} {t : Fin n} {c c' : Call} {pt pt' : Point}

theorem turn_goto {b : Sys n} (hw : pt ≠ .write) (hr : pt ≠ .read) (hctl : b.ctl = s.ctl)
    (hhist : b.hist = s.hist) (hid : c'.id = c.id) (hop : c'.op = c.op) (hout : c'.out = c.out)
    (hst : c.hasStored pt' = c.hasStored pt) (hrd : c.hasRead pt' = c.hasRead pt)
    (hticks : c.op.isFetch = true → pt'.afterWait = true →
      c'.waitTicks ≠ sysArchTimeout ∨ (pt.afterWait = true ∧ c'.waitTicks = c.waitTicks)) :
    Turn s (b.goto t c' pt') t c pt := by
  refine ⟨by simp [hhist], by simp [hhist, hw], by simp [hhist, hr], c', hid, hop, Or.inl
    ⟨pt', by simp [Sys.goto, hctl], by simp [hhist], fun hlog => ?_⟩⟩
  simp only [Sys.goto_hist, hhist]
  refine hlog.next hop hout hst hrd fun hf haft => ?_
  rcases hticks hf haft with h | ⟨h, heq⟩
  · exact h
  · rw [heq]
    exact hlog.ticks hf h

theorem turn_ret {b : Sys n} {r : Ret} (hw : pt ≠ .write) (hr : pt ≠ .read) (hctl : b.ctl = s.ctl)
    (hcalls : b.hist.calls = s.hist.calls) (hstored : b.hist.stored = s.hist.stored)
    (hhanded : b.hist.handed = s.hist.handed) (hreturned : b.hist.returned = s.hist.returned)
    (hid : c'.id = c.id) (hop : c'.op = c.op)
    (hset : c.Logged (entries s.hist.stored c.id) (entries s.hist.handed c.id) pt →
      c'.Settled (entries s.hist.stored c.id) (entries s.hist.handed c.id) r) :
    Turn s (b.ret t c' r) t c pt := by
  refine ⟨by simp [Sys.ret, hcalls], by simp [hstored, hw], by simp [hhanded, hr], c', hid, hop,
    Or.inr ⟨r, by simp [Sys.ret, hctl], by simp [Sys.ret, hreturned], fun hlog => ?_⟩⟩
  simp only [Sys.ret_stored, Sys.ret_handed, hstored, hhanded]
  exact hset hlog

theorem Inv.signal_mutex (h : Inv s) (t : Fin n) (c : Call) (next : Sys n → Sys n) :
    s.sysSemSignal t c .mutex next = next (s.withKernel (osSemPost s.kernel .mutex).2) :=
  Sys.sysSemSignal_eq (osSemPost_spec h.coherent h.cnt_mutex).1 next

theorem Inv.signal_sem (h : Inv s) (hc : s.ctl t = .at c .signal) (next : Sys n → Sys n) :
    s.sysSemSignal t c .sem next = next (s.withKernel (osSemPost s.kernel .sem).2) := by
  have hring : s.RingRest := h.ringCtl hc (by simp [hc])
  exact Sys.sysSemSignal_eq (osSemPost_spec h.coherent (h.cnt_sem hring.num_le)).1 next

theorem Inv.turn_wait (h : Inv s) {w : WaitPt} (hc : s.ctl t = .at c (.wait w))
    (hs : s.exec t c (.wait w) = some s') : Turn s s' t c (.wait w) := by
  have hok := h.okAt hc
  simp only [Sys.exec] at hs
  split at hs
  · exact absurd hs (by simp)
  · simp only [Option.some.injEq] at hs
    subst hs
    exact turn_goto (by simp) (by simp) rfl rfl rfl rfl rfl rfl rfl (by simp [Point.afterWait])
  · rename_i took ticks k hw
    simp only [Option.some.injEq, Sys.waited] at hs
    by_cases hticks : ticks = sysArchTimeout
    · rw [if_neg (by simpa using hticks)] at hs
      subst hs
      refine turn_ret (by simp) (by simp) rfl rfl rfl rfl rfl (by split_ifs <;> rfl)
        (by split_ifs <;> rfl) fun hlog => ?_
      refine ⟨by split_ifs <;> exact hok.1, hlog.stored, fun _ => ⟨(hlog.unread rfl).1, fun m => ?_⟩,
        fun hne => absurd rfl hne⟩
      split_ifs
      · exact fun hm => (Option.some.inj hm).symm
      · rw [(hlog.unread rfl).2]
        exact fun hm => absurd hm (by simp)
    · rw [if_pos hticks] at hs
      subst hs
      exact turn_goto (by simp) (by simp) rfl rfl rfl rfl rfl rfl rfl fun _ _ => Or.inl hticks

theorem Inv.turn_unlock (h : Inv s) (hs : s.exec t c .unlock = some s') : Turn s s' t c .unlock := by
  simp only [Sys.exec, h.signal_mutex, Option.some.injEq] at hs
  subst hs
  refine turn_ret (by simp) (by simp) rfl rfl rfl rfl rfl rfl rfl fun hlog => ?_
  have hstored := hlog.stored
  cases hop : c.op with
  | post m =>
    simp only [Call.hasStored, hop, Op.isFetch, Bool.not_false, if_true] at hstored
    simp only [Sys.result, hop]
    exact ⟨⟨m, hop⟩, by rw [hop]; exact hstored, (hlog.unread (by simp [Call.hasRead, hop, Op.isFetch])).1⟩
  | trypost m =>
    simp only [Call.hasStored, hop, Op.isFetch, Bool.not_false, if_true] at hstored
    simp only [Sys.result, hop]
    exact ⟨⟨m, hop⟩, by rw [hop]; exact hstored, (hlog.unread (by simp [Call.hasRead, hop, Op.isFetch])).1⟩
  | fetch b timeout =>
    have hticks := hlog.ticks (by simp [hop, Op.isFetch]) rfl
    simp only [Call.hasStored, hop, Op.isFetch, Bool.not_true, Bool.false_eq_true, if_false]
      at hstored
    simp only [Sys.result, hop]
    exact ⟨by simp [hop, Op.isFetch], hstored, fun he => absurd he hticks,
      fun _ => hlog.read (by simp [Call.hasRead, hop, Op.isFetch])⟩
  | tryfetch b =>
    simp only [Call.hasStored, hop, Op.isFetch, Bool.not_true, Bool.false_eq_true, if_false]
      at hstored
    simp only [Sys.result, hop]
    exact ⟨by simp [hop, Op.isFetch], hstored, fun he => absurd he (by decide),
      fun _ => hlog.read (by simp [Call.hasRead, hop, Op.isFetch])⟩

theorem Inv.turn_read (h : Inv s) (hc : s.ctl t = .at c .read)
    (hs : s.exec t c .read = some s') : Turn s s' t c .read := by
  have hop : c.op.isFetch = true := h.okAt hc
  simp only [Sys.exec, Option.some.injEq] at hs
  subst hs
  refine ⟨rfl, by simp, by simp, _, ?_, ?_, Or.inl ⟨.tailInc, rfl, rfl, fun hlog => ?_⟩⟩
  · split_ifs <;> rfl
  · split_ifs <;> rfl
  · refine ⟨?_, fun hno => absurd hno (by simp [Call.hasRead]), fun _ => ?_, fun _ _ => ?_⟩
    · simpa [Call.hasStored] using hlog.stored
    · refine ⟨s.mbox.qMem s.mbox.tail, by simp [(hlog.unread rfl).1], ?_⟩
      split_ifs with hst
      · exact fun _ => rfl
      · exact fun h' => absurd h' hst
    · have := hlog.ticks hop rfl
      split_ifs <;> exact this

theorem Inv.turn_write (h : Inv s) (hc : s.ctl t = .at c .write)
    (hs : s.exec t c .write = some s') : Turn s s' t c .write := by
  have hop : c.op.isFetch = false := h.okAt hc
  simp only [Sys.exec, Option.some.injEq] at hs
  subst hs
  refine ⟨rfl, by simp, by simp, c, rfl, rfl, Or.inl ⟨.headInc, rfl, rfl, fun hlog => ?_⟩⟩
  refine ⟨?_, fun _ => hlog.unread rfl, fun hno => absurd hno (by simp [Call.hasRead]), ?_⟩
  · have := hlog.stored
    simp [Call.hasStored] at this
    simp [this, Call.hasStored]
  · simp [hop]

/-- Every step of a task is a turn of its call. -/
theorem Inv.turn (h : Inv s) (hc : s.ctl t = .at c pt) (hs : s.exec t c pt = some s') :
    Turn s s' t c pt := by
  have hok := h.okAt hc
  cases pt with
  | wait w => exact h.turn_wait hc hs
  | unlock => exact h.turn_unlock hs
  | read => exact h.turn_read hc hs
  | write => exact h.turn_write hc hs
  | poll =>
    obtain ⟨m, hop⟩ := hok
    simp only [Sys.exec, Option.some.injEq] at hs
    subst hs
    split_ifs <;>
      exact turn_goto (by simp) (by simp) rfl rfl rfl rfl rfl rfl rfl (by simp [hop, Op.isFetch])
  | sleepNew =>
    simp only [Sys.exec] at hs
    split at hs <;> simp only [Option.some.injEq] at hs <;> subst hs <;>
      exact turn_goto (by simp) (by simp) rfl rfl rfl rfl rfl rfl rfl (by simp [Point.afterWait])
  | sleep w =>
    simp only [Sys.exec] at hs
    split at hs
    · exact absurd hs (by simp)
    · simp only [Option.some.injEq] at hs
      subst hs
      exact turn_goto (by simp) (by simp) rfl rfl rfl rfl rfl rfl rfl (by simp [Point.afterWait])
    · simp only [Option.some.injEq] at hs
      subst hs
      exact turn_goto (by simp) (by simp) rfl rfl rfl rfl rfl rfl rfl (by simp [Point.afterWait])
  | sleepFree =>
    simp only [Sys.exec, Option.some.injEq] at hs
    subst hs
    exact turn_goto (by simp) (by simp) rfl rfl rfl rfl rfl rfl rfl (by simp [Point.afterWait])
  | fetchPoll =>
    simp only [Sys.exec] at hs
    split_ifs at hs <;> simp only [Option.some.injEq] at hs <;> subst hs
    · refine turn_ret (by simp) (by simp) rfl rfl rfl rfl rfl rfl rfl fun hlog => ?_
      obtain ⟨msg, hop⟩ := hok
      exact ⟨by rw [hop]; rfl, hlog.stored, fun _ => ⟨(hlog.unread rfl).1, fun m hm => by
        rw [(hlog.unread rfl).2] at hm; exact absurd hm (by simp)⟩, fun hne => absurd rfl hne⟩
    · exact turn_goto (by simp) (by simp) rfl rfl rfl rfl rfl rfl rfl (by simp [Point.afterWait])
  | lock w =>
    simp only [Sys.exec] at hs
    split at hs
    · exact absurd hs (by simp)
    · simp only [Option.some.injEq] at hs
      subst hs
      exact turn_goto (by simp) (by simp) rfl rfl rfl rfl rfl rfl rfl
        fun _ _ => Or.inr ⟨rfl, rfl⟩
    · simp only [Option.some.injEq] at hs
      subst hs
      unfold Sys.afterLock
      split_ifs <;> exact turn_goto (by simp) (by simp) rfl rfl rfl rfl rfl rfl rfl
        fun _ _ => Or.inr ⟨rfl, rfl⟩
  | check =>
    simp only [Sys.exec] at hs
    split_ifs at hs
    · split at hs <;> simp only [Option.some.injEq] at hs <;> subst hs <;>
        exact turn_goto (by simp) (by simp) rfl rfl rfl rfl rfl rfl rfl (by simp [Point.afterWait])
    · simp only [Option.some.injEq] at hs
      subst hs
      exact turn_goto (by simp) (by simp) rfl rfl rfl rfl rfl rfl rfl (by simp [Point.afterWait])
  | fullUnlock =>
    simp only [Sys.exec, h.signal_mutex, Option.some.injEq] at hs
    subst hs
    refine turn_ret (by simp) (by simp) rfl rfl rfl rfl rfl rfl rfl fun hlog => ?_
    exact ⟨hok, hlog.stored, (hlog.unread rfl).1⟩
  | headInc | numInc =>
    have hop : c.op.isFetch = false := hok
    simp only [Sys.exec, Option.some.injEq] at hs
    subst hs
    exact turn_goto (by simp) (by simp) rfl rfl rfl rfl rfl rfl rfl (by simp [hop])
  | headWrap =>
    have hop : c.op.isFetch = false := hok
    simp only [Sys.exec, Option.some.injEq] at hs
    subst hs
    split_ifs <;>
      exact turn_goto (by simp) (by simp) rfl rfl rfl rfl rfl rfl rfl (by simp [hop])
  | signal =>
    have hop : c.op.isFetch = false := hok
    simp only [Sys.exec, h.signal_sem hc, Option.some.injEq] at hs
    subst hs
    exact turn_goto (by simp) (by simp) rfl rfl rfl rfl rfl (by simp [Call.hasStored, hop])
      (by simp [Call.hasRead, hop]) (by simp [hop])
  | tailInc =>
    simp only [Sys.exec, Option.some.injEq] at hs
    subst hs
    exact turn_goto (by simp) (by simp) rfl rfl rfl rfl rfl rfl rfl fun _ _ => Or.inr ⟨rfl, rfl⟩
  | tailWrap =>
    simp only [Sys.exec, Option.some.injEq] at hs
    subst hs
    split_ifs <;>
      exact turn_goto (by simp) (by simp) rfl rfl rfl rfl rfl rfl rfl fun _ _ => Or.inr ⟨rfl, rfl⟩
  | numDec =>
    have hop : c.op.isFetch = true := hok
    simp only [Sys.exec, Option.some.injEq] at hs
    subst hs
    split_ifs <;>
      exact turn_goto (by simp) (by simp) rfl rfl rfl rfl rfl (by simp [Call.hasStored, hop])
        (by simp [Call.hasRead, hop]) fun _ _ => Or.inr ⟨rfl, rfl⟩
  | spin site =>
    simp only [Sys.exec, Option.some.injEq] at hs
    subst hs
    exact ⟨rfl, by simp, by simp, c, rfl, rfl, Or.inl ⟨.spin site,
      by rw [← hc, Function.update_eq_self], rfl, id⟩⟩

/-! ## All calls -/

/-- The history agrees with the calls in progress and those that have returned. -/
structure Log (s : Sys n) : Prop where
  op : ∀ t c pt, s.ctl t = .at c pt → s.hist.calls[c.id]? = some c.op
  alone : ∀ t u c d pt pt', s.ctl t = .at c pt → s.ctl u = .at d pt' → c.id = d.id → t = u
  logged : ∀ t c pt, s.ctl t = .at c pt →
    c.Logged (entries s.hist.stored c.id) (entries s.hist.handed c.id) pt
  opReturned : ∀ p ∈ s.hist.returned, s.hist.calls[p.1.id]? = some p.1.op
  settled : ∀ p ∈ s.hist.returned,
    p.1.Settled (entries s.hist.stored p.1.id) (entries s.hist.handed p.1.id) p.2
  gone : ∀ p ∈ s.hist.returned, ∀ t c pt, s.ctl t = .at c pt → c.id ≠ p.1.id
  nodup : (s.hist.returned.map fun p => p.1.id).Nodup
  old : ∀ e ∈ s.hist.stored ++ s.hist.handed, e.1 < s.hist.calls.length

theorem Sys.Fresh.log {s : Sys n} (h : s.Fresh) : Log s := by
  obtain ⟨k, -, -, -, -, hctl, hhist⟩ := h
  constructor <;> simp [hctl, hhist]

theorem id_lt {l : List Op} {i : ℕ} {op : Op} (h : l[i]? = some op) : i < l.length :=
  (List.getElem?_eq_some_iff.mp h).1

theorem Log.turn (h : Log s) (hc : s.ctl t = .at c pt) (hturn : Turn s s' t c pt) : Log s' := by
  obtain ⟨hcalls, hstored, hhanded, c', hid, hop, hnext⟩ := hturn
  have hcop := h.op t c pt hc
  -- entries under other numbers are what they were
  have hst : ∀ i, i ≠ c.id → entries s'.hist.stored i = entries s.hist.stored i := fun i hi => by
    rw [hstored, entries_append]
    split_ifs <;> simp [entries_of_ne hi.symm]
  have hha : ∀ i, i ≠ c.id → entries s'.hist.handed i = entries s.hist.handed i := fun i hi => by
    rw [hhanded, entries_append]
    split_ifs <;> simp [entries_of_ne hi.symm]
  have hold : ∀ e ∈ s'.hist.stored ++ s'.hist.handed, e.1 < s'.hist.calls.length := by
    intro e he
    rw [hcalls]
    have hself : e.1 = c.id → e.1 < s.hist.calls.length := fun he => he ▸ id_lt hcop
    rw [hstored, hhanded] at he
    simp only [List.mem_append] at he
    rcases he with (he | he) | (he | he)
    · exact h.old e (List.mem_append_left _ he)
    · split_ifs at he
      · exact hself (by rw [List.mem_singleton.mp he])
      · exact absurd he (by simp)
    · exact h.old e (List.mem_append_right _ he)
    · split_ifs at he
      · exact hself (by rw [List.mem_singleton.mp he])
      · exact absurd he (by simp)
  have hret : ∀ p ∈ s.hist.returned, p.1.id ≠ c.id := fun p hp => (h.gone p hp t c pt hc).symm
  have hother : ∀ u d qt, u ≠ t → s.ctl u = .at d qt → d.id ≠ c.id := fun u d qt hu hd he =>
    hu (h.alone u t d c qt pt hd hc he)
  have hsettled : ∀ p ∈ s.hist.returned,
      p.1.Settled (entries s'.hist.stored p.1.id) (entries s'.hist.handed p.1.id) p.2 := by
    intro p hp
    rw [hst _ (hret p hp), hha _ (hret p hp)]
    exact h.settled p hp
  have hlogged : ∀ u d qt, u ≠ t → s.ctl u = .at d qt →
      d.Logged (entries s'.hist.stored d.id) (entries s'.hist.handed d.id) qt := by
    intro u d qt hu hd
    rw [hst _ (hother u d qt hu hd), hha _ (hother u d qt hu hd)]
    exact h.logged u d qt hd
  rcases hnext with ⟨pt', hctl, hreturned, hlog⟩ | ⟨r, hctl, hreturned, hset⟩
  · have hself : s'.ctl t = .at c' pt' := by rw [hctl, Function.update_self]
    have hcase : ∀ u d qt, s'.ctl u = .at d qt →
        (u = t ∧ d = c' ∧ qt = pt') ∨ (u ≠ t ∧ s.ctl u = .at d qt) := by
      intro u d qt hd
      by_cases hu : u = t
      · subst hu
        rw [hself] at hd
        simp only [Ctl.at.injEq] at hd
        exact Or.inl ⟨rfl, hd.1.symm, hd.2.symm⟩
      · rw [hctl, Function.update_of_ne hu] at hd
        exact Or.inr ⟨hu, hd⟩
    refine ⟨?_, ?_, ?_, ?_, ?_, ?_, by rw [hreturned]; exact h.nodup, hold⟩
    · intro u d qt hd
      rcases hcase u d qt hd with ⟨-, rfl, -⟩ | ⟨-, hd⟩
      · rw [hcalls, hid, hop]; exact hcop
      · rw [hcalls]; exact h.op u d qt hd
    · intro u v d e qt rt hd he hde
      rcases hcase u d qt hd with ⟨rfl, rfl, -⟩ | ⟨hu, hd⟩ <;>
        rcases hcase v e rt he with ⟨rfl, rfl, -⟩ | ⟨hv, he⟩
      · rfl
      · exact absurd (hde.symm.trans hid) (hother v e rt hv he)
      · exact absurd (hde.trans hid) (hother u d qt hu hd)
      · exact h.alone u v d e qt rt hd he hde
    · intro u d qt hd
      rcases hcase u d qt hd with ⟨-, rfl, rfl⟩ | ⟨hu, hd⟩
      · rw [hid]
        exact hlog (h.logged t c pt hc)
      · exact hlogged u d qt hu hd
    · rw [hreturned, hcalls]
      exact h.opReturned
    · rw [hreturned]
      exact hsettled
    · rw [hreturned]
      intro p hp u d qt hd
      rcases hcase u d qt hd with ⟨-, rfl, -⟩ | ⟨-, hd⟩
      · rw [hid]; exact (hret p hp).symm
      · exact h.gone p hp u d qt hd
  · have hcase : ∀ u d qt, s'.ctl u = .at d qt → u ≠ t ∧ s.ctl u = .at d qt := by
      intro u d qt hd
      by_cases hu : u = t
      · subst hu
        rw [hctl, Function.update_self] at hd
        exact absurd hd (by simp)
      · rw [hctl, Function.update_of_ne hu] at hd
        exact ⟨hu, hd⟩
    have hmem : ∀ p ∈ s'.hist.returned, p ∈ s.hist.returned ∨ p = (c', r) := by
      intro p hp
      rw [hreturned, List.mem_append, List.mem_singleton] at hp
      exact hp
    refine ⟨?_, ?_, ?_, ?_, ?_, ?_, ?_, hold⟩
    · intro u d qt hd
      rw [hcalls]
      exact h.op u d qt (hcase u d qt hd).2
    · intro u v d e qt rt hd he hde
      exact h.alone u v d e qt rt (hcase u d qt hd).2 (hcase v e rt he).2 hde
    · intro u d qt hd
      exact hlogged u d qt (hcase u d qt hd).1 (hcase u d qt hd).2
    · intro p hp
      rw [hcalls]
      rcases hmem p hp with hp | rfl
      · exact h.opReturned p hp
      · simp only [hid, hop]
        exact hcop
    · intro p hp
      rcases hmem p hp with hp | rfl
      · exact hsettled p hp
      · simp only [hid]
        exact hset (h.logged t c pt hc)
    · intro p hp u d qt hd
      obtain ⟨hu, hd⟩ := hcase u d qt hd
      rcases hmem p hp with hp | rfl
      · exact h.gone p hp u d qt hd
      · simp only [hid]
        exact hother u d qt hu hd
    · rw [hreturned, List.map_append, List.nodup_append]
      refine ⟨h.nodup, by simp, ?_⟩
      intro i hi j hj
      obtain ⟨p, hp, rfl⟩ := List.mem_map.mp hi
      simp only [List.map_cons, List.map_nil, List.mem_singleton] at hj
      rw [hj, hid]
      exact hret p hp

theorem Log.call (h : Log s) (hc : s.ctl t = .idle) (op : Op) :
    Log ({ s with hist := { s.hist with calls := s.hist.calls ++ [op] } }.goto t
      ⟨s.hist.calls.length, op, 0, none⟩ (Sys.entry op)) := by
  have hgrow : ∀ {i : ℕ} {o : Op}, s.hist.calls[i]? = some o →
      (s.hist.calls ++ [op])[i]? = some o := fun ho => by
    rw [List.getElem?_append_left (id_lt ho)]
    exact ho
  have hcase : ∀ u d qt, (Function.update s.ctl t
      (.at ⟨s.hist.calls.length, op, 0, none⟩ (Sys.entry op))) u = .at d qt →
      (u = t ∧ d = ⟨s.hist.calls.length, op, 0, none⟩ ∧ qt = Sys.entry op) ∨
        (u ≠ t ∧ s.ctl u = .at d qt) := by
    intro u d qt hd
    by_cases hu : u = t
    · subst hu
      rw [Function.update_self] at hd
      simp only [Ctl.at.injEq] at hd
      exact Or.inl ⟨rfl, hd.1.symm, hd.2.symm⟩
    · rw [Function.update_of_ne hu] at hd
      exact Or.inr ⟨hu, hd⟩
  have hfresh : entries s.hist.stored s.hist.calls.length = [] ∧
      entries s.hist.handed s.hist.calls.length = [] :=
    ⟨entries_fresh fun e he => h.old e (List.mem_append_left _ he),
      entries_fresh fun e he => h.old e (List.mem_append_right _ he)⟩
  refine ⟨?_, ?_, ?_, fun p hp => hgrow (h.opReturned p hp), h.settled, ?_, h.nodup, ?_⟩
  · intro u d qt hd
    rcases hcase u d qt hd with ⟨-, rfl, -⟩ | ⟨-, hd⟩
    · simp
    · exact hgrow (h.op u d qt hd)
  · intro u v d e qt rt hd he hde
    rcases hcase u d qt hd with ⟨rfl, rfl, -⟩ | ⟨hu, hd'⟩ <;>
      rcases hcase v e rt he with ⟨rfl, rfl, -⟩ | ⟨hv, he'⟩
    · rfl
    · exact absurd hde (Nat.ne_of_gt (id_lt (h.op v e rt he')))
    · exact absurd hde (Nat.ne_of_lt (id_lt (h.op u d qt hd')))
    · exact h.alone u v d e qt rt hd' he' hde
  · intro u d qt hd
    rcases hcase u d qt hd with ⟨-, rfl, rfl⟩ | ⟨-, hd⟩
    · simp only [Sys.goto_hist, hfresh.1, hfresh.2]
      cases op <;> constructor <;> simp [Sys.entry, Call.hasStored, Call.hasRead, Op.isFetch,
        Point.afterWait]
    · exact h.logged u d qt hd
  · intro p hp u d qt hd
    rcases hcase u d qt hd with ⟨-, rfl, -⟩ | ⟨-, hd⟩
    · exact Nat.ne_of_gt (id_lt (h.opReturned p hp))
    · exact h.gone p hp u d qt hd
  · intro e he
    have := h.old e he
    simp only [Sys.goto_hist, List.length_append, List.length_singleton]
    omega

theorem Log.step (h : Log s) (hinv : Inv s) {a : Act n} (hs : s.step a = some s') : Log s' := by
  cases a with
  | call t op =>
    simp only [Sys.step] at hs
    split at hs
    · rename_i hc
      simp only [Option.some.injEq] at hs
      exact hs ▸ h.call hc op
    · exact absurd hs (by simp)
  | run t =>
    simp only [Sys.step] at hs
    split at hs
    · exact absurd hs (by simp)
    · rename_i c pt hc
      exact h.turn hc (hinv.turn hc hs)
  | tick | events free =>
    simp only [Sys.step, Option.some.injEq] at hs
    exact hs ▸ ⟨h.op, h.alone, h.logged, h.opReturned, h.settled, h.gone, h.nodup, h.old⟩

/-- The history agrees with the calls in every reachable state. -/
theorem reach_log {ok : Sys n → Act n → Prop} (hs : (mboxMachine n).Reach ok s) : Log s :=
  hs.invariant_of (I := Log) (J := Inv) (fun _ => reach_inv) (fun _ h => Sys.Fresh.log h)
    fun _ _ _ hinv h _ hstep => h.step hinv hstep

end LoraGateway.SysArch
