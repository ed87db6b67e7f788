import LoraGateway.SysArch.MboxQueue

/-!
# A call seen from its caller

What a caller knows of the mailbox: the steps of its own call until it returns. A post has its message
in the queue or not (`Ctl.hasStored`), a fetch has a message of the queue in hand or not (`Ctl.hand`), and
what is returned says which (`trypost_step`, `fetch_step`).
-/

namespace LoraGateway.SysArch

open Os Lib

variable {n : ℕ} {s s' : Sys n} {t : Fin n} {c : Call} {pt : Point}

/-- The post in progress has stored its message. -/
def Ctl.hasStored : Ctl → Bool
  | .idle => false
  | .at c pt => c.hasStored pt

/-- The message the fetch in progress has read. -/
def Ctl.hand : Ctl → List Msg
  | .idle => []
  | .at c pt => if c.hasRead pt then c.out.toList else []

theorem Ctl.hand_le (x : Ctl) : x.hand.length ≤ 1 := by
  cases x with
  | idle => exact Nat.zero_le _
  | «at» c pt =>
    rw [Ctl.hand]
    split_ifs
    · cases c.out <;> simp
    · simp

/-- The call that has returned last, and what it returned. -/
def Sys.lastReturn (s : Sys n) : Option (Call × Ret) := s.hist.returned.getLast?

theorem Inv.queue_step (h : Inv s) {a : Act n} (hs : s.step a = some s') {q : List Msg}
    (hq : s.Queue q) :
    (s.label a = none → s'.Queue q) ∧
      (∀ m, s.label a = some (.enq m) → s'.Queue (q ++ [m])) ∧
      ∀ m, s.label a = some (.deq m) → ∃ q', q = m :: q' ∧ s'.Queue q' := by
  refine ⟨fun hl => ((mbox_sim n).silent s a s' q ⟨h, hq⟩ hs hl).2, fun m hl => ?_, fun m hl => ?_⟩
  · obtain ⟨q', hstep, -, hq'⟩ := (mbox_sim n).visible s a s' q _ ⟨h, hq⟩ hs hl
    simp only [fifo, fifoStep] at hstep
    split_ifs at hstep
    rw [Option.some.inj hstep]
    exact hq'
  · obtain ⟨q', hstep, -, hq'⟩ := (mbox_sim n).visible s a s' q _ ⟨h, hq⟩ hs hl
    simp only [fifo, fifoStep] at hstep
    split_ifs at hstep with hhead
    refine ⟨q', ?_, hq'⟩
    rw [← Option.some.inj hstep]
    exact (List.cons_head?_tail hhead).symm

theorem Sys.call_step {t : Fin n} {op : Op} (hs : s.step (.call t op) = some s') :
    s.ctl t = .idle ∧ (∃ c, c.op = op ∧ s'.ctl = Function.update s.ctl t (.at c (Sys.entry op))) ∧
      s.label (.call t op) = none := by
  simp only [Sys.step] at hs
  split at hs
  · rename_i hc
    exact ⟨hc, ⟨_, rfl, by rw [← Option.some.inj hs]; rfl⟩, rfl⟩
  · exact absurd hs (by simp)

theorem Inv.label_post (h : Inv s) (hc : s.ctl t = .at c pt) (hop : c.op.isFetch = false) :
    s.label (.run t) = if pt = .write then some (.enq c.op.msg) else none := by
  have hok := h.okAt hc
  rw [Sys.label, hc]
  cases pt <;> first | rfl | simp [Call.Ok, hop] at hok

theorem Inv.label_fetch (h : Inv s) (hc : s.ctl t = .at c pt) (hop : c.op.isFetch = true) :
    s.label (.run t) = if pt = .read then some (.deq (s.mbox.qMem s.mbox.tail)) else none := by
  have hok := h.okAt hc
  rw [Sys.label, hc]
  cases pt <;> first | rfl | simp [Call.Ok, hop] at hok

/-- A step of `sys_mbox_trypost`: it goes on, with the message entered once on the way, or it
returns and says whether it was. -/
theorem Inv.trypost_step (h : Inv s) (hlog : Log s) (hlog' : Log s') {m : Msg}
    (hc : s.ctl t = .at c pt) (hop : c.op = .trypost m) (hs : s.exec t c pt = some s') :
    (∃ c' pt', s'.ctl = Function.update s.ctl t (.at c' pt') ∧ c'.op = .trypost m ∧
      ((s.label (.run t) = none ∧ c'.hasStored pt' = c.hasStored pt) ∨
        (s.label (.run t) = some (.enq m) ∧ c.hasStored pt = false ∧ c'.hasStored pt' = true))) ∨
    ∃ c', s'.ctl = Function.update s.ctl t .idle ∧ s.label (.run t) = none ∧
      s'.lastReturn = some (c', if c.hasStored pt then .errOk else .errMem) := by
  have hlabel := h.label_post hc (by rw [hop]; rfl)
  simp only [hop, Op.msg] at hlabel
  obtain ⟨-, hst, -, c', hid, hop', hnext⟩ := h.turn hc hs
  have hbefore := (hlog.logged t c pt hc).stored
  have hafter : entries s'.hist.stored c.id =
      entries s.hist.stored c.id ++ if pt = .write then [m] else [] := by
    rw [hst, entries_append, hop]
    split_ifs <;> simp [Op.msg]
  rcases hnext with ⟨pt', hctl, -, -⟩ | ⟨r, hctl, hreturned, hset⟩
  · have hnow := (hlog'.logged t c' pt' (by rw [hctl, Function.update_self])).stored
    rw [hid, hafter, hbefore, hop', hop] at hnow
    refine Or.inl ⟨c', pt', hctl, hop'.trans hop, ?_⟩
    by_cases hw : pt = .write
    · subst hw
      refine Or.inr ⟨by rw [hlabel, if_pos rfl], rfl, ?_⟩
      cases ha : c'.hasStored pt' with
      | true => rfl
      | false => simp [ha] at hnow
    · refine Or.inl ⟨by rw [hlabel, if_neg hw], ?_⟩
      rw [if_neg hw] at hnow
      cases hb : c.hasStored pt <;> cases ha : c'.hasStored pt' <;> simp [hb, ha] at hnow ⊢
  · have hw : pt ≠ .write := by
      rintro rfl
      have hgoto : s'.ctl t = .at c .headInc := by
        rw [← Option.some.inj hs]
        exact Sys.goto_ctl ..
      rw [hctl, Function.update_self] at hgoto
      exact absurd hgoto (by simp)
    refine Or.inr ⟨c', hctl, by rw [hlabel, if_neg hw], ?_⟩
    have hsettled := hset (hlog.logged t c pt hc)
    rw [hafter, if_neg hw, List.append_nil, hbefore] at hsettled
    rw [Sys.lastReturn, hreturned, List.getLast?_concat]
    have hopc : c'.op = .trypost m := hop'.trans hop
    cases r with
    | void => simp [Call.Settled, hopc] at hsettled
    | time ticks => simp [Call.Settled, hopc, Op.isFetch] at hsettled
    | errOk =>
      cases hb : c.hasStored pt with
      | true => rfl
      | false => simp [Call.Settled, hb] at hsettled
    | errMem =>
      cases hb : c.hasStored pt with
      | true => simp [Call.Settled, hb] at hsettled
      | false => rfl

theorem Log.hand_eq (hlog : Log s) (hc : s.ctl t = .at c pt) (hstores : c.op.stores = true) :
    (Ctl.at c pt).hand = entries s.hist.handed c.id := by
  have hl := hlog.logged t c pt hc
  cases hr : c.hasRead pt with
  | false => simp [Ctl.hand, hr, (hl.unread hr).1]
  | true =>
    obtain ⟨m, hm, hout⟩ := hl.read hr
    simp [Ctl.hand, hr, hm, hout hstores]

theorem Log.hand_unlock (hlog : Log s) (hc : s.ctl t = .at c .unlock) {timeout : BitVec 32}
    (hop : c.op = .fetch true timeout) : (Ctl.at c .unlock).hand ≠ [] := by
  have hread : c.hasRead .unlock = true := by rw [Call.hasRead, hop]; rfl
  obtain ⟨m, -, hout⟩ := (hlog.logged t c .unlock hc).read hread
  rw [Ctl.hand, hread, hout (by rw [hop]; rfl)]
  simp

/-- A step of a fetch that stores through its pointer: it goes on, with the oldest message taken once
on the way, or it returns, and unless it timed out it has the message it took. -/
theorem Inv.fetch_step (h : Inv s) (hlog : Log s) (hlog' : Log s') {timeout : BitVec 32}
    (hc : s.ctl t = .at c pt) (hop : c.op = .fetch true timeout) (hs : s.exec t c pt = some s') :
    (∃ c' pt', s'.ctl = Function.update s.ctl t (.at c' pt') ∧ c'.op = .fetch true timeout ∧
      ((s.label (.run t) = none ∧ (Ctl.at c' pt').hand = (Ctl.at c pt).hand) ∨
        ∃ m, s.label (.run t) = some (.deq m) ∧ (Ctl.at c pt).hand = [] ∧
          (Ctl.at c' pt').hand = [m])) ∨
    ∃ c' ticks, s'.ctl = Function.update s.ctl t .idle ∧ s.label (.run t) = none ∧
      s'.lastReturn = some (c', .time ticks) ∧
      ((ticks = sysArchTimeout ∧ (Ctl.at c pt).hand = [] ∧ c'.out.getD 0 = 0) ∨
        ∃ m, ticks ≠ sysArchTimeout ∧ (Ctl.at c pt).hand = [m] ∧ c'.out = some m) := by
  have hlabel := h.label_fetch hc (by rw [hop]; rfl)
  obtain ⟨-, -, hha, c', hid, hop', hnext⟩ := h.turn hc hs
  have hopc : c'.op = .fetch true timeout := hop'.trans hop
  have hbefore := hlog.hand_eq hc (by rw [hop]; rfl)
  have hafter : entries s'.hist.handed c.id =
      entries s.hist.handed c.id ++ if pt = .read then [s.mbox.qMem s.mbox.tail] else [] := by
    rw [hha, entries_append]
    split_ifs <;> simp
  have hempty : pt = .read → (Ctl.at c pt).hand = [] := by
    rintro rfl
    rfl
  rcases hnext with ⟨pt', hctl, -, -⟩ | ⟨r, hctl, hreturned, hset⟩
  · have hctl' : s'.ctl t = .at c' pt' := by rw [hctl, Function.update_self]
    have hnow := hlog'.hand_eq hctl' (by rw [hopc]; rfl)
    rw [hid, hafter, ← hbefore] at hnow
    refine Or.inl ⟨c', pt', hctl, hopc, ?_⟩
    by_cases hr : pt = .read
    · rw [if_pos hr] at hlabel
      rw [if_pos hr, hempty hr] at hnow
      exact Or.inr ⟨_, hlabel, hempty hr, hnow⟩
    · rw [if_neg hr] at hlabel
      rw [if_neg hr, List.append_nil] at hnow
      exact Or.inl ⟨hlabel, hnow⟩
  · have hr : pt ≠ .read := by
      rintro rfl
      have hgoto : s'.ctl t ≠ .idle := by
        rw [← Option.some.inj hs, Sys.goto_ctl]
        simp
      exact hgoto (by rw [hctl, Function.update_self])
    rw [if_neg hr] at hlabel
    have hsettled := hset (hlog.logged t c pt hc)
    rw [hafter, if_neg hr, List.append_nil, ← hbefore] at hsettled
    have hlast : s'.lastReturn = some (c', r) := by
      rw [Sys.lastReturn, hreturned, List.getLast?_concat]
    cases r with
    | void | errOk | errMem => simp [Call.Settled, hopc] at hsettled
    | time ticks =>
      obtain ⟨-, -, htimeout, htaken⟩ := hsettled
      refine Or.inr ⟨c', ticks, hctl, hlabel, hlast, ?_⟩
      by_cases hticks : ticks = sysArchTimeout
      · refine Or.inl ⟨hticks, (htimeout hticks).1, ?_⟩
        cases hout : c'.out with
        | none => rfl
        | some m => exact (htimeout hticks).2 m hout
      · obtain ⟨m, hm, hout⟩ := htaken hticks
        exact Or.inr ⟨m, hticks, hm, hout (by rw [hopc]; rfl)⟩

end LoraGateway.SysArch
