import LoraGateway.Netif.Input
import LoraGateway.SysArch.MboxProgress

/-!
# No received packet is lost

The ledger of `Stack.Ledger` is kept by every step. A step of the mailbox moves nothing, puts the
message of a post at the end of the queue or takes the first one out (`Inv.queue_step`), and the two
tasks are where their calls of the mailbox are (`Stack.Good`), so a message changes hands exactly
where the queue changes.

A step is a statement of `process_mac` (`Stack.Good.stepMac`), one of `tcpip_thread` (`Stack.Good.stepThread`), or one
of somebody else, who has no message of the pool (`Stack.Good.foreign`). That all chains are handed on once follows by
counting (`handed_once`).
-/

namespace LoraGateway.Netif

open Lib SysArch

variable {n : ℕ} {cfg : Setup n} {s s' : Stack n} {q : List Msg}

/-- The two tasks are where their calls of the mailbox are, the others post messages of their own, and
the messages in use are typed. -/
structure Stack.Good (cfg : Setup n) (s : Stack n) : Prop where
  inv : Inv s.sys
  log : Log s.sys
  mac : match s.mac with
    | .posting _ msg => ∃ c pt, s.sys.ctl cfg.mac = .at c pt ∧ c.op = .trypost msg
    | _ => s.sys.ctl cfg.mac = .idle
  thread : match s.thread with
    | .fetching _ => ∃ c pt time, s.sys.ctl cfg.tcpip = .at c pt ∧ c.op = .fetch true time
    | _ => s.sys.ctl cfg.tcpip = .idle
  others : ∀ t, t ≠ cfg.mac → t ≠ cfg.tcpip → ∀ c pt, s.sys.ctl t = .at c pt →
    c.op.isFetch = false ∧ c.op.msg ∉ 0 :: cfg.pool
  inPool : ∀ msg, (s.inp msg).isSome → msg ∈ cfg.pool
  typed : ∀ msg ∈ cfg.pool, msg ∉ s.memp → (s.inp msg).isSome
  carries : ∀ p msg, s.mac = .post p msg ∨ s.mac = .posting p msg → s.inp msg = some p
  done : ∀ msg, s.thread = .release msg → msg ∈ cfg.pool
  ledger : ∃ q, s.sys.Queue q ∧ s.Ledger cfg q

theorem Stack.Ledger.congr (h : s.Ledger cfg q) (hfreed : s'.freed = s.freed)
    (hstored : s'.stored = s.stored) (hallocated : s'.allocated = s.allocated)
    (hhanded : s'.handed = s.handed) (hmemp : s'.memp = s.memp) (hinp : s'.inp = s.inp)
    (hchain : s'.macChain cfg = s.macChain cfg) (hmsg : s'.macMsg cfg = s.macMsg cfg)
    (hhand : s'.threadHand cfg = s.threadHand cfg) (hdone : s'.threadDone = s.threadDone) :
    s'.Ledger cfg q :=
  ⟨by rw [hfreed, hstored, hchain, hallocated]; exact h.chains,
    by rw [hstored, hhanded, hhand, hinp]; exact h.stored,
    by rw [hmemp, hmsg, hdone, hhand]; exact h.msgs⟩

theorem Stack.Ledger.foreign (h : s.Ledger cfg q) {msg : Msg} (hinp : s.inp msg = none)
    (hpool : msg ∉ cfg.pool) : s.Ledger cfg (q ++ [msg]) := by
  refine ⟨h.chains, ?_, ?_⟩
  · rw [h.stored, ← List.append_assoc, List.filterMap_append]
    simp [hinp]
  · rw [← List.append_assoc, List.filter_append]
    simpa [hpool] using h.msgs

theorem Stack.Fresh.good (h : s.Fresh cfg) : s.Good cfg := by
  obtain ⟨hsys, hmac, hthread, hmemp, hinp, halloc, hfreed, hstored, hhanded⟩ := h
  have hctl : s.sys.ctl = fun _ => .idle := by
    obtain ⟨k, -, -, -, -, hctl, -⟩ := hsys
    exact hctl
  obtain ⟨q, hq⟩ := hsys.inv.queue
  have hnil : q = [] := by
    obtain ⟨k, -, -, -, -, -, hhist⟩ := hsys
    simpa [hhist] using hq.1.symm
  subst hnil
  refine ⟨hsys.inv, hsys.log, by simp [hmac, hctl], by simp [hthread, hctl], ?_, ?_, ?_, ?_,
    by simp [hthread], [], hq, ?_⟩
  · intro t _ _ c pt hc
    rw [hctl] at hc
    exact absurd hc (by simp)
  · intro msg hmsg
    simp [hinp] at hmsg
  · intro msg hmem hnot
    exact absurd (hmemp ▸ hmem) hnot
  · intro p msg hp
    simp [hmac] at hp
  · constructor <;>
      simp [hfreed, hstored, hhanded, halloc, hmemp, Stack.macChain, Stack.macMsg, Stack.threadHand,
        Stack.threadDone, hmac, hthread]

theorem Stack.Good.macIdle (h : s.Good cfg) (hm : ∀ p msg, s.mac ≠ .posting p msg) :
    s.sys.ctl cfg.mac = .idle := by
  have hmac := h.mac
  split at hmac
  · rename_i p msg hp
    exact absurd hp (hm p msg)
  · exact hmac

theorem Stack.Good.threadIdle (h : s.Good cfg) (ht : ∀ timers, s.thread ≠ .fetching timers) :
    s.sys.ctl cfg.tcpip = .idle := by
  have hthread := h.thread
  split at hthread
  · rename_i timers hf
    exact absurd hf (ht timers)
  · exact hthread

theorem Stack.Ledger.free_alone (h : s.Ledger cfg q) {msg : Msg} {memp : List Msg}
    (hmemp : s.memp = msg :: memp) :
    msg ∈ cfg.pool ∧ msg ∉ memp ∧ msg ∉ s.threadHand cfg ∧ msg ∉ q := by
  have hnodup : (s.memp ++ s.macMsg cfg ++
      (s.threadDone ++ s.threadHand cfg ++ q).filter (· ∈ cfg.pool)).Nodup :=
    h.msgs.nodup_iff.mpr cfg.nodup
  have hmem : msg ∈ cfg.pool := h.msgs.subset (by simp [hmemp])
  rw [hmemp] at hnodup
  simp only [List.cons_append, List.nodup_cons, List.mem_append, List.mem_filter] at hnodup
  refine ⟨hmem, fun hin => hnodup.1 (by simp [hin]), fun hin => hnodup.1 (by simp [hin, hmem]),
    fun hin => hnodup.1 (by simp [hin, hmem])⟩

theorem Stack.Good.macLocal (h : s.Good cfg) {rx : Received} (hs : s.stepMac cfg rx = some s')
    (hpost : ∀ p msg, s.mac ≠ .post p msg) (hposting : ∀ p msg, s.mac ≠ .posting p msg) :
    s'.Good cfg := by
  have hidle := h.macIdle hposting
  obtain ⟨q, hq, hchains, hstored, hmsgs⟩ := h.ledger
  cases hm : s.mac with
  | post p msg => exact absurd hm (hpost p msg)
  | posting p msg => exact absurd hm (hposting p msg)
  | outside =>
    simp only [Stack.stepMac, hm, Option.some.injEq] at hs
    subst hs
    simp only [Stack.macChain, Stack.macMsg, hm] at hchains hmsgs
    exact ⟨h.inv, h.log, hidle, h.thread, h.others, h.inPool, h.typed, by simp,
      h.done, q, hq, hchains, hstored, hmsgs⟩
  | receive =>
    simp only [Stack.stepMac, hm] at hs
    simp only [Stack.macChain, Stack.macMsg, hm] at hchains hmsgs
    cases rx with
    | nothing | noPbuf =>
      simp only [Option.some.injEq] at hs
      subst hs
      exact ⟨h.inv, h.log, hidle, h.thread, h.others, h.inPool, h.typed, by simp,
        h.done, q, hq, hchains, hstored, hmsgs⟩
    | chain type =>
      simp only [Option.some.injEq] at hs
      subst hs
      refine ⟨h.inv, h.log, hidle, h.thread, h.others, h.inPool, h.typed, by simp,
        h.done, q, hq, ?_, hstored, hmsgs⟩
      simp only [Stack.macChain]
      rw [List.range_succ]
      exact List.Perm.append_right _ (by simpa using hchains)
  | classify p type =>
    simp only [Stack.stepMac, hm, Option.some.injEq] at hs
    subst hs
    simp only [Stack.macChain, Stack.macMsg, hm] at hchains hmsgs
    split_ifs
    · exact ⟨h.inv, h.log, hidle, h.thread, h.others, h.inPool, h.typed, by simp,
        h.done, q, hq, hchains, hstored, hmsgs⟩
    · exact ⟨h.inv, h.log, hidle, h.thread, h.others, h.inPool, h.typed, by simp,
        h.done, q, hq, hchains, hstored, hmsgs⟩
  | valid p =>
    simp only [Stack.stepMac, hm, Option.some.injEq] at hs
    subst hs
    simp only [Stack.macChain, Stack.macMsg, hm] at hchains hmsgs
    split_ifs
    · exact ⟨h.inv, h.log, hidle, h.thread, h.others, h.inPool, h.typed, by simp,
        h.done, q, hq, hchains, hstored, hmsgs⟩
    · exact ⟨h.inv, h.log, hidle, h.thread, h.others, h.inPool, h.typed, by simp,
        h.done, q, hq, hchains, hstored, hmsgs⟩
  | malloc p =>
    simp only [Stack.stepMac, hm] at hs
    split at hs
    · simp only [Option.some.injEq] at hs
      subst hs
      simp only [Stack.macChain, Stack.macMsg, hm] at hchains hmsgs
      exact ⟨h.inv, h.log, hidle, h.thread, h.others, h.inPool, h.typed, by simp,
        h.done, q, hq, hchains, hstored, hmsgs⟩
    · rename_i msg memp hmemp
      obtain ⟨hpool, -, hhand, hqueue⟩ :=
        Stack.Ledger.free_alone ⟨hchains, hstored, hmsgs⟩ hmemp
      simp only [Option.some.injEq] at hs
      subst hs
      simp only [Stack.macChain, Stack.macMsg, hm] at hchains hmsgs
      have hother : ∀ m, m ≠ msg → Function.update s.inp msg (some p) m = s.inp m := fun m hne =>
        Function.update_of_ne hne ..
      refine ⟨h.inv, h.log, hidle, h.thread, h.others, ?_, ?_, ?_, h.done, q, hq, hchains, ?_, ?_⟩
      · intro m hsome
        by_cases hmm : m = msg
        · exact hmm ▸ hpool
        · dsimp only at hsome
          rw [hother m hmm] at hsome
          exact h.inPool m hsome
      · intro m hmem hnot
        dsimp only at hnot ⊢
        by_cases hmm : m = msg
        · rw [hmm, Function.update_self]
          rfl
        · rw [hother m hmm]
          exact h.typed m hmem (by rw [hmemp, List.mem_cons]; exact not_or.mpr ⟨hmm, hnot⟩)
      · intro p' msg' hpost'
        obtain ⟨rfl, rfl⟩ : p = p' ∧ msg = msg' := by simpa using hpost'
        exact Function.update_self ..
      · -- the element was in nobody's hands
        refine hstored.trans (congrArg (s.handed ++ ·) (List.filterMap_congr fun m hmem => ?_))
        refine (hother m fun hmm => ?_).symm
        rcases List.mem_append.mp hmem with hin | hin
        · exact hhand (hmm ▸ hin)
        · exact hqueue (hmm ▸ hin)
      · rw [hmemp] at hmsgs
        refine List.Perm.trans (List.Perm.append_right _ ?_) hmsgs
        simp only [Stack.macMsg, List.append_nil]
        exact List.perm_append_singleton msg memp
  | free p msg =>
    simp only [Stack.stepMac, hm, Option.some.injEq] at hs
    subst hs
    simp only [Stack.macChain, Stack.macMsg, hm] at hchains hmsgs
    refine ⟨h.inv, h.log, hidle, h.thread, h.others, h.inPool, fun m hmem hnot =>
      h.typed m hmem fun hin => hnot (List.mem_cons_of_mem _ hin), by simp,
      h.done, q, hq, hchains, hstored, ?_⟩
    refine List.Perm.trans (List.Perm.append_right _ ?_) hmsgs
    simpa [Stack.macMsg] using (List.perm_append_singleton msg s.memp).symm
  | returned p err =>
    simp only [Stack.stepMac, hm, Option.some.injEq] at hs
    subst hs
    simp only [Stack.macChain, Stack.macMsg, hm] at hchains hmsgs
    cases err with
    | ok =>
      exact ⟨h.inv, h.log, hidle, h.thread, h.others, h.inPool, h.typed, by simp,
        h.done, q, hq, hchains, hstored, hmsgs⟩
    | val | mem =>
      exact ⟨h.inv, h.log, hidle, h.thread, h.others, h.inPool, h.typed, by simp,
        h.done, q, hq, hchains, hstored, hmsgs⟩
  | drop p =>
    simp only [Stack.stepMac, hm, Option.some.injEq] at hs
    subst hs
    simp only [Stack.macChain, Stack.macMsg, hm] at hchains hmsgs
    refine ⟨h.inv, h.log, hidle, h.thread, h.others, h.inPool, h.typed, by simp,
      h.done, q, hq, ?_, hstored, hmsgs⟩
    simp only [Stack.macChain]
    refine List.Perm.trans ?_ hchains
    rw [List.append_nil, List.append_assoc, List.append_assoc]
    exact List.Perm.append_left _ List.perm_append_comm

theorem Stack.stepSys_call {t : Fin n} {op : Op} (hs : s.stepSys (.call t op) = some s') :
    ∃ sys c, s.sys.step (.call t op) = some sys ∧ s' = { s with sys } ∧ s.sys.ctl t = .idle ∧
      c.op = op ∧ sys.ctl = Function.update s.sys.ctl t (.at c (Sys.entry op)) := by
  simp only [Stack.stepSys, Option.map_eq_some_iff] at hs
  obtain ⟨sys, hs, rfl⟩ := hs
  obtain ⟨hidle, ⟨c, hop, hctl⟩, hlabel⟩ := Sys.call_step hs
  refine ⟨sys, c, hs, ?_, hidle, hop, hctl⟩
  rw [hlabel]
  simp

theorem Stack.Good.others_update (h : s.Good cfg) {sys : Sys n} {t : Fin n} {x : Ctl}
    (hctl : sys.ctl = Function.update s.sys.ctl t x)
    (hx : t ≠ cfg.mac → t ≠ cfg.tcpip → ∀ c pt, x = .at c pt →
      c.op.isFetch = false ∧ c.op.msg ∉ 0 :: cfg.pool) :
    ∀ u, u ≠ cfg.mac → u ≠ cfg.tcpip → ∀ c pt, sys.ctl u = .at c pt →
      c.op.isFetch = false ∧ c.op.msg ∉ 0 :: cfg.pool := by
  intro u hmac htcpip c pt hc
  by_cases hu : u = t
  · subst hu
    rw [hctl, Function.update_self] at hc
    exact hx hmac htcpip c pt hc
  · rw [hctl, Function.update_of_ne hu] at hc
    exact h.others u hmac htcpip c pt hc

theorem Stack.Good.post (h : s.Good cfg) {p : Chain} {msg : Msg} {rx : Received}
    (hm : s.mac = .post p msg) (hs : s.stepMac cfg rx = some s') : s'.Good cfg := by
  simp only [Stack.stepMac, hm, Option.map_eq_some_iff] at hs
  obtain ⟨s₁, hs₁, rfl⟩ := hs
  obtain ⟨sys, c, hsys, rfl, hidle, hop, hctl⟩ := Stack.stepSys_call hs₁
  obtain ⟨q, hq, hledger⟩ := h.ledger
  have htcpip : sys.ctl cfg.tcpip = s.sys.ctl cfg.tcpip := by
    rw [hctl, Function.update_of_ne cfg.ne.symm]
  have hself : sys.ctl cfg.mac = .at c (.lock .accept) := by
    rw [hctl, Function.update_self]
    rfl
  refine ⟨h.inv.step hsys, h.log.step h.inv hsys, ⟨c, _, hself, hop⟩, ?_,
    h.others_update hctl fun hne => absurd rfl hne, h.inPool, h.typed, ?_,
    h.done, q, (h.inv.queue_step hsys hq).1 rfl, ?_⟩
  · have hthread := h.thread
    simp only [htcpip]
    exact hthread
  · intro p' msg' hpost'
    obtain ⟨rfl, rfl⟩ : p = p' ∧ msg = msg' := by simpa using hpost'
    exact h.carries p msg (Or.inl hm)
  · refine hledger.congr rfl rfl rfl rfl rfl rfl ?_ ?_ ?_ rfl
    · simp [Stack.macChain, hm, hself, Ctl.hasStored, Call.hasStored]
    · simp [Stack.macMsg, hm, hself, Ctl.hasStored, Call.hasStored]
    · simp [Stack.threadHand, htcpip]

theorem Stack.Good.posting (h : s.Good cfg) {p : Chain} {msg : Msg} {rx : Received}
    (hm : s.mac = .posting p msg) (hs : s.stepMac cfg rx = some s') : s'.Good cfg := by
  simp only [Stack.stepMac, hm, Option.bind_eq_some_iff] at hs
  obtain ⟨s₁, hs₁, hs⟩ := hs
  simp only [Stack.stepSys, Option.map_eq_some_iff] at hs₁
  obtain ⟨sys, hsys, rfl⟩ := hs₁
  obtain ⟨c, pt, hc, hop⟩ : ∃ c pt, s.sys.ctl cfg.mac = .at c pt ∧ c.op = .trypost msg := by
    have hmac := h.mac
    rw [hm] at hmac
    exact hmac
  have hexec : s.sys.exec cfg.mac c pt = some sys := by
    simpa only [Sys.step, hc] using hsys
  have hinv := h.inv.step hsys
  have hlog := h.log.step h.inv hsys
  have hinp : s.inp msg = some p := h.carries p msg (Or.inr hm)
  have hpool : msg ∈ cfg.pool := h.inPool msg (by rw [hinp]; rfl)
  obtain ⟨q, hq, hchains, hstored, hmsgs⟩ := h.ledger
  simp only [Stack.macChain, Stack.macMsg, hm, hc, Ctl.hasStored] at hchains hmsgs
  obtain ⟨hsilent, henq, -⟩ := h.inv.queue_step hsys hq
  have htcpip : ∀ x, sys.ctl = Function.update s.sys.ctl cfg.mac x →
      sys.ctl cfg.tcpip = s.sys.ctl cfg.tcpip := fun x hctl => by
    rw [hctl, Function.update_of_ne cfg.ne.symm]
  have hthread : ∀ x, sys.ctl = Function.update s.sys.ctl cfg.mac x → (match s.thread with
      | .fetching _ => ∃ c pt time, sys.ctl cfg.tcpip = .at c pt ∧ c.op = .fetch true time
      | _ => sys.ctl cfg.tcpip = .idle) := fun x hctl => by
    rw [htcpip x hctl]
    exact h.thread
  have hothers : ∀ x, sys.ctl = Function.update s.sys.ctl cfg.mac x →
      ∀ u, u ≠ cfg.mac → u ≠ cfg.tcpip → ∀ c pt, sys.ctl u = .at c pt →
        c.op.isFetch = false ∧ c.op.msg ∉ 0 :: cfg.pool := fun x hctl =>
    h.others_update hctl fun hne => absurd rfl hne
  rcases h.inv.trypost_step h.log hlog hc hop hexec with
    ⟨c', pt', hctl, hop', hcase⟩ | ⟨c', hctl, hlabel, hlast⟩
  · have hself : sys.ctl cfg.mac = .at c' pt' := by rw [hctl, Function.update_self]
    simp only [hself, Option.some.injEq] at hs
    subst hs
    have hmac : ∃ c pt, sys.ctl cfg.mac = .at c pt ∧ c.op = .trypost msg := ⟨c', pt', hself, hop'⟩
    rcases hcase with ⟨hlabel, hsame⟩ | ⟨hlabel, hno, hyes⟩
    · refine ⟨hinv, hlog, by simpa only [hm] using hmac, hthread _ hctl, hothers _ hctl, h.inPool,
        h.typed, h.carries, h.done, q, hsilent hlabel, ?_, ?_, ?_⟩
      · simpa [Stack.macChain, hm, hself, Ctl.hasStored, hlabel, hsame] using hchains
      · simpa [Stack.threadHand, htcpip _ hctl, hlabel] using hstored
      · simpa [Stack.macMsg, hm, hself, Ctl.hasStored, hsame, Stack.threadHand, htcpip _ hctl,
          Stack.threadDone] using hmsgs
    · -- the message, and the chain with it, goes from the hands of `tcpip_input` into the queue
      rw [hno] at hchains hmsgs
      refine ⟨hinv, hlog, by simpa only [hm] using hmac, hthread _ hctl, hothers _ hctl, h.inPool,
        h.typed, h.carries, h.done, q ++ [msg], henq msg hlabel, ?_, ?_, ?_⟩
      · simpa [Stack.macChain, hm, hself, Ctl.hasStored, hlabel, hyes, FifoAct.enq?, hinp]
          using hchains
      · simp [Stack.threadHand, htcpip _ hctl, hlabel, FifoAct.enq?, hinp] at hstored ⊢
        simp [hstored]
      · simp only [Stack.macMsg, hm, hself, Ctl.hasStored, hyes, Stack.threadHand, htcpip _ hctl,
          Stack.threadDone, if_true, List.append_nil]
        refine List.Perm.trans ?_ hmsgs
        rw [← List.append_assoc, List.filter_append, List.filter_cons_of_pos (by simpa using hpool),
          List.filter_nil, List.append_assoc s.memp]
        exact List.Perm.append_left _ List.perm_append_comm
  · have hself : sys.ctl cfg.mac = .idle := by rw [hctl, Function.update_self]
    simp only [hself, hlast, Option.map_some, Option.some.injEq] at hs
    subst hs
    cases hb : c.hasStored pt with
    | true =>
      simp only [hb, if_true] at hchains hmsgs ⊢
      refine ⟨hinv, hlog, hself, hthread _ hctl, hothers _ hctl, h.inPool, h.typed, by simp, h.done, q,
        hsilent hlabel, ?_, ?_, ?_⟩
      · simpa [Stack.macChain, hlabel] using hchains
      · simpa [Stack.threadHand, htcpip _ hctl, hlabel] using hstored
      · simpa [Stack.macMsg, Stack.threadHand, htcpip _ hctl, Stack.threadDone] using hmsgs
    | false =>
      simp only [hb, Bool.false_eq_true, if_false, reduceCtorEq] at hchains hmsgs ⊢
      refine ⟨hinv, hlog, hself, hthread _ hctl, hothers _ hctl, h.inPool, h.typed, by simp, h.done, q,
        hsilent hlabel, ?_, ?_, ?_⟩
      · simpa [Stack.macChain, hlabel] using hchains
      · simpa [Stack.threadHand, htcpip _ hctl, hlabel] using hstored
      · simpa [Stack.macMsg, Stack.threadHand, htcpip _ hctl, Stack.threadDone] using hmsgs

theorem Stack.Good.stepMac (h : s.Good cfg) {rx : Received} (hs : s.stepMac cfg rx = some s') :
    s'.Good cfg := by
  cases hm : s.mac with
  | post p msg => exact h.post hm hs
  | posting p msg => exact h.posting hm hs
  | _ => exact h.macLocal hs (by simp [hm]) (by simp [hm])

/-! ## `tcpip_thread` -/

theorem Stack.Good.fetch (h : s.Good cfg) {time : BitVec 32} {timers : Bool} {s₁ : Stack n}
    (ht : s.thread = .fetch) (hs₁ : s.stepSys (.call cfg.tcpip (.fetch true time)) = some s₁) :
    Stack.Good cfg { s₁ with thread := .fetching timers } := by
  obtain ⟨sys, c, hsys, rfl, hidle, hop, hctl⟩ := Stack.stepSys_call hs₁
  obtain ⟨q, hq, hledger⟩ := h.ledger
  have hmac : sys.ctl cfg.mac = s.sys.ctl cfg.mac := by
    rw [hctl, Function.update_of_ne cfg.ne]
  have hself : sys.ctl cfg.tcpip = .at c (.wait .accept) := by
    rw [hctl, Function.update_self]
    rfl
  refine ⟨h.inv.step hsys, h.log.step h.inv hsys, ?_, ⟨c, _, time, hself, hop⟩,
    h.others_update hctl fun _ hne => absurd rfl hne, h.inPool, h.typed, h.carries,
    by simp, q, (h.inv.queue_step hsys hq).1 rfl, ?_⟩
  · simp only [hmac]
    exact h.mac
  · refine hledger.congr rfl rfl rfl rfl rfl rfl ?_ ?_ ?_ ?_
    · simp [Stack.macChain, hmac]
    · simp [Stack.macMsg, hmac]
    · simp [Stack.threadHand, ht, hself, Ctl.hand, Call.hasRead]
    · simp [Stack.threadDone, ht]

theorem Stack.Good.fetching (h : s.Good cfg) {timers : Bool} {timer : Option (BitVec 32)}
    (ht : s.thread = .fetching timers) (hs : s.stepThread cfg timer = some s') : s'.Good cfg := by
  simp only [Stack.stepThread, ht, Option.bind_eq_some_iff] at hs
  obtain ⟨s₁, hs₁, hs⟩ := hs
  simp only [Stack.stepSys, Option.map_eq_some_iff] at hs₁
  obtain ⟨sys, hsys, rfl⟩ := hs₁
  obtain ⟨c, pt, time, hc, hop⟩ :
      ∃ c pt time, s.sys.ctl cfg.tcpip = .at c pt ∧ c.op = .fetch true time := by
    have hthread := h.thread
    rw [ht] at hthread
    exact hthread
  have hexec : s.sys.exec cfg.tcpip c pt = some sys := by
    simpa only [Sys.step, hc] using hsys
  have hinv := h.inv.step hsys
  have hlog := h.log.step h.inv hsys
  obtain ⟨q, hq, hchains, hstored, hmsgs⟩ := h.ledger
  simp only [Stack.threadHand, Stack.threadDone, ht, hc] at hstored hmsgs
  obtain ⟨hsilent, -, hdeq⟩ := h.inv.queue_step hsys hq
  have hmac : ∀ x, sys.ctl = Function.update s.sys.ctl cfg.tcpip x →
      sys.ctl cfg.mac = s.sys.ctl cfg.mac := fun x hctl => by
    rw [hctl, Function.update_of_ne cfg.ne]
  have hmac' : ∀ x, sys.ctl = Function.update s.sys.ctl cfg.tcpip x → (match s.mac with
      | .posting _ msg => ∃ c pt, sys.ctl cfg.mac = .at c pt ∧ c.op = .trypost msg
      | _ => sys.ctl cfg.mac = .idle) := fun x hctl => by
    rw [hmac x hctl]
    exact h.mac
  have hothers : ∀ x, sys.ctl = Function.update s.sys.ctl cfg.tcpip x →
      ∀ u, u ≠ cfg.mac → u ≠ cfg.tcpip → ∀ c pt, sys.ctl u = .at c pt →
        c.op.isFetch = false ∧ c.op.msg ∉ 0 :: cfg.pool := fun x hctl =>
    h.others_update hctl fun _ hne => absurd rfl hne
  rcases h.inv.fetch_step h.log hlog hc hop hexec with
    ⟨c', pt', hctl, hop', hcase⟩ | ⟨c', ticks, hctl, hlabel, hlast, hcase⟩
  · have hself : sys.ctl cfg.tcpip = .at c' pt' := by rw [hctl, Function.update_self]
    simp only [hself, Option.some.injEq] at hs
    subst hs
    have hthread : ∃ c pt time, sys.ctl cfg.tcpip = .at c pt ∧ c.op = .fetch true time :=
      ⟨c', pt', time, hself, hop'⟩
    rcases hcase with ⟨hlabel, hsame⟩ | ⟨m, hlabel, hempty, htaken⟩
    · refine ⟨hinv, hlog, hmac' _ hctl, by simpa only [ht] using hthread, hothers _ hctl, h.inPool,
        h.typed, h.carries, h.done, q, hsilent hlabel, ?_, ?_, ?_⟩
      · simpa [Stack.macChain, hmac _ hctl, hlabel] using hchains
      · simpa [Stack.threadHand, ht, hself, hlabel, hsame] using hstored
      · simpa [Stack.macMsg, hmac _ hctl, Stack.threadHand, Stack.threadDone, ht, hself, hsame]
          using hmsgs
    · -- the oldest message goes from the queue into the hands of the thread
      obtain ⟨q', rfl, hq'⟩ := hdeq m hlabel
      have hnothing : [FifoAct.deq m].filterMap FifoAct.enq? = [] := rfl
      rw [hempty, List.nil_append, ← List.singleton_append, List.filterMap_append] at hstored
      refine ⟨hinv, hlog, hmac' _ hctl, by simpa only [ht] using hthread, hothers _ hctl, h.inPool,
        h.typed, h.carries, h.done, q', hq', ?_, ?_, ?_⟩
      · simpa [Stack.macChain, hmac _ hctl, hlabel, hnothing] using hchains
      · simpa [Stack.threadHand, ht, hself, hlabel, hnothing, htaken] using hstored
      · simpa [Stack.macMsg, hmac _ hctl, Stack.threadHand, Stack.threadDone, ht, hself, hempty,
          htaken] using hmsgs
  · have hself : sys.ctl cfg.tcpip = .idle := by rw [hctl, Function.update_self]
    have hzero : 0#32 ∉ cfg.pool := cfg.nonNull
    have hinp0 : s.inp 0#32 = none := by
      by_contra hno
      exact hzero (h.inPool _ (Option.isSome_iff_ne_none.mpr hno))
    simp only [hself, hlast, Option.map_some, Option.some.injEq, Ret.time.injEq] at hs
    subst hs
    rcases hcase with ⟨hticks, hempty, hout⟩ | ⟨m, hticks, hm, hout⟩
    · rw [hempty] at hstored hmsgs
      cases timers with
      | true =>
        simp only [hticks, and_self, if_true]
        refine ⟨hinv, hlog, hmac' _ hctl, hself, hothers _ hctl, h.inPool, h.typed, h.carries,
          by simp, q, hsilent hlabel, ?_, ?_, ?_⟩
        · simpa [Stack.macChain, hmac _ hctl, hlabel] using hchains
        · simpa [Stack.threadHand, hlabel] using hstored
        · simpa [Stack.macMsg, hmac _ hctl, Stack.threadHand, Stack.threadDone] using hmsgs
      | false =>
        -- no timer and no message: what it goes on with is the null pointer
        simp only [Bool.false_eq_true, and_false, if_false, hout]
        refine ⟨hinv, hlog, hmac' _ hctl, hself, hothers _ hctl, h.inPool, h.typed, h.carries,
          by simp, q, hsilent hlabel, ?_, ?_, ?_⟩
        · simpa [Stack.macChain, hmac _ hctl, hlabel] using hchains
        · simpa [Stack.threadHand, hlabel, List.filterMap_cons, hinp0] using hstored
        · simpa [Stack.macMsg, hmac _ hctl, Stack.threadHand, Stack.threadDone,
            List.filter_cons, hzero] using hmsgs
    · rw [hm] at hstored hmsgs
      rw [List.filterMap_append] at hstored
      simp only [hticks, false_and, if_false, hout, Option.getD_some]
      refine ⟨hinv, hlog, hmac' _ hctl, hself, hothers _ hctl, h.inPool, h.typed, h.carries,
        by simp, q, hsilent hlabel, ?_, ?_, ?_⟩
      · simpa [Stack.macChain, hmac _ hctl, hlabel] using hchains
      · simpa [Stack.threadHand, hlabel] using hstored
      · simpa [Stack.macMsg, hmac _ hctl, Stack.threadHand, Stack.threadDone] using hmsgs

theorem Stack.Good.threadLocal (h : s.Good cfg) {timer : Option (BitVec 32)}
    (hs : s.stepThread cfg timer = some s') (hfetch : s.thread ≠ .fetch)
    (hfetching : ∀ timers, s.thread ≠ .fetching timers) : s'.Good cfg := by
  have hidle := h.threadIdle hfetching
  obtain ⟨q, hq, hchains, hstored, hmsgs⟩ := h.ledger
  cases ht : s.thread with
  | fetch => exact absurd ht hfetch
  | fetching timers => exact absurd ht (hfetching timers)
  | dispatch msg =>
    simp only [Stack.stepThread, ht] at hs
    simp only [Stack.threadHand, Stack.threadDone, ht] at hstored hmsgs
    split_ifs at hs with hnull
    split at hs
    · rename_i p hp
      simp only [Option.some.injEq] at hs
      subst hs
      refine ⟨h.inv, h.log, h.mac, hidle, h.others, h.inPool, h.typed, h.carries,
        ?_, q, hq, hchains, ?_, hmsgs⟩
      · rintro m hm
        obtain rfl : msg = m := by simpa using hm
        exact h.inPool msg (by rw [hp]; rfl)
      · simpa [Stack.threadHand, hp] using hstored
    · rename_i hp
      simp only [Option.some.injEq] at hs
      subst hs
      -- an element of the pool would be typed
      have hforeign : msg ∉ cfg.pool := by
        intro hpool
        have hused : msg ∉ s.memp := fun hmem => by
          have hnodup := hmsgs.nodup_iff.mpr cfg.nodup
          rw [List.append_assoc, List.nodup_append] at hnodup
          exact hnodup.2.2 msg hmem msg (by simp [hpool]) rfl
        have hsome := h.typed msg hpool hused
        rw [hp] at hsome
        exact absurd hsome (by decide)
      refine ⟨h.inv, h.log, h.mac, hidle, h.others, h.inPool, h.typed, h.carries, by simp, q, hq,
        hchains, ?_, ?_⟩
      · simpa [Stack.threadHand, hp] using hstored
      · simpa [Stack.threadHand, Stack.threadDone, Stack.macMsg, hforeign] using hmsgs
  | release msg =>
    simp only [Stack.stepThread, ht, Option.some.injEq] at hs
    subst hs
    have hpool := h.done msg ht
    simp only [Stack.threadHand, Stack.threadDone, ht] at hstored hmsgs
    refine ⟨h.inv, h.log, h.mac, hidle, h.others, h.inPool, fun m hmem hnot =>
      h.typed m hmem fun hin => hnot (List.mem_cons_of_mem _ hin), h.carries, by simp, q, hq,
      hchains, hstored, ?_⟩
    have hkeep : ([msg] ++ [] ++ q).filter (· ∈ cfg.pool) = msg :: q.filter (· ∈ cfg.pool) := by
      simp [hpool]
    rw [hkeep] at hmsgs
    exact List.Perm.trans List.perm_middle.symm hmsgs

theorem Stack.Good.stepThread (h : s.Good cfg) {timer : Option (BitVec 32)}
    (hs : s.stepThread cfg timer = some s') : s'.Good cfg := by
  cases ht : s.thread with
  | fetching timers => exact h.fetching ht hs
  | dispatch msg | release msg => exact h.threadLocal hs (by simp [ht]) (by simp [ht])
  | fetch =>
    simp only [Stack.stepThread, ht] at hs
    cases timer with
    | none =>
      obtain ⟨s₁, hs₁, rfl⟩ := Option.map_eq_some_iff.mp hs
      exact h.fetch ht hs₁
    | some time =>
      dsimp only at hs
      split_ifs at hs
      · exact Option.some.inj hs ▸ h
      · obtain ⟨s₁, hs₁, rfl⟩ := Option.map_eq_some_iff.mp hs
        exact h.fetch ht hs₁

/-! ## Everybody else -/

theorem Stack.Good.foreign (h : s.Good cfg) {sys : Sys n} {a : Act n}
    (hsys : s.sys.step a = some sys) (hmac : sys.ctl cfg.mac = s.sys.ctl cfg.mac)
    (htcpip : sys.ctl cfg.tcpip = s.sys.ctl cfg.tcpip)
    (hothers : ∀ u, u ≠ cfg.mac → u ≠ cfg.tcpip → ∀ c pt, sys.ctl u = .at c pt →
      c.op.isFetch = false ∧ c.op.msg ∉ 0 :: cfg.pool)
    (hlabel : s.sys.label a = none ∨ ∃ msg ∉ cfg.pool, s.sys.label a = some (.enq msg))
    (hs : s.stepSys a = some s') : s'.Good cfg := by
  simp only [Stack.stepSys, hsys, Option.map_some, Option.some.injEq] at hs
  subst hs
  obtain ⟨q, hq, hledger⟩ := h.ledger
  obtain ⟨hsilent, henq, -⟩ := h.inv.queue_step hsys hq
  have hstored : ((s.sys.label a).toList.filterMap FifoAct.enq?).filterMap s.inp = [] := by
    rcases hlabel with hl | ⟨msg, hmsg, hl⟩
    · simp [hl]
    · have hnone : s.inp msg = none := by
        by_contra hno
        exact hmsg (h.inPool msg (Option.isSome_iff_ne_none.mpr hno))
      simp [hl, FifoAct.enq?, hnone]
  have hledger' : ∀ q', s.Ledger cfg q' → Stack.Ledger cfg { s with
      sys, stored := s.stored ++ ((s.sys.label a).toList.filterMap FifoAct.enq?).filterMap s.inp }
      q' := by
    intro q' hl
    refine hl.congr rfl (by simp [hstored]) rfl rfl rfl rfl ?_ ?_ ?_ rfl
    · simp [Stack.macChain, hmac]
    · simp [Stack.macMsg, hmac]
    · simp [Stack.threadHand, htcpip]
  refine ⟨h.inv.step hsys, h.log.step h.inv hsys, ?_, ?_, hothers, h.inPool, h.typed, h.carries,
    h.done, ?_⟩
  · simp only [hmac]
    exact h.mac
  · simp only [htcpip]
    exact h.thread
  · rcases hlabel with hl | ⟨msg, hmsg, hl⟩
    · exact ⟨q, hsilent hl, hledger' q hledger⟩
    · refine ⟨q ++ [msg], henq msg hl, hledger' _ (hledger.foreign ?_ hmsg)⟩
      by_contra hno
      exact hmsg (h.inPool msg (Option.isSome_iff_ne_none.mpr hno))

theorem Stack.Good.other (h : s.Good cfg) {a : Act n} (ha : cfg.others a = true)
    (hs : s.stepSys a = some s') : s'.Good cfg := by
  have hstep := hs
  simp only [Stack.stepSys, Option.map_eq_some_iff] at hstep
  obtain ⟨sys, hsys, -⟩ := hstep
  cases a with
  | call t op =>
    obtain ⟨hidle, ⟨c, hop, hctl⟩, hlabel⟩ := Sys.call_step hsys
    have hne : t ≠ cfg.mac ∧ t ≠ cfg.tcpip ∧ op.isFetch = false ∧ op.msg ∉ 0 :: cfg.pool := by
      cases op <;> simp_all [Setup.others, Op.isFetch, Op.msg]
    refine h.foreign hsys ?_ ?_ (h.others_update hctl fun _ _ d pt hd => ?_) (Or.inl hlabel) hs
    · rw [hctl, Function.update_of_ne hne.1.symm]
    · rw [hctl, Function.update_of_ne hne.2.1.symm]
    · obtain ⟨rfl, -⟩ : c = d ∧ Sys.entry op = pt := by simpa using hd
      rw [hop]
      exact hne.2.2
  | run t =>
    obtain ⟨hmac, htcpip⟩ : t ≠ cfg.mac ∧ t ≠ cfg.tcpip := by simpa [Setup.others] using ha
    cases hc : s.sys.ctl t with
    | idle => simp [Sys.step, hc] at hsys
    | «at» c pt =>
      have hexec : s.sys.exec t c pt = some sys := by
        simpa only [Sys.step, hc] using hsys
      obtain ⟨hop, hmsg⟩ := h.others t hmac htcpip c pt hc
      obtain ⟨-, -, -, c', -, hop', hnext⟩ := h.inv.turn hc hexec
      obtain ⟨x, hctl, hx⟩ : ∃ x, sys.ctl = Function.update s.sys.ctl t x ∧
          ∀ d pt, x = .at d pt → d.op = c.op := by
        rcases hnext with ⟨pt', hctl, -⟩ | ⟨r, hctl, -⟩
        · refine ⟨_, hctl, fun d pt hd => ?_⟩
          rw [← (Ctl.at.inj hd).1]
          exact hop'
        · exact ⟨_, hctl, fun d pt hd => absurd hd (by simp)⟩
      refine h.foreign hsys ?_ ?_ (h.others_update hctl fun _ _ d qt hd => ?_) ?_ hs
      · rw [hctl, Function.update_of_ne hmac.symm]
      · rw [hctl, Function.update_of_ne htcpip.symm]
      · rw [hx d qt hd]
        exact ⟨hop, hmsg⟩
      · rw [h.inv.label_post hc hop]
        split_ifs
        · exact Or.inr ⟨_, fun hpool => hmsg (List.mem_cons_of_mem 0 hpool), rfl⟩
        · exact Or.inl rfl
  | tick | events free =>
    have hctl : sys.ctl = s.sys.ctl := by
      rw [← Option.some.inj hsys]
      rfl
    exact h.foreign hsys (by rw [hctl]) (by rw [hctl]) (by rw [hctl]; exact h.others) (Or.inl rfl) hs

theorem Stack.Good.step (h : s.Good cfg) {a : InAct n} (hs : s.step cfg a = some s') :
    s'.Good cfg := by
  cases a with
  | mac rx => exact h.stepMac hs
  | thread timer => exact h.stepThread hs
  | other a =>
    simp only [Stack.step] at hs
    split_ifs at hs with ha
    exact h.other ha hs
  | mboxNew =>
    obtain ⟨q, hq, hledger⟩ := h.ledger
    rw [← Option.some.inj hs]
    exact ⟨h.inv, h.log, h.mac, h.thread, h.others, h.inPool, h.typed, h.carries, h.done,
      q, hq, hledger.congr rfl rfl rfl rfl rfl rfl rfl rfl rfl rfl⟩

theorem reach_good {ok : Stack n → InAct n → Prop} (hs : (inputMachine cfg).Reach ok s) :
    s.Good cfg :=
  hs.invariant (I := Stack.Good cfg) (fun _ h => Stack.Fresh.good h) fun _ _ _ h _ hstep =>
    h.step hstep

/-! ## What the ledger says -/

/-- No chain is freed twice, or freed and passed on; between two calls of `ethernetif_input` every chain
allocated has been freed once or stored in one message; those stored are, in order, the ones handed to
`ethernet_input`, the one `tcpip_thread` has fetched and the ones in the mailbox; and every `tcpip_msg` of
the pool is in one place: free, about to be stored, fetched and not given back, or in the mailbox. -/
structure Stack.Accounted (cfg : Setup n) (s : Stack n) : Prop where
  once : ∀ p, s.freed.count p + s.stored.count p ≤ 1
  ended : s.mac = .outside ∨ s.mac = .receive →
    ∀ p < s.allocated, s.freed.count p + s.stored.count p = 1
  rest : ∃ q, s.sys.Queue q ∧ s.stored = s.handed ++ (s.threadHand cfg ++ q).filterMap s.inp ∧
    ∀ msg ∈ cfg.pool, s.memp.count msg + (s.macMsg cfg).count msg +
      (s.threadDone ++ s.threadHand cfg).count msg + q.count msg = 1

/-- A step of `tcpip_thread`. -/
def InAct.isThread : InAct n → Bool
  | .thread _ => true
  | _ => false

/-- A step is at most one of the mailbox, as far as what is stored goes, and takes nothing back. The fetches of
`tcpip_thread` are in its own steps. -/
theorem Stack.step_shape {a : InAct n} (hs : s.step cfg a = some s') :
    s.handed <+: s'.handed ∧ ((s'.stored = s.stored ∧ s'.sys = s.sys) ∨
      ∃ b s₁, s.stepSys b = some s₁ ∧ s'.stored = s₁.stored ∧ s'.sys = s₁.sys ∧
        (b.task = some cfg.tcpip → a.isThread = true)) := by
  have hsys : ∀ {b : Act n} {s₁ : Stack n}, s.stepSys b = some s₁ → s₁.handed = s.handed := by
    intro b s₁ hs₁
    simp only [Stack.stepSys, Option.map_eq_some_iff] at hs₁
    obtain ⟨sys, -, rfl⟩ := hs₁
    rfl
  cases a with
  | mboxNew =>
    rw [← Option.some.inj hs]
    exact ⟨List.prefix_rfl, Or.inl ⟨rfl, rfl⟩⟩
  | other a =>
    simp only [Stack.step] at hs
    split_ifs at hs
    rename_i ha
    refine ⟨by rw [hsys hs], Or.inr ⟨a, s', hs, rfl, rfl, fun htask => ?_⟩⟩
    cases a with
    | call t op => cases op <;> simp_all [Setup.others, Act.task]
    | run t => simp_all [Setup.others, Act.task]
    | _ => exact absurd htask (by simp [Act.task])
  | mac rx =>
    simp only [Stack.step, Stack.stepMac] at hs
    split at hs
    case h_6 =>
      obtain ⟨s₁, hs₁, rfl⟩ := Option.map_eq_some_iff.mp hs
      exact ⟨by simp [hsys hs₁], Or.inr ⟨_, s₁, hs₁, rfl, rfl, fun htask => absurd (Option.some.inj htask) cfg.ne⟩⟩
    case h_7 =>
      obtain ⟨s₁, hs₁, hs⟩ := Option.bind_eq_some_iff.mp hs
      split at hs
      · rw [← Option.some.inj hs]
        exact ⟨by rw [hsys hs₁], Or.inr ⟨_, s₁, hs₁, rfl, rfl, fun htask => absurd (Option.some.inj htask) cfg.ne⟩⟩
      · obtain ⟨r, -, rfl⟩ := Option.map_eq_some_iff.mp hs
        exact ⟨by simp [hsys hs₁], Or.inr ⟨_, s₁, hs₁, rfl, rfl, fun htask => absurd (Option.some.inj htask) cfg.ne⟩⟩
    all_goals
      first
        | (rw [← Option.some.inj hs]; exact ⟨List.prefix_rfl, Or.inl ⟨rfl, rfl⟩⟩)
        | (split at hs <;> rw [← Option.some.inj hs] <;>
            exact ⟨List.prefix_rfl, Or.inl ⟨rfl, rfl⟩⟩)
  | thread timer =>
    simp only [Stack.step, Stack.stepThread] at hs
    split at hs
    · split at hs
      · obtain ⟨s₁, hs₁, rfl⟩ := Option.map_eq_some_iff.mp hs
        exact ⟨by simp [hsys hs₁], Or.inr ⟨_, s₁, hs₁, rfl, rfl, fun _ => rfl⟩⟩
      · split_ifs at hs
        · rw [← Option.some.inj hs]
          exact ⟨List.prefix_rfl, Or.inl ⟨rfl, rfl⟩⟩
        · obtain ⟨s₁, hs₁, rfl⟩ := Option.map_eq_some_iff.mp hs
          exact ⟨by simp [hsys hs₁], Or.inr ⟨_, s₁, hs₁, rfl, rfl, fun _ => rfl⟩⟩
    · obtain ⟨s₁, hs₁, hs⟩ := Option.bind_eq_some_iff.mp hs
      split at hs
      · rw [← Option.some.inj hs]
        exact ⟨by rw [hsys hs₁], Or.inr ⟨_, s₁, hs₁, rfl, rfl, fun _ => rfl⟩⟩
      · obtain ⟨r, -, rfl⟩ := Option.map_eq_some_iff.mp hs
        exact ⟨by simp [hsys hs₁], Or.inr ⟨_, s₁, hs₁, rfl, rfl, fun _ => rfl⟩⟩
    · split_ifs at hs
      split at hs <;> rw [← Option.some.inj hs]
      · exact ⟨List.prefix_append .., Or.inl ⟨rfl, rfl⟩⟩
      · exact ⟨List.prefix_rfl, Or.inl ⟨rfl, rfl⟩⟩
    · rw [← Option.some.inj hs]
      exact ⟨List.prefix_rfl, Or.inl ⟨rfl, rfl⟩⟩

/-! ## Handed on once -/

theorem Stack.Good.enq_source (h : s.Good cfg) {a : Act n} {msg : Msg}
    (hlabel : s.sys.label a = some (.enq msg)) : (s.inp msg).isSome ∨ msg ∉ 0 :: cfg.pool := by
  obtain ⟨t, c, hc, rfl⟩ : ∃ t c, s.sys.ctl t = .at c .write ∧ msg = c.op.msg := by
    cases a with
    | run t =>
      rw [Sys.label] at hlabel
      split at hlabel
      · rename_i c hc
        exact ⟨t, c, hc, (FifoAct.enq.inj (Option.some.inj hlabel)).symm⟩
      · exact absurd (Option.some.inj hlabel) (by simp)
      · exact absurd hlabel (by simp)
    | _ => exact absurd hlabel (by simp [Sys.label])
  by_cases hmac : t = cfg.mac
  · subst hmac
    have hm := h.mac
    split at hm
    · rename_i p msg hposting
      obtain ⟨d, pt, hd, hop⟩ := hm
      rw [hc, Ctl.at.injEq] at hd
      rw [hd.1, hop, Op.msg, h.carries p msg (Or.inr hposting)]
      exact .inl rfl
    · rw [hc] at hm
      exact absurd hm (by simp)
  by_cases htcpip : t = cfg.tcpip
  · subst htcpip
    have hop : c.op.isFetch = false := h.inv.okAt hc
    have ht := h.thread
    split at ht
    · obtain ⟨d, pt, time, hd, hfetch⟩ := ht
      rw [hc, Ctl.at.injEq] at hd
      rw [hd.1, hfetch] at hop
      exact absurd hop (by simp [Op.isFetch])
    · rw [hc] at ht
      exact absurd ht (by simp)
  · exact .inr (h.others t hmac htcpip c _ hc).2

theorem Stack.Good.enq_typed (h : s.Good cfg) {a : Act n} {msg : Msg}
    (hlabel : s.sys.label a = some (.enq msg)) (hpool : msg ∈ cfg.pool) : (s.inp msg).isSome :=
  (h.enq_source hlabel).resolve_right fun hno => hno (List.mem_cons_of_mem 0 hpool)

/-- As many chains are stored as messages of the pool. -/
def Stack.Counted (cfg : Setup n) (s : Stack n) : Prop :=
  s.stored.length = (cfg.own s.sys.hist.stored).length

theorem Stack.Counted.step (h : s.Counted cfg) (hgood : s.Good cfg) {a : InAct n}
    (hs : s.step cfg a = some s') : s'.Counted cfg := by
  rcases (Stack.step_shape hs).2 with ⟨hst, hsys⟩ | ⟨b, s₁, hs₁, hst, hsys, -⟩
  · rw [Stack.Counted, hst, hsys]
    exact h
  · rw [Stack.Counted, hst, hsys]
    simp only [Stack.stepSys, Option.map_eq_some_iff] at hs₁
    obtain ⟨sys, hstep, rfl⟩ := hs₁
    have hhist := (hgood.inv.step_hist hstep).1
    have hcount := h
    simp only [Stack.Counted, Setup.own] at hcount ⊢
    rw [hhist, List.length_append, List.filter_append, List.length_append, hcount]
    congr 1
    cases hlabel : s.sys.label b with
    | none => simp
    | some e =>
      cases e with
      | deq m => rfl
      | enq m =>
        simp only [Option.toList_some, List.filterMap_cons, FifoAct.enq?, List.filterMap_nil]
        by_cases hpool : m ∈ cfg.pool
        · obtain ⟨p, hp⟩ := Option.isSome_iff_exists.mp (hgood.enq_typed hlabel hpool)
          simp [hp, hpool]
        · have hnone : s.inp m = none := by
            by_contra hno
            exact hpool (hgood.inPool m (Option.isSome_iff_ne_none.mpr hno))
          simp [hnone, hpool]

/-- The messages of the pool that were fetched: a chain has been handed on for each, or is in hand. -/
theorem Stack.Counted.handed (h : s.Counted cfg) (hgood : s.Good cfg) :
    s.handed.length + ((s.threadHand cfg).filterMap s.inp).length = (cfg.own s.sys.hist.handed).length := by
  obtain ⟨q, hq, hledger⟩ := hgood.ledger
  have hstored := hledger.stored
  rw [List.filterMap_append, ← List.append_assoc] at hstored
  have hlen := congrArg List.length hstored
  rw [List.length_append, List.length_append, h, Setup.own, hq.1, List.filter_append, List.length_append] at hlen
  -- the messages of the pool in the mailbox carry a chain each
  have hbox : (q.filterMap s.inp).length = (q.filter (· ∈ cfg.pool)).length := by
    have hused : ∀ m ∈ q, m ∈ cfg.pool → (s.inp m).isSome := by
      intro m hm hpool
      refine hgood.typed m hpool fun hmem => ?_
      have hnodup := hledger.msgs.nodup_iff.mpr cfg.nodup
      rw [List.append_assoc, List.nodup_append] at hnodup
      exact hnodup.2.2 m hmem m (by simp [hm, hpool]) rfl
    clear hlen hstored hledger hq
    induction q with
    | nil => rfl
    | cons m q ih =>
      have ih := ih fun m' hm' => hused m' (List.mem_cons_of_mem _ hm')
      by_cases hpool : m ∈ cfg.pool
      · obtain ⟨p, hp⟩ := Option.isSome_iff_exists.mp (hused m List.mem_cons_self hpool)
        simp [hp, hpool, ih]
      · have hnone : s.inp m = none := by
          by_contra hno
          exact hpool (hgood.inPool m (Option.isSome_iff_ne_none.mpr hno))
        simp [hnone, hpool, ih]
  rw [Setup.own]
  omega

theorem Stack.Good.grows (h : s.Good cfg) {a : InAct n} (hs : s.step cfg a = some s') :
    s.stored <+: s'.stored ∧
      s.sys.hist.stored.map Prod.snd <+: s'.sys.hist.stored.map Prod.snd := by
  rcases (Stack.step_shape hs).2 with ⟨hst, hsys⟩ | ⟨b, s₁, hs₁, hst, hsys, -⟩
  · rw [hst, hsys]
    exact ⟨List.prefix_rfl, List.prefix_rfl⟩
  · rw [hst, hsys]
    simp only [Stack.stepSys, Option.map_eq_some_iff] at hs₁
    obtain ⟨sys, hstep, rfl⟩ := hs₁
    rw [(h.inv.step_hist hstep).1]
    exact ⟨List.prefix_append .., List.prefix_append ..⟩

theorem steps_grow {ok : Stack n → InAct n → Prop} {l : List (InAct n)}
    (hl : (inputMachine cfg).Steps ok s l s') (h : s.Good cfg) :
    s'.Good cfg ∧ s.stored <+: s'.stored ∧
      s.sys.hist.stored.map Prod.snd <+: s'.sys.hist.stored.map Prod.snd := by
  refine hl.invariant (I := fun u => u.Good cfg ∧ s.stored <+: u.stored ∧
    s.sys.hist.stored.map Prod.snd <+: u.sys.hist.stored.map Prod.snd) ?_
    ⟨h, List.prefix_rfl, List.prefix_rfl⟩
  rintro u a u' ⟨hu, hst, hhist⟩ - hstep
  obtain ⟨hst', hhist'⟩ := hu.grows hstep
  exact ⟨hu.step hstep, hst.trans hst', hhist.trans hhist'⟩

end LoraGateway.Netif
