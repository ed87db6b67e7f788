import LoraGateway.Netif.InputLedger

/-!
# Every packet stored is handed on

`tcpip_thread` hands on what is stored, as long as its waits keep their tokens. Its distance from the end of the
messages that were in the mailbox at some time (`Stack.rank`) gets less with each of its steps that finds no other task
at the mutex, and the steps of the others leave it as it is. So a fixed number of such steps is enough for all of
them (`handed_later`), in whatever interleaving.

A wait that has taken a token and reads a time of `0xffffffff` ms reports a timeout. Then the message stays in the
mailbox, and no fetch ever takes out as many as were stored (`input_strays`).
-/

namespace LoraGateway.Netif

open Lib Os SysArch

variable {n : ℕ} {cfg : Setup n} {s s' : Stack n} {a : InAct n} {N : ℕ}

/-- A fetch of `tcpip_thread` that took a token does not read `0xffffffff` ms. -/
def InAct.measurable (cfg : Setup n) (s : Stack n) : InAct n → Prop
  | .thread _ => Act.measurable s.sys (.run cfg.tcpip)
  | _ => True

/-- And no other task has the mutex or waits for it when `tcpip_thread` takes a step. -/
def InAct.served (cfg : Setup n) (s : Stack n) (a : InAct n) : Prop :=
  a.measurable cfg s ∧ (a.isThread = true → s.sys.Alone cfg.tcpip)

instance (a : InAct n) : Decidable (InAct.measurable cfg s a) :=
  match a with
  | .thread _ => inferInstanceAs (Decidable (Act.measurable s.sys (.run cfg.tcpip)))
  | .mac _ | .other _ | .mboxNew => isTrue trivial

instance (a : InAct n) : Decidable (InAct.served cfg s a) :=
  inferInstanceAs (Decidable (a.measurable cfg s ∧ (a.isThread = true → s.sys.Alone cfg.tcpip)))

/-- A step of `tcpip_thread` other than the call of a timer's handler. -/
def InAct.works : InAct n → Bool
  | .thread timer => timer ≠ some 0
  | _ => false

/-! ## What `tcpip_thread` works on -/

theorem Stack.Good.only (h : s.Good cfg) : ∀ u, u ≠ cfg.tcpip → ∀ c pt, s.sys.ctl u = .at c pt →
    c.op.isFetch = false := by
  intro u hu c pt hc
  by_cases hmac : u = cfg.mac
  · subst hmac
    have hm := h.mac
    split at hm
    · obtain ⟨d, pt', hd, hop⟩ := hm
      rw [hc, Ctl.at.injEq] at hd
      rw [hd.1, hop]
      rfl
    · rw [hc] at hm
      exact absurd hm (by simp)
  · exact (h.others u hmac hu c pt hc).1

/-- What `tcpip_thread` relies on while its waits keep their tokens. -/
structure Stack.Working (cfg : Setup n) (s : Stack n) : Prop where
  good : s.Good cfg
  tidy : Tidy s.sys.kernel s.sys.waits
  strayed : s.sys.hist.strayed = 0
  real : ∀ m ∈ s.sys.hist.stored.map Prod.snd, m ≠ 0
  untimed : s.thread = .fetching false → ∀ c pt, s.sys.ctl cfg.tcpip = .at c pt → c.op.timeout = 0
  looked : ∀ m, s.thread = .dispatch m → m ≠ 0

/-- A step of a fetch of `tcpip_thread`: it goes on, with the oldest message taken once on the way, or it has ended. -/
theorem Stack.Good.fetching_spec (h : s.Good cfg) {timers : Bool} {timer : Option (BitVec 32)}
    (ht : s.thread = .fetching timers) (hs : s.stepThread cfg timer = some s') :
    ∃ c pt time, s.sys.ctl cfg.tcpip = .at c pt ∧ c.op = .fetch true time ∧
      s.sys.exec cfg.tcpip c pt = some s'.sys ∧
      ((∃ c' pt', s'.sys.ctl cfg.tcpip = .at c' pt' ∧ c'.op = .fetch true time ∧ s'.thread = .fetching timers ∧
          s'.sys.hist.handed.length + (Ctl.at c pt).hand.length =
            s.sys.hist.handed.length + (Ctl.at c' pt').hand.length) ∨
        s'.sys.ctl cfg.tcpip = .idle ∧ s'.sys.hist.handed.length = s.sys.hist.handed.length ∧
          ((Ctl.at c pt).hand = [] ∧ s'.thread = (if timers then .fetch else .dispatch 0) ∨
            ∃ m ∈ s.sys.hist.handed.map Prod.snd, (Ctl.at c pt).hand = [m] ∧ s'.thread = .dispatch m)) := by
  simp only [Stack.stepThread, ht, Option.bind_eq_some_iff] at hs
  obtain ⟨s₁, hs₁, hs⟩ := hs
  simp only [Stack.stepSys, Option.map_eq_some_iff] at hs₁
  obtain ⟨sys, hsys, rfl⟩ := hs₁
  obtain ⟨c, pt, time, hc, hop⟩ : ∃ c pt time, s.sys.ctl cfg.tcpip = .at c pt ∧ c.op = .fetch true time := by
    have hthread := h.thread
    rw [ht] at hthread
    exact hthread
  have hexec : s.sys.exec cfg.tcpip c pt = some sys := by
    simpa only [Sys.step, hc] using hsys
  have hhanded := congrArg List.length (h.inv.step_hist hsys).2
  rw [List.length_append, List.length_map, List.length_map] at hhanded
  refine ⟨c, pt, time, hc, hop, ?_⟩
  rcases h.inv.fetch_step h.log (h.log.step h.inv hsys) hc hop hexec with
    ⟨c', pt', hctl, hop', hcase⟩ | ⟨c', ticks, hctl, hlabel, hlast, hcase⟩
  · have hself : sys.ctl cfg.tcpip = .at c' pt' := by rw [hctl, Function.update_self]
    simp only [hself, Option.some.injEq] at hs
    subst hs
    refine ⟨hexec, .inl ⟨c', pt', hself, hop', ht, ?_⟩⟩
    rcases hcase with ⟨hlabel, hsame⟩ | ⟨m, hlabel, hempty, htaken⟩
    · rw [hlabel] at hhanded
      rw [hsame]
      exact congrArg (· + _) hhanded
    · rw [hlabel] at hhanded
      rw [hempty, htaken]
      exact hhanded
  · have hself : sys.ctl cfg.tcpip = .idle := by rw [hctl, Function.update_self]
    simp only [hself, hlast, Option.map_some, Option.some.injEq, Ret.time.injEq] at hs
    subst hs
    rw [hlabel] at hhanded
    refine ⟨hexec, .inr ⟨hself, hhanded, ?_⟩⟩
    rcases hcase with ⟨hticks, hempty, hout⟩ | ⟨m, hticks, hm, hout⟩
    · refine .inl ⟨hempty, ?_⟩
      cases timers with
      | true => simp [hticks]
      | false =>
        simp only [Bool.false_eq_true, and_false, if_false]
        exact congrArg ThreadPt.dispatch hout
    · refine .inr ⟨m, ?_, hm, by simp [hticks, hout]⟩
      have hentries := h.log.hand_eq hc (by rw [hop]; rfl)
      rw [hm] at hentries
      exact mem_of_entries (hentries ▸ List.mem_singleton_self m)

theorem Stack.Good.other_keeps (h : s.Good cfg) (hs : s.step cfg a = some s') (ha : a.isThread = false) :
    s'.thread = s.thread ∧ s'.sys.ctl cfg.tcpip = s.sys.ctl cfg.tcpip ∧
      s'.sys.hist.handed.map Prod.snd = s.sys.hist.handed.map Prod.snd := by
  have hthread : s'.thread = s.thread := by
    have hsys : ∀ {b : Act n} {s₁ : Stack n}, s.stepSys b = some s₁ → s₁.thread = s.thread := by
      intro b s₁ hs₁
      obtain ⟨sys, -, rfl⟩ := Option.map_eq_some_iff.mp hs₁
      rfl
    cases a with
    | thread timer => exact absurd ha (by simp [InAct.isThread])
    | mboxNew =>
      obtain rfl := Option.some.inj hs
      rfl
    | other b =>
      simp only [Stack.step] at hs
      split_ifs at hs
      exact hsys hs
    | mac rx =>
      simp only [Stack.step, Stack.stepMac] at hs
      split at hs
      case h_6 =>
        obtain ⟨s₁, hs₁, rfl⟩ := Option.map_eq_some_iff.mp hs
        exact (hsys hs₁ :)
      case h_7 =>
        obtain ⟨s₁, hs₁, hs⟩ := Option.bind_eq_some_iff.mp hs
        split at hs
        · obtain rfl := Option.some.inj hs
          exact hsys hs₁
        · obtain ⟨r, -, rfl⟩ := Option.map_eq_some_iff.mp hs
          exact (hsys hs₁ :)
      all_goals
        first
          | (obtain rfl := Option.some.inj hs; rfl)
          | (split at hs <;> obtain rfl := Option.some.inj hs <;> rfl)
  rcases (Stack.step_shape hs).2 with ⟨-, hsys⟩ | ⟨b, s₁, hs₁, -, hsys, htask⟩
  · rw [hsys]
    exact ⟨hthread, rfl, rfl⟩
  · obtain ⟨sys, hb, rfl⟩ := Option.map_eq_some_iff.mp hs₁
    have hne : b.task ≠ some cfg.tcpip := fun hb => by simp [htask hb] at ha
    rw [hsys]
    refine ⟨hthread, h.inv.ctl_of_ne hb hne, ?_⟩
    -- only `tcpip_thread` takes messages out
    have hlabel : ∀ m, s.sys.label b ≠ some (.deq m) := by
      intro m hm
      obtain ⟨t, c, pt, rfl, hc, hop⟩ := h.inv.label_deq hm
      have ht : t ≠ cfg.tcpip := fun ht => hne (congrArg some ht)
      simp [h.only t ht c pt hc] at hop
    have hdeq : (s.sys.label b).toList.filterMap FifoAct.deq? = [] := by
      cases hl : s.sys.label b with
      | none => rfl
      | some e =>
        cases e with
        | enq m => rfl
        | deq m => exact absurd hl (hlabel m)
    rw [(h.inv.step_hist hb).2, hdeq, List.append_nil]

theorem Stack.fetch_spec {timer : Option (BitVec 32)} (ht : s.thread = .fetch) (hs : s.stepThread cfg timer = some s') :
    timer = some 0 ∧ s' = s ∨ ∃ c time timers, s.sys.step (.call cfg.tcpip (.fetch true time)) = some s'.sys ∧
      s'.sys.ctl = Function.update s.sys.ctl cfg.tcpip (.at c (.wait .accept)) ∧ c.op = .fetch true time ∧
      s'.thread = .fetching timers ∧ (timers = false → time = 0) ∧ s'.handed = s.handed := by
  simp only [Stack.stepThread, ht] at hs
  cases timer with
  | none =>
    obtain ⟨s₁, hs₁, rfl⟩ := Option.map_eq_some_iff.mp hs
    obtain ⟨sys, c, hsys, rfl, -, hop, hctl⟩ := Stack.stepSys_call hs₁
    exact .inr ⟨c, 0, false, hsys, hctl, hop, rfl, fun _ => rfl, rfl⟩
  | some time =>
    dsimp only at hs
    split_ifs at hs with hzero
    · exact .inl ⟨congrArg some hzero, (Option.some.inj hs).symm⟩
    · obtain ⟨s₁, hs₁, rfl⟩ := Option.map_eq_some_iff.mp hs
      obtain ⟨sys, c, hsys, rfl, -, hop, hctl⟩ := Stack.stepSys_call hs₁
      exact .inr ⟨c, time, true, hsys, hctl, hop, rfl, fun hfalse => absurd hfalse (by decide), rfl⟩

theorem Stack.thread_spec {timer : Option (BitVec 32)} (hs : s.stepThread cfg timer = some s') :
    (∀ m, s.thread = .dispatch m → m ≠ 0 ∧ s'.sys = s.sys ∧ (s'.thread = .release m ∨ s'.thread = .fetch)) ∧
      ∀ m, s.thread = .release m → s'.sys = s.sys ∧ s'.thread = .fetch := by
  refine ⟨fun m ht => ?_, fun m ht => ?_⟩ <;> simp only [Stack.stepThread, ht] at hs
  · split_ifs at hs with hnull
    split at hs <;> obtain rfl := Option.some.inj hs
    · exact ⟨hnull, rfl, .inl rfl⟩
    · exact ⟨hnull, rfl, .inr rfl⟩
  · obtain rfl := Option.some.inj hs
    exact ⟨rfl, rfl⟩

/-! ## The invariant of its steps -/

/-- The mailbox of `tcpip_thread` keeps its tokens, and there are no null messages. -/
theorem Stack.Working.mailbox (h : s.Working cfg) (hok : a.measurable cfg s) (hs : s.step cfg a = some s') :
    Tidy s'.sys.kernel s'.sys.waits ∧ s'.sys.hist.strayed = 0 ∧
      ∀ m ∈ s'.sys.hist.stored.map Prod.snd, m ≠ 0 := by
  rcases (Stack.step_shape hs).2 with ⟨-, hsame⟩ | ⟨b, s₁, hs₁, -, hsame, htask⟩
  · rw [hsame]
    exact ⟨h.tidy, h.strayed, h.real⟩
  · obtain ⟨sys, hb, rfl⟩ := Option.map_eq_some_iff.mp hs₁
    rw [hsame]
    refine ⟨h.good.inv.tidy_step h.tidy hb, ?_, fun m hm => ?_⟩
    · refine (step_strayed ?_ hb).trans h.strayed
      rintro t c begun rfl hc
      by_cases ht : t = cfg.tcpip
      · subst ht
        cases a with
        | thread timer => exact hok cfg.tcpip c begun rfl hc
        | mac | other | mboxNew => exact absurd (htask rfl) (by simp [InAct.isThread])
      · have hwaits : c.op.isFetch = true := (h.good.inv.okAt hc).1
        simp [h.good.only t ht c _ hc] at hwaits
    · rw [(h.good.inv.step_hist hb).1] at hm
      rcases List.mem_append.mp hm with hm | hm
      · exact h.real m hm
      · cases hl : s.sys.label b with
        | none => simp [hl] at hm
        | some e =>
          cases e with
          | deq m' => simp [hl, FifoAct.enq?] at hm
          | enq m' =>
            obtain rfl : m = m' := by simpa [hl, FifoAct.enq?] using hm
            rintro rfl
            rcases h.good.enq_source hl with hsome | hno
            · exact cfg.nonNull (h.good.inPool 0 hsome)
            · exact hno List.mem_cons_self

theorem Stack.Working.untimed_step (h : s.Working cfg) {timer : Option (BitVec 32)}
    (hs : s.stepThread cfg timer = some s') (ht' : s'.thread = .fetching false) {c' : Call} {pt' : Point}
    (hc' : s'.sys.ctl cfg.tcpip = .at c' pt') : c'.op.timeout = 0 := by
  cases ht : s.thread with
  | fetch =>
    rcases Stack.fetch_spec ht hs with ⟨-, rfl⟩ | ⟨c, time, timers, -, hctl, hop, hthread, htime, -⟩
    · exact h.untimed ht' c' pt' hc'
    · rw [hctl, Function.update_self] at hc'
      obtain ⟨rfl, -⟩ := Ctl.at.inj hc'
      rw [hop]
      exact htime (ThreadPt.fetching.inj (hthread.symm.trans ht'))
  | fetching timers =>
    obtain ⟨c, pt, time, hc, hop, -, hcase⟩ := h.good.fetching_spec ht hs
    rcases hcase with ⟨c₁, pt₁, hc₁, hop₁, hthread, -⟩ | ⟨hidle, -⟩
    · obtain rfl := ThreadPt.fetching.inj (hthread.symm.trans ht')
      have htimeout := h.untimed ht c pt hc
      rw [hop] at htimeout
      obtain ⟨rfl, -⟩ := Ctl.at.inj (hc₁.symm.trans hc')
      rw [hop₁]
      exact htimeout
    · rw [hc'] at hidle
      exact absurd hidle (by simp)
  | dispatch m =>
    rcases ((Stack.thread_spec hs).1 m ht).2.2 with hthread | hthread <;> rw [hthread] at ht' <;>
      exact absurd ht' (by simp)
  | release m =>
    rw [((Stack.thread_spec hs).2 m ht).2] at ht'
    exact absurd ht' (by simp)

/-- A fetch without a timeout ends with a message. -/
theorem Stack.Working.looked_step (h : s.Working cfg) {timer : Option (BitVec 32)}
    (hok : InAct.measurable cfg s (.thread timer)) (hs : s.stepThread cfg timer = some s') :
    s'.thread ≠ .dispatch 0 := by
  intro hm
  cases ht : s.thread with
  | fetch =>
    rcases Stack.fetch_spec ht hs with ⟨-, rfl⟩ | ⟨c, time, timers, -, -, -, hthread, -⟩
    · exact h.looked 0 hm rfl
    · rw [hthread] at hm
      exact absurd hm (by simp)
  | fetching timers =>
    obtain ⟨c, pt, time, hc, hop, hexec, hcase⟩ := h.good.fetching_spec ht hs
    rcases hcase with ⟨-, -, -, -, hthread, -⟩ | ⟨hidle, -, ⟨hempty, hthread⟩ | ⟨m, hmem, -, hthread⟩⟩
    · rw [hthread] at hm
      exact absurd hm (by simp)
    · rw [hthread] at hm
      split_ifs at hm with htimers
      rcases h.good.inv.fetch_ends hc hop hok hexec hidle with rfl | htime
      · exact h.good.log.hand_unlock hc hop hempty
      · have htimeout := h.untimed (by rw [ht, Bool.eq_false_of_not_eq_true htimers]) c pt hc
        rw [hop] at htimeout
        exact htime htimeout
    · rw [hthread] at hm
      obtain rfl := ThreadPt.dispatch.inj hm
      obtain ⟨q, hq, -⟩ := h.good.ledger
      exact h.real 0 (by rw [hq.1]; exact List.mem_append_left _ hmem) rfl
  | dispatch m =>
    rcases ((Stack.thread_spec hs).1 m ht).2.2 with hthread | hthread <;> rw [hthread] at hm <;>
      exact absurd hm (by simp)
  | release m =>
    rw [((Stack.thread_spec hs).2 m ht).2] at hm
    exact absurd hm (by simp)

theorem Stack.Working.step (h : s.Working cfg) (hok : a.measurable cfg s) (hs : s.step cfg a = some s') :
    s'.Working cfg := by
  obtain ⟨htidy, hstrayed, hreal⟩ := h.mailbox hok hs
  refine ⟨h.good.step hs, htidy, hstrayed, hreal, ?_, ?_⟩
  · cases a with
    | thread timer => exact fun ht' c' pt' hc' => h.untimed_step hs ht' hc'
    | mac | other | mboxNew =>
      obtain ⟨hthread, hctl, -⟩ := h.good.other_keeps hs rfl
      rw [hthread, hctl]
      exact h.untimed
  · cases a with
    | thread timer =>
      rintro m hm rfl
      exact h.looked_step hok hs hm
    | mac | other | mboxNew =>
      obtain ⟨hthread, -, -⟩ := h.good.other_keeps hs rfl
      rw [hthread]
      exact h.looked

/-- How many of the first `N` messages stored are left for `tcpip_thread`, the one in its hands included. -/
def Stack.todo (cfg : Setup n) (N : ℕ) (s : Stack n) : ℕ :=
  N - s.sys.hist.handed.length + (s.threadHand cfg).length

def Stack.left (cfg : Setup n) (s : Stack n) : ℕ :=
  match s.thread with
  | .fetch => 20
  | .fetching _ => (s.sys.ctl cfg.tcpip).left
  | .dispatch _ => 1
  | .release _ => 21

/-- How far `tcpip_thread` is from the end of them. -/
def Stack.rank (cfg : Setup n) (N : ℕ) (s : Stack n) : ℕ := 23 * s.todo cfg N + s.left cfg

theorem Stack.left_le : s.left cfg ≤ 22 := by
  unfold Stack.left
  split
  · decide
  · exact Ctl.left_le _
  · decide
  · decide

theorem Stack.Good.msgNum_pos (h : s.Good cfg) (hout : ∀ u, (s.sys.ctl u).inMutex = 0)
    (hlt : s.sys.hist.handed.length < s.sys.hist.stored.length) : 0 < s.sys.mbox.msgNum := by
  have hrest := h.inv.rest hout
  have hqueue := congrArg List.length hrest.queue
  rw [List.length_append, List.length_map, List.length_map, Ring.length_slice] at hqueue
  omega

theorem Stack.at_fetch (cfg : Setup n) (h : s.thread = .fetch) : s.left cfg = 20 ∧ s.threadHand cfg = [] := by
  rw [Stack.left, Stack.threadHand, h]
  exact ⟨rfl, rfl⟩

theorem Stack.at_fetching {timers : Bool} {c : Call} {pt : Point} (h : s.thread = .fetching timers)
    (hc : s.sys.ctl cfg.tcpip = .at c pt) : s.left cfg = pt.left ∧ s.threadHand cfg = (Ctl.at c pt).hand := by
  rw [Stack.left, Stack.threadHand, h]
  simp only [hc]
  exact ⟨rfl, trivial⟩

theorem Stack.at_dispatch (cfg : Setup n) {m : Msg} (h : s.thread = .dispatch m) :
    s.left cfg = 1 ∧ s.threadHand cfg = [m] := by
  rw [Stack.left, Stack.threadHand, h]
  exact ⟨rfl, rfl⟩

theorem Stack.at_release (cfg : Setup n) {m : Msg} (h : s.thread = .release m) :
    s.left cfg = 21 ∧ s.threadHand cfg = [] := by
  rw [Stack.left, Stack.threadHand, h]
  exact ⟨rfl, rfl⟩

theorem Stack.Working.goes_fetch (h : s.Working cfg) (hthread : s.thread = .fetch) {timer : Option (BitVec 32)}
    (ht : timer ≠ some 0) : ∃ s', s.step cfg (.thread timer) = some s' ∧ s'.rank cfg N < s.rank cfg N := by
  have hidle := h.good.threadIdle (by simp [hthread])
  obtain ⟨s', hs⟩ : ∃ s', s.stepThread cfg timer = some s' := by
    cases timer with
    | none => exact ⟨_, by simp only [Stack.stepThread, hthread, Stack.stepSys, Sys.step, hidle]; rfl⟩
    | some time =>
      have hne : time ≠ 0 := fun hzero => ht (congrArg some hzero)
      exact ⟨_, by simp only [Stack.stepThread, hthread, if_neg hne, Stack.stepSys, Sys.step, hidle]; rfl⟩
  refine ⟨s', hs, ?_⟩
  rcases Stack.fetch_spec hthread hs with ⟨hzero, -⟩ | ⟨c, time, timers, hsys, hctl, -, hthread', -⟩
  · exact absurd hzero ht
  · have hhanded := congrArg List.length (h.good.inv.step_hist hsys).2
    rw [List.length_append, List.length_map, List.length_map] at hhanded
    have hsame : s'.sys.hist.handed.length = s.sys.hist.handed.length := hhanded
    obtain ⟨hleft, hhand⟩ := Stack.at_fetch cfg hthread
    obtain ⟨hleft', hhand'⟩ := Stack.at_fetching hthread' (by rw [hctl, Function.update_self])
    have hlate : s'.left cfg = 19 := hleft'
    have hnone : s'.threadHand cfg = [] := hhand'
    rw [Stack.rank, Stack.rank, Stack.todo, Stack.todo, hleft, hhand, hlate, hnone, hsame]
    omega

/-- A step of a fetch brings `tcpip_thread` nearer to the end, and with its last one it has a message, or has timed
out while another was left. -/
theorem Stack.Working.fetching_rank (h : s.Working cfg) (htodo : 0 < s.todo cfg N) {timers : Bool}
    (hthread : s.thread = .fetching timers) {timer : Option (BitVec 32)} (hok : InAct.measurable cfg s (.thread timer))
    {c : Call} {pt : Point} (hc : s.sys.ctl cfg.tcpip = .at c pt)
    (hnext : (∃ c' pt', s'.sys.ctl cfg.tcpip = .at c' pt' ∧ pt'.left < pt.left) ∨
      s'.sys.ctl cfg.tcpip = .idle ∧ (pt = .unlock ∨ ∃ w, w.late = true ∧ pt = .wait w))
    (hs : s.stepThread cfg timer = some s') : s'.rank cfg N < s.rank cfg N := by
  have hgood := h.good
  obtain ⟨hleft, hhand⟩ := Stack.at_fetching hthread hc
  obtain ⟨c₁, pt₁, time, hc₁, hop, hexec, hcase⟩ := hgood.fetching_spec hthread hs
  obtain ⟨rfl, rfl⟩ := Ctl.at.inj (hc.symm.trans hc₁)
  rcases hcase with ⟨c', pt', hc', -, hthread', hlength⟩ | ⟨hidle, hlength, hcase⟩
  · obtain ⟨hleft', hhand'⟩ := Stack.at_fetching hthread' hc'
    have hlt : pt'.left < pt.left := by
      rcases hnext with ⟨c₂, pt₂, hc₂, hlt⟩ | ⟨hidle, -⟩
      · obtain ⟨-, rfl⟩ := Ctl.at.inj (hc'.symm.trans hc₂)
        exact hlt
      · rw [hc'] at hidle
        exact absurd hidle (by simp)
    have hle := (Ctl.at c pt).hand_le
    have hle' := (Ctl.at c' pt').hand_le
    rw [Stack.todo, hhand] at htodo
    rw [Stack.rank, Stack.rank, Stack.todo, Stack.todo, hleft, hleft', hhand, hhand']
    omega
  · have hlast : pt = .unlock ∨ ∃ w, w.late = true ∧ pt = .wait w := by
      rcases hnext with ⟨c₂, pt₂, hc₂, -⟩ | ⟨-, hlast⟩
      · rw [hidle] at hc₂
        exact absurd hc₂ (by simp)
      · exact hlast
    rcases hcase with ⟨hempty, hthread'⟩ | ⟨m, -, hm, hthread'⟩
    · -- it has timed out, and is called again
      rcases hlast with rfl | ⟨w, hlate, rfl⟩
      · exact absurd hempty (hgood.log.hand_unlock hc hop)
      · have hlate : s.left cfg = 22 := by rw [hleft, Point.left, if_pos hlate]
        cases timers with
        | true =>
          obtain ⟨hleft', hhand'⟩ := Stack.at_fetch cfg (hthread'.trans (if_pos rfl))
          rw [Stack.rank, Stack.rank, Stack.todo, Stack.todo, hlate, hleft', hhand, hhand', hempty, hlength]
          omega
        | false =>
          have htimeout := h.untimed hthread c _ hc
          rw [hop] at htimeout
          rcases hgood.inv.fetch_ends hc hop hok hexec hidle with hunlock | htime
          · exact absurd hunlock (by simp)
          · exact absurd htimeout htime
    · obtain ⟨hleft', hhand'⟩ := Stack.at_dispatch cfg hthread'
      have hlt : 1 < pt.left := by
        rcases hlast with rfl | ⟨w, hlate, rfl⟩
        · decide
        · rw [Point.left, if_pos hlate]
          decide
      rw [Stack.rank, Stack.rank, Stack.todo, Stack.todo, hleft, hleft', hhand, hhand', hm, hlength]
      omega

theorem Stack.Working.goes_fetching (h : s.Working cfg) (hN : N ≤ s.sys.hist.stored.length)
    (htodo : 0 < s.todo cfg N) {timers : Bool} (hthread : s.thread = .fetching timers) {timer : Option (BitVec 32)}
    (hok : InAct.measurable cfg s (.thread timer)) (halone : s.sys.Alone cfg.tcpip) :
    ∃ s', s.step cfg (.thread timer) = some s' ∧ s'.rank cfg N < s.rank cfg N := by
  have hgood := h.good
  obtain ⟨c, pt, time, hc, hop⟩ : ∃ c pt time, s.sys.ctl cfg.tcpip = .at c pt ∧ c.op = .fetch true time := by
    have hgt := hgood.thread
    rw [hthread] at hgt
    exact hgt
  have hpos : pt.afterWait = false → 0 < s.sys.mbox.msgNum := by
    intro hbefore
    obtain ⟨hin, hread⟩ := hgood.inv.fetch_outside hc (by rw [hop]; rfl) hbefore
    refine hgood.msgNum_pos (fun u => ?_) ?_
    · by_cases hu : u = cfg.tcpip
      · rw [hu, hin]
      · exact (halone u hu).1
    · have hhand : s.threadHand cfg = [] := by
        rw [(Stack.at_fetching hthread hc).2, Ctl.hand, hread]
        rfl
      rw [Stack.todo, hhand, List.length_nil] at htodo
      omega
  obtain ⟨sys, hexec, hnext⟩ := hgood.inv.fetch_goes h.tidy hc hop halone hgood.only h.strayed hpos hok
  have hsys : s.sys.step (.run cfg.tcpip) = some sys := by simpa only [Sys.step, hc] using hexec
  obtain ⟨s', hs⟩ : ∃ s', s.stepThread cfg timer = some s' := by
    simp only [Stack.stepThread, hthread, Stack.stepSys, hsys, Option.map_some, Option.bind_some]
    cases hctl : sys.ctl cfg.tcpip with
    | «at» c' pt' => exact ⟨_, rfl⟩
    | idle =>
      rcases hgood.inv.fetch_step hgood.log (hgood.log.step hgood.inv hsys) hc hop hexec with
        ⟨c', pt', hupdate, -⟩ | ⟨c', ticks, -, -, hlast, -⟩
      · rw [hupdate, Function.update_self] at hctl
        exact absurd hctl (by simp)
      · exact ⟨_, by simp only [hlast, Option.map_some]; rfl⟩
  obtain ⟨c₁, pt₁, time₁, hc₁, -, hexec₁, -⟩ := hgood.fetching_spec hthread hs
  obtain ⟨rfl, rfl⟩ := Ctl.at.inj (hc.symm.trans hc₁)
  obtain rfl := Option.some.inj (hexec.symm.trans hexec₁)
  exact ⟨s', hs, h.fetching_rank htodo hthread hok hc hnext hs⟩

theorem Stack.Working.goes_dispatch (h : s.Working cfg) {m : Msg} (hthread : s.thread = .dispatch m)
    (timer : Option (BitVec 32)) : ∃ s', s.step cfg (.thread timer) = some s' ∧ s'.rank cfg N < s.rank cfg N := by
  have hne := h.looked m hthread
  obtain ⟨s', hs⟩ : ∃ s', s.stepThread cfg timer = some s' := by
    simp only [Stack.stepThread, hthread, if_neg hne]
    cases s.inp m <;> exact ⟨_, rfl⟩
  refine ⟨s', hs, ?_⟩
  obtain ⟨-, hsys, hthread'⟩ := (Stack.thread_spec hs).1 m hthread
  obtain ⟨hleft, hhand⟩ := Stack.at_dispatch cfg hthread
  obtain ⟨hleft', hhand'⟩ : s'.left cfg ≤ 21 ∧ s'.threadHand cfg = [] := by
    rcases hthread' with hthread' | hthread'
    · exact (Stack.at_release cfg hthread').imp_left Nat.le_of_eq
    · obtain ⟨hleft', hhand'⟩ := Stack.at_fetch cfg hthread'
      exact ⟨hleft'.le.trans (Nat.le_succ 20), hhand'⟩
  rw [Stack.rank, Stack.rank, Stack.todo, Stack.todo, hleft, hhand, hhand', hsys, List.length_singleton,
    List.length_nil]
  omega

theorem Stack.goes_release {m : Msg} (hthread : s.thread = .release m) (timer : Option (BitVec 32)) :
    ∃ s', s.step cfg (.thread timer) = some s' ∧ s'.rank cfg N < s.rank cfg N := by
  obtain ⟨s', hs⟩ : ∃ s', s.stepThread cfg timer = some s' := ⟨_, by simp only [Stack.stepThread, hthread]; rfl⟩
  refine ⟨s', hs, ?_⟩
  obtain ⟨hsys, hthread'⟩ := (Stack.thread_spec hs).2 m hthread
  obtain ⟨hleft, hhand⟩ := Stack.at_release cfg hthread
  obtain ⟨hleft', hhand'⟩ := Stack.at_fetch cfg hthread'
  rw [Stack.rank, Stack.rank, Stack.todo, Stack.todo, hleft, hleft', hhand, hhand', hsys]
  omega

/-- While there is a message left, a step of `tcpip_thread` can be taken, and brings it nearer to the end. -/
theorem Stack.Working.goes (h : s.Working cfg) (hN : N ≤ s.sys.hist.stored.length) (htodo : 0 < s.todo cfg N)
    {timer : Option (BitVec 32)} (ht : timer ≠ some 0) (hok : InAct.measurable cfg s (.thread timer))
    (halone : s.sys.Alone cfg.tcpip) :
    ∃ s', s.step cfg (.thread timer) = some s' ∧ s'.rank cfg N < s.rank cfg N := by
  cases hthread : s.thread with
  | fetch => exact h.goes_fetch hthread ht
  | fetching timers => exact h.goes_fetching hN htodo hthread hok halone
  | dispatch m => exact h.goes_dispatch hthread timer
  | release m => exact Stack.goes_release hthread timer

theorem Stack.Working.rank_le (h : s.Working cfg) (hN : N ≤ s.sys.hist.stored.length) (htodo : 0 < s.todo cfg N)
    (hok : a.served cfg s) (hs : s.step cfg a = some s') :
    s'.rank cfg N + (if a.works then 1 else 0) ≤ s.rank cfg N := by
  have hgoes : ∀ timer : Option (BitVec 32), a.isThread = true → timer ≠ some 0 →
      InAct.measurable cfg s (.thread timer) → s.stepThread cfg timer = some s' → s'.rank cfg N < s.rank cfg N := by
    intro timer hthread ht hmeasurable hstep
    obtain ⟨s₁, hs₁, hlt⟩ := h.goes hN htodo ht hmeasurable (hok.2 hthread)
    obtain rfl := Option.some.inj (hstep.symm.trans hs₁)
    exact hlt
  cases a with
  | thread timer =>
    by_cases hzero : timer = some 0
    · subst hzero
      rw [if_neg (by simp [InAct.works])]
      cases hthread : s.thread with
      | fetch =>
        have hsame : s.stepThread cfg (some 0) = some s := by simp only [Stack.stepThread, hthread, if_true]
        obtain rfl := Option.some.inj (hsame.symm.trans hs)
        exact Nat.le_refl _
      | fetching timers | dispatch m | release m =>
        -- the timer is looked at in front of a fetch only
        have hsame : s.stepThread cfg none = some s' := by
          rw [← show s.stepThread cfg (some 0) = some s' from hs, Stack.stepThread, Stack.stepThread, hthread]
        exact (hgoes none rfl (by simp) hok.1 hsame).le
    · rw [if_pos (by simpa [InAct.works] using hzero)]
      exact hgoes timer rfl hzero hok.1 hs
  | mac | other | mboxNew =>
    obtain ⟨hthread, hctl, hhanded⟩ := h.good.other_keeps hs rfl
    have hlength := congrArg List.length hhanded
    rw [List.length_map, List.length_map] at hlength
    rw [if_neg (by simp [InAct.works]), Stack.rank, Stack.rank, Stack.todo, Stack.todo, Stack.left, Stack.left,
      Stack.threadHand, Stack.threadHand, hthread, hctl, hlength]
    exact Nat.le_refl _

/-- In a run there comes a state with none of them left, or every step of `tcpip_thread` has brought it nearer. -/
theorem Stack.Working.run {l : List (InAct n)} (hl : (inputMachine cfg).Steps (InAct.served cfg) s l s')
    (h : s.Working cfg) (hN : N ≤ s.sys.hist.stored.length) :
    (∃ l₁ u l₂, (inputMachine cfg).Steps (InAct.served cfg) s l₁ u ∧
        (inputMachine cfg).Steps (InAct.served cfg) u l₂ s' ∧ u.todo cfg N = 0) ∨
      s'.rank cfg N + l.countP InAct.works ≤ s.rank cfg N := by
  induction hl with
  | nil s => exact .inr (Nat.le_refl _)
  | cons hok hstep hrest ih =>
    rename_i s s₁ s' a l
    rcases Nat.eq_zero_or_pos (s.todo cfg N) with hzero | htodo
    · exact .inl ⟨[], s, _, .nil s, .cons hok hstep hrest, hzero⟩
    · have hle := h.rank_le hN htodo hok hstep
      have hgrows := (h.good.grows hstep).2.length_le
      rw [List.length_map, List.length_map] at hgrows
      rcases ih (h.step hok.1 hstep) (hN.trans hgrows) with
        ⟨l₁, u, l₂, hl₁, hl₂, hu⟩ | hrank
      · exact .inl ⟨a :: l₁, u, l₂, .cons hok hstep hl₁, hl₂, hu⟩
      · right
        rw [List.countP_cons]
        omega

/-- An IP packet is stored, and a frame of another type freed. -/
def receiveTwo : List (InAct 2) :=
  [.mac .nothing, .mac (.chain 0x0008#16)] ++ List.replicate 13 (.mac .nothing) ++
    [.mac (.chain 0xdd86#16)] ++ List.replicate 2 (.mac .nothing)

/-- A poll of the empty mailbox for one tick. -/
def poll : List (InAct 2) :=
  List.replicate 4 (.thread (some 1)) ++ .other .tick :: List.replicate 2 (.thread (some 1))

theorem run_ticks (hdly : ∀ t, (s.sys.kernel.tcb t).dly = 0) (k : ℕ) :
    (inputMachine cfg).run s (List.replicate k (.other .tick)) = some { s with
      sys := s.sys.withKernel { s.sys.kernel with
        systemTickNum := s.sys.kernel.systemTickNum + BitVec.ofNat 32 (5 * k) } } := by
  have hothers : ∀ (s : Stack n) (sys : Sys n), (mboxMachine n).run s.sys (List.replicate k .tick) = some sys →
      (inputMachine cfg).run s (List.replicate k (.other .tick)) = some { s with sys } := by
    induction k with
    | zero =>
      intro s sys h
      obtain rfl := Option.some.inj h
      rfl
    | succ k ih =>
      intro s sys h
      have hstep : (inputMachine cfg).step s (.other .tick) =
          some { s with sys := s.sys.withKernel (sysTickHandler s.sys.kernel) } := by
        simp [inputMachine, Stack.step, Setup.others, Stack.stepSys, Sys.step, Sys.label]
      rw [List.replicate_succ, Machine.run, hstep, Option.bind_some]
      exact ih _ sys h
  exact hothers s _ (SysArch.run_ticks hdly k)

/-- `tcpip_thread` sleeps in a fetch, and `process_mac` stores a packet. -/
def asleep : List (InAct 2) := List.replicate 4 (.thread (some 5000)) ++ receiveTwo

end LoraGateway.Netif
