import LoraGateway.SysArch.MboxLog
import LoraGateway.SysArch.MboxTokens

/-!
# The blocking post

`sys_mbox_post` tests for room twice: in its polling loop without the mutex, and once more with it,
where a full box ends in a failed assertion. Whether the second test can fail is up to the other
producers. `Sys.Roomy` is the condition under which a post comes through, on the states of a run: a
post that has the mutex and has not written yet has room, and `sys_msleep` finds an event control
block. `Sys.Delivers` is what it is for. In any run the two hold in the same states, as long as the
states before were such.

Proof: what is known of the states before is that no post has failed an assertion (`Sys.Sound`). A post that has come
to its write is on its way out, as nobody else is in the mutex (`Inv.escapes`), and before its write it is so exactly
if there is room. The only other way into an assertion is a missing block in `sys_msleep` (`Inv.exec_spin`).
-/

namespace LoraGateway.SysArch

open Os Lib

variable {n : ℕ} {s s' : Sys n} {t : Fin n} {c : Call}

/-- A call of `sys_mbox_post`. -/
def Call.IsPost (c : Call) : Prop := ∃ m, c.op = .post m

/-- The call has the mutex and has not come to its write. -/
def Point.beforeWrite : Point → Prop
  | .lock w => w.held = 1
  | .check => True
  | _ => False

/-- Posts find room under the mutex, and sleeping posts an event control block. -/
def Sys.Roomy (s : Sys n) : Prop :=
  ∀ t c pt, s.ctl t = .at c pt → c.IsPost →
    (pt.beforeWrite → s.mbox.msgNum < maxQueueEntries) ∧ (pt = .sleepNew → 0 < s.kernel.eventFree)

/-- Task `t`, run alone, comes back from its call. -/
def Sys.Escapes (s : Sys n) (t : Fin n) : Prop :=
  ∃ j s', (mboxMachine n).run s (List.replicate j (.run t)) = some s' ∧ s'.ctl t = .idle

/-- No post fails: those that have returned have stored their message, exactly once, none stops in
an assertion, now or in its next step, and one that has the mutex gives it back when it runs. -/
structure Sys.Delivers (s : Sys n) : Prop where
  stored : ∀ p ∈ s.hist.returned, p.1.IsPost → entries s.hist.stored p.1.id = [p.1.op.msg]
  noSpin : ∀ t c site, s.ctl t = .at c (.spin site) → ¬ c.IsPost
  next : ∀ t c pt s', s.ctl t = .at c pt → c.IsPost → s.exec t c pt = some s' →
    ∀ c' site, s'.ctl t ≠ .at c' (.spin site)
  mutex : ∀ t c pt, s.ctl t = .at c pt → c.IsPost → pt.inMutex = 1 → s.Escapes t

/-! ## Out of the mutex -/

theorem step_run {pt : Point} (hc : s.ctl t = .at c pt) :
    (mboxMachine n).step s (.run t) = s.exec t c pt := by
  change s.step (.run t) = _
  simp only [Sys.step, hc]

theorem Sys.Escapes.step {pt : Point} (hc : s.ctl t = .at c pt) (hs : s.exec t c pt = some s')
    (h : s'.Escapes t) : s.Escapes t := by
  obtain ⟨j, s'', hrun, hidle⟩ := h
  refine ⟨j + 1, s'', ?_, hidle⟩
  rw [List.replicate_succ, Machine.run, step_run hc, hs]
  exact hrun

theorem Inv.escapes_unlock (h : Inv s) (hc : s.ctl t = .at c .unlock) : s.Escapes t := by
  refine Sys.Escapes.step hc (by rw [Sys.exec, h.signal_mutex]) ⟨0, _, rfl, ?_⟩
  exact Function.update_self ..

theorem Inv.escapes_signal (h : Inv s) (hc : s.ctl t = .at c .signal) : s.Escapes t := by
  have hs : s.exec t c .signal =
      some ((s.withKernel (osSemPost s.kernel .sem).2).goto t c .unlock) := by
    rw [Sys.exec, h.signal_sem hc]
  exact Sys.Escapes.step hc hs ((h.exec hc hs).escapes_unlock (Sys.goto_ctl ..))

theorem Inv.escapes_numInc (h : Inv s) (hc : s.ctl t = .at c .numInc) : s.Escapes t :=
  Sys.Escapes.step hc rfl ((h.exec hc rfl).escapes_signal (Sys.goto_ctl ..))

theorem Inv.escapes_headWrap (h : Inv s) (hc : s.ctl t = .at c .headWrap) : s.Escapes t :=
  Sys.Escapes.step hc rfl ((h.exec hc rfl).escapes_numInc (Sys.goto_ctl ..))

theorem Inv.escapes_headInc (h : Inv s) (hc : s.ctl t = .at c .headInc) : s.Escapes t :=
  Sys.Escapes.step hc rfl ((h.exec hc rfl).escapes_headWrap (Sys.goto_ctl ..))

theorem Inv.escapes_write (h : Inv s) (hc : s.ctl t = .at c .write) : s.Escapes t :=
  Sys.Escapes.step hc rfl ((h.exec hc rfl).escapes_headInc (Sys.goto_ctl ..))

theorem Inv.escapes_check (h : Inv s) (hc : s.ctl t = .at c .check)
    (hroom : s.mbox.msgNum < maxQueueEntries) : s.Escapes t := by
  have hs : s.exec t c .check = some (s.goto t c .write) := by
    rw [Sys.exec, if_neg (Nat.not_le.mpr hroom)]
  exact Sys.Escapes.step hc hs ((h.exec hc hs).escapes_write (Sys.goto_ctl ..))

theorem Inv.escapes_lock (h : Inv s) {w : WaitPt} (hc : s.ctl t = .at c (.lock w))
    (hpost : c.IsPost) (hheld : w.held = 1) (hroom : s.mbox.msgNum < maxQueueEntries) :
    s.Escapes t := by
  obtain ⟨m, hop⟩ := hpost
  have hs : s.exec t c (.lock w) = some (s.goto t c .check) := by
    cases w with
    | finish start err =>
      cases err <;> simp_all [Sys.exec, sysArchSemWait, Sys.afterLock, Op.isFetch, Sys.withKernel]
    | _ => simp at hheld
  exact Sys.Escapes.step hc hs ((h.exec hc hs).escapes_check (Sys.goto_ctl ..) hroom)

theorem Inv.escapes (h : Inv s) {pt : Point} (hc : s.ctl t = .at c pt) (hpost : c.IsPost)
    (hin : pt.inMutex = 1) (hroom : pt.beforeWrite → s.mbox.msgNum < maxQueueEntries)
    (hspin : ∀ site, pt ≠ .spin site) : s.Escapes t := by
  obtain ⟨m, hop⟩ := hpost
  have hok := h.okAt hc
  cases pt with
  | lock w => exact h.escapes_lock hc ⟨m, hop⟩ hin (hroom hin)
  | check => exact h.escapes_check hc (hroom trivial)
  | write => exact h.escapes_write hc
  | headInc => exact h.escapes_headInc hc
  | headWrap => exact h.escapes_headWrap hc
  | numInc => exact h.escapes_numInc hc
  | signal => exact h.escapes_signal hc
  | unlock => exact h.escapes_unlock hc
  | fullUnlock => simp [Call.Ok, hop] at hok
  | read | tailInc | tailWrap | numDec => simp [Call.Ok, hop, Op.isFetch] at hok
  | spin site => exact absurd rfl (hspin site)
  | wait w => simp at hin
  | _ => simp at hin

/-- What comes out does so whatever step of its own is next. -/
theorem Sys.Escapes.of_step {pt : Point} (hc : s.ctl t = .at c pt) (hs : s.exec t c pt = some s')
    (h : s.Escapes t) : s'.Escapes t := by
  obtain ⟨j, s'', hrun, hidle⟩ := h
  cases j with
  | zero =>
    rw [← Option.some.inj hrun, hc] at hidle
    exact absurd hidle (by simp)
  | succ j =>
    rw [List.replicate_succ, Machine.run, step_run hc, hs] at hrun
    exact ⟨j, s'', hrun, hidle⟩

theorem not_escapes_spin {site : AssertSite} (hc : s.ctl t = .at c (.spin site)) :
    ¬ s.Escapes t := by
  rintro ⟨j, s', hrun, hidle⟩
  have hstay : s' = s := by
    induction j with
    | zero => exact (Option.some.inj hrun).symm
    | succ j ih =>
      rw [List.replicate_succ, Machine.run, step_run hc] at hrun
      exact ih hrun
  rw [hstay, hc] at hidle
  exact absurd hidle (by simp)

/-! ## Room and delivery -/

theorem Inv.exec_spin (h : Inv s) {pt : Point} (hc : s.ctl t = .at c pt)
    (hs : s.exec t c pt = some s') {c' : Call} {site : AssertSite}
    (hspin : s'.ctl t = .at c' (.spin site)) :
    (pt = .sleepNew ∧ s.kernel.eventFree = 0) ∨
      (pt = .check ∧ maxQueueEntries ≤ s.mbox.msgNum) ∨ pt = .spin site := by
  have hgoto : ∀ (b : Sys n) (d : Call) (qt : Point), b.goto t d qt = s' → qt = .spin site := by
    rintro b d qt rfl
    rw [Sys.goto_ctl, Ctl.at.injEq] at hspin
    exact hspin.2
  have hret : ∀ (b : Sys n) (d : Call) (r : Ret), b.ret t d r ≠ s' := by
    rintro b d r rfl
    rw [show (b.ret t d r).ctl t = .idle from Function.update_self ..] at hspin
    exact absurd hspin (by simp)
  cases pt with
  | sleepNew =>
    simp only [Sys.exec] at hs
    split at hs
    · rename_i site' hsite
      refine Or.inl ⟨rfl, ?_⟩
      unfold sysSemNew osSemCreate at hsite
      rw [if_neg (by have := h.intNesting; omega)] at hsite
      split_ifs at hsite with hfree
      exact hfree
    · exact absurd (hgoto _ _ _ (Option.some.inj hs)) (by simp)
  | check =>
    simp only [Sys.exec] at hs
    split_ifs at hs with hfull
    · exact Or.inr (Or.inl ⟨rfl, hfull⟩)
    · exact absurd (hgoto _ _ _ (Option.some.inj hs)) (by simp)
  | spin site' =>
    simp only [Sys.exec, Option.some.injEq] at hs
    rw [← hs, hc, Ctl.at.injEq] at hspin
    exact Or.inr (Or.inr hspin.2)
  | sleep w | lock w =>
    simp only [Sys.exec] at hs
    split at hs
    · exact absurd hs (by simp)
    · exact absurd (hgoto _ _ _ (Option.some.inj hs)) (by simp)
    · have := hgoto _ _ _ (Option.some.inj hs)
      first | (exact absurd this (by simp)) | (unfold Sys.afterLock at this; split_ifs at this)
  | wait w =>
    simp only [Sys.exec] at hs
    split at hs
    · exact absurd hs (by simp)
    · exact absurd (hgoto _ _ _ (Option.some.inj hs)) (by simp)
    · simp only [Option.some.injEq, Sys.waited] at hs
      split at hs
      · exact absurd (hgoto _ _ _ hs) (by simp)
      · exact absurd hs (hret _ _ _)
  | fetchPoll =>
    simp only [Sys.exec] at hs
    split_ifs at hs
    · exact absurd (Option.some.inj hs) (hret _ _ _)
    · exact absurd (hgoto _ _ _ (Option.some.inj hs)) (by simp)
  | fullUnlock | unlock =>
    simp only [Sys.exec, h.signal_mutex] at hs
    exact absurd (Option.some.inj hs) (hret _ _ _)
  | signal =>
    simp only [Sys.exec, h.signal_sem hc] at hs
    exact absurd (hgoto _ _ _ (Option.some.inj hs)) (by simp)
  | poll =>
    have := hgoto _ _ _ (Option.some.inj hs)
    split_ifs at this
  | _ => exact absurd (hgoto _ _ _ (Option.some.inj hs)) (by simp)

/-- No post has stopped in an assertion. -/
def Sys.NoSpin (s : Sys n) : Prop := ∀ t c site, s.ctl t = .at c (.spin site) → ¬ c.IsPost

/-- What is known of the states looked at. -/
structure Sys.Sound (s : Sys n) : Prop where
  inv : Inv s
  log : Log s
  noSpin : s.NoSpin

theorem Sys.Sound.delivers (h : s.Sound) (hroom : s.Roomy) : s.Delivers where
  stored p hp hpost := by
    obtain ⟨m, hop⟩ := hpost
    have hset := h.log.settled p hp
    cases hr : p.2 with
    | void =>
      rw [hr] at hset
      exact hset.2.1
    | errOk | errMem =>
      rw [hr] at hset
      obtain ⟨⟨m', hop'⟩, -⟩ := hset
      rw [hop] at hop'
      exact absurd hop' (by simp)
    | time ticks =>
      rw [hr] at hset
      obtain ⟨hfetch, -⟩ := hset
      rw [hop] at hfetch
      exact absurd hfetch (by simp [Op.isFetch])
  noSpin := h.noSpin
  next t c pt s' hc hpost hs c' site hspin := by
    rcases h.inv.exec_spin hc hs hspin with ⟨rfl, hfree⟩ | ⟨rfl, hfull⟩ | rfl
    · exact absurd ((hroom t c _ hc hpost).2 rfl) (by omega)
    · exact absurd ((hroom t c _ hc hpost).1 trivial) (by omega)
    · exact h.noSpin t c site hc hpost
  mutex t c pt hc hpost hin :=
    h.inv.escapes hc hpost hin (hroom t c pt hc hpost).1 fun site hspin =>
      h.noSpin t c site (hspin ▸ hc) hpost

theorem Sys.Sound.roomy (h : s.Sound) (hdel : s.Delivers) : s.Roomy := by
  intro t c pt hc hpost
  obtain ⟨m, hop⟩ := hpost
  have hcheck : ∀ u : Sys n, Inv u → u.ctl t = .at c .check → maxQueueEntries ≤ u.mbox.msgNum →
      u.exec t c .check = some (u.goto t c (.spin .mboxPost)) := by
    intro u _ _ hfull
    simp only [Sys.exec, if_pos hfull, hop]
  constructor
  · intro hbefore
    by_contra hfull
    push Not at hfull
    cases pt with
    | check =>
      exact hdel.next t c .check _ hc ⟨m, hop⟩ (hcheck s h.inv hc hfull) c .mboxPost (Sys.goto_ctl ..)
    | lock w =>
      -- with the mutex in hand, the next two steps are the test and the assertion
      have hs : s.exec t c (.lock w) = some (s.goto t c .check) := by
        cases w with
        | finish start err =>
          cases err <;> simp_all [Sys.exec, sysArchSemWait, Sys.afterLock, Op.isFetch,
            Sys.withKernel, Point.beforeWrite]
        | _ => simp [Point.beforeWrite] at hbefore
      have hesc := (hdel.mutex t c _ hc ⟨m, hop⟩ hbefore).of_step hc hs
      have hs' := hcheck (s.goto t c .check) (h.inv.exec hc hs) (Sys.goto_ctl ..) hfull
      exact not_escapes_spin (Sys.goto_ctl ..) (hesc.of_step (Sys.goto_ctl ..) hs')
    | _ => exact hbefore
  · rintro rfl
    by_contra hfree
    have hs : s.exec t c .sleepNew = some (s.goto t c (.spin .creatingSem)) := by
      have hint : ¬ 0 < s.kernel.intNesting := by
        have := h.inv.intNesting
        omega
      have h0 : s.kernel.eventFree = 0 := by omega
      simp [Sys.exec, sysSemNew, osSemCreate, hint, h0]
    exact hdel.next t c .sleepNew _ hc ⟨m, hop⟩ hs c .creatingSem (Sys.goto_ctl ..)

theorem Sys.Sound.step (h : s.Sound) (hroom : s.Roomy) {a : Act n} (hs : s.step a = some s') :
    s'.Sound := by
  refine ⟨h.inv.step hs, h.log.step h.inv hs, ?_⟩
  intro u d site hd hpost
  cases a with
  | call t op =>
    simp only [Sys.step] at hs
    split at hs
    · simp only [Option.some.injEq] at hs
      subst hs
      by_cases hu : u = t
      · subst hu
        rw [Sys.goto_ctl, Ctl.at.injEq] at hd
        cases op <;> simp [Sys.entry] at hd
      · rw [Sys.goto_ctl_of_ne _ _ _ _ hu] at hd
        exact h.noSpin u d site hd hpost
    · exact absurd hs (by simp)
  | run t =>
    simp only [Sys.step] at hs
    split at hs
    · exact absurd hs (by simp)
    · rename_i c pt hc
      obtain ⟨-, -, -, c', -, hop, hnext⟩ := h.inv.turn hc hs
      by_cases hu : u = t
      · subst hu
        rcases hnext with ⟨pt', hctl, -⟩ | ⟨r, hctl, -⟩
        · have hself := hd
          rw [hctl, Function.update_self, Ctl.at.injEq] at hself
          have hpostc : c.IsPost := by
            rw [Call.IsPost, ← hop, hself.1]
            exact hpost
          exact (h.delivers hroom).next u c pt s' hc hpostc hs d site hd
        · rw [hctl, Function.update_self] at hd
          exact absurd hd (by simp)
      · have hsame : s'.ctl u = s.ctl u := by
          rcases hnext with ⟨pt', hctl, -⟩ | ⟨r, hctl, -⟩ <;> rw [hctl, Function.update_of_ne hu]
        rw [hsame] at hd
        exact h.noSpin u d site hd hpost
  | tick | events free =>
    simp only [Sys.step, Option.some.injEq] at hs
    subst hs
    exact h.noSpin u d site hd hpost

/-- From a fresh mailbox, posts deliver throughout exactly those runs in which they find room. -/
theorem mbox_post_delivers {s₀ : Sys n} (h₀ : s₀.Fresh) (l : List (Act n)) :
    (mboxMachine n).Always Sys.Roomy s₀ l ↔ (mboxMachine n).Always Sys.Delivers s₀ l := by
  refine Machine.always_iff (J := Sys.Sound) (fun s h => ⟨h.delivers, h.roomy⟩)
    (fun s a s' h hroom hs => h.step hroom hs) ?_ l
  refine ⟨Sys.Fresh.inv h₀, Sys.Fresh.log h₀, fun t c site hc => ?_⟩
  obtain ⟨k, -, -, -, -, hctl, -⟩ := h₀
  rw [hctl] at hc
  exact absurd hc (by simp)

instance (c : Call) : Decidable c.IsPost :=
  match c with
  | ⟨_, .post m, _, _⟩ => .isTrue ⟨m, rfl⟩
  | ⟨_, .trypost _, _, _⟩ => .isFalse fun h => by simp [Call.IsPost] at h
  | ⟨_, .fetch _ _, _, _⟩ => .isFalse fun h => by simp [Call.IsPost] at h
  | ⟨_, .tryfetch _, _, _⟩ => .isFalse fun h => by simp [Call.IsPost] at h

instance : DecidablePred Point.beforeWrite
  | .lock w => inferInstanceAs (Decidable (w.held = 1))
  | .check => .isTrue trivial
  | .poll | .sleepNew | .sleep _ | .sleepFree | .fetchPoll | .wait _ | .fullUnlock | .write | .headInc | .headWrap
  | .numInc | .signal | .read | .tailInc | .tailWrap | .numDec | .unlock | .spin _ => .isFalse id

/-- The condition on one task. -/
def Sys.RoomFor (s : Sys n) : Ctl → Prop
  | .idle => True
  | .at c pt => c.IsPost →
    (pt.beforeWrite → s.mbox.msgNum < maxQueueEntries) ∧ (pt = .sleepNew → 0 < s.kernel.eventFree)

instance (s : Sys n) : (x : Ctl) → Decidable (s.RoomFor x)
  | .idle => .isTrue trivial
  | .at c pt => inferInstanceAs (Decidable (c.IsPost →
    (pt.beforeWrite → s.mbox.msgNum < maxQueueEntries) ∧ (pt = .sleepNew → 0 < s.kernel.eventFree)))

theorem roomy_iff : (∀ t, s.RoomFor (s.ctl t)) ↔ s.Roomy := by
  constructor
  · intro h t c pt hc
    have hroom := h t
    rw [hc] at hroom
    exact hroom
  · intro h t
    cases hc : s.ctl t with
    | idle => trivial
    | «at» c pt => exact h t c pt hc

instance : DecidablePred (Sys.Roomy (n := n)) := fun _ => decidable_of_iff _ roomy_iff

/-- Two posts beside each other take the last two places; a third sleeps until a fetch has made room. -/
def threePosts : List (Act 2) := fill 0 98 ++ (.call 0 (.post 1) :: List.replicate 4 (.run 0)) ++
  .call 1 (.post 2) :: .run 1 :: List.replicate 5 (.run 0) ++ List.replicate 8 (.run 1) ++
  .call 0 (.post 3) :: List.replicate 5 (.run 0) ++ .call 1 (.tryfetch true) :: List.replicate 8 (.run 1) ++
  .tick :: List.replicate 12 (.run 0)

theorem mbox_post_delivers_new : ∃ s, (mboxMachine 2).run (newSys 2 1) threePosts = some s ∧
    (mboxMachine 2).Always Sys.Roomy (newSys 2 1) threePosts ∧
    (mboxMachine 2).Always Sys.Delivers (newSys 2 1) threePosts ∧
    s.hist.stored.map Prod.snd = List.replicate 98 0 ++ [1, 2, 3] := by
  have hroomy : (mboxMachine 2).Always Sys.Roomy (newSys 2 1) threePosts := by
    decide +kernel
  have hrun : ((mboxMachine 2).run (newSys 2 1) threePosts).map (fun s => s.hist.stored.map Prod.snd) =
      some (List.replicate 98 0 ++ [1, 2, 3]) := by
    decide +kernel
  obtain ⟨s, hs, hstored⟩ := Option.map_eq_some_iff.mp hrun
  exact ⟨s, hs, hroomy, (mbox_post_delivers (newSys_fresh 2 1) _).mp hroomy, hstored⟩

/-! ## Two producers -/

/-- Both tasks find the poll at 99 messages, task 0 posts, and task 1 is let into the mutex. -/
def refill : List (Act 2) :=
  [.call 0 (.post 1), .run 0, .call 1 (.post 2), .run 1] ++
    (List.replicate 4 (.run 0) ++ (List.replicate 4 (.run 0) ++ List.replicate 2 (.run 1)))

theorem spin_stays {ok : Sys n → Act n → Prop} {site : AssertSite} {l : List (Act n)}
    (hl : (mboxMachine n).Steps ok s l s') (hinv : Inv s) (hc : s.ctl t = .at c (.spin site)) :
    s'.ctl t = .at c (.spin site) := by
  refine (hl.invariant (I := fun u => Inv u ∧ u.ctl t = .at c (.spin site))
    (fun u a u' hu _ hstep => ⟨hu.1.step hstep, ?_⟩) ⟨hinv, hc⟩).2
  obtain ⟨hu, hct⟩ := hu
  change u.step a = some u' at hstep
  cases a with
  | call v op =>
    simp only [Sys.step] at hstep
    split at hstep
    · rename_i hv
      simp only [Option.some.injEq] at hstep
      subst hstep
      have hne : t ≠ v := by
        rintro rfl
        rw [hct] at hv
        exact absurd hv (by simp)
      rw [Sys.goto_ctl_of_ne _ _ _ _ hne]
      exact hct
    · exact absurd hstep (by simp)
  | run v =>
    simp only [Sys.step] at hstep
    split at hstep
    · exact absurd hstep (by simp)
    · rename_i d pt hd
      by_cases hv : t = v
      · subst hv
        obtain ⟨rfl, rfl⟩ : c = d ∧ .spin site = pt := by
          rw [hct, Ctl.at.injEq] at hd
          exact hd
        rw [← Option.some.inj hstep]
        exact hct
      · obtain ⟨-, -, -, c', -, -, ⟨pt', hctl, -⟩ | ⟨r, hctl, -⟩⟩ := hu.turn hd hstep <;>
          rw [hctl, Function.update_of_ne hv, hct]
  | tick | events free =>
    simp only [Sys.step, Option.some.injEq] at hstep
    subst hstep
    exact hct

/-- The second producer stops in the assertion with its message not stored and the mutex taken, and
stays there. -/
theorem mbox_post_refill : ∃ (s : Sys 2) (c : Call),
    (mboxMachine 2).run (newSys 2 0) (fill 0 99 ++ refill) = some s ∧ c.op = .post 2 ∧
      s.ctl 1 = .at c (.spin .mboxPost) ∧ entries s.hist.stored c.id = [] ∧
      (s.kernel.event .mutex).cnt = 0 ∧
      ∀ l s', (mboxMachine 2).Steps Machine.any s l s' → s'.ctl 1 = .at c (.spin .mboxPost) := by
  obtain ⟨s, hs, hstock, hidle⟩ := filled (n := 2) 0 0 (show 99 < maxQueueEntries by decide)
  -- both polls
  obtain ⟨c₀, c₁, s₁, hop₀, hop₁, hs₁, hstock₁, hctl₁⟩ : ∃ (c₀ c₁ : Call) (s₁ : Sys 2),
      c₀.op = .post 1 ∧ c₁.op = .post 2 ∧
      (mboxMachine 2).run s [.call 0 (.post 1), .run 0, .call 1 (.post 2), .run 1] = some s₁ ∧
      s₁.Stock 1 99 99 99 ∧
      s₁.ctl = Function.update (Function.update (fun _ => .idle) 0 (.at c₀ (.lock .accept))) 1
        (.at c₁ (.lock .accept)) := by
    have hpoll : ¬ maxQueueEntries ≤ s.mbox.msgNum := by
      rw [hstock.num]
      decide
    let c₀ : Call := ⟨s.hist.calls.length, .post 1, 0, none⟩
    let c₁ : Call := ⟨(s.hist.calls ++ [Op.post 1]).length, .post 2, 0, none⟩
    have hrun : (mboxMachine 2).run s [.call 0 (.post 1), .run 0, .call 1 (.post 2), .run 1] =
        some { s with
          ctl := Function.update (Function.update (fun _ => .idle) 0 (.at c₀ (.lock .accept))) 1
            (.at c₁ (.lock .accept))
          hist := { s.hist with calls := s.hist.calls ++ [Op.post 1] ++ [Op.post 2] } } := by
      simp only [Machine.run, mboxMachine, Sys.step, Sys.entry, Sys.exec, Sys.goto, hidle, hpoll,
        Option.bind_some, Function.update_self, Function.update_idem, if_false,
        Function.update_of_ne (show (1 : Fin 2) ≠ 0 by decide)]
      rfl
    exact ⟨c₀, c₁, _, rfl, rfl, hrun, ⟨hstock.1, hstock.2, hstock.3, hstock.4⟩, rfl⟩
  -- the whole post of task 0
  obtain ⟨s₂, hs₂, hstock₂, hctl₂⟩ := hstock₁.enter (t := 0) (c := c₀) (by decide)
    (by rw [hctl₁]; rfl) (by rw [hop₀]; rfl)
  obtain ⟨s₃, hs₃, hstock₃, hctl₃⟩ := hstock₂.leave (by decide) (by rw [hctl₂, Function.update_self])
  have hc₁ : s₃.ctl 1 = .at c₁ (.lock .accept) := by
    rw [hctl₃, hctl₂, hctl₁]
    rfl
  -- task 1 gets the mutex and finds the box full
  obtain ⟨s₄, hs₄, hctl₄, hmutex₄⟩ : ∃ s₄, (mboxMachine 2).run s₃ (List.replicate 2 (.run 1)) =
      some s₄ ∧ s₄.ctl 1 = .at c₁ (.spin .mboxPost) ∧ (s₄.kernel.event .mutex).cnt = 0 := by
    have hfull : maxQueueEntries ≤ s₃.mbox.msgNum := by
      rw [hstock₃.num]
      decide
    have hrun : (mboxMachine 2).run s₃ (List.replicate 2 (.run 1)) =
        some ((s₃.withKernel (s₃.kernel.setEvent .mutex ⟨0, ∅⟩)).goto 1 c₁ (.spin .mboxPost)) := by
      simp only [List.replicate, Machine.run, mboxMachine, Sys.step, Sys.exec, Sys.afterLock,
        Sys.goto, Sys.withKernel, Op.isFetch, sysArchSemWait, osSemAccept, hc₁, hop₁, hstock₃.mutex,
        hfull, Option.bind_some, Function.update_self, Function.update_idem, Nat.one_ne_zero,
        if_false, if_true, Bool.false_eq_true, if_pos Nat.one_pos]
    exact ⟨_, hrun, Sys.goto_ctl .., by simp⟩
  have hrun : (mboxMachine 2).run (newSys 2 0) (fill 0 99 ++ refill) = some s₄ := by
    rw [Machine.run_append, hs, Option.bind_some, refill, Machine.run_append, hs₁, Option.bind_some,
      Machine.run_append, hs₂, Option.bind_some, Machine.run_append, hs₃, Option.bind_some, hs₄]
  have hreach : (mboxMachine 2).Reach Machine.any s₄ :=
    (Machine.Reach.init (newSys_fresh 2 0)).steps (Machine.steps_of_run hrun)
  exact ⟨s₄, c₁, hrun, hop₁, hctl₄, ((reach_log hreach).logged 1 c₁ _ hctl₄).stored, hmutex₄,
    fun l s' hl => spin_stays hl (reach_inv hreach) hctl₄⟩

end LoraGateway.SysArch
