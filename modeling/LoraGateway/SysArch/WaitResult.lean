import Mathlib.Data.Nat.ModEq
import LoraGateway.SysArch.MboxTokens
import LoraGateway.SysArch.WaitRun

/-!
# What the value of a wait says

`sys_arch_sem_wait` returns the milliseconds it has waited, or `SYS_ARCH_TIMEOUT`, which is one of the
possible numbers of milliseconds. A wait that has taken a token is told apart from one that has not unless
`strayTicks` ticks, modulo 2 ^ 32, have come between its two reads of the clock; then a fetch drops the
token, and a message is left in the mailbox without one (`wait_result_iff`).
-/

namespace LoraGateway.SysArch

open Os Lib

/-- The number of ticks that make 0xffffffff ms, modulo 2 ^ 32. -/
def strayTicks : ℕ := 858993459

theorem stray_iff (m : ℕ) : BitVec.ofNat 32 (5 * m) = sysArchTimeout ↔ m % 2 ^ 32 = strayTicks := by
  have htimeout : sysArchTimeout = BitVec.ofNat 32 (5 * strayTicks) := rfl
  have hlt : strayTicks % 2 ^ 32 = strayTicks := rfl
  rw [htimeout, ← BitVec.toNat_inj, BitVec.toNat_ofNat, BitVec.toNat_ofNat, ← hlt]
  exact ⟨Nat.ModEq.cancel_left_of_coprime (by decide), Nat.ModEq.mul_left 5⟩

variable {ε : Type} [DecidableEq ε] {n : ℕ}

/-- The value says whether a token was taken. -/
def WaitOut.Tells : WaitOut → Prop
  | .at _ => True
  | .done took ticks => ticks = sysArchTimeout ↔ took = false

omit [DecidableEq ε] in
/-- A call tells unless the time between its reads of the clock is `SYS_ARCH_TIMEOUT`. -/
theorem tells_of_timed {s : Wait ε n} (h : s.Timed) (hm : s.elapsed % 2 ^ 32 ≠ strayTicks) : s.out.Tells := by
  unfold Wait.Timed at h
  split at h <;> rename_i hout <;> rw [hout]
  · trivial
  · trivial
  · trivial
  · trivial
  · trivial
  · rename_i took ticks
    rcases h with ⟨rfl, hticks⟩ | ⟨rfl, hticks⟩
    · exact iff_of_true hticks rfl
    · refine iff_of_false (fun hno => hm ?_) (by decide)
      rw [← stray_iff, ← hticks, hno]

/-! ## The mailbox -/

/-- No wait has dropped a token, and every message has its token. -/
def Sys.TokensKept (s : Sys n) : Prop :=
  s.hist.strayed = 0 ∧ s.mbox.msgNum = (s.kernel.event .sem).cnt + s.tokenHolders + s.signallers

variable {s s' : Sys n}

theorem Inv.tokensKept (h : Inv s) (hstrayed : s.hist.strayed = 0) : s.TokensKept := by
  have hnum := h.tokenHolders
  rw [hstrayed, Nat.add_zero] at hnum
  exact ⟨hstrayed, hnum⟩

/-- The value of a call of `sys_arch_sem_wait` says whether it has taken a token, for every timeout, every
start value of the clock and every number of ticks between the two reads of the clock but the one. In a run
of tasks on a mailbox, no fetch drops a token and every message has its token throughout exactly if no wait
that has taken a token reads that time. -/
theorem wait_result_iff (t : Fin n) (e : ε) :
    (∀ (timeout clock : BitVec 32) (m : ℕ),
      (∀ s l s', (waitMachine t e timeout).init s → s.kernel.systemTickNum = clock →
        (waitMachine t e timeout).Steps (Undisturbed t) s l s' → s'.elapsed = m → s'.out.Tells) ↔
      m % 2 ^ 32 ≠ strayTicks) ∧
    ∀ (s₀ s : Sys n) (l : List (Act n)), s₀.Fresh → (mboxMachine n).Steps Machine.any s₀ l s →
      ((mboxMachine n).Always Sys.TokensKept s₀ l ↔ (mboxMachine n).Steps Act.measurable s₀ l s) := by
  refine ⟨fun timeout clock m => ⟨fun h hm => ?_, fun hm s l s' hinit _ hs helapsed => ?_⟩,
    fun s₀ s l hfresh hs => ?_⟩
  · obtain ⟨l, s', hs, hout, helapsed⟩ := takes_token t e timeout clock m
    have htells := h _ l s' ⟨rfl, rfl, rfl, rfl, rfl⟩ rfl hs helapsed
    rw [hout, (stray_iff m).mpr hm] at htells
    exact absurd (htells.mp rfl) (by decide)
  · exact tells_of_timed (timed_run hinit hs) (helapsed ▸ hm)
  · refine Machine.always_iff_steps (J := fun s => Inv s ∧ s.hist.strayed = 0) (fun s h => h.1.tokensKept h.2)
      (fun s a s' h hok hstep => ⟨h.1.step hstep, (step_strayed hok hstep).trans h.2⟩)
      (fun s a s' h hno hstep hkept => ?_) hs ⟨hfresh.inv, ?_⟩
    · have hstrays := step_strays hno hstep
      rw [hkept.1] at hstrays
      exact Nat.succ_ne_zero _ hstrays.symm
    · obtain ⟨k, -, -, -, -, -, hhist⟩ := hfresh
      rw [hhist]

/-- Task 1 waits for a message, for two ticks, and task 0 posts one. -/
def waitedFetch : List (Act 2) := .call 1 (.fetch true 0) :: List.replicate 3 (.run 1) ++ [.tick, .tick] ++
  .call 0 (.trypost 5) :: List.replicate 8 (.run 0) ++ List.replicate 8 (.run 1)

/-- A wait of three ticks tells, and so does that of the fetch: it keeps its token. -/
theorem wait_result_fetch :
    (∀ s l s', (waitMachine (1 : Fin 2) (Ev.sem : Ev 2) 0).init s → s.kernel.systemTickNum = 7 →
      (waitMachine (1 : Fin 2) (Ev.sem : Ev 2) 0).Steps (Undisturbed 1) s l s' → s'.elapsed = 3 → s'.out.Tells) ∧
    ∃ s, (mboxMachine 2).runOk Act.measurable (newSys 2 0) waitedFetch = some s ∧
      (mboxMachine 2).Always Sys.TokensKept (newSys 2 0) waitedFetch ∧
      s.hist.returned.map Prod.snd = [.errOk, .time 10] := by
  have hrun : ((mboxMachine 2).runOk Act.measurable (newSys 2 0) waitedFetch).map
      (fun s => s.hist.returned.map Prod.snd) = some [.errOk, .time 10] := by
    decide +kernel
  obtain ⟨s, hs, hreturned⟩ := Option.map_eq_some_iff.mp hrun
  have hsteps : (mboxMachine 2).Steps Act.measurable (newSys 2 0) waitedFetch s := .of_runOk hs
  refine ⟨((wait_result_iff (1 : Fin 2) (Ev.sem : Ev 2)).1 0 7 3).mpr (by decide), s, hs, ?_, hreturned⟩
  exact ((wait_result_iff (1 : Fin 2) (Ev.sem : Ev 2)).2 _ s _ (newSys_fresh 2 0)
    (hsteps.mono fun _ _ _ => trivial)).mpr hsteps

/-- A wait without a timeout that sleeps for 0xffffffff ms and is posted to. -/
theorem wait_strays : ∃ (s s' : Wait (Ev 2) 2) (l : List (WaitAct (Ev 2) 2)), (waitMachine 1 .sem 0).init s ∧
    (waitMachine 1 .sem 0).Steps (Undisturbed 1) s l s' ∧ s'.out = .done true sysArchTimeout := by
  obtain ⟨l, s', hs, hout, -⟩ := takes_token (1 : Fin 2) (Ev.sem : Ev 2) 0 0 strayTicks
  refine ⟨_, s', l, ⟨rfl, rfl, rfl, rfl, rfl⟩, hs, ?_⟩
  rw [hout, (stray_iff strayTicks).mpr rfl]

end LoraGateway.SysArch
