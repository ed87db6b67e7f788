import LoraGateway.Core.Timers
import LoraGateway.SysArch.WaitResult

/-!
# Waiting for the next timeout

`sys_timeouts_mbox_fetch` of `timers.c` waits for a message as long as the first timeout in the list says,
and takes `SYS_ARCH_TIMEOUT` for that time having passed. The wait is in ticks of 5 ms, and its budget is
computed in 32 bits and cut to 65535 ticks, so this is true up to less than a tick for a timeout below
`65536 * 5` ms, and for no other (`tick_budget_iff`).

Proof: a call that times out has slept for the whole tick budget, whatever happens elsewhere (`slept_run`), and the
budget is arithmetic (`waitTicks_small`, `budget_iff`). The first timer of the list is waited for in several calls if
messages come, each with the time waited taken off (`Fires`); what a message takes off is in whole ticks, so nothing
is lost on the way (`fires_late`). All of this is about the first timer. One behind it counts from the one in
front, and each wait for one of those in front may be short of its time by less than a tick, so for a timer further
back these add up.
-/

namespace LoraGateway.Core

open Lib Os SysArch

/-! ## A round -/

/-- The timeout that `sys_arch_mbox_fetch` is called with; no call is made for a timeout of 0. -/
def fetchTimeout : List SysTimeo → Option (BitVec 32)
  | [] => some 0
  | t :: _ => if t.time > 0 then some (BitVec.ofNat 32 t.time) else none

/-- What is done with its value: the handler called and the list left. -/
def fetched (timeNeeded : BitVec 32) : List SysTimeo → Option Handler × List SysTimeo
  | [] => (none, [])
  | t :: rest =>
    if timeNeeded = sysArchTimeout then (some t.h, rest)
    else
      (none, { t with time := if timeNeeded.toNat < t.time then t.time - timeNeeded.toNat else 0 } :: rest)

/-- A message takes the time waited off the first timeout, as `TimerAction.wait` has it. -/
theorem fetched_waited {timeNeeded : BitVec 32} (h : timeNeeded ≠ sysArchTimeout) (l : List SysTimeo) :
    fetched timeNeeded l = (none, waited timeNeeded.toNat l) := by
  cases l with
  | nil => rfl
  | cons t rest =>
    rw [fetched, if_neg h, waited]
    split_ifs with hlt
    · rfl
    · rw [Nat.sub_eq_zero_of_le (Nat.le_of_not_lt hlt)]

theorem fetched_handler {timeNeeded : BitVec 32} {l rest : List SysTimeo} {h : Handler}
    (hfetched : fetched timeNeeded l = (some h, rest)) : timeNeeded = sysArchTimeout := by
  by_contra hne
  rw [fetched_waited hne] at hfetched
  exact absurd (congrArg Prod.fst hfetched) nofun

variable {ε : Type} [DecidableEq ε] {n : ℕ}

/-- The calls of `sys_timeouts_mbox_fetch` from a list of timeouts until the first of them is handled, and
the ticks that fall into its waits. The wait of `sys_arch_mbox_fetch` is for the semaphore `e`. -/
inductive Fires (t : Fin n) (e : ε) : List SysTimeo → ℕ → Prop
  | now {l : List SysTimeo} : fetchTimeout l = none → Fires t e l 0
  | expired {l rest : List SysTimeo} {timeout ticks : BitVec 32} {took : Bool} {h : Handler} {s s' : Wait ε n}
      {acts : List (WaitAct ε n)} : fetchTimeout l = some timeout → (waitMachine t e timeout).init s →
      (waitMachine t e timeout).Steps (Undisturbed t) s acts s' → s'.out = .done took ticks →
      fetched ticks l = (some h, rest) → Fires t e l s'.ticks
  | message {l rest : List SysTimeo} {timeout ticks : BitVec 32} {took : Bool} {s s' : Wait ε n}
      {acts : List (WaitAct ε n)} {m : ℕ} : fetchTimeout l = some timeout → (waitMachine t e timeout).init s →
      (waitMachine t e timeout).Steps (Undisturbed t) s acts s' → s'.out = .done took ticks →
      fetched ticks l = (none, rest) → Fires t e rest m → Fires t e l (s'.ticks + m)

/-! ## The tick budget -/

variable {timeout : BitVec 32}

theorem ne_zero_of_pos (h : 1 ≤ timeout.toNat) : timeout ≠ 0 := by
  rintro rfl
  exact absurd h (by decide)

theorem waitTicks_small (h : 1 ≤ timeout.toNat) (hlt : timeout.toNat < 327680) :
    (waitTicks timeout).toNat = max 1 (timeout.toNat / 5) := by
  rw [waitTicks_toNat (ne_zero_of_pos h), Nat.mod_eq_of_lt (by omega)]
  omega

/-- The budget is right there, and too small from there on. -/
theorem budget_iff (h : 1 ≤ timeout.toNat) :
    (timeout.toNat < 5 * (waitTicks timeout).toNat + 5 ∧ 5 * (waitTicks timeout).toNat ≤ max timeout.toNat 5) ↔
      timeout.toNat < 327680 := by
  constructor
  · rintro ⟨hlow, -⟩
    rw [waitTicks_toNat (ne_zero_of_pos h)] at hlow
    omega
  · intro hlt
    rw [waitTicks_small h hlt]
    omega

theorem budget_mono {timeout' : BitVec 32} (h' : 1 ≤ timeout'.toNat) (hle : timeout'.toNat ≤ timeout.toNat)
    (hlt : timeout.toNat < 327680) : (waitTicks timeout').toNat ≤ (waitTicks timeout).toNat := by
  rw [waitTicks_small h' (by omega), waitTicks_small (by omega) hlt]
  omega

/-- A call that returns `SYS_ARCH_TIMEOUT` has lasted for the budget, or for all of 32 bits. -/
theorem timeout_ticks {t : Fin n} {e : ε} {s s' : Wait ε n} {acts : List (WaitAct ε n)} {took : Bool}
    (hlt : timeout.toNat < 327680) (h : 1 ≤ timeout.toNat) (hinit : (waitMachine t e timeout).init s)
    (hs : (waitMachine t e timeout).Steps (Undisturbed t) s acts s') (hout : s'.out = .done took sysArchTimeout) :
    timeout.toNat < 5 * s'.ticks + 5 := by
  have hslept := slept_run hinit hs
  have htimed := timed_run hinit hs
  have hle := hslept.elapsed_le
  have hcases := hslept.out
  have hbudget := ((budget_iff h).mpr hlt).1
  rw [hout] at hcases
  rw [Wait.Timed, hout] at htimed
  rcases htimed with ⟨rfl, -⟩ | ⟨-, hticks⟩
  · have hlong := hcases.resolve_left (by decide)
    omega
  · have hstray : s'.elapsed % 2 ^ 32 = strayTicks := (stray_iff _).mp hticks.symm
    have hmany := Nat.mod_le s'.elapsed (2 ^ 32)
    rw [hstray, strayTicks] at hmany
    omega

theorem fetchTimeout_cons {x : SysTimeo} {rest : List SysTimeo} (h : fetchTimeout (x :: rest) = some timeout) :
    0 < x.time ∧ timeout = BitVec.ofNat 32 x.time := by
  rw [fetchTimeout] at h
  split_ifs at h with hpos
  exact ⟨hpos, (Option.some.inj h).symm⟩

/-- The first timeout is not handled a tick too early. -/
theorem fires_late {t : Fin n} {e : ε} {l : List SysTimeo} {m : ℕ} (h : Fires t e l m) :
    ∀ x rest, l = x :: rest → x.time < 327680 → x.time < 5 * m + 5 := by
  induction h with
  | now hnone =>
    rintro x rest rfl -
    rw [fetchTimeout] at hnone
    split_ifs at hnone
    omega
  | expired htimeout hinit hs hout hfetched =>
    rintro x rest rfl hlt
    obtain ⟨hpos, rfl⟩ := fetchTimeout_cons htimeout
    obtain rfl := fetched_handler hfetched
    have htime : (BitVec.ofNat 32 x.time).toNat = x.time := by
      rw [BitVec.toNat_ofNat, Nat.mod_eq_of_lt (by omega)]
    have hlate := timeout_ticks (by omega) (by omega) hinit hs hout
    omega
  | @message _ _ _ ticks _ _ s' _ m htimeout hinit hs hout hfetched _ ih =>
    rintro x rest rfl hlt
    have hne : ticks ≠ sysArchTimeout := by
      rintro rfl
      rw [fetched, if_pos rfl] at hfetched
      exact absurd (congrArg Prod.fst hfetched) nofun
    rw [fetched_waited hne] at hfetched
    -- the time taken off is not more than the ticks of the wait
    have htimed := timed_run hinit hs
    have hle := (slept_run hinit hs).elapsed_le
    rw [Wait.Timed, hout] at htimed
    have hms : ticks.toNat ≤ 5 * s'.elapsed := by
      rw [(htimed.resolve_left fun hno => hne hno.2).2, BitVec.toNat_ofNat]
      exact Nat.mod_le _ _
    have hrest := ih _ rest (congrArg Prod.snd hfetched).symm (by show x.time - ticks.toNat < _; omega)
    have hrest' : x.time - ticks.toNat < 5 * m + 5 := hrest
    omega

/-! ## Every timeout -/

/-- The tick budget is `timeout` up to less than a tick, and no smaller than that of a shorter timeout; a
wait that ends in `SYS_ARCH_TIMEOUT` and a timer that is handled have waited that long up to less than a
tick. That is one wait: for a timer behind others, whose times it counts from, what each of the waits for
those is short of adds up. -/
structure Accurate (t : Fin n) (e : ε) (timeout : BitVec 32) : Prop where
  budget : timeout.toNat < 5 * (waitTicks timeout).toNat + 5 ∧
    5 * (waitTicks timeout).toNat ≤ max timeout.toNat 5
  mono : ∀ timeout' : BitVec 32, 1 ≤ timeout'.toNat → timeout'.toNat ≤ timeout.toNat →
    (waitTicks timeout').toNat ≤ (waitTicks timeout).toNat
  wait : ∀ (s s' : Wait ε n) (acts : List (WaitAct ε n)) (took : Bool), (waitMachine t e timeout).init s →
    (waitMachine t e timeout).Steps (Undisturbed t) s acts s' → s'.out = .done took sysArchTimeout →
    timeout.toNat < 5 * s'.ticks + 5
  timer : ∀ (x : SysTimeo) (rest : List SysTimeo) (m : ℕ), x.time = timeout.toNat → Fires t e (x :: rest) m →
    timeout.toNat < 5 * m + 5

/-- All of this holds for a timeout below `65536 * 5` ms, and only for such a timeout. -/
theorem tick_budget_iff (t : Fin n) (e : ε) (timeout : BitVec 32) (h : 1 ≤ timeout.toNat) :
    Accurate t e timeout ↔ timeout.toNat < 327680 := by
  refine ⟨fun ha => (budget_iff h).mp ha.budget, fun hlt => ⟨(budget_iff h).mpr hlt, ?_, ?_, ?_⟩⟩
  · exact fun timeout' h' hle => budget_mono h' hle hlt
  · exact fun s s' acts took hinit hs hout => timeout_ticks hlt h hinit hs hout
  · intro x rest m hx hfires
    rw [← hx] at hlt ⊢
    exact fires_late hfires x rest rfl hlt

/-- `arp_timer`, every 5 seconds, takes 1000 ticks. -/
theorem tick_budget_arp : Accurate (0 : Fin 1) () 5000 ∧ (waitTicks 5000).toNat = 1000 :=
  ⟨(tick_budget_iff 0 () 5000 (by decide)).mpr (by decide), by decide⟩

/-- A wait of 328 seconds times out after 327675 ms, and one of 21474837 ms, where the product wraps, after
one tick. -/
theorem budget_falls_short :
    (∃ (s s' : Wait Unit 1) (acts : List (WaitAct Unit 1)), (waitMachine 0 () 328000).init s ∧
      (waitMachine 0 () 328000).Steps (Undisturbed 0) s acts s' ∧ s'.out = .done false sysArchTimeout ∧
      5 * s'.ticks + 5 ≤ 328000) ∧
    ∃ (s s' : Wait Unit 1) (acts : List (WaitAct Unit 1)), (waitMachine 0 () 21474837).init s ∧
      (waitMachine 0 () 21474837).Steps (Undisturbed 0) s acts s' ∧ s'.out = .done false sysArchTimeout ∧
      s'.ticks = 1 := by
  refine ⟨?_, ?_⟩
  · obtain ⟨acts, s', hs, hout, hticks⟩ := times_out (0 : Fin 1) () (show (328000 : BitVec 32) ≠ 0 by decide) 0
    refine ⟨_, s', acts, ⟨rfl, rfl, rfl, rfl, rfl⟩, hs, hout, ?_⟩
    rw [hticks]
    decide
  · obtain ⟨acts, s', hs, hout, hticks⟩ := times_out (0 : Fin 1) () (show (21474837 : BitVec 32) ≠ 0 by decide) 0
    refine ⟨_, s', acts, ⟨rfl, rfl, rfl, rfl, rfl⟩, hs, hout, ?_⟩
    rw [hticks]
    decide

end LoraGateway.Core
