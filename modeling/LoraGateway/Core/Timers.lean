import Mathlib.Data.List.Perm.Basic
import LoraGateway.Lib.Machine

/-!
# The timers of the stack

`sys_timeout` takes an element of the pool `MEMP_SYS_TIMEOUT` and links it into the one list of timeouts,
each with its time after the one before. The pool is sized by a formula over the modules of the stack, and
the periodic timers of these fill it. `tcpip_thread` gives the element of an expired timer back before it
calls the handler, which takes one again; ping, started by another task, wants one too
(`timer_pool_iff`).

The TCP timer, which is registered on demand, is compiled out under the options of the program. Times say
which timer is next; here any timer may be, so that every order is covered.

Proof: each element is in the pool, in the list, or with the handler that is running (`Full`). It goes from one to the
next when a timer expires (`full_expire`) and when its handler registers again (`full_handle`), so one element is free
only while a handler runs. ping takes that one or finds none, and either way the next step fails (`taken_step`).
-/

namespace LoraGateway.Core

open Lib

/-- The options that the size of the pool and `sys_timeouts_init` depend on. -/
structure Options where
  lwipTcp : Bool
  ipReassembly : Bool
  lwipArp : Bool
  lwipDhcp : Bool
  lwipAutoip : Bool
  lwipIgmp : Bool
  lwipDns : Bool
  pppSupport : Bool

/-- `lwipopts.h`, and `opt.h` for what it leaves open. -/
def programOptions : Options where
  lwipTcp := false
  ipReassembly := true
  lwipArp := true
  lwipDhcp := false
  lwipAutoip := false
  lwipIgmp := false
  lwipDns := false
  pppSupport := false

/-- `MEMP_NUM_SYS_TIMEOUT`. -/
def memNumSysTimeout (o : Options) : ℕ :=
  o.lwipTcp.toNat + o.ipReassembly.toNat + o.lwipArp.toNat + 2 * o.lwipDhcp.toNat + o.lwipAutoip.toNat +
    o.lwipIgmp.toNat + o.lwipDns.toNat + o.pppSupport.toNat

inductive Handler
  | ipReassTimer
  | arpTimer
  | dhcpTimerCoarse
  | dhcpTimerFine
  | autoipTimer
  | igmpTimer
  | dnsTimer
  | pingTimeout
  deriving DecidableEq

/-- The time a handler registers itself again with, in milliseconds. -/
def Handler.msecs : Handler → ℕ
  | .ipReassTimer => 1000
  | .arpTimer => 5000
  | .dhcpTimerCoarse => 60 * 1000
  | .dhcpTimerFine => 500
  | .autoipTimer => 100
  | .igmpTimer => 100
  | .dnsTimer => 1000
  | .pingTimeout => 1000

/-- `struct sys_timeo`, without the argument. -/
structure SysTimeo where
  time : ℕ
  h : Handler
  deriving DecidableEq

/-- `free` is the number of elements in the pool. `running` is the handler that `tcpip_thread` is in, its
element given back already. After a failed assertion nothing runs any more. -/
structure Timers where
  free : ℕ
  nextTimeout : List SysTimeo
  running : Option Handler
  pingState : ℕ
  asserted : Bool
  deriving DecidableEq

/-! ## Registering -/

/-- The `for` loop of `sys_timeout`, at an element that is not after the new one. -/
def insertAfter (timeout : SysTimeo) : List SysTimeo → List SysTimeo
  | [] => []
  | [t] => [t, { timeout with time := timeout.time - t.time }]
  | t :: n :: rest =>
    let timeout := { timeout with time := timeout.time - t.time }
    if n.time > timeout.time then t :: timeout :: { n with time := n.time - timeout.time } :: rest
    else t :: insertAfter timeout (n :: rest)

def insertTimeout (timeout : SysTimeo) : List SysTimeo → List SysTimeo
  | [] => [timeout]
  | t :: rest =>
    if t.time > timeout.time then timeout :: { t with time := t.time - timeout.time } :: rest
    else insertAfter timeout (t :: rest)

def sysTimeout (s : Timers) (msecs : ℕ) (h : Handler) : Timers :=
  if s.free = 0 then { s with asserted := true }
  else { s with free := s.free - 1, nextTimeout := insertTimeout ⟨msecs, h⟩ s.nextTimeout }

/-- The first call of `sys_timeout` for a handler that is compiled in. -/
def register (enabled : Bool) (h : Handler) (s : Timers) : Timers :=
  if enabled then sysTimeout s h.msecs h else s

def sysTimeoutsInit (o : Options) (s : Timers) : Timers :=
  let s := register o.ipReassembly .ipReassTimer s
  let s := register o.lwipArp .arpTimer s
  let s := register o.lwipDhcp .dhcpTimerCoarse s
  let s := register o.lwipDhcp .dhcpTimerFine s
  let s := register o.lwipAutoip .autoipTimer s
  let s := register o.lwipIgmp .igmpTimer s
  register o.lwipDns .dnsTimer s

/-- After `lwip_init`, with the pool the options give. -/
def Timers.start (o : Options) : Timers := sysTimeoutsInit o ⟨memNumSysTimeout o, [], none, 0, false⟩

/-! ## Running -/

inductive TimerAction
  | expire (i : ℕ)
  | handle
  | wait (msecs : ℕ)
  | reply
  | ping

/-- The handler itself. `ping_timeout` does not go on once a reply has come. -/
def handler (s : Timers) : Handler → Timers
  | .pingTimeout => if s.pingState = 0 then sysTimeout s Handler.pingTimeout.msecs .pingTimeout else s
  | h => sysTimeout s h.msecs h

/-- A message came first: the time waited is taken off the next timeout. -/
def waited (msecs : ℕ) : List SysTimeo → List SysTimeo
  | [] => []
  | t :: rest => { t with time := t.time - msecs } :: rest

/-- `ping_init` and `ping_ip`: the timer first, then `ping_state`. -/
def pingStart (s : Timers) : Timers :=
  let s := sysTimeout s Handler.pingTimeout.msecs .pingTimeout
  if s.asserted then s else { s with pingState := 0 }

/-- `expire` and `handle` are the two halves of a timeout in `sys_timeouts_mbox_fetch`, up to the return of
the memory and after it; `wait` and `reply` are messages. `ping` is a call of `ping_init` or `ping_ip`, by
any task at any time. -/
def Timers.step (s : Timers) (a : TimerAction) : Option Timers :=
  if s.asserted then none else
    match a, s.running with
    | .expire i, none => (s.nextTimeout[i]?).map fun t =>
      { s with nextTimeout := s.nextTimeout.eraseIdx i, free := s.free + 1, running := some t.h }
    | .handle, some h => some (handler { s with running := none } h)
    | .wait msecs, none => some { s with nextTimeout := waited msecs s.nextTimeout }
    | .reply, none => some { s with pingState := 1 }
    | .ping, _ => some (pingStart s)
    | _, _ => none

def timerMachine : Machine Timers TimerAction where
  init s := s = .start programOptions
  step := Timers.step

/-! ## The pool -/

/-- The handlers of the timeouts, in order: times are all that linking one in changes. -/
def Timers.handlers (s : Timers) : List Handler := s.nextTimeout.map SysTimeo.h

theorem insertAfter_perm (timeout t : SysTimeo) (l : List SysTimeo) :
    ((insertAfter timeout (t :: l)).map SysTimeo.h).Perm (timeout.h :: t.h :: l.map SysTimeo.h) := by
  induction l generalizing timeout t with
  | nil => exact .swap _ _ []
  | cons n rest ih =>
    rw [insertAfter]
    split
    · exact .swap _ _ _
    · exact ((ih { timeout with time := timeout.time - t.time } n).cons t.h).trans (.swap _ _ _)

theorem insertTimeout_perm (timeout : SysTimeo) (l : List SysTimeo) :
    ((insertTimeout timeout l).map SysTimeo.h).Perm (timeout.h :: l.map SysTimeo.h) := by
  cases l with
  | nil => exact .refl _
  | cons t rest =>
    rw [insertTimeout]
    split
    · exact .refl _
    · exact insertAfter_perm timeout t rest

theorem sysTimeout_of_pos {s : Timers} (h : 0 < s.free) (msecs : ℕ) (hd : Handler) :
    (sysTimeout s msecs hd).free = s.free - 1 ∧ (sysTimeout s msecs hd).asserted = s.asserted ∧
      (sysTimeout s msecs hd).running = s.running ∧
      (sysTimeout s msecs hd).handlers.Perm (hd :: s.handlers) := by
  rw [sysTimeout, if_neg (by omega)]
  exact ⟨rfl, rfl, rfl, insertTimeout_perm ⟨msecs, hd⟩ s.nextTimeout⟩

theorem sysTimeout_of_zero {s : Timers} (h : s.free = 0) (msecs : ℕ) (hd : Handler) :
    (sysTimeout s msecs hd).asserted = true := by
  rw [sysTimeout, if_pos h]

/-- The periodic timers of the stack have the pool of `n` to themselves: the element that is free is that of
the handler which is running. -/
structure Full (n : ℕ) (s : Timers) : Prop where
  going : s.asserted = false
  stack : ∀ h ∈ s.handlers, h ≠ .pingTimeout
  runs : ∀ h ∈ s.running, h ≠ .pingTimeout
  timers : s.handlers.length + s.running.toList.length = n
  pool : s.free + s.handlers.length = n

/-- Nothing goes on without an assertion: the element of the running handler is taken. -/
def Taken (s : Timers) : Prop :=
  s.asserted = true ∨ s.free = 0 ∧ ∃ h ∈ s.running, h ≠ .pingTimeout

/-- Every call so far has found an element, and no more timers are registered than there are elements. -/
def PoolSuffices (n : ℕ) (s : Timers) : Prop := s.asserted = false ∧ s.nextTimeout.length ≤ n

variable {n : ℕ} {s s' : Timers}

theorem Full.suffices (h : Full n s) : PoolSuffices n s := by
  refine ⟨h.going, ?_⟩
  have hpool := h.pool
  rw [Timers.handlers, List.length_map] at hpool
  omega

theorem handler_of_stack {h : Handler} (hstack : h ≠ .pingTimeout) (s : Timers) :
    handler s h = sysTimeout s h.msecs h := by
  cases h with
  | pingTimeout => exact absurd rfl hstack
  | _ => rfl

theorem step_cases {a : TimerAction} (hstep : s.step a = some s') : s.asserted = false ∧
    ((∃ i t, a = .expire i ∧ s.running = none ∧ s.nextTimeout[i]? = some t ∧ s' =
        { s with nextTimeout := s.nextTimeout.eraseIdx i, free := s.free + 1, running := some t.h }) ∨
      (∃ h, a = .handle ∧ s.running = some h ∧ s' = handler { s with running := none } h) ∨
      (∃ msecs, a = .wait msecs ∧ s.running = none ∧
        s' = { s with nextTimeout := waited msecs s.nextTimeout }) ∨
      (a = .reply ∧ s.running = none ∧ s' = { s with pingState := 1 }) ∨
      (a = .ping ∧ s' = pingStart s)) := by
  unfold Timers.step at hstep
  split at hstep
  · exact absurd hstep nofun
  · rename_i hgoing
    refine ⟨Bool.eq_false_iff.mpr hgoing, ?_⟩
    split at hstep
    · rename_i i hrunning
      obtain ⟨t, ht, hs'⟩ := Option.map_eq_some_iff.mp hstep
      exact .inl ⟨i, t, rfl, hrunning, ht, hs'.symm⟩
    · rename_i h hrunning
      exact .inr (.inl ⟨h, rfl, hrunning, (Option.some.inj hstep).symm⟩)
    · rename_i msecs hrunning
      exact .inr (.inr (.inl ⟨msecs, rfl, hrunning, (Option.some.inj hstep).symm⟩))
    · rename_i hrunning
      exact .inr (.inr (.inr (.inl ⟨rfl, hrunning, (Option.some.inj hstep).symm⟩)))
    · exact .inr (.inr (.inr (.inr ⟨rfl, (Option.some.inj hstep).symm⟩)))
    · exact absurd hstep nofun

theorem step_ping (hgoing : s.asserted = false) : s.step .ping = some (pingStart s) := by
  rw [Timers.step, if_neg (by rw [hgoing]; exact Bool.false_ne_true)]

theorem handlers_waited (msecs : ℕ) (l : List SysTimeo) :
    (waited msecs l).map SysTimeo.h = l.map SysTimeo.h := by
  cases l with
  | nil => rfl
  | cons t rest => rfl

theorem full_expire (hs : Full n s) (hrunning : s.running = none) {i : ℕ} {t : SysTimeo}
    (ht : s.nextTimeout[i]? = some t) :
    Full n { s with nextTimeout := s.nextTimeout.eraseIdx i, free := s.free + 1, running := some t.h } := by
  obtain ⟨hi, rfl⟩ := List.getElem?_eq_some_iff.mp ht
  have hperm : (s.nextTimeout[i].h :: (s.nextTimeout.eraseIdx i).map SysTimeo.h).Perm s.handlers :=
    (List.getElem_cons_eraseIdx_perm hi).map SysTimeo.h
  have hlength := hperm.length_eq
  rw [List.length_cons] at hlength
  have htimers := hs.timers
  rw [hrunning, Option.toList_none, List.length_nil] at htimers
  have hpool := hs.pool
  refine ⟨hs.going, fun h hh => ?_, fun h hh => ?_, ?_, ?_⟩
  · exact hs.stack h (hperm.mem_iff.mp (List.mem_cons_of_mem _ hh))
  · obtain rfl := Option.some.inj hh
    exact hs.stack _ (hperm.mem_iff.mp List.mem_cons_self)
  · exact hlength.trans htimers
  · show s.free + 1 + ((s.nextTimeout.eraseIdx i).map SysTimeo.h).length = n
    omega

theorem full_handle (hs : Full n s) {h : Handler} (hrunning : s.running = some h) :
    Full n (handler { s with running := none } h) := by
  have hstack : h ≠ .pingTimeout := hs.runs h hrunning
  have htimers := hs.timers
  rw [hrunning, Option.toList_some, List.length_singleton] at htimers
  have hpool := hs.pool
  have hfree : 0 < s.free := by omega
  obtain ⟨hfree', hgoing, hrunning', hperm⟩ :=
    sysTimeout_of_pos (s := { s with running := none }) hfree h.msecs h
  have hlength : (sysTimeout { s with running := none } h.msecs h).handlers.length =
      s.handlers.length + 1 := hperm.length_eq
  rw [handler_of_stack hstack]
  refine ⟨hgoing.trans hs.going, fun h' hh => ?_, fun h' hh => ?_, ?_, ?_⟩
  · rcases List.mem_cons.mp (hperm.mem_iff.mp hh) with rfl | hh
    · exact hstack
    · exact hs.stack h' hh
  · rw [hrunning'] at hh
    exact absurd hh nofun
  · rw [hrunning', hlength]
    exact htimers
  · rw [hfree', hlength]
    show s.free - 1 + _ = n
    omega

theorem full_step {a : TimerAction} (hs : Full n s) (ha : a ≠ .ping) (hstep : s.step a = some s') :
    Full n s' := by
  obtain ⟨-, ⟨i, t, rfl, hrunning, ht, rfl⟩ | ⟨h, rfl, hrunning, rfl⟩ | ⟨msecs, rfl, hrunning, rfl⟩ |
    ⟨rfl, hrunning, rfl⟩ | ⟨rfl, rfl⟩⟩ := step_cases hstep
  · exact full_expire hs hrunning ht
  · exact full_handle hs hrunning
  · have hhandlers : (Timers.mk s.free (waited msecs s.nextTimeout) s.running s.pingState
        s.asserted).handlers = s.handlers := handlers_waited msecs s.nextTimeout
    exact ⟨hs.going, hhandlers ▸ hs.stack, hs.runs, hhandlers ▸ hs.timers, hhandlers ▸ hs.pool⟩
  · exact ⟨hs.going, hs.stack, hs.runs, hs.timers, hs.pool⟩
  · exact absurd rfl ha

theorem full_ping (hs : Full n s) : Taken (pingStart s) := by
  have hpool := hs.pool
  have htimers := hs.timers
  rcases Nat.eq_zero_or_pos s.free with hfree | hfree
  · have hasserted := sysTimeout_of_zero hfree Handler.pingTimeout.msecs .pingTimeout
    refine .inl ?_
    rw [pingStart, if_pos hasserted]
    exact hasserted
  · obtain ⟨hfree', hgoing, hrunning, -⟩ := sysTimeout_of_pos hfree Handler.pingTimeout.msecs .pingTimeout
    refine .inr ?_
    rw [pingStart, if_neg (by rw [hgoing, hs.going]; exact Bool.false_ne_true)]
    cases hrun : s.running with
    | none =>
      rw [hrun, Option.toList_none, List.length_nil] at htimers
      omega
    | some h =>
      rw [hrun, Option.toList_some, List.length_singleton] at htimers
      exact ⟨hfree'.trans (by omega), h, hrunning.trans hrun, hs.runs h hrun⟩

theorem taken_step {a : TimerAction} (hs : Taken s) (hstep : s.step a = some s') : s'.asserted = true := by
  obtain ⟨hgoing, hcases⟩ := step_cases hstep
  rcases hs with hasserted | ⟨hfree, h, hrunning, hstack⟩
  · exact absurd (hgoing.symm.trans hasserted) Bool.false_ne_true
  · obtain ⟨i, t, rfl, hidle, ht, rfl⟩ | ⟨h', rfl, hrunning', rfl⟩ | ⟨msecs, rfl, hidle, rfl⟩ |
      ⟨rfl, hidle, rfl⟩ | ⟨rfl, rfl⟩ := hcases
    · exact absurd (hidle.symm.trans hrunning) nofun
    · obtain rfl := Option.some.inj (hrunning.symm.trans hrunning')
      rw [handler_of_stack hstack]
      exact sysTimeout_of_zero (s := { s with running := none }) hfree _ _
    · exact absurd (hidle.symm.trans hrunning) nofun
    · exact absurd (hidle.symm.trans hrunning) nofun
    · have hasserted := sysTimeout_of_zero hfree Handler.pingTimeout.msecs .pingTimeout
      rw [pingStart, if_pos hasserted]
      exact hasserted

/-! ## Runs -/

theorem full_start : Full (memNumSysTimeout programOptions) (.start programOptions) :=
  ⟨by decide, by decide, by decide, by decide, by decide⟩

theorem full_always (hs : Full n s) {l : List TimerAction} (hl : .ping ∉ l) :
    timerMachine.Always (PoolSuffices n) s l := by
  induction l generalizing s with
  | nil => exact hs.suffices
  | cons a l ih =>
    have hne : a ≠ .ping := fun h => hl (h ▸ List.mem_cons_self)
    exact ⟨hs.suffices, fun s' hstep =>
      ih (full_step hs hne hstep) fun h => hl (List.mem_cons_of_mem _ h)⟩

theorem taken_run (hs : Taken s) {l : List TimerAction} (h : timerMachine.Steps Machine.any s l s') :
    Taken s' :=
  h.invariant (fun _ _ _ hs _ hstep => .inl (taken_step hs hstep)) hs

/-- Once ping has been started, no further step is without a failed assertion. -/
theorem taken_of_ping (hs : Full n s) {l : List TimerAction} (h : timerMachine.Steps Machine.any s l s')
    (hping : .ping ∈ l) : Taken s' := by
  induction h with
  | nil => exact absurd hping List.not_mem_nil
  | cons _ hstep hl ih =>
    rename_i s s₁ _ a l _
    by_cases hne : a = .ping
    · subst hne
      obtain rfl := Option.some.inj ((step_ping hs.going).symm.trans hstep)
      exact taken_run (full_ping hs) hl
    · exact ih (full_step hs hne hstep)
        ((List.mem_cons.mp hping).resolve_left fun h => hne h.symm)

/-- The pool suffices throughout every run without a ping. In a run with one, an assertion has failed, or
whatever happens next fails one. -/
theorem timer_pool_iff {s : Timers} {l : List TimerAction}
    (h : timerMachine.Steps Machine.any (.start programOptions) l s) :
    (TimerAction.ping ∉ l →
      timerMachine.Always (PoolSuffices (memNumSysTimeout programOptions)) (.start programOptions) l) ∧
    (TimerAction.ping ∈ l → s.asserted = true ∨
      ∀ a s', timerMachine.step s a = some s' → s'.asserted = true) := by
  refine ⟨full_always full_start, fun hping => ?_⟩
  rcases taken_of_ping full_start h hping with hasserted | htaken
  · exact .inl hasserted
  · exact .inr fun a s' hstep => taken_step (.inr htaken) hstep

/-- The first ping after the start. -/
theorem timer_pool_empty :
    ∃ s, timerMachine.run (.start programOptions) [.ping] = some s ∧ s.asserted = true := by
  exact ⟨_, rfl, by decide⟩

/-- A ping that gets in while the ARP timer is in its handler. -/
theorem timer_pool_window :
    ∃ s, timerMachine.run (.start programOptions) [.expire 1, .ping] = some s ∧ s.asserted = false ∧
      ∀ a s', timerMachine.step s a = some s' → s'.asserted = true := by
  have hrun : (timerMachine.run (.start programOptions) [.expire 1, .ping]).map Timers.asserted =
    some false := by decide
  obtain ⟨s, hs, hgoing⟩ := Option.map_eq_some_iff.mp hrun
  exact ⟨s, hs, hgoing, ((timer_pool_iff (Machine.steps_of_run hs)).2 (by simp)).resolve_left
    (by rw [hgoing]; exact Bool.false_ne_true)⟩

end LoraGateway.Core
