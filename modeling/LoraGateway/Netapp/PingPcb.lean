import Mathlib.Data.List.Perm.Basic
import LoraGateway.Lib.Machine
import LoraGateway.Netapp.Ping

/-!
# Control blocks of ping

Each start of ping takes a raw control block and registers a timer that carries it. The timer's handler
sends and registers itself again until a reply has set `ping_state`; then it removes a control block, but
the one `ping_pcb` points to, which a second start has overwritten. `ping_pcb_iff` says in which runs the
control blocks are accounted for: those where each block is removed by its own timer.

A control block is named by the order in which `raw_new` returned it, so a freed block is not mistaken for
one that got its memory. `sys_timeout` finds an element here: where it does not, it stops in its assertion.
-/

namespace LoraGateway.Netapp

open Lib

/-- A call of `raw_remove`: its argument, and whether that was allocated. -/
structure Removal where
  pcb : Option ℕ
  allocated : Bool
  deriving DecidableEq

/-- The ping application: `rawPcbs` is the list `raw_pcbs`, `timers` the arguments of the `ping_timeout`
timers that are pending, `obtained` the number of control blocks that `raw_new` has returned. -/
structure PingApp where
  ping : Ping
  pingPcb : Option ℕ
  rawPcbs : List ℕ
  timers : List ℕ
  obtained : ℕ
  removals : List Removal
  deriving DecidableEq

def PingApp.start : PingApp := ⟨.start, none, [], [], 0, []⟩

/-- The control blocks that `raw_remove` has been called with. -/
def PingApp.removed (s : PingApp) : List (Option ℕ) := s.removals.map Removal.pcb

def rawRemove (s : PingApp) (pcb : Option ℕ) : PingApp :=
  { s with
    rawPcbs := pcb.elim s.rawPcbs s.rawPcbs.erase
    removals := s.removals ++ [⟨pcb, pcb.any (· ∈ s.rawPcbs)⟩] }

/-- The loop of `raw_input`: `prev` is the part of the list that did not eat the packet, and the block that
eats it moves to the front. -/
def rawInput (s : Ping) (p : List Byte) (prev : List ℕ) : List ℕ → Ping × List ℕ
  | [] => (s, prev)
  | pcb :: rest =>
    let r := pingRawRecvFn s p
    if r.ret ≠ 0 then (r.ping, pcb :: (prev ++ rest))
    else rawInput r.ping r.payload (prev ++ [pcb]) rest

/-- `ping_init` and `ping_ip`, after the address: `ping_raw_init`, and `ping_state` reset. -/
def pingRawInit (s : PingApp) : PingApp :=
  { s with
    ping := { s.ping with pingState := 0 }
    pingPcb := some s.obtained
    rawPcbs := s.obtained :: s.rawPcbs
    timers := s.timers ++ [s.obtained]
    obtained := s.obtained + 1 }

/-- `ping_timeout`, with what `pbuf_alloc` returns if it is called. -/
def pingTimeout (s : PingApp) (arg : ℕ) (p : Option EchoBuf) : PingApp :=
  if s.ping.pingState = 0 then
    { s with ping := pingSend s.ping p, timers := s.timers ++ [arg] }
  else rawRemove s s.pingPcb

inductive PingAction
  | start
  | expire (i : ℕ) (p : Option EchoBuf)
  | input (p : List Byte)

def PingApp.step (s : PingApp) : PingAction → Option PingApp
  | .start => some (pingRawInit s)
  | .expire i p =>
    (s.timers[i]?).map fun arg => pingTimeout { s with timers := s.timers.eraseIdx i } arg p
  | .input p =>
    let (ping, pcbs) := rawInput s.ping p [] s.rawPcbs
    some { s with ping, rawPcbs := pcbs }

def pingMachine : Machine PingApp PingAction where
  init s := s = .start
  step := PingApp.step

/-! ## The life cycle -/

structure LifeCycle (s : PingApp) : Prop where
  allocated : ∀ r ∈ s.removals, r.allocated = true
  once : s.removed.Nodup
  apart : ∀ pcb ∈ s.timers, some pcb ∉ s.removed
  drained : s.timers = [] → ∀ pcb < s.obtained, some pcb ∈ s.removed

/-- The ledger: every block that was obtained is either removed or in the list, once, and those in the list
are those of the timers. -/
structure Ledger (s : PingApp) : Prop where
  allocated : ∀ r ∈ s.removals, r.allocated = true
  timers : s.timers.Perm s.rawPcbs
  blocks : (s.removed ++ s.rawPcbs.map some).Perm ((List.range s.obtained).map some)

/-- A timer that ends a ping carries the control block that `ping_pcb` points to. -/
def OwnTimer (s : PingApp) : PingAction → Prop
  | .expire i _ => s.ping.pingState ≠ 0 → ∀ arg ∈ s.timers[i]?, s.pingPcb = some arg
  | _ => True

theorem Ledger.nodup {s : PingApp} (h : Ledger s) : (s.removed ++ s.rawPcbs.map some).Nodup :=
  h.blocks.nodup_iff.mpr (List.nodup_range.map (Option.some_injective ℕ))

theorem Ledger.lifeCycle {s : PingApp} (h : Ledger s) : LifeCycle s := by
  obtain ⟨honce, -, hdisjoint⟩ := List.nodup_append.mp h.nodup
  refine ⟨h.allocated, honce, fun pcb hpcb hremoved => ?_, fun hnil pcb hlt => ?_⟩
  · have hlive : some pcb ∈ s.rawPcbs.map some := List.mem_map_of_mem (h.timers.mem_iff.mp hpcb)
    exact hdisjoint _ hremoved _ hlive rfl
  · have hpcbs : s.rawPcbs = [] := by
      have htimers := h.timers
      rw [hnil] at htimers
      exact htimers.nil_eq.symm
    have hmem : some pcb ∈ s.removed ++ s.rawPcbs.map some :=
      h.blocks.mem_iff.mpr (List.mem_map_of_mem (List.mem_range.mpr hlt))
    rw [hpcbs, List.map_nil, List.append_nil] at hmem
    exact hmem

theorem rawInput_perm (s : Ping) (p : List Byte) (prev l : List ℕ) :
    (rawInput s p prev l).2.Perm (prev ++ l) := by
  induction l generalizing s p prev with
  | nil => rw [rawInput, List.append_nil]
  | cons pcb rest ih =>
    rw [rawInput]
    split
    · exact List.perm_middle.symm
    · have hrest := ih (pingRawRecvFn s p).ping (pingRawRecvFn s p).payload (prev ++ [pcb])
      rw [List.append_assoc, List.singleton_append] at hrest
      exact hrest

theorem ledger_start : Ledger .start :=
  ⟨fun _ hr => absurd hr List.not_mem_nil, .nil, .nil⟩

theorem ledger_rawInit {s : PingApp} (h : Ledger s) : Ledger (pingRawInit s) := by
  refine ⟨h.allocated, ?_, ?_⟩
  · exact (List.perm_append_singleton _ _).trans (h.timers.cons _)
  · show (s.removed ++ some s.obtained :: s.rawPcbs.map some).Perm _
    rw [pingRawInit, List.range_succ, List.map_append]
    exact List.perm_middle.trans ((h.blocks.cons _).trans (List.perm_append_singleton _ _).symm)

theorem ledger_input {s : PingApp} (h : Ledger s) (p : List Byte) :
    Ledger { s with ping := (rawInput s.ping p [] s.rawPcbs).1, rawPcbs := (rawInput s.ping p [] s.rawPcbs).2 } := by
  have hperm : (rawInput s.ping p [] s.rawPcbs).2.Perm s.rawPcbs := rawInput_perm s.ping p [] s.rawPcbs
  exact ⟨h.allocated, h.timers.trans hperm.symm, ((hperm.map some).append_left _).trans h.blocks⟩

theorem cons_eraseIdx_perm {l : List ℕ} {i arg : ℕ} (h : l[i]? = some arg) :
    (arg :: l.eraseIdx i).Perm l := by
  obtain ⟨hi, rfl⟩ := List.getElem?_eq_some_iff.mp h
  exact List.getElem_cons_eraseIdx_perm hi

theorem ledger_again {s : PingApp} (h : Ledger s) {i arg : ℕ} (harg : s.timers[i]? = some arg)
    (ping : Ping) : Ledger { s with ping, timers := s.timers.eraseIdx i ++ [arg] } := by
  refine ⟨h.allocated, ?_, h.blocks⟩
  exact (List.perm_append_singleton _ _).trans ((cons_eraseIdx_perm harg).trans h.timers)

theorem ledger_remove {s : PingApp} (h : Ledger s) {i arg : ℕ} (harg : s.timers[i]? = some arg) :
    Ledger (rawRemove { s with timers := s.timers.eraseIdx i } (some arg)) := by
  have hlive : arg ∈ s.rawPcbs := h.timers.mem_iff.mp (List.mem_of_getElem? harg)
  have herase : s.rawPcbs.Perm (arg :: s.rawPcbs.erase arg) := List.perm_cons_erase hlive
  refine ⟨fun r hr => ?_, ?_, ?_⟩
  · rcases List.mem_append.mp hr with hr | hr
    · exact h.allocated r hr
    · obtain rfl := List.mem_singleton.mp hr
      exact decide_eq_true hlive
  · exact ((cons_eraseIdx_perm harg).trans (h.timers.trans herase)).cons_inv
  · have hremoved : (rawRemove { s with timers := s.timers.eraseIdx i } (some arg)).removed =
        s.removed ++ [some arg] := List.map_append
    rw [hremoved, List.append_assoc]
    exact ((herase.symm.map some).append_left s.removed).trans h.blocks

theorem mem_removed_rawRemove {s : PingApp} {pcb : Option ℕ} : pcb ∈ (rawRemove s pcb).removed :=
  List.mem_map_of_mem (List.mem_append_right _ List.mem_cons_self)

theorem step_expire {s s' : PingApp} {i : ℕ} {p : Option EchoBuf} (h : s.step (.expire i p) = some s') :
    ∃ arg, s.timers[i]? = some arg ∧ s' = pingTimeout { s with timers := s.timers.eraseIdx i } arg p := by
  obtain ⟨arg, harg, hs'⟩ := Option.map_eq_some_iff.mp h
  exact ⟨arg, harg, hs'.symm⟩

theorem ledger_step (s : PingApp) (a : PingAction) (s' : PingApp) (h : Ledger s) (hok : OwnTimer s a)
    (hstep : s.step a = some s') : Ledger s' := by
  cases a with
  | start =>
    obtain rfl := Option.some.inj hstep
    exact ledger_rawInit h
  | input p =>
    obtain rfl := Option.some.inj hstep
    exact ledger_input h p
  | expire i p =>
    obtain ⟨arg, harg, rfl⟩ := step_expire hstep
    rw [pingTimeout]
    split
    · exact ledger_again h harg _
    · rename_i hstate
      have hown : s.pingPcb = some arg := hok hstate arg harg
      have hledger := ledger_remove h harg
      rw [← hown] at hledger
      exact hledger

/-- A timer that removes the block of another one: that is either pending still, or has ended before. -/
theorem lifeCycle_break (s : PingApp) (a : PingAction) (s' : PingApp) (h : Ledger s)
    (hok : ¬ OwnTimer s a) (hstep : s.step a = some s') : ¬ LifeCycle s' := by
  cases a with
  | start => exact absurd trivial hok
  | input p => exact absurd trivial hok
  | expire i p =>
    obtain ⟨arg, harg, rfl⟩ := step_expire hstep
    obtain ⟨hstate, hother⟩ : s.ping.pingState ≠ 0 ∧ s.pingPcb ≠ some arg := by
      refine ⟨fun hstate => hok fun h => absurd hstate h, fun hown => hok fun _ arg' harg' => ?_⟩
      rw [hown, ← harg, harg']
    rw [pingTimeout, if_neg hstate]
    intro hcycle
    have hflag : s.pingPcb.any (· ∈ s.rawPcbs) = true :=
      hcycle.allocated ⟨s.pingPcb, _⟩ (List.mem_append_right _ List.mem_cons_self)
    obtain ⟨pcb, hpcb, hlive⟩ := (Option.any_eq_true _ _).mp hflag
    have hpending : pcb ∈ s.timers.eraseIdx i := by
      have hmem : pcb ∈ arg :: s.timers.eraseIdx i :=
        (cons_eraseIdx_perm harg).mem_iff.mpr (h.timers.mem_iff.mpr (of_decide_eq_true hlive))
      rcases List.mem_cons.mp hmem with rfl | hmem
      · exact absurd hpcb hother
      · exact hmem
    refine hcycle.apart pcb hpending ?_
    rw [← hpcb]
    exact mem_removed_rawRemove

/-- The control blocks are accounted for throughout a run exactly if every timer that ends a ping is that of
the block it removes. -/
theorem ping_pcb_iff {s : PingApp} {l : List PingAction} (h : pingMachine.Steps Machine.any .start l s) :
    pingMachine.Always LifeCycle .start l ↔ pingMachine.Steps OwnTimer .start l s :=
  Machine.always_iff_steps (fun _ hl => hl.lifeCycle) ledger_step lifeCycle_break h ledger_start

/-- No ping is started while a timer of another one is pending. -/
def Alone (s : PingApp) (a : PingAction) : Prop := a = .start → s.timers = []

theorem own_step (s : PingApp) (a : PingAction) (s' : PingApp)
    (h : ∀ pcb ∈ s.timers, s.pingPcb = some pcb) (hok : Alone s a) (hstep : s.step a = some s') :
    ∀ pcb ∈ s'.timers, s'.pingPcb = some pcb := by
  cases a with
  | start =>
    obtain rfl := Option.some.inj hstep
    intro pcb hpcb
    rw [pingRawInit, hok rfl] at hpcb
    exact congrArg some (List.mem_singleton.mp hpcb).symm
  | input p =>
    obtain rfl := Option.some.inj hstep
    exact h
  | expire i p =>
    obtain ⟨arg, harg, rfl⟩ := step_expire hstep
    have hrest : ∀ pcb ∈ s.timers.eraseIdx i, s.pingPcb = some pcb :=
      fun pcb hpcb => h pcb (List.mem_of_mem_eraseIdx hpcb)
    rw [pingTimeout]
    split
    · intro pcb hpcb
      rcases List.mem_append.mp hpcb with hpcb | hpcb
      · exact hrest pcb hpcb
      · obtain rfl := List.mem_singleton.mp hpcb
        exact h pcb (List.mem_of_getElem? harg)
    · exact hrest

/-- Pings that do not overlap end with their own timers. -/
theorem ownTimer_of_alone {s : PingApp} {l : List PingAction} (h : pingMachine.Steps Alone .start l s) :
    pingMachine.Steps OwnTimer .start l s := by
  refine h.mono_of (J := fun s => ∀ pcb ∈ s.timers, s.pingPcb = some pcb) (fun s a hs _ => ?_) own_step ?_
  · cases a with
    | start => exact trivial
    | input p => exact trivial
    | expire i p =>
      exact fun _ arg harg => hs arg (List.mem_of_getElem? harg)
  · exact fun pcb hpcb => absurd hpcb List.not_mem_nil

instance (s : PingApp) (a : PingAction) : Decidable (OwnTimer s a) :=
  match a with
  | .start => isTrue trivial
  | .expire i _ =>
    inferInstanceAs (Decidable (s.ping.pingState ≠ 0 → ∀ arg ∈ s.timers[i]?, s.pingPcb = some arg))
  | .input _ => isTrue trivial

/-- One ping, from its start over its reply to its end. -/
theorem ping_pcb_once :
    pingMachine.Always LifeCycle .start
      [.start, .expire 0 (some ⟨List.replicate 40 0, rfl⟩), .input foreignReply, .expire 0 none] := by
  have hrun : (pingMachine.runOk OwnTimer .start [.start,
      .expire 0 (some ⟨List.replicate 40 0, rfl⟩), .input foreignReply, .expire 0 none]).isSome = true := by
    decide +kernel
  obtain ⟨s, hs⟩ := Option.isSome_iff_exists.mp hrun
  have hsteps := Machine.Steps.of_runOk hs
  exact (ping_pcb_iff (hsteps.mono fun _ _ _ => trivial)).mpr hsteps

/-- Two overlapping pings: the second control block is removed by its own timer, and again by that of the
first. -/
theorem ping_pcb_twice :
    ∃ s, pingMachine.run .start [.start, .start, .expire 0 (some ⟨List.replicate 40 0, rfl⟩),
        .input foreignReply, .expire 0 none, .expire 0 none] = some s ∧
      s.removals = [⟨some 1, true⟩, ⟨some 1, false⟩] ∧ s.rawPcbs = [0] ∧ ¬ LifeCycle s := by
  have hrun : (pingMachine.run .start [.start, .start, .expire 0 (some ⟨List.replicate 40 0, rfl⟩),
      .input foreignReply, .expire 0 none, .expire 0 none]).map (fun s => (s.removals, s.rawPcbs)) =
        some ([⟨some 1, true⟩, ⟨some 1, false⟩], [0]) := by decide +kernel
  obtain ⟨s, hs, hlists⟩ := Option.map_eq_some_iff.mp hrun
  obtain ⟨hremovals, hpcbs⟩ := Prod.mk.inj hlists
  refine ⟨s, hs, hremovals, hpcbs, fun hcycle => ?_⟩
  have hflag := hcycle.allocated ⟨some 1, false⟩ (by rw [hremovals]; decide)
  exact absurd hflag (by decide)

end LoraGateway.Netapp
