import LoraGateway.Netapp.DhcpTask

/-!
# Start-up with TCP and DHCP

`main` creates `httpserver_thread` before the scheduler starts and `AppTaskStart`, which creates
`LwipInputTask`; that runs `lwip_init_task`, which initialises the stack and creates `lwip_dhcp_task`, and
only that one calls `dhcp_start`. `httpserver_thread` and `dhcp_netconn_thread` wait for an address by
looking at `enc28j60_netif.dhcp->state`, whether or not the pointer has been set. `startup_iff` says which
orders are safe.

A read through NULL gives what lies there; the action says what that is.

Proof: `Orderly` says how far each task can be before the client is there. A step in order keeps it (`orderly_step`),
as the readers get past their loop only with a client, and a step out of order reads through NULL (`unsafe_step`).
-/

namespace LoraGateway.Netapp

open Lib LoraGateway.Core

/-- `httpserver_thread` and `dhcp_netconn_thread`: the condition of the loop that waits for the address, its
`OSTimeDly`, and the calls of the sequential API after it. -/
inductive ReaderPc
  | guard
  | delay
  | netconn
  deriving DecidableEq

/-- `LwipInputTask`: not created yet, then the calls of `lwip_init_task` that are still to come, then its
loop. `tcpip_init` is the first three. -/
inductive LwipPc
  | absent
  | lwipInit
  | mboxNew
  | threadNew
  | netifAdd
  | dhcpCreate
  | input
  deriving DecidableEq

/-- `sys_mbox_new` of `tcpip_init` has returned; the stack has been initialised before. -/
def LwipPc.mboxThere : LwipPc → Bool
  | .threadNew | .netifAdd | .dhcpCreate | .input => true
  | _ => false

/-- `tcpip_thread` has been created. -/
def LwipPc.threadThere : LwipPc → Bool
  | .netifAdd | .dhcpCreate | .input => true
  | _ => false

/-- `dhcp` is `enc28j60_netif.dhcp`; `dhcpStart` is what `dhcp_start` did, once it has been called. The last
two fields say what has happened so far. -/
structure Startup where
  http : ReaderPc
  dhcpNetconn : ReaderPc
  appStarted : Bool
  lwip : LwipPc
  dhcpTask : Option DhcpTaskPc
  dhcp : Option Dhcp
  netif : Addrs
  dhcpStart : Option DhcpStart
  nullRead : Bool
  earlyNetconn : Bool
  deriving DecidableEq

/-- `OSStart`. -/
def Startup.start : Startup := ⟨.guard, .guard, false, .absent, none, none, .any, none, false, false⟩

/-- A step of a task; `null` is what a read through NULL gives. -/
inductive StartupAction
  | http (null : DhcpState)
  | dhcpNetconn (null : DhcpState)
  | appTaskStart
  | lwip
  | dhcpTask (r : DhcpStart) (null : BitVec 8)
  | tcpip (e : DhcpEvent)
  deriving DecidableEq

/-- Where a task that waits for the address goes: the state is read through the pointer. -/
def ReaderPc.next (dhcp : Option Dhcp) (null : DhcpState) : ReaderPc → ReaderPc
  | .guard => if dhcp.elim null Dhcp.state ≠ .bound then .delay else .netconn
  | .delay => .guard
  | .netconn => .netconn

/-- What its step touches. -/
def Startup.touch (s : Startup) : ReaderPc → Startup
  | .guard => { s with nullRead := s.nullRead || s.dhcp.isNone }
  | .delay => s
  | .netconn => { s with earlyNetconn := s.earlyNetconn || !s.lwip.mboxThere }

/-- A step of `LwipInputTask`. -/
def lwipStep (s : Startup) : Option Startup :=
  match s.lwip with
  | .absent => none
  | .lwipInit => some { s with lwip := .mboxNew }
  | .mboxNew => some { s with lwip := .threadNew }
  | .threadNew => some { s with lwip := .netifAdd }
  | .netifAdd => some { s with lwip := .dhcpCreate, netif := .any }
  | .dhcpCreate => some { s with lwip := .input, dhcpTask := some .start }
  | .input => some s

/-- A step of `lwip_dhcp_task`, which goes on past a read of `tries` through NULL. -/
def dhcpTaskStep (s : Startup) (r : DhcpStart) (null : BitVec 8) (pc : DhcpTaskPc) : Option Startup :=
  if pc = .readTries ∧ s.dhcp = none then
    some { s with
      dhcpTask := some (if null > lwipMaxDhcpTries then .setIp else .delay)
      nullRead := true }
  else (taskStep ⟨pc, s.dhcp, s.netif, []⟩ r).map fun t =>
    { s with
      dhcpTask := some t.task
      dhcp := t.dhcp
      netif := t.netif
      dhcpStart := if pc = .start then some r else s.dhcpStart }

/-- A step of `tcpip_thread`: the client, if it is there. -/
def tcpipStep (s : Startup) (e : DhcpEvent) : Option Startup :=
  if s.lwip.threadThere then
    some (s.dhcp.elim s fun d =>
      let c := dhcpEvent ⟨d, s.netif, []⟩ e
      { s with dhcp := some c.dhcp, netif := c.netif })
  else none

def Startup.step (s : Startup) : StartupAction → Option Startup
  | .http null => some { s.touch s.http with http := s.http.next s.dhcp null }
  | .dhcpNetconn null =>
    some { s.touch s.dhcpNetconn with dhcpNetconn := s.dhcpNetconn.next s.dhcp null }
  | .appTaskStart => if s.appStarted then none else some { s with appStarted := true, lwip := .lwipInit }
  | .lwip => lwipStep s
  | .dhcpTask r null => s.dhcpTask.bind (dhcpTaskStep s r null)
  | .tcpip e => tcpipStep s e

def startupMachine : Machine Startup StartupAction where
  init s := s = .start
  step := Startup.step

/-- No read through NULL, and no call of the sequential API before `tcpip_init` was done. -/
def Safe (s : Startup) : Prop := s.nullRead = false ∧ s.earlyNetconn = false

/-- `dhcp_start` has been called, and got the memory for its client. -/
def ClientThere (s : Startup) : Prop := s.dhcpStart = some .started ∨ s.dhcpStart = some .stopped

instance (s : Startup) : Decidable (ClientThere s) := inferInstanceAs (Decidable (_ ∨ _))

/-- The tasks look at the client only once it is there. -/
def InOrder (s : Startup) : StartupAction → Prop
  | .http _ => s.http = .guard → ClientThere s
  | .dhcpNetconn _ => s.dhcpNetconn = .guard → ClientThere s
  | .dhcpTask _ _ => s.dhcpTask = some .readTries → ClientThere s
  | _ => True

instance (s : Startup) (a : StartupAction) : Decidable (InOrder s a) :=
  match a with
  | .http _ => inferInstanceAs (Decidable (s.http = .guard → ClientThere s))
  | .dhcpNetconn _ => inferInstanceAs (Decidable (s.dhcpNetconn = .guard → ClientThere s))
  | .dhcpTask _ _ => inferInstanceAs (Decidable (s.dhcpTask = some .readTries → ClientThere s))
  | .appTaskStart | .lwip | .tcpip _ => isTrue trivial

/-- The pointer is set by `dhcp_start`, that is called by a task created after `tcpip_init`, and who is past
the loop has seen a client. -/
structure Orderly (s : Startup) : Prop where
  safe : Safe s
  client : s.dhcp.isSome = true ↔ ClientThere s
  called : s.dhcpStart.isSome = true → s.dhcpTask.isSome = true
  created : s.dhcpTask.isSome = true → s.lwip = .input
  absent : s.appStarted = false → s.lwip = .absent
  http : s.http = .netconn → s.lwip.mboxThere = true
  dhcpNetconn : s.dhcpNetconn = .netconn → s.lwip.mboxThere = true

theorem orderly_start : Orderly .start :=
  ⟨⟨rfl, rfl⟩, ⟨nofun, fun h => h.elim nofun nofun⟩, nofun, nofun, fun _ => rfl, nofun, nofun⟩

theorem Orderly.mboxThere {s : Startup} (h : Orderly s) (hclient : ClientThere s) :
    s.lwip.mboxThere = true := by
  have hcalled : s.dhcpStart.isSome = true := by
    rcases hclient with hstart | hstart
    · rw [hstart]
      rfl
    · rw [hstart]
      rfl
  rw [h.created (h.called hcalled)]
  rfl

theorem isNone_of_client {s : Startup} (h : Orderly s) (hclient : ClientThere s) :
    s.dhcp.isNone = false := by
  rw [← Option.not_isSome, h.client.mpr hclient]
  rfl

theorem touch_eq {s : Startup} (h : Orderly s) {pc : ReaderPc} (hguard : pc = .guard → ClientThere s)
    (hnetconn : pc = .netconn → s.lwip.mboxThere = true) : s.touch pc = s := by
  cases pc with
  | guard => rw [Startup.touch, isNone_of_client h (hguard rfl), Bool.or_false]
  | delay => rfl
  | netconn => rw [Startup.touch, hnetconn rfl, Bool.not_true, Bool.or_false]

theorem next_netconn {s : Startup} (h : Orderly s) {pc : ReaderPc} (null : DhcpState)
    (hguard : pc = .guard → ClientThere s) (hnetconn : pc = .netconn → s.lwip.mboxThere = true)
    (hnext : pc.next s.dhcp null = .netconn) : s.lwip.mboxThere = true := by
  cases pc with
  | guard => exact h.mboxThere (hguard rfl)
  | delay => exact absurd hnext nofun
  | netconn => exact hnetconn rfl

/-- `LwipInputTask` before it has created `lwip_dhcp_task`. -/
theorem orderly_next {s : Startup} (h : Orderly s) {pc : LwipPc} (netif : Addrs) (hinput : s.lwip ≠ .input)
    (habsent : s.lwip ≠ .absent) (hmbox : s.lwip.mboxThere = true → pc.mboxThere = true) :
    Orderly { s with lwip := pc, netif } where
  safe := h.safe
  client := h.client
  called := h.called
  created := fun hcreated => absurd (h.created hcreated) hinput
  absent := fun hstarted => absurd (h.absent hstarted) habsent
  http := fun hpc => hmbox (h.http hpc)
  dhcpNetconn := fun hpc => hmbox (h.dhcpNetconn hpc)

theorem orderly_lwip {s s' : Startup} (h : Orderly s) (hstep : lwipStep s = some s') : Orderly s' := by
  unfold lwipStep at hstep
  cases hpc : s.lwip with
  | absent =>
    rw [hpc] at hstep
    exact absurd hstep nofun
  | dhcpCreate =>
    rw [hpc] at hstep
    obtain rfl := Option.some.inj hstep
    exact ⟨h.safe, h.client, fun _ => rfl, fun _ => rfl,
      fun hstarted => absurd (h.absent hstarted) (by rw [hpc]; exact nofun), fun _ => rfl, fun _ => rfl⟩
  | input =>
    rw [hpc] at hstep
    obtain rfl := Option.some.inj hstep
    exact h
  | _ =>
    rw [hpc] at hstep
    obtain rfl := Option.some.inj hstep
    exact orderly_next h _ (by rw [hpc]; exact nofun) (by rw [hpc]; exact nofun) (by rw [hpc]; decide)

theorem client_isSome (r : DhcpStart) :
    r.client.isSome = true ↔ some r = some DhcpStart.started ∨ some r = some DhcpStart.stopped := by
  cases r <;> decide

theorem orderly_dhcpTask {s s' : Startup} (h : Orderly s) {r : DhcpStart} {null : BitVec 8}
    {pc : DhcpTaskPc} (hpc : s.dhcpTask = some pc) (hok : pc = .readTries → ClientThere s)
    (hstep : dhcpTaskStep s r null pc = some s') : Orderly s' := by
  have hcreated : s.lwip = .input := h.created (by rw [hpc]; rfl)
  unfold dhcpTaskStep at hstep
  split at hstep
  · rename_i hnull
    have hsome := h.client.mpr (hok hnull.1)
    rw [hnull.2] at hsome
    exact absurd hsome nofun
  · obtain ⟨t, ht, rfl⟩ := Option.map_eq_some_iff.mp hstep
    have hdhcp := taskStep_dhcp ht
    refine ⟨h.safe, ?_, fun _ => rfl, fun _ => hcreated, h.absent, h.http, h.dhcpNetconn⟩
    show t.dhcp.isSome = true ↔ _
    unfold ClientThere
    by_cases hstart : pc = .start
    · rw [hdhcp, if_pos hstart, if_pos hstart]
      exact client_isSome r
    · rw [hdhcp, if_neg hstart, if_neg hstart]
      exact h.client

theorem orderly_tcpip {s s' : Startup} (h : Orderly s) {e : DhcpEvent}
    (hstep : tcpipStep s e = some s') : Orderly s' := by
  unfold tcpipStep at hstep
  split at hstep
  · obtain rfl := Option.some.inj hstep
    cases hdhcp : s.dhcp with
    | none => exact h
    | some d =>
      refine ⟨h.safe, ?_, h.called, h.created, h.absent, h.http, h.dhcpNetconn⟩
      have hclient := h.client
      rw [hdhcp] at hclient
      exact hclient
  · exact absurd hstep nofun

theorem orderly_step (s : Startup) (a : StartupAction) (s' : Startup) (h : Orderly s) (hok : InOrder s a)
    (hstep : s.step a = some s') : Orderly s' := by
  cases a with
  | http null =>
    have hs' : s' = { s.touch s.http with http := s.http.next s.dhcp null } :=
      (Option.some.inj hstep).symm
    rw [hs', touch_eq h hok h.http]
    exact ⟨h.safe, h.client, h.called, h.created, h.absent, next_netconn h null hok h.http, h.dhcpNetconn⟩
  | dhcpNetconn null =>
    have hs' : s' = { s.touch s.dhcpNetconn with dhcpNetconn := s.dhcpNetconn.next s.dhcp null } :=
      (Option.some.inj hstep).symm
    rw [hs', touch_eq h hok h.dhcpNetconn]
    exact ⟨h.safe, h.client, h.called, h.created, h.absent, h.http, next_netconn h null hok h.dhcpNetconn⟩
  | appTaskStart =>
    cases hstarted : s.appStarted with
    | true =>
      rw [Startup.step, if_pos hstarted] at hstep
      exact absurd hstep nofun
    | false =>
      rw [Startup.step, if_neg (by rw [hstarted]; exact Bool.false_ne_true)] at hstep
      obtain rfl := Option.some.inj hstep
      have habsent := h.absent hstarted
      refine ⟨h.safe, h.client, h.called, fun hcreated => ?_, nofun, fun hpc => ?_, fun hpc => ?_⟩
      · exact absurd (habsent.symm.trans (h.created hcreated)) nofun
      · have hmbox := h.http hpc
        rw [habsent] at hmbox
        exact absurd hmbox nofun
      · have hmbox := h.dhcpNetconn hpc
        rw [habsent] at hmbox
        exact absurd hmbox nofun
  | lwip => exact orderly_lwip h hstep
  | dhcpTask r null =>
    obtain ⟨pc, hpc, hstep⟩ := Option.bind_eq_some_iff.mp hstep
    exact orderly_dhcpTask h hpc (fun hread => hok (by rw [hpc, hread])) hstep
  | tcpip e => exact orderly_tcpip h hstep

theorem touch_guard {s : Startup} (hnone : s.dhcp = none) : (s.touch .guard).nullRead = true := by
  rw [Startup.touch, hnone]
  exact Bool.or_true _

theorem unsafe_step (s : Startup) (a : StartupAction) (s' : Startup) (h : Orderly s) (hok : ¬ InOrder s a)
    (hstep : s.step a = some s') : ¬ Safe s' := by
  have hnone : ¬ ClientThere s → s.dhcp = none := fun hclient =>
    Option.not_isSome_iff_eq_none.mp fun hsome => hclient (h.client.mp hsome)
  suffices hread : s'.nullRead = true from fun hsafe => absurd (hsafe.1.symm.trans hread) nofun
  cases a with
  | http null =>
    obtain ⟨hpc, hclient⟩ := Classical.not_imp.mp hok
    have hs' : s' = { s.touch s.http with http := s.http.next s.dhcp null } :=
      (Option.some.inj hstep).symm
    rw [hs', hpc]
    exact touch_guard (hnone hclient)
  | dhcpNetconn null =>
    obtain ⟨hpc, hclient⟩ := Classical.not_imp.mp hok
    have hs' : s' = { s.touch s.dhcpNetconn with dhcpNetconn := s.dhcpNetconn.next s.dhcp null } :=
      (Option.some.inj hstep).symm
    rw [hs', hpc]
    exact touch_guard (hnone hclient)
  | dhcpTask r null =>
    obtain ⟨hpc, hclient⟩ := Classical.not_imp.mp hok
    rw [Startup.step, hpc, Option.bind_some, dhcpTaskStep, if_pos ⟨rfl, hnone hclient⟩] at hstep
    obtain rfl := Option.some.inj hstep
    rfl
  | appTaskStart => exact absurd trivial hok
  | lwip => exact absurd trivial hok
  | tcpip e => exact absurd trivial hok

/-- The start-up is safe throughout a run exactly if the tasks look at the client only once it is there. -/
theorem startup_iff {s : Startup} {l : List StartupAction}
    (h : startupMachine.Steps Machine.any .start l s) :
    startupMachine.Always Safe .start l ↔ startupMachine.Steps InOrder .start l s :=
  Machine.always_iff_steps (fun _ hs => hs.safe) orderly_step unsafe_step h orderly_start

/-- `AppTaskStart`, `lwip_init_task` and `dhcp_start`, and then a look at the client. -/
theorem startup_in_order :
    startupMachine.Always Safe .start
      [.appTaskStart, .lwip, .lwip, .lwip, .lwip, .lwip, .dhcpTask .started 0, .http .bound] := by
  have hrun : (startupMachine.runOk InOrder .start [.appTaskStart, .lwip, .lwip, .lwip, .lwip, .lwip,
      .dhcpTask .started 0, .http .bound]).isSome = true := by
    decide
  obtain ⟨s, hs⟩ := Option.isSome_iff_exists.mp hrun
  have hsteps := Machine.Steps.of_runOk hs
  exact (startup_iff (hsteps.mono fun _ _ _ => trivial)).mpr hsteps

/-- The first step of the task with the highest priority that there is when the scheduler starts. What it
reads may also let it go on to the sequential API, where no stack is yet. -/
theorem startup_http_first :
    ∃ s, startupMachine.run .start [.http .bound, .http .bound] = some s ∧ ¬ Safe s ∧
      s.nullRead = true ∧ s.earlyNetconn = true :=
  ⟨_, rfl, fun h => absurd h.1 (by decide), by decide, by decide⟩

end LoraGateway.Netapp
