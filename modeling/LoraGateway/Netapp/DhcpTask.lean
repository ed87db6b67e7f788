import LoraGateway.Core.Dhcp
import LoraGateway.Lib.Machine

/-!
# The DHCP task and its fallback

`lwip_dhcp_task` starts the client and polls the address of the interface. When the client has tried too
often, it writes the static addresses into the interface one after the other and ends; its `dhcp_stop` is
commented out, so the client goes on. `tcpip_thread` has the higher priority: any of its steps may come
between two of the task's. What the task leaves is one configuration if the client changes no address while
the fallback is under way (`fallback_whole`).
-/

namespace LoraGateway.Netapp

open Lib LoraGateway.Core

/-- `LWIP_MAX_DHCP_TRIES`. -/
def lwipMaxDhcpTries : BitVec 8 := 5

/-- The fallback's addresses: 192.168.0.18, 255.255.255.0 and 192.168.0.1. -/
def staticAddrs : Addrs := ⟨ip4Addr 192 168 0 18, ip4Addr 255 255 255 0, ip4Addr 192 168 0 1⟩

/-- Where the task is: before `dhcp_start`, reading the address, reading `tries`, before each of the three
assignments, in `OSTimeDly`, or deleted. -/
inductive DhcpTaskPc
  | start
  | readIp
  | readTries
  | setIp
  | setNetmask
  | setGw
  | delay
  | ended
  deriving DecidableEq

/-- `dhcp` is `enc28j60_netif.dhcp`, and `leases` are the leases that `dhcp_bind` has bound so far. -/
structure DhcpSystem where
  task : DhcpTaskPc
  dhcp : Option Dhcp
  netif : Addrs
  leases : List Addrs
  deriving DecidableEq

/-- After `lwip_init_task`: the addresses are 0, and the task is created. -/
def DhcpSystem.start : DhcpSystem := ⟨.start, none, .any, []⟩

/-- What `dhcp_start` leaves: a client that has sent its discovery, one that is off since something later
failed, or none at all. -/
inductive DhcpStart
  | started
  | stopped
  | noMemory
  deriving DecidableEq

def DhcpStart.client : DhcpStart → Option Dhcp
  | .started => some .started
  | .stopped => some (Dhcp.started.setState .off)
  | .noMemory => none

inductive DhcpAction
  | task (r : DhcpStart)
  | client (e : DhcpEvent)
  deriving DecidableEq

/-- A step of the task; `r` is the result of `dhcp_start`, where that is called. Nothing goes on past a
read of `tries` through NULL. -/
def taskStep (s : DhcpSystem) (r : DhcpStart) : Option DhcpSystem :=
  match s.task with
  | .start => some { s with task := .readIp, dhcp := r.client }
  | .readIp => some { s with task := if s.netif.ipAddr ≠ 0 then .ended else .readTries }
  | .readTries =>
    s.dhcp.map fun d => { s with task := if d.tries > lwipMaxDhcpTries then .setIp else .delay }
  | .setIp =>
    some { s with task := .setNetmask, netif := { s.netif with ipAddr := staticAddrs.ipAddr } }
  | .setNetmask =>
    some { s with task := .setGw, netif := { s.netif with netmask := staticAddrs.netmask } }
  | .setGw => some { s with task := .ended, netif := { s.netif with gw := staticAddrs.gw } }
  | .delay => some { s with task := .readIp }
  | .ended => none

theorem taskStep_dhcp {s s' : DhcpSystem} {r : DhcpStart} (h : taskStep s r = some s') :
    s'.dhcp = if s.task = .start then r.client else s.dhcp := by
  obtain ⟨task, dhcp, netif, leases⟩ := s
  cases task with
  | readTries =>
    obtain ⟨d, -, rfl⟩ := Option.map_eq_some_iff.mp h
    rfl
  | ended => exact absurd h nofun
  | _ =>
    obtain rfl := Option.some.inj h
    rfl

/-- A step of the client, which is there once `dhcp_start` has set it. -/
def clientStep (s : DhcpSystem) (e : DhcpEvent) : Option DhcpSystem :=
  s.dhcp.map fun d =>
    let c := dhcpEvent ⟨d, s.netif, s.leases⟩ e
    { s with dhcp := some c.dhcp, netif := c.netif, leases := c.leases }

def dhcpMachine : Machine DhcpSystem DhcpAction where
  init s := s = .start
  step s
    | .task r => taskStep s r
    | .client e => clientStep s e

/-- One configuration: the static one, a lease, or none. -/
def Whole (netif : Addrs) (leases : List Addrs) : Prop :=
  netif = staticAddrs ∨ netif ∈ leases ∨ netif = .any

instance (netif : Addrs) (leases : List Addrs) : Decidable (Whole netif leases) :=
  inferInstanceAs (Decidable (_ ∨ _ ∨ _))

theorem whole_event {c : DhcpClient} (h : Whole c.netif c.leases) (e : DhcpEvent) :
    Whole (dhcpEvent c e).netif (dhcpEvent c e).leases := by
  cases event_effect c e with
  | left hnetif hleases =>
    rw [hnetif, hleases]
    exact h
  | cleared hnetif _ => exact .inr (.inr hnetif)
  | bound hnetif hleases =>
    rw [hnetif, hleases]
    exact .inr (.inl (List.mem_append_right _ List.mem_cons_self))

/-- While the fallback is between its assignments, the client changes no address. -/
def Undisturbed (s : DhcpSystem) : DhcpAction → Prop
  | .task _ => True
  | .client e => s.task = .setNetmask ∨ s.task = .setGw →
    ∀ d ∈ s.dhcp, (dhcpEvent ⟨d, s.netif, s.leases⟩ e).netif = s.netif

/-- What has been assigned so far. -/
def Progress (s : DhcpSystem) : Prop :=
  match s.task with
  | .setNetmask => s.netif.ipAddr = staticAddrs.ipAddr
  | .setGw => s.netif.ipAddr = staticAddrs.ipAddr ∧ s.netif.netmask = staticAddrs.netmask
  | _ => Whole s.netif s.leases

theorem progress_of_whole {s : DhcpSystem} (h : Whole s.netif s.leases) (h₁ : s.task ≠ .setNetmask)
    (h₂ : s.task ≠ .setGw) : Progress s := by
  unfold Progress
  split
  · exact absurd ‹_› h₁
  · exact absurd ‹_› h₂
  · exact h

theorem whole_of_progress {s : DhcpSystem} (h : Progress s) (h₁ : s.task ≠ .setNetmask)
    (h₂ : s.task ≠ .setGw) : Whole s.netif s.leases := by
  unfold Progress at h
  split at h
  · exact absurd ‹_› h₁
  · exact absurd ‹_› h₂
  · exact h

theorem progress_task {s s' : DhcpSystem} {r : DhcpStart} (h : Progress s)
    (hstep : taskStep s r = some s') : Progress s' := by
  obtain ⟨task, dhcp, netif, leases⟩ := s
  cases task with
  | start =>
    obtain rfl := Option.some.inj hstep
    exact h
  | readIp =>
    obtain rfl := Option.some.inj hstep
    show Progress ⟨if netif.ipAddr ≠ 0 then .ended else .readTries, dhcp, netif, leases⟩
    split
    · exact h
    · exact h
  | readTries =>
    obtain ⟨d, -, rfl⟩ := Option.map_eq_some_iff.mp hstep
    show Progress ⟨if d.tries > lwipMaxDhcpTries then .setIp else .delay, dhcp, netif, leases⟩
    split
    · exact h
    · exact h
  | setIp =>
    obtain rfl := Option.some.inj hstep
    exact rfl
  | setNetmask =>
    obtain rfl := Option.some.inj hstep
    exact ⟨h, rfl⟩
  | setGw =>
    obtain rfl := Option.some.inj hstep
    obtain ⟨hip, hnetmask⟩ := h
    refine .inl ?_
    show (⟨netif.ipAddr, netif.netmask, staticAddrs.gw⟩ : Addrs) = staticAddrs
    rw [hip, hnetmask]
  | delay =>
    obtain rfl := Option.some.inj hstep
    exact h
  | ended => exact absurd hstep nofun

theorem progress_client {s s' : DhcpSystem} {e : DhcpEvent} (h : Progress s)
    (hok : Undisturbed s (.client e)) (hstep : clientStep s e = some s') : Progress s' := by
  obtain ⟨d, hd, rfl⟩ := Option.map_eq_some_iff.mp hstep
  by_cases hpc : s.task = .setNetmask ∨ s.task = .setGw
  · have hnetif := hok hpc d hd
    unfold Progress at h ⊢
    rcases hpc with hpc | hpc
    · simp only [hpc] at h ⊢
      rw [hnetif]
      exact h
    · simp only [hpc] at h ⊢
      rw [hnetif]
      exact h
  · obtain ⟨h₁, h₂⟩ := not_or.mp hpc
    refine progress_of_whole ?_ h₁ h₂
    exact whole_event (c := ⟨d, s.netif, s.leases⟩) (whole_of_progress h h₁ h₂) e

/-- Once the task has ended, the interface has one configuration, if the client changed no address between
the first and the last assignment of the fallback. -/
theorem fallback_whole {s : DhcpSystem} (h : dhcpMachine.Reach Undisturbed s) (hended : s.task = .ended) :
    Whole s.netif s.leases := by
  have hprogress : Progress s := by
    refine h.invariant (I := Progress) ?_ fun s a s' hs hok hstep => ?_
    · rintro s rfl
      exact .inr (.inr rfl)
    · cases a with
      | task r => exact progress_task hs hstep
      | client e => exact progress_client hs hok hstep
  exact whole_of_progress hprogress (by rw [hended]; exact nofun) (by rw [hended]; exact nofun)

instance (s : DhcpSystem) (a : DhcpAction) : Decidable (Undisturbed s a) :=
  match a with
  | .task _ => isTrue trivial
  | .client e => inferInstanceAs (Decidable (s.task = .setNetmask ∨ s.task = .setGw →
      ∀ d ∈ s.dhcp, (dhcpEvent ⟨d, s.netif, s.leases⟩ e).netif = s.netif))

/-- Six tries without an answer, the first of them by `dhcp_start`. -/
def unanswered : List DhcpAction := .task .started :: List.replicate 5 (.client .timeout)

/-- An answer: the offer, its acknowledgement, and the two time-outs of the ARP check. -/
def answered : List DhcpAction :=
  [.client (.recv ⟨.offer, ip4Addr 10 0 0 5, true, none, none⟩),
    .client (.recv ⟨.ack, ip4Addr 10 0 0 5, true, some (ip4Addr 255 0 0 0), some (ip4Addr 10 0 0 1)⟩),
    .client .timeout, .client .timeout]

def taskSteps (n : ℕ) : List DhcpAction := List.replicate n (.task .started)

/-- An answer after the fallback replaces all of it. -/
theorem fallback_then_lease :
    ∃ s, dhcpMachine.Reach Undisturbed s ∧ s.netif = ⟨ip4Addr 10 0 0 5, ip4Addr 255 0 0 0, ip4Addr 10 0 0 1⟩ ∧
      Whole s.netif s.leases := by
  have hrun : (dhcpMachine.runOk Undisturbed .start (unanswered ++ taskSteps 5 ++ answered)).map
      (fun s => (s.task, s.netif)) =
        some (.ended, ⟨ip4Addr 10 0 0 5, ip4Addr 255 0 0 0, ip4Addr 10 0 0 1⟩) := by
    decide +kernel
  obtain ⟨s, hs, hend⟩ := Option.map_eq_some_iff.mp hrun
  obtain ⟨hended, hnetif⟩ := Prod.mk.inj hend
  have hreach : dhcpMachine.Reach Undisturbed s := .steps (.init rfl) (.of_runOk hs)
  exact ⟨s, hreach, hnetif, fallback_whole hreach hended⟩

/-- An answer after the first assignment leaves its address with the static netmask and gateway. -/
theorem fallback_mixed :
    ∃ s, dhcpMachine.run .start (unanswered ++ taskSteps 3 ++ answered ++ taskSteps 2) = some s ∧ s.task = .ended ∧
      s.netif = ⟨ip4Addr 10 0 0 5, ip4Addr 255 255 255 0, ip4Addr 192 168 0 1⟩ ∧
      ¬ Whole s.netif s.leases := by
  have hrun : (dhcpMachine.run .start (unanswered ++ taskSteps 3 ++ answered ++ taskSteps 2)).map
      (fun s => (s.task, s.netif, decide (Whole s.netif s.leases))) =
        some (.ended, ⟨ip4Addr 10 0 0 5, ip4Addr 255 255 255 0, ip4Addr 192 168 0 1⟩, false) := by
    decide +kernel
  obtain ⟨s, hs, hend⟩ := Option.map_eq_some_iff.mp hrun
  obtain ⟨hended, hrest⟩ := Prod.mk.inj hend
  obtain ⟨hnetif, hwhole⟩ := Prod.mk.inj hrest
  exact ⟨s, hs, hended, hnetif, of_decide_eq_false hwhole⟩

end LoraGateway.Netapp
