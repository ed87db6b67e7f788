import Mathlib.Data.BitVec

/-!
# The DHCP client

The client as `tcpip_thread` runs it: messages of the server that `dhcp_recv` accepts, and the time-outs of
its timers. All it does to the addresses of the interface is to bind a lease or to clear them
(`event_effect`).
-/

namespace LoraGateway.Core

/-- An address as the number its four parts make. -/
abbrev IpAddr := BitVec 32

/-- `IP4_ADDR`. -/
def ip4Addr (a b c d : ℕ) : IpAddr := BitVec.ofNat 32 (((a * 256 + b) * 256 + c) * 256 + d)

/-- The addresses of a network interface. -/
structure Addrs where
  ipAddr : IpAddr
  netmask : IpAddr
  gw : IpAddr
  deriving DecidableEq

/-- `IP_ADDR_ANY` everywhere. -/
def Addrs.any : Addrs := ⟨0, 0, 0⟩

inductive DhcpState
  | off
  | requesting
  | rebooting
  | rebinding
  | renewing
  | selecting
  | checking
  | bound
  | backingOff
  deriving DecidableEq

/-- `struct dhcp`; the times are left out, so that a time-out may come whenever its timer can be set. -/
structure Dhcp where
  state : DhcpState
  tries : BitVec 8
  subnetMaskGiven : Bool
  offeredIpAddr : IpAddr
  offeredSnMask : IpAddr
  offeredGwAddr : IpAddr
  deriving DecidableEq

inductive DhcpMsgType
  | offer
  | ack
  | nak
  deriving DecidableEq

/-- A reply with our transaction id; the options that are given, and whether one is the server's id. -/
structure DhcpMsg where
  msgType : DhcpMsgType
  yiaddr : IpAddr
  serverId : Bool
  subnetMask : Option IpAddr
  router : Option IpAddr
  deriving DecidableEq

/-- The client and the interface it configures; `leases` are the leases bound so far. -/
structure DhcpClient where
  dhcp : Dhcp
  netif : Addrs
  leases : List Addrs
  deriving DecidableEq

/-- `dhcp_set_state`. -/
def Dhcp.setState (d : Dhcp) (state : DhcpState) : Dhcp :=
  if state ≠ d.state then { d with state, tries := 0 } else d

/-- A message sent from a state: `tries` counts it, also when it could not be allocated. -/
def Dhcp.send (d : Dhcp) (state : DhcpState) : Dhcp :=
  let d := d.setState state
  { d with tries := d.tries + 1 }

def dhcpDiscover (d : Dhcp) : Dhcp := { d with offeredIpAddr := 0 }.send .selecting

def dhcpSelect (d : Dhcp) : Dhcp := d.send .requesting

def dhcpCheck (d : Dhcp) : Dhcp := d.send .checking

def dhcpRenew (d : Dhcp) : Dhcp := d.send .renewing

def dhcpRebind (d : Dhcp) : Dhcp := d.send .rebinding

def dhcpReboot (d : Dhcp) : Dhcp := d.send .rebooting

def dhcpDecline (d : Dhcp) : Dhcp := d.send .backingOff

def dhcpHandleOffer (d : Dhcp) (msg : DhcpMsg) : Dhcp :=
  if msg.serverId then dhcpSelect { d with offeredIpAddr := msg.yiaddr } else d

def dhcpHandleAck (d : Dhcp) (msg : DhcpMsg) : Dhcp :=
  { d with
    offeredIpAddr := msg.yiaddr
    subnetMaskGiven := msg.subnetMask.isSome
    offeredSnMask := msg.subnetMask.getD 0
    offeredGwAddr := msg.router.getD 0 }

/-- The lease that `dhcp_bind` makes of what was offered: without a netmask that of the network class,
without a gateway the first host of the network. -/
def leaseOf (d : Dhcp) : Addrs :=
  let snMask :=
    if d.subnetMaskGiven then d.offeredSnMask
    else
      let firstOctet := d.offeredIpAddr.toNat / 2 ^ 24
      if firstOctet ≤ 127 then 0xff000000
      else if firstOctet ≥ 192 then 0xffffff00
      else 0xffff0000
  let gwAddr := if d.offeredGwAddr = 0 then d.offeredIpAddr &&& snMask ||| 1 else d.offeredGwAddr
  ⟨d.offeredIpAddr, snMask, gwAddr⟩

def dhcpBind (c : DhcpClient) : DhcpClient :=
  ⟨c.dhcp.setState .bound, leaseOf c.dhcp, c.leases ++ [leaseOf c.dhcp]⟩

def dhcpHandleNak (c : DhcpClient) : DhcpClient :=
  { c with dhcp := dhcpDiscover (c.dhcp.setState .backingOff), netif := .any }

/-- `dhcp_release`; the next discovery follows it. -/
def dhcpRelease (c : DhcpClient) : DhcpClient :=
  let d := c.dhcp.setState .off
  { c with
    dhcp := { d with offeredIpAddr := 0, offeredSnMask := 0, offeredGwAddr := 0, tries := d.tries + 1 }
    netif := .any }

/-- The messages of `dhcp_recv`, by the state they come in. -/
def dhcpRecv (c : DhcpClient) (msg : DhcpMsg) : DhcpClient :=
  match msg.msgType, c.dhcp.state with
  | .ack, .requesting => { c with dhcp := dhcpCheck (dhcpHandleAck c.dhcp msg) }
  | .ack, .rebooting | .ack, .rebinding | .ack, .renewing => dhcpBind c
  | .nak, .rebooting | .nak, .requesting | .nak, .rebinding | .nak, .renewing => dhcpHandleNak c
  | .offer, .selecting => { c with dhcp := dhcpHandleOffer c.dhcp msg }
  | _, _ => c

/-- `REBOOT_TRIES`. -/
def rebootTries : BitVec 8 := 2

def dhcpTimeout (c : DhcpClient) : DhcpClient :=
  match c.dhcp.state with
  | .backingOff | .selecting => { c with dhcp := dhcpDiscover c.dhcp }
  | .requesting =>
    if c.dhcp.tries ≤ 5 then { c with dhcp := dhcpSelect c.dhcp }
    else
      let c := dhcpRelease c
      { c with dhcp := dhcpDiscover c.dhcp }
  | .checking => if c.dhcp.tries ≤ 1 then { c with dhcp := dhcpCheck c.dhcp } else dhcpBind c
  | .renewing => { c with dhcp := dhcpRenew c.dhcp }
  | .rebinding =>
    if c.dhcp.tries ≤ 8 then { c with dhcp := dhcpRebind c.dhcp }
    else
      let c := dhcpRelease c
      { c with dhcp := dhcpDiscover c.dhcp }
  | .rebooting =>
    if c.dhcp.tries < rebootTries then { c with dhcp := dhcpReboot c.dhcp }
    else { c with dhcp := dhcpDiscover c.dhcp }
  | .off | .bound => c

/-- `dhcp_t1_timeout` and `dhcp_t2_timeout` act in the same states. -/
def dhcpLeaseTimeout (again : Dhcp → Dhcp) (c : DhcpClient) : DhcpClient :=
  match c.dhcp.state with
  | .requesting | .bound | .renewing => { c with dhcp := again c.dhcp }
  | _ => c

def dhcpT1Timeout : DhcpClient → DhcpClient := dhcpLeaseTimeout dhcpRenew

def dhcpT2Timeout : DhcpClient → DhcpClient := dhcpLeaseTimeout dhcpRebind

def dhcpArpReply (c : DhcpClient) (addr : IpAddr) : DhcpClient :=
  if c.dhcp.state = .checking ∧ addr = c.dhcp.offeredIpAddr then { c with dhcp := dhcpDecline c.dhcp }
  else c

inductive DhcpEvent
  | recv (msg : DhcpMsg)
  | timeout
  | t1
  | t2
  | arpReply (addr : IpAddr)
  deriving DecidableEq

def dhcpEvent (c : DhcpClient) : DhcpEvent → DhcpClient
  | .recv msg => dhcpRecv c msg
  | .timeout => dhcpTimeout c
  | .t1 => dhcpT1Timeout c
  | .t2 => dhcpT2Timeout c
  | .arpReply addr => dhcpArpReply c addr

/-- After a `dhcp_start` that succeeds: the first discovery is out. -/
def Dhcp.started : Dhcp := dhcpDiscover ⟨.off, 0, false, 0, 0, 0⟩

/-! ## What the client does to the interface -/

/-- The addresses are left, cleared, or bound to what was offered. -/
inductive Effect (c c' : DhcpClient) : Prop
  | left : c'.netif = c.netif → c'.leases = c.leases → Effect c c'
  | cleared : c'.netif = .any → c'.leases = c.leases → Effect c c'
  | bound : c'.netif = leaseOf c.dhcp → c'.leases = c.leases ++ [leaseOf c.dhcp] → Effect c c'

theorem effect_recv (c : DhcpClient) (msg : DhcpMsg) : Effect c (dhcpRecv c msg) := by
  unfold dhcpRecv
  split
  · exact .left rfl rfl
  · exact .bound rfl rfl
  · exact .bound rfl rfl
  · exact .bound rfl rfl
  · exact .cleared rfl rfl
  · exact .cleared rfl rfl
  · exact .cleared rfl rfl
  · exact .cleared rfl rfl
  · exact .left rfl rfl
  · exact .left rfl rfl

theorem effect_timeout (c : DhcpClient) : Effect c (dhcpTimeout c) := by
  unfold dhcpTimeout
  split
  · exact .left rfl rfl
  · exact .left rfl rfl
  · split
    · exact .left rfl rfl
    · exact .cleared rfl rfl
  · split
    · exact .left rfl rfl
    · exact .bound rfl rfl
  · exact .left rfl rfl
  · split
    · exact .left rfl rfl
    · exact .cleared rfl rfl
  · split
    · exact .left rfl rfl
    · exact .left rfl rfl
  · exact .left rfl rfl
  · exact .left rfl rfl

theorem effect_leaseTimeout (again : Dhcp → Dhcp) (c : DhcpClient) :
    Effect c (dhcpLeaseTimeout again c) := by
  unfold dhcpLeaseTimeout
  split
  all_goals exact .left rfl rfl

theorem event_effect (c : DhcpClient) (e : DhcpEvent) : Effect c (dhcpEvent c e) := by
  cases e with
  | recv msg => exact effect_recv c msg
  | timeout => exact effect_timeout c
  | t1 => exact effect_leaseTimeout dhcpRenew c
  | t2 => exact effect_leaseTimeout dhcpRebind c
  | arpReply addr =>
    show Effect c (dhcpArpReply c addr)
    unfold dhcpArpReply
    split
    · exact .left rfl rfl
    · exact .left rfl rfl

end LoraGateway.Core
