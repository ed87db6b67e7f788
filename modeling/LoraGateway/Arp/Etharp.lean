import Mathlib.Data.List.Basic

/-!
# The ARP table

`etharp.c`, as it is configured: one packet waits for an address at most (`ARP_QUEUEING` is 0), and there are no static
entries and no hints. `etharp_find_entry` looks for the entry of an address or makes one, at the cost of another if
need be; `etharp_update_arp_entry` enters what an ARP message says, and sends the packet that has waited for it;
`etharp_output` sends a packet if it can, and lets it wait if it cannot.

Addresses are numbers with the first byte on top. `none` is a failed assertion. One of them can fail: `etharp_query`
takes a chain that goes on behind the last byte of a packet for a second packet, and such chains are made, so the pbufs
of a packet are in the model.
-/

namespace LoraGateway.Arp

/-! ## Addresses -/

abbrev IpAddr := BitVec 32

abbrev EthAddr := BitVec 48

def ipaddrAny : IpAddr := 0

def ipaddrBroadcast : IpAddr := 0xffffffff

def ethbroadcast : EthAddr := 0xffffffffffff

def ethzero : EthAddr := 0

/-- What is used here of `struct netif`, which is known by its number. -/
structure Netif where
  num : ℕ
  ipAddr : IpAddr
  netmask : IpAddr
  gw : IpAddr
  hwaddr : EthAddr
  broadcast : Bool

/-- `ip_addr_netcmp`. -/
def netcmp (a b mask : IpAddr) : Bool := a &&& mask = b &&& mask

/-- `ip4_addr_isbroadcast`. -/
def isbroadcast (addr : IpAddr) (netif : Netif) : Bool :=
  if ~~~addr = ipaddrAny ∨ addr = ipaddrAny then true
  else if !netif.broadcast then false
  else if addr = netif.ipAddr then false
  else netcmp addr netif.ipAddr netif.netmask && addr &&& ~~~netif.netmask = ipaddrBroadcast &&& ~~~netif.netmask

/-- `ip_addr_ismulticast`. -/
def ismulticast (addr : IpAddr) : Bool := addr &&& 0xf0000000 = 0xe0000000

/-- `ip_addr_islinklocal`. -/
def islinklocal (addr : IpAddr) : Bool := addr &&& 0xffff0000 = 0xa9fe0000

/-- An address that the table can have. -/
def isunicast (addr : IpAddr) (netif : Netif) : Bool :=
  !(decide (addr = ipaddrAny) || isbroadcast addr netif || ismulticast addr)

/-! ## Packets -/

inductive PbufType
  | ram
  | rom
  | ref
  | pool
  deriving DecidableEq

/-- What is read of `struct pbuf`. -/
structure Pbuf where
  type : PbufType
  len : ℕ
  totLen : ℕ

/-- A packet has its chain of pbufs. The Ethernet header makes the first one longer in both fields, which are only
compared with each other. -/
class Packet (β : Type) where
  pbufs : β → List Pbuf

export Packet (pbufs)

/-- `pbuf_header`, where there may be room in front of the payload. -/
def pbufHeader (room : Bool) (chain : List Pbuf) : Bool :=
  room && chain.head?.any fun p => p.type = .ram ∨ p.type = .pool

/-- The loop of `etharp_query`: the `tot_len` of the pbuf for which the packet has to be copied, if there is one. -/
def copyNeeded : List Pbuf → Option (Option ℕ)
  | [] => some none
  | p :: chain =>
    if p.len = p.totLen ∧ chain ≠ [] then none
    else if p.type = .rom then copyNeeded chain else some (some p.totLen)

/-- The loop of `pbuf_copy` into a single pbuf of `size` bytes, `offset` of which are filled. -/
def copyLoop (size : ℕ) : ℕ → List Pbuf → Bool
  | _, [] => true
  | offset, p :: chain =>
    -- The target is full, and there is more.
    if size < offset + p.len ∨ offset + p.len = size ∧ chain ≠ [] then false
    else if (chain.head?.any fun r => r.len = r.totLen) ∧ chain.tail ≠ [] then false
    else copyLoop size (offset + p.len) chain

/-- `pbuf_copy`. -/
def pbufCopy (size : ℕ) (chain : List Pbuf) : Bool :=
  (chain.head?.all fun p => p.totLen ≤ size) && copyLoop size 0 chain

/-! ## The table -/

inductive EtharpState
  | empty
  | pending
  | stable
  | stableRerequesting
  deriving DecidableEq

/-- At least `ETHARP_STATE_STABLE`. -/
def EtharpState.isStable : EtharpState → Bool
  | .empty => false
  | .pending => false
  | .stable => true
  | .stableRerequesting => true

/-- `struct etharp_entry`. -/
structure EtharpEntry (β : Type) where
  q : Option β
  ipaddr : IpAddr
  netif : Option ℕ
  ethaddr : EthAddr
  state : EtharpState
  ctime : ℕ

/-- An entry as it is at first, and as `etharp_free_entry` leaves it. -/
def EtharpEntry.free {β : Type} : EtharpEntry β := ⟨none, ipaddrAny, none, ethzero, .empty, 0⟩

def arpTableSize : ℕ := 10

def arpMaxage : ℕ := 240

def arpAgeRerequestUsed : ℕ := arpMaxage - 12

def arpMaxpending : ℕ := 2

inductive Err
  | ok
  | mem
  | buf
  | rte
  | arg
  | interface
  deriving DecidableEq

/-- An ARP message, as `struct etharp_hdr`, and the length of the pbuf it is in. -/
structure EtharpHdr where
  len : ℕ
  hwtype : ℕ
  proto : ℕ
  hwlen : ℕ
  protolen : ℕ
  opcode : ℕ
  shwaddr : EthAddr
  sipaddr : IpAddr
  dhwaddr : EthAddr
  dipaddr : IpAddr

/-- What `linkoutput` is given: an IP packet or an ARP message behind an Ethernet header. `hop` is not in the frame: it
is the address that `dest` was looked up for, if it was. -/
inductive Frame (β : Type)
  | ip (hop : Option IpAddr) (dest src : EthAddr) (q : β)
  | arp (dest src : EthAddr) (hdr : EtharpHdr)

/-- The variables of `etharp.c`, and what has become of packets: the frames that were sent, the packets that were left
to wait for an address, and those of them that were freed, after they had been sent or before. -/
structure Etharp (β : Type) where
  table : List (EtharpEntry β)
  cachedEntry : ℕ
  sent : List (Frame β)
  queued : List (β × IpAddr)
  done : List (β × IpAddr)
  dropped : List (β × IpAddr)

/-- What happens outside: whether there is a pbuf for an ARP request and what `linkoutput` says about it, whether there
is one for the copy of a packet, and what `linkoutput` says about a packet. -/
structure Outside where
  request : Option Err
  copy : Bool
  linkoutput : Err

/-- `ETHARP_FLAG_TRY_HARD` or `ETHARP_FLAG_FIND_ONLY`. -/
inductive Flags
  | tryHard
  | findOnly
  deriving DecidableEq

variable {β : Type}

/-- The packet that waits at an entry. -/
def EtharpEntry.waiting (e : EtharpEntry β) : List (β × IpAddr) := e.q.toList.map fun p => (p, e.ipaddr)

/-- What `etharp_arp_input` checks first. -/
def EtharpHdr.valid (hdr : EtharpHdr) : Bool :=
  42 ≤ hdr.len && (hdr.hwtype = 1 && hdr.hwlen = 6 && hdr.protolen = 4 && hdr.proto = 0x800)

/-- An interface without an address is asked for nothing. -/
def EtharpHdr.forUs (hdr : EtharpHdr) (netif : Netif) : Bool :=
  netif.ipAddr ≠ ipaddrAny && hdr.dipaddr = netif.ipAddr

/-- The destination of a multicast packet. -/
def mcastaddr (ipaddr : IpAddr) : EthAddr :=
  0x01005e000000 ||| (ipaddr &&& 0x7fffff).setWidth 48

/-- The address that a packet goes to first: its own, or that of the gateway. -/
def nextHop (netif : Netif) (ipaddr : IpAddr) : Option IpAddr :=
  if !netcmp ipaddr netif.ipAddr netif.netmask && !islinklocal ipaddr then
    if netif.gw ≠ ipaddrAny then some netif.gw else none
  else some ipaddr

/-- The frame that `etharp_request` makes with `etharp_raw`. -/
def requestFor (netif : Netif) (ipaddr : IpAddr) : Frame β :=
  .arp ethbroadcast netif.hwaddr ⟨42, 1, 0x800, 6, 4, 1, netif.hwaddr, netif.ipAddr, ethzero, ipaddr⟩

/-- A stable entry for the address. -/
def EtharpEntry.Serves (e : EtharpEntry β) (ipaddr : IpAddr) : Prop :=
  e.state.isStable = true ∧ ipaddr = e.ipaddr

instance (e : EtharpEntry β) (ipaddr : IpAddr) : Decidable (e.Serves ipaddr) := inferInstanceAs (Decidable (_ ∧ _))

/-! ## Finding an entry -/

/-- The candidates of `etharp_find_entry`. An index that is still `ARP_TABLE_SIZE` is `none`. -/
structure Candidates where
  empty : Option ℕ
  oldPending : Option ℕ
  agePending : ℕ
  oldQueue : Option ℕ
  ageQueue : ℕ
  oldStable : Option ℕ
  ageStable : ℕ

/-- What an iteration does about an entry that is in use and does not match. -/
def Candidates.visit (c : Candidates) (e : EtharpEntry β) (i : ℕ) : Candidates :=
  if e.state = .pending then
    if e.q.isSome then if c.ageQueue ≤ e.ctime then { c with oldQueue := some i, ageQueue := e.ctime } else c
    else if c.agePending ≤ e.ctime then { c with oldPending := some i, agePending := e.ctime } else c
  else if c.ageStable ≤ e.ctime then { c with oldStable := some i, ageStable := e.ctime } else c

/-- The loop of `etharp_find_entry`: the entry that matches, or the candidates. -/
def findLoop (ipaddr : IpAddr) : List (EtharpEntry β) → ℕ → Candidates → ℕ ⊕ Candidates
  | [], _, c => .inr c
  | e :: l, i, c =>
    if e.state = .empty then findLoop ipaddr l (i + 1) (if c.empty = none then { c with empty := some i } else c)
    else if ipaddr = e.ipaddr then .inl i
    else findLoop ipaddr l (i + 1) (c.visit e i)

namespace Etharp

variable (s : Etharp β)

def set (i : ℕ) (e : EtharpEntry β) : Etharp β := { s with table := s.table.set i e }

/-- `etharp_free_entry`. -/
def etharpFreeEntry (i : ℕ) : Etharp β :=
  match s.table[i]? with
  | none => s
  | some e => { s.set i .free with dropped := s.dropped ++ e.waiting }

/-- The choice of an entry to recycle. -/
def recycle (c : Candidates) : Option (Except Err ℕ) :=
  match c.oldStable with
  -- No packet may wait at a stable entry.
  | some i => if (s.table[i]?.bind EtharpEntry.q).isSome then none else some (.ok i)
  | none =>
    match c.oldPending with
    | some i => some (.ok i)
    | none =>
      match c.oldQueue with
      | some i => some (.ok i)
      | none => some (.error .mem)

/-- What `etharp_find_entry` does with the entry it has chosen. -/
def newEntry (i : ℕ) (ipaddr : IpAddr) : Option (Etharp β × Except Err ℕ) :=
  match s.table[i]? with
  | none => none
  | some e => if e.state = .empty then some (s.set i { e with ipaddr := ipaddr, ctime := 0 }, .ok i) else none

/-- `etharp_find_entry`. -/
def etharpFindEntry (ipaddr : IpAddr) (flags : Flags) : Option (Etharp β × Except Err ℕ) :=
  match findLoop ipaddr s.table 0 ⟨none, none, 0, none, 0, none, 0⟩ with
  | .inl i => some (s, .ok i)
  | .inr c =>
    if flags = .findOnly then some (s, .error .mem) else
      match c.empty with
      | some i => s.newEntry i ipaddr
      | none => (s.recycle c).bind fun
        | .ok i => (s.etharpFreeEntry i).newEntry i ipaddr
        | .error err => some (s, .error err)

/-! ## Time -/

/-- An iteration of `etharp_tmr`. -/
def tmrEntry (i : ℕ) : Etharp β :=
  match s.table[i]? with
  | none => s
  | some e =>
    if e.state = .empty then s else
      -- `ctime` is a `u8_t`.
      let e := { e with ctime := (e.ctime + 1) % 256 }
      if arpMaxage ≤ e.ctime ∨ e.state = .pending ∧ arpMaxpending ≤ e.ctime then (s.set i e).etharpFreeEntry i
      else if e.state = .stableRerequesting then s.set i { e with state := .stable }
      else s.set i e

def etharpTmr : Etharp β := (List.range arpTableSize).foldl tmrEntry s

/-- An iteration of `etharp_cleanup_netif`. -/
def cleanupEntry (netif : Netif) (s : Etharp β) (i : ℕ) : Etharp β :=
  match s.table[i]? with
  | none => s
  | some e => if e.state ≠ .empty ∧ e.netif = some netif.num then s.etharpFreeEntry i else s

def etharpCleanupNetif (netif : Netif) : Etharp β := (List.range arpTableSize).foldl (cleanupEntry netif) s

/-! ## Messages -/

def etharpSendIp (hop : Option IpAddr) (q : β) (src dst : EthAddr) : Etharp β :=
  { s with sent := s.sent ++ [.ip hop dst src q] }

/-- `etharp_request`. -/
def etharpRequest (netif : Netif) (ipaddr : IpAddr) (out : Outside) : Etharp β × Err :=
  match out.request with
  | none => (s, .mem)
  | some err => ({ s with sent := s.sent ++ [requestFor netif ipaddr] }, err)

/-- `etharp_update_arp_entry`. -/
def etharpUpdateArpEntry (netif : Netif) (ipaddr : IpAddr) (ethaddr : EthAddr) (flags : Flags) :
    Option (Etharp β × Err) :=
  if !isunicast ipaddr netif then some (s, .arg) else
    (s.etharpFindEntry ipaddr flags).bind fun
      | (s, .error err) => some (s, err)
      | (s, .ok i) =>
        match s.table[i]? with
        | none => none
        | some e =>
          let e := { e with state := .stable, netif := some netif.num, ethaddr := ethaddr, ctime := 0 }
          match e.q with
          | none => some (s.set i e, .ok)
          | some p =>
            let s := (s.set i { e with q := none }).etharpSendIp (some e.ipaddr) p netif.hwaddr ethaddr
            some ({ s with done := s.done ++ [(p, e.ipaddr)] }, .ok)

/-- The `switch` of `etharp_arp_input`. -/
def etharpReply (netif : Netif) (hdr : EtharpHdr) : Etharp β :=
  if hdr.opcode = 1 ∧ hdr.forUs netif = true then
    { s with sent := s.sent ++ [.arp hdr.shwaddr netif.hwaddr { hdr with
      opcode := 2
      dipaddr := hdr.sipaddr
      sipaddr := netif.ipAddr
      dhwaddr := hdr.shwaddr
      shwaddr := netif.hwaddr }] }
  else s

/-- `etharp_arp_input`. -/
def etharpArpInput (netif : Netif) (hdr : EtharpHdr) : Option (Etharp β) :=
  if !hdr.valid then some s else
    (s.etharpUpdateArpEntry netif hdr.sipaddr hdr.shwaddr (if hdr.forUs netif then .tryHard else .findOnly)).map
      fun (s, _) => s.etharpReply netif hdr

/-! ## Packets -/

/-- `etharp_output_to_arp_index`, which is not told the address that the entry was looked up for. -/
def etharpOutputToArpIndex (hop : IpAddr) (netif : Netif) (q : β) (i : ℕ) (out : Outside) :
    Option (Etharp β × Err) :=
  match s.table[i]? with
  | none => none
  | some e =>
    if !e.state.isStable then none else
      let s := if e.state = .stable ∧ arpAgeRerequestUsed ≤ e.ctime then
          let (s, err) := s.etharpRequest netif e.ipaddr out
          if err = .ok then s.set i { e with state := .stableRerequesting } else s
        else s
      some (s.etharpSendIp (some hop) q netif.hwaddr e.ethaddr, out.linkoutput)

variable [Packet β]

/-- What `etharp_query` does with a packet for an entry that is pending. -/
def queuePacket (ipaddr : IpAddr) (i : ℕ) (e : EtharpEntry β) (q : β) (out : Outside) : Option (Etharp β × Err) :=
  (copyNeeded (pbufs q)).map fun needed =>
    if needed.all fun size => out.copy && pbufCopy size (pbufs q) then
      ({ s.set i { e with q := some q } with
        dropped := s.dropped ++ e.waiting
        queued := s.queued ++ [(q, ipaddr)] }, .ok)
    else (s, .mem)

/-- What `etharp_query` does when it has got the entry. -/
def queryEntry (netif : Netif) (ipaddr : IpAddr) (i : ℕ) (e : EtharpEntry β) (q : Option β) (out : Outside) :
    Option (Etharp β × Err) :=
  let (s, result) := if e.state = .pending ∨ q.isNone then s.etharpRequest netif ipaddr out else (s, .mem)
  match q with
  | none => some (s, result)
  | some q =>
    if e.state.isStable then
      some ({ s with cachedEntry := i }.etharpSendIp (some ipaddr) q netif.hwaddr e.ethaddr, out.linkoutput)
    else s.queuePacket ipaddr i e q out

/-- `etharp_query`. -/
def etharpQuery (netif : Netif) (ipaddr : IpAddr) (q : Option β) (out : Outside) : Option (Etharp β × Err) :=
  if !isunicast ipaddr netif then some (s, .arg) else
    (s.etharpFindEntry ipaddr .tryHard).bind fun
      | (s, .error err) => some (s, err)
      | (s, .ok i) =>
        match s.table[i]? with
        | none => none
        | some e =>
          -- An entry that is free has just been made.
          let e := if e.state = .empty then { e with state := .pending } else e
          (s.set i e).queryEntry netif ipaddr i e q out

/-- `etharp_output`. There may be no room for the Ethernet header. -/
def etharpOutput (netif : Netif) (q : β) (ipaddr : IpAddr) (room : Bool) (out : Outside) : Option (Etharp β × Err) :=
  if !pbufHeader room (pbufs q) then some (s, .buf)
  else if isbroadcast ipaddr netif then some (s.etharpSendIp none q netif.hwaddr ethbroadcast, out.linkoutput)
  else if ismulticast ipaddr then some (s.etharpSendIp none q netif.hwaddr (mcastaddr ipaddr), out.linkoutput)
  else
    match nextHop netif ipaddr with
    | none => some (s, .rte)
    | some dstAddr =>
      if (s.table[s.cachedEntry]?).any fun e => e.Serves dstAddr then
        s.etharpOutputToArpIndex dstAddr netif q s.cachedEntry out
      else
        match s.table.findIdx? fun e => e.Serves dstAddr with
        | some i => { s with cachedEntry := i }.etharpOutputToArpIndex dstAddr netif q i out
        | none => s.etharpQuery netif dstAddr (some q) out

end Etharp

end LoraGateway.Arp
