import LoraGateway.Core.IpFrag
import Mathlib.Algebra.BigOperators.Group.List.Basic
import Mathlib.Algebra.GroupWithZero.Nat

/-!
# Reassembly

`ip_frag.c`, the half that receives. The fragments of a datagram are kept in the order of their offsets, chained by
an `ip_reass_helper` that overwrites the header of each, under an `ip_reassdata` that keeps the header. The
datagrams under reassembly are in a list, the youngest at the front; `ip_reass_tmr` drops those that take too long,
and the oldest have to go when there are too many pbufs.

`none` is a failed `LWIP_ASSERT`, after which nothing goes on. `LWIP_ERROR` only prints and returns, so that a fragment
that is shorter than its header is put together with the others as it is, and what is left of its helper goes to the
data.
-/

namespace LoraGateway.Core

open Lib

/-- A packet as `ip_input` hands it over, trimmed to the length in its header: what follows the header, and the pbufs
that it is in. -/
structure Packet (β : Type) where
  hdr : IpHdr
  data : List Byte
  bufs : List β

/-- `struct ip_reass_helper` in its pbuf. The field `stop` is `end`. -/
structure Helper (β : Type) where
  start : ℕ
  stop : ℕ
  pbuf : Packet β

/-- `struct ip_reassdata`, with the fragments that are chained up from `p` and `IP_REASS_FLAG_LASTFRAG`. -/
structure ReassData (β : Type) where
  p : List (Helper β)
  iphdr : IpHdr
  datagramLen : ℕ
  lastFrag : Bool
  timer : ℕ

/-- The variables of `ip_frag.c`, the pbufs that have been freed, and the headers that have been quoted in ICMP messages
about an exceeded time. -/
structure Reass (β : Type) where
  reassdatagrams : List (ReassData β)
  pbufcount : ℕ
  freed : List β
  exceeded : List IpHdr

def ipReassMaxPbufs : ℕ := 10

def memNumReassdata : ℕ := 5

def ipReassMaxage : ℕ := 3

/-- What `IP_ADDRESSES_AND_ID_MATCH` compares. -/
def IpHdr.key (hdr : IpHdr) : BitVec 32 × BitVec 32 × BitVec 16 := (hdr.src, hdr.dest, hdr.id)

/-- `ntohs(IPH_LEN(hdr)) - IPH_HL(hdr) * 4`, in a `u16_t`. -/
def IpHdr.dataLen (hdr : IpHdr) : ℕ := (hdr.len - BitVec.ofNat 16 (hdr.hl * 4)).toNat

variable {β : Type}

/-- `pbuf_clen`, in a `u8_t`. -/
def Packet.clen (p : Packet β) : ℕ := p.bufs.length % 256

/-- The pbufs of the fragments held. -/
def ReassData.bufs (d : ReassData β) : List β := d.p.flatMap fun h => h.pbuf.bufs

/-- What they add up to. -/
def ReassData.clen (d : ReassData β) : ℕ := (d.p.map fun h => h.pbuf.clen).sum

/-! ## The list of datagrams -/

/-- `ip_reass_dequeue_datagram`. -/
def dequeueDatagram (l : List (ReassData β)) (ipr : ℕ) (prev : Option ℕ) : Option (List (ReassData β)) :=
  if ipr = 0 then some (l.drop 1)
  else prev.map fun j => l.take (j + 1) ++ l.drop (ipr + 1)

namespace Reass

variable (s : Reass β)

/-- `ip_reass_free_complete_datagram`: the datagram `ipr` goes with its pbufs, whose number is returned. `prev` is the
datagram in front of it. -/
def freeCompleteDatagram (ipr : ℕ) (prev : Option ℕ) : Option (Reass β × ℕ) :=
  if prev = some ipr ∨ ∃ j ∈ prev, j + 1 ≠ ipr then none else
    match s.reassdatagrams[ipr]? with
    | none => none
    | some d =>
      match d.p with
      | [] => none
      | iprh :: _ =>
        let exceeded := if iprh.start = 0 then s.exceeded ++ [d.iphdr] else s.exceeded
        if 0xffff < d.clen then none else
          (dequeueDatagram s.reassdatagrams ipr prev).bind fun l =>
            if s.pbufcount < d.clen then none
            else some (⟨l, s.pbufcount - d.clen, s.freed ++ d.bufs, exceeded⟩, d.clen)

/-- The loop of `ip_reass_tmr`, from the datagram `r` on. -/
def tmrLoop : ℕ → Reass β → ℕ → Option ℕ → Option (Reass β)
  | 0, s, _, _ => some s
  | fuel + 1, s, r, prev =>
    match s.reassdatagrams[r]? with
    | none => some s
    | some d =>
      if 0 < d.timer then
        tmrLoop fuel { s with reassdatagrams := s.reassdatagrams.set r { d with timer := d.timer - 1 } } (r + 1) (some r)
      else (s.freeCompleteDatagram r prev).bind fun (s, _) => tmrLoop fuel s r prev

def ipReassTmr : Option (Reass β) := tmrLoop s.reassdatagrams.length s 0 none

end Reass

/-- What the inner loop of `ip_reass_remove_oldest_datagram` has found. -/
structure Oldest where
  oldest : Option (ℕ × ℕ)
  prev : Option ℕ
  otherDatagrams : ℕ

/-- What one iteration of that loop does about the datagram `r`. With the oldest datagram goes its timer. -/
def Oldest.visit (o : Oldest) (fraghdr : IpHdr) (d : ReassData β) (r : ℕ) (hasNext : Bool) : Oldest where
  oldest := if d.iphdr.key ≠ fraghdr.key then
      match o.oldest with
      | none => some (r, d.timer)
      | some (i, timer) => if d.timer ≤ timer then some (r, d.timer) else some (i, timer)
    else o.oldest
  prev := if hasNext then some r else o.prev
  otherDatagrams := if d.iphdr.key ≠ fraghdr.key then o.otherDatagrams + 1 else o.otherDatagrams

def findOldest (fraghdr : IpHdr) : List (ReassData β) → ℕ → Oldest → Oldest
  | [], _, o => o
  | d :: next, r, o => findOldest fraghdr next (r + 1) (o.visit fraghdr d r !next.isEmpty)

namespace Reass

/-- The outer loop of `ip_reass_remove_oldest_datagram`. -/
def removeLoop (fraghdr : IpHdr) (pbufsNeeded : ℕ) : ℕ → Reass β → ℕ → Option (Reass β × ℕ)
  | 0, _, _ => none
  | fuel + 1, s, pbufsFreed =>
    let o := findOldest fraghdr s.reassdatagrams 0 ⟨none, none, 0⟩
    let freed := match o.oldest with
      | some (oldest, _) => s.freeCompleteDatagram oldest o.prev
      | none => some (s, 0)
    freed.bind fun (s, pbufsFreedCurrent) =>
      let pbufsFreed := pbufsFreed + pbufsFreedCurrent
      if pbufsFreed < pbufsNeeded ∧ 1 < o.otherDatagrams then removeLoop fraghdr pbufsNeeded fuel s pbufsFreed
      else some (s, pbufsFreed)

variable (s : Reass β)

def removeOldestDatagram (fraghdr : IpHdr) (pbufsNeeded : ℕ) : Option (Reass β × ℕ) :=
  removeLoop fraghdr pbufsNeeded (s.reassdatagrams.length + 1) s 0

/-- `memp_malloc(MEMP_REASSDATA)`, and the struct put in front of the list if there is one. -/
def enqueue (fraghdr : IpHdr) : Reass β × Bool :=
  if s.reassdatagrams.length < memNumReassdata then
    ({ s with reassdatagrams := ⟨[], fraghdr, 0, false, ipReassMaxage⟩ :: s.reassdatagrams }, true)
  else (s, false)

/-- `ip_reass_enqueue_new_datagram`: whether there is a struct for the datagram, which is then in front. -/
def enqueueNewDatagram (fraghdr : IpHdr) (clen : ℕ) : Option (Reass β × Bool) :=
  if s.reassdatagrams.length < memNumReassdata then some (s.enqueue fraghdr) else
    (s.removeOldestDatagram fraghdr clen).map fun (s, freed) => if clen ≤ freed then s.enqueue fraghdr else (s, false)

end Reass

/-! ## The fragments of a datagram -/

/-- Where a fragment goes: nowhere, or behind `before`, with what the loop has found out about holes. -/
inductive Place (β : Type)
  | freepbuf
  | chained (valid : Bool) (before after : List (Helper β))

/-- The loop over the fragments `q` in `ip_reass_chain_frag_into_datagram_and_validate`, and what follows when they are
at an end. `before` is the ones that have been passed; the last one is `iprh_prev`. -/
def findPlace (iprh : Helper β) : List (Helper β) → Bool → List (Helper β) → Option (Place β)
  | before, valid, [] =>
    match before.getLast? with
    | some iprhPrev =>
      if iprhPrev.stop ≤ iprh.start then some (.chained (valid && iprhPrev.stop == iprh.start) before []) else none
    | none => some (.chained valid before [])
  | before, valid, q :: next =>
    if iprh.start < q.start then
      match before.getLast? with
      | some iprhPrev =>
        if iprh.start < iprhPrev.stop ∨ q.start < iprh.stop then some .freepbuf
        else some (.chained valid before (q :: next))
      | none => some (.chained valid before (q :: next))
    else if iprh.start = q.start then some .freepbuf
    else if iprh.start < q.stop then some .freepbuf
    else
      let valid := match before.getLast? with
        | some iprhPrev => valid && iprhPrev.stop == q.start
        | none => valid
      findPlace iprh (before ++ [q]) valid next

/-- The loop over the fragments behind the new one: true if there is no hole. -/
def noHoles : Helper β → List (Helper β) → Bool
  | _, [] => true
  | iprhPrev, q :: next => if iprhPrev.stop ≠ q.start then false else noHoles q next

/-- The helper of a fragment; its end is in a `u16_t`. -/
def Packet.helper (p : Packet β) : Helper β := ⟨p.hdr.start, (p.hdr.start + p.hdr.dataLen) % 65536, p⟩

/-- The check for no more fragments in `ip_reass`. -/
def ReassData.update (d : ReassData β) (p : Packet β) : ReassData β :=
  if p.hdr.mf then d else { d with lastFrag := true, datagramLen := (p.hdr.start + p.hdr.dataLen) % 65536 }

/-- What `ip_reass_chain_frag_into_datagram_and_validate` does: the fragment is freed, or chained into the datagram, which
may be complete then. -/
inductive Chained (β : Type)
  | freepbuf
  | held (d : ReassData β) (complete : Bool)

def ReassData.chainFrag (d : ReassData β) (newP : Packet β) : Option (Chained β) :=
  let iprh := newP.helper
  (findPlace iprh [] true d.p).bind fun
    | .freepbuf => some .freepbuf
    | .chained valid before after =>
      let p := before ++ iprh :: after
      let d := { d with p := p }
      if d.lastFrag && valid && (p.head?.any fun h => h.start == 0) && noHoles iprh after then
        let last := after.getLast?.getD iprh
        if p.length = 1 ∨ last.stop ≠ d.datagramLen then none else some (.held d true)
      else some (.held d false)

/-- The address of a pbuf, which is in the helper of the fragment in front of it. -/
class PbufAddr (β : Type) where
  addr : β → BitVec 32

/-- The helper in memory, where `next` is the fragment behind it. -/
def Helper.bytes [PbufAddr β] (h : Helper β) (next : Option (Helper β)) : List Byte :=
  let nextPbuf := ((next.bind fun q => q.pbuf.bufs.head?).map PbufAddr.addr).getD 0
  wordBytes nextPbuf ++ halfwordBytes (BitVec.ofNat 16 h.start) ++ halfwordBytes (BitVec.ofNat 16 h.stop)

/-- What is in the pbufs of a fragment when `pbuf_header` has been called to hide its header. It returns 1 and leaves
them as they are if they are shorter than the header, and then the helper can be seen. -/
def Helper.shown [PbufAddr β] (h : Helper β) (next : Option (Helper β)) : List Byte :=
  if ipHlen ≤ h.pbuf.hdr.len.toNat then h.pbuf.data
  else (h.bytes next ++ h.pbuf.hdr.bytes.drop 8).take h.pbuf.hdr.len.toNat

/-- The loop that chains together the pbufs. -/
def catPbufs [PbufAddr β] : List (Helper β) → List Byte
  | [] => []
  | r :: next => r.shown next.head? ++ catPbufs next

/-- The pbufs of a complete datagram, put together behind the header, which has got its length. If the first one is
shorter than the header, then the header ends in the others. -/
def ReassData.datagram [PbufAddr β] (d : ReassData β) : Packet β :=
  let datagramLen := (d.datagramLen + ipHlen) % 65536
  let data := match d.p with
    | [] => []
    | p :: r => p.pbuf.data ++ (catPbufs r).drop (ipHlen - p.pbuf.hdr.len.toNat)
  ⟨({ d.iphdr with len := BitVec.ofNat 16 datagramLen, offset := 0 } : IpHdr).withChksum, data, d.bufs⟩

namespace Reass

variable (s : Reass β)

/-- What `ip_reass` does with a datagram that is complete. -/
def complete [PbufAddr β] (ipr : ℕ) (d : ReassData β) : Option (Reass β × Option (Packet β)) :=
  let p := d.datagram
  (dequeueDatagram s.reassdatagrams ipr (if ipr = 0 then none else some (ipr - 1))).map fun l =>
    ({ s with reassdatagrams := l, pbufcount := (s.pbufcount + 65536 - p.clen) % 65536 }, some p)

/-- `nullreturn`. -/
def nullReturn (p : Packet β) : Reass β × Option (Packet β) := ({ s with freed := s.freed ++ p.bufs }, none)

/-- Makes room for a fragment, if need be and possible. -/
def makeRoom (p : Packet β) : Option (Reass β × Bool) :=
  if ipReassMaxPbufs < s.pbufcount + p.clen then
    (s.removeOldestDatagram p.hdr p.clen).map fun (s, freed) =>
      (s, decide (freed ≠ 0 ∧ s.pbufcount + p.clen ≤ ipReassMaxPbufs))
  else some (s, true)

/-- The datagram that a fragment belongs to: the first that matches, or a new one in front. The header of the first
fragment takes the place of another. -/
def locate (p : Packet β) : Option (Reass β × Option ℕ) :=
  match s.reassdatagrams.findIdx? (fun d => d.iphdr.key = p.hdr.key) with
  | none => (s.enqueueNewDatagram p.hdr p.clen).map fun (s, found) => (s, if found then some 0 else none)
  | some ipr => some ({ s with
      reassdatagrams := s.reassdatagrams.modify ipr fun d =>
        if p.hdr.start = 0 ∧ d.iphdr.start ≠ 0 then { d with iphdr := p.hdr } else d }, some ipr)

/-- A fragment for the datagram `ipr`. -/
def chainInto [PbufAddr β] (p : Packet β) (ipr : ℕ) : Option (Reass β × Option (Packet β)) :=
  match s.reassdatagrams[ipr]? with
  | none => none
  | some d =>
    let s := { s with pbufcount := (s.pbufcount + p.clen) % 65536 }
    let d := d.update p
    (d.chainFrag p).bind fun
      | .freepbuf => some ({ s with
          reassdatagrams := s.reassdatagrams.set ipr d
          pbufcount := (s.pbufcount + 65536 - p.clen) % 65536
          freed := s.freed ++ p.bufs }, none)
      | .held d complete =>
        let s := { s with reassdatagrams := s.reassdatagrams.set ipr d }
        if complete then s.complete ipr d else some (s, none)

/-- `ip_reass`. -/
def ipReass [PbufAddr β] (p : Packet β) : Option (Reass β × Option (Packet β)) :=
  if p.hdr.hl * 4 ≠ ipHlen then some (s.nullReturn p) else
    (s.makeRoom p).bind fun (s, room) =>
      if !room then some (s.nullReturn p) else
        (s.locate p).bind fun
          | (s, some ipr) => s.chainInto p ipr
          | (s, none) => some (s.nullReturn p)

end Reass

end LoraGateway.Core
