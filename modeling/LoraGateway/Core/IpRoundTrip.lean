import LoraGateway.Core.IpReassOrder

/-!
# From one end to the other

What `ip_frag` takes apart `ip_reass` puts together again: the same header, the same data (`frag_reass`). That holds for
every order in which no fragment is early, the order of sending among them.

Proof: what `ip_frag` is known to send, numbered in that order, is a `Split` of the datagram (`Sent.split`), and
nothing else about it matters for the other end.
-/

namespace LoraGateway.Core

open Lib Netapp

variable {β : Type} {iphdr : IpHdr} {data : List Byte} {mtu i : ℕ} {header : ℕ → Bool} {sent : List Fragment}
  {bufs : ℕ → List β} {l : List ℕ} {sys : ReassSys β}

/-- The fragment `i` as it is received. -/
def received (sent : List Fragment) (bufs : ℕ → List β) (i : ℕ) : Packet β :=
  match sent[i]? with
  | some f => ⟨f.hdr, f.data, bufs i⟩
  | none => ⟨plainHdr, [], bufs i⟩

/-- The data in front of the fragment `i`. -/
def sentBefore (sent : List Fragment) (i : ℕ) : List Byte := (sent.take i).flatMap Fragment.data

/-- What `ip_frag` has sent. -/
structure Sent (iphdr : IpHdr) (mtu : ℕ) (data : List Byte) (sent : List Fragment) : Prop where
  all : ∀ l f l', sent = l ++ f :: l' → f.Of iphdr mtu data (l.flatMap Fragment.data)
  data : sent.flatMap Fragment.data = data

theorem sentBefore_succ {f : Fragment} (hf : sent[i]? = some f) : sentBefore sent (i + 1) = sentBefore sent i ++ f.data := by
  rw [sentBefore, List.take_add_one, hf, List.flatMap_append, Option.toList_some, List.flatMap_singleton]
  rfl

theorem received_hdr {f : Fragment} (hf : sent[i]? = some f) : (received sent bufs i).hdr = f.hdr := by
  rw [received, hf]

theorem received_data {f : Fragment} (hf : sent[i]? = some f) : (received sent bufs i).data = f.data := by
  rw [received, hf]

theorem received_bufs : (received sent bufs i).bufs = bufs i := by
  unfold received
  split <;> rfl

namespace Sent

variable (h : Sent iphdr mtu data sent)

include h

theorem of (hi : i < sent.length) : ∃ f, sent[i]? = some f ∧ f.Of iphdr mtu data (sentBefore sent i) := by
  refine ⟨sent[i], List.getElem?_eq_getElem hi, h.all (sent.take i) sent[i] (sent.drop (i + 1)) ?_⟩
  rw [List.getElem_cons_drop, List.take_append_drop]

theorem two (hmtu : ipHlen ≤ mtu) (hlong : mtu < ipHlen + data.length) : 2 ≤ sent.length := by
  by_contra hless
  have hdata := h.data
  rcases Nat.lt_or_ge 0 sent.length with hpos | hzero
  · obtain ⟨f, hf, hof⟩ := h.of hpos
    have heq : sentBefore sent 1 = data := by
      rw [sentBefore, List.take_of_length_le (by omega), hdata]
    rw [sentBefore_succ hf, sentBefore, List.take_zero, List.flatMap_nil, List.nil_append] at heq
    have hroom := hof.room
    rw [heq] at hroom
    omega
  · rw [List.eq_nil_of_length_eq_zero (Nat.le_zero.mp hzero), List.flatMap_nil] at hdata
    rw [← hdata, List.length_nil] at hlong
    omega

theorem ends_iff (hi : i < sent.length) : sentBefore sent (i + 1) ≠ data ↔ i + 1 < sent.length := by
  constructor
  · intro hne
    by_contra hle
    apply hne
    rw [sentBefore, List.take_of_length_le (by omega), h.data]
  · intro hlt heq
    obtain ⟨f, hf, hof⟩ := h.of hlt
    have hle := hof.initial.length_le
    have hpos := List.length_pos_of_ne_nil hof.nonempty
    rw [heq, List.length_append] at hle
    omega

theorem split (hhl : iphdr.hl * 4 = ipHlen) (hoffset : iphdr.offset = 0) (hmtu : ipHlen ≤ mtu)
    (hlong : mtu < ipHlen + data.length) (hmax : data.length + ipHlen < 65536)
    (hbufs : ∀ i < sent.length, 0 < (bufs i).length ∧ (bufs i).length < 256) : Split (received sent bufs) sent.length := by
  have htwo := h.two hmtu hlong
  have hstart : iphdr.start = 0 := by
    rw [IpHdr.start, hoffset]
    rfl
  have hmf : iphdr.mf = false := by
    rw [IpHdr.mf, hoffset]
    rfl
  have hkey : ∀ i < sent.length, (received sent bufs i).hdr.key = iphdr.key := by
    intro i hi
    obtain ⟨f, hf, hof⟩ := h.of hi
    obtain ⟨len, offset, chksum, hfields⟩ := hof.fields
    rw [received_hdr hf, hfields]
    rfl
  constructor
  · exact htwo
  · intro i hi
    obtain ⟨f, hf, hof⟩ := h.of hi
    obtain ⟨len, offset, chksum, hfields⟩ := hof.fields
    rw [received_hdr hf, hfields]
    exact hhl
  · intro i hi
    rw [hkey i hi, hkey 0 (by omega)]
  · obtain ⟨f, hf, hof⟩ := h.of (show 0 < sent.length by omega)
    rw [received_hdr hf, hof.start, hstart]
    rfl
  · intro i hi
    obtain ⟨f, hf, hof⟩ := h.of (show i < sent.length by omega)
    obtain ⟨f', hf', hof'⟩ := h.of hi
    rw [received_hdr hf, received_hdr hf', received_data hf, hof.start, hof'.start, sentBefore_succ hf, List.length_append,
      Nat.add_assoc]
  · intro i hi
    obtain ⟨f, hf, hof⟩ := h.of hi
    rw [received_hdr hf, hof.mf, ← sentBefore_succ hf, h.ends_iff hi, hmf]
    simp
  · intro i hi
    obtain ⟨f, hf, hof⟩ := h.of hi
    rw [Packet.Trimmed, received_hdr hf, received_data hf]
    exact hof.len
  · intro i hi
    obtain ⟨f, hf, hof⟩ := h.of hi
    rw [received_data hf]
    exact hof.nonempty
  · obtain ⟨f, hf, hof⟩ := h.of (show sent.length - 1 < sent.length by omega)
    have hend : sentBefore sent (sent.length - 1) ++ f.data = data := by
      rw [← sentBefore_succ hf, sentBefore, List.take_of_length_le (by omega), h.data]
    rw [received_hdr hf, received_data hf, hof.start, hstart, Nat.zero_add, ← List.length_append, hend]
    exact hmax
  · intro i hi
    rw [Packet.Counted, received_bufs]
    exact hbufs i hi

theorem flatMap_data : ((List.range sent.length).flatMap fun i => (received sent bufs i).data) = data := by
  have hall : ∀ i ≤ sent.length, ((List.range i).flatMap fun i => (received sent bufs i).data) = sentBefore sent i := by
    intro i hi
    induction i with
    | zero => rfl
    | succ i ih =>
      obtain ⟨f, hf, -⟩ := h.of (show i < sent.length by omega)
      rw [List.range_succ, List.flatMap_append, ih (by omega), List.flatMap_singleton, received_data hf, sentBefore_succ hf]
  rw [hall sent.length (Nat.le_refl _), sentBefore, List.take_length, h.data]

end Sent

/-- A datagram that `ip_frag` sends in fragments is put together again by `ip_reass`, whatever order these come in, as
long as none is early: the header that was sent, with its checksum, and the data that were sent. -/
theorem frag_reass [PbufAddr β] (hs : reassMachine.Reach ReassSys.ok sys) (hhdr : iphdr.withChksum = iphdr)
    (hlen : iphdr.len.toNat = ipHlen + data.length) (hhl : iphdr.hl * 4 = ipHlen) (hoffset : iphdr.offset = 0)
    (hmtu : ipHlen + 8 ≤ mtu) (hmtu' : mtu ≤ ipFragMaxMtu) (hlong : mtu < ipHlen + data.length)
    (hsend : ipFrag iphdr data mtu true header = some (.ok, sent))
    (hbufs : ∀ i < sent.length, 0 < (bufs i).length ∧ (bufs i).length < 256)
    (hroom : Room sys.reass (received sent bufs) sent.length) (hl : l.Perm (List.range sent.length))
    (hearly : ∀ l₁ f l₂, l = l₁ ++ f :: l₂ → ¬ Early sent.length l₁ f) :
    sys.reass.receive (l.map (received sent bufs)) =
      some (sys.reass, [⟨iphdr, data, (List.range sent.length).flatMap bufs⟩]) := by
  have hlt := iphdr.len.isLt
  have hstart : iphdr.start = 0 := by
    rw [IpHdr.start, hoffset]
    rfl
  obtain ⟨err, sent', hrun, hall, hok, -⟩ := frag_sends iphdr data hmtu hmtu' (by omega) true header
  obtain ⟨rfl, rfl⟩ := Prod.mk.inj (Option.some.inj (hsend.symm.trans hrun))
  have hsent : Sent iphdr mtu data sent := ⟨hall, hok rfl⟩
  have hsplit := hsent.split hhl hoffset (by omega) hlong (by omega) hbufs
  rw [(reass_order hs hsplit hroom hl).1 hearly]
  have hdata : ((List.range sent.length).flatMap fun i => (received sent bufs i).data) = data := hsent.flatMap_data
  have hoff : offsetOf (received sent bufs) sent.length = data.length := by
    rw [offsetOf, ← List.length_flatMap, hdata]
  have hhdr₀ : ({ (received sent bufs 0).hdr with
      len := BitVec.ofNat 16 (offsetOf (received sent bufs) sent.length + ipHlen), offset := 0 } : IpHdr).withChksum = iphdr := by
    have htwo := hsplit.two
    obtain ⟨f, hf, hof⟩ := hsent.of (show 0 < sent.length by omega)
    obtain ⟨len, offset, chksum, hfields⟩ := hof.fields
    have hlen' : BitVec.ofNat 16 (data.length + ipHlen) = iphdr.len := by
      apply BitVec.eq_of_toNat_eq
      rw [BitVec.toNat_ofNat, hlen]
      omega
    rw [received_hdr hf, hoff, hlen', hfields]
    refine .trans ?_ hhdr
    unfold IpHdr.withChksum
    rw [hoffset]
  have hbufs' : ((List.range sent.length).flatMap fun i => (received sent bufs i).bufs) =
      (List.range sent.length).flatMap bufs := by
    congr 1
    funext i
    exact received_bufs
  rw [together, hhdr₀, hdata, hbufs']

instance : PbufAddr ℕ where
  addr := BitVec.ofNat 32

/-- A datagram of 64 bytes over an interface that takes 44. -/
def longHdr : IpHdr := ({ plainHdr with len := 84 } : IpHdr).withChksum

theorem frag_reass_long : ∃ sent, ipFrag longHdr (List.replicate 64 1) 44 true (fun _ => true) = some (.ok, sent) ∧
    (ReassSys.start : ReassSys ℕ).reass.receive ((List.range sent.length).map (received sent fun i => [i])) =
      some (ReassSys.start.reass, [⟨longHdr, List.replicate 64 1, [0, 1, 2]⟩]) := by
  obtain ⟨sent, hsend, hthree⟩ : ∃ sent, ipFrag longHdr (List.replicate 64 1) 44 true (fun _ => true) = some (.ok, sent) ∧
      sent.length = 3 := ⟨_, rfl, rfl⟩
  have hroom : Room (ReassSys.start : ReassSys ℕ).reass (received sent fun i => [i]) sent.length := by
    refine ⟨?_, by decide, fun d hd => absurd hd List.not_mem_nil⟩
    have hclen : ∀ i, (received sent (fun i => [i]) i).clen = 1 := by
      intro i
      rw [Packet.clen, received_bufs]
      rfl
    simp only [hclen, hthree]
    decide
  have hrun := frag_reass (.init rfl) (by rfl : longHdr.withChksum = longHdr) (by decide) (by decide) (by decide)
    (by decide) (by decide) (by decide) hsend (fun i _ => by simp) hroom (.refl _) not_early_range
  refine ⟨sent, hsend, hrun.trans ?_⟩
  rw [hthree]
  rfl

end LoraGateway.Core
