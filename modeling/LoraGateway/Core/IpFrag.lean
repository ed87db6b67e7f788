import LoraGateway.Netapp.PingEcho

/-!
# Fragments

`ip_frag.c`, the half that sends. `ip_frag` copies the data of a datagram piece by piece into one static buffer
and sends each piece behind a header of its own, where the datagram is too long for the interface. `IpHdr` is the
header as both halves see it. `Fragment.Of` says what a fragment has to be, and `frag_sends` that each one sent is.

The loop is followed with the data in two parts, what has been sent and what is left (`fragLoop_spec`). All fragments
but the last are multiples of 8 bytes long, so the offset, which counts these, is the length of the first part, and an
iteration sends a fragment (`of_fragment`).
-/

namespace LoraGateway.Core

open Lib Netapp

/-! ## The header -/

/-- `struct ip_hdr`. The halfwords are in host order, apart from the checksum, which lies there as `inet_chksum`
returns it. -/
structure IpHdr where
  vhl : Byte
  tos : Byte
  len : BitVec 16
  id : BitVec 16
  offset : BitVec 16
  ttl : Byte
  proto : Byte
  chksum : BitVec 16
  src : BitVec 32
  dest : BitVec 32
  deriving DecidableEq

/-- A halfword in memory. -/
def halfwordBytes (v : BitVec 16) : List Byte := [lowByte v, highByte v]

/-- A word in memory. -/
def wordBytes (a : BitVec 32) : List Byte := (List.range 4).map fun i => (a >>> (8 * i)).setWidth 8

def ipHlen : ℕ := 20

def ipMf : BitVec 16 := 0x2000

def ipOffmask : BitVec 16 := 0x1fff

namespace IpHdr

variable (hdr : IpHdr)

/-- `IPH_HL`. -/
def hl : ℕ := hdr.vhl.toNat % 16

/-- `(ntohs(IPH_OFFSET(hdr)) & IP_OFFMASK) * 8`. -/
def start : ℕ := (hdr.offset &&& ipOffmask).toNat * 8

/-- More fragments follow. -/
def mf : Bool := hdr.offset &&& ipMf ≠ 0

/-- The header in memory, where halfwords are little-endian. -/
def bytes : List Byte :=
  [hdr.vhl, hdr.tos] ++ halfwordBytes (htons hdr.len) ++ halfwordBytes (htons hdr.id) ++ halfwordBytes (htons hdr.offset) ++
    [hdr.ttl, hdr.proto] ++ halfwordBytes hdr.chksum ++ wordBytes hdr.src ++ wordBytes hdr.dest

/-- The checksum is set to 0 and then to that of the header. -/
def withChksum : IpHdr := { hdr with chksum := inetChksum { hdr with chksum := 0 }.bytes }

end IpHdr

/-! ## Sending -/

/-- What `netif->output` is given: a header, the data that it is the header of, and the length of the pbuf they are
in. -/
structure Fragment where
  hdr : IpHdr
  data : List Byte
  totLen : ℕ
  deriving DecidableEq

inductive FragErr
  | ok
  | mem
  deriving DecidableEq

/-- `IP_FRAG_MAX_MTU`, which the static buffer is made for. -/
def ipFragMaxMtu : ℕ := 1500

/-- `pbuf_copy_partial` from a pbuf that holds the header and then `data`. -/
def pbufCopyPartial (data : List Byte) (len offset : ℕ) : List Byte := (data.drop (offset - ipHlen)).take len

/-- The fields that the `while` loop of `ip_frag` changes. -/
structure FragLoop where
  left : ℕ
  ofo : BitVec 16
  poff : ℕ

/-- How many bytes an iteration copies: all that are left, or as many as fit in multiples of 8. -/
def FragLoop.cop (s : FragLoop) (mtu : ℕ) : ℕ :=
  let nfb := (mtu - ipHlen) / 8
  if s.left ≤ mtu - ipHlen then s.left else nfb * 8

/-- What an iteration of the `while` loop puts together in the static buffer. -/
def FragLoop.fragment (s : FragLoop) (iphdr : IpHdr) (data : List Byte) (mtu : ℕ) : Fragment :=
  let omf := iphdr.offset &&& ipMf
  let tmp := omf ||| (ipOffmask &&& s.ofo)
  let tmp := if s.left ≤ mtu - ipHlen then tmp else tmp ||| ipMf
  ⟨({ iphdr with offset := tmp, len := BitVec.ofNat 16 (s.cop mtu + ipHlen) } : IpHdr).withChksum,
    pbufCopyPartial data (s.cop mtu) s.poff, if s.left ≤ mtu - ipHlen then s.left + ipHlen else mtu⟩

/-- The `while` loop. The allocations of the pbufs for the link headers succeed as `header` says, and `none` is a loop
that goes on for ever, or that copies past the end of the static buffer. -/
def fragLoop (iphdr : IpHdr) (data : List Byte) (mtu : ℕ) :
    ℕ → (ℕ → Bool) → FragLoop → Option (FragErr × List Fragment)
  | 0, _, s => if s.left = 0 then some (.ok, []) else none
  | fuel + 1, header, s =>
    if s.left = 0 then some (.ok, [])
    else if ipFragMaxMtu < ipHlen + s.cop mtu then none
    else
      let f := s.fragment iphdr data mtu
      if header 0 then
        let nfb := BitVec.ofNat 16 ((mtu - ipHlen) / 8)
        (fragLoop iphdr data mtu fuel (fun k => header (k + 1))
          ⟨s.left - s.cop mtu, s.ofo + nfb, s.poff + f.data.length⟩).map fun (err, sent) => (err, f :: sent)
      else some (.mem, [])

/-- `ip_frag`, for the datagram with this header and these data. The pbuf for the static buffer is allocated first. -/
def ipFrag (iphdr : IpHdr) (data : List Byte) (mtu : ℕ) (rambuf : Bool) (header : ℕ → Bool) :
    Option (FragErr × List Fragment) :=
  if rambuf then
    fragLoop iphdr data mtu data.length header
      ⟨data.length, iphdr.offset &&& ipOffmask, ipHlen⟩
  else some (.mem, [])

/-! ## What is sent -/

/-- A fragment of `data`, the data of `iphdr`, behind the bytes `pre`. -/
structure Fragment.Of (iphdr : IpHdr) (mtu : ℕ) (data pre : List Byte) (f : Fragment) : Prop where
  initial : pre ++ f.data <+: data
  nonempty : f.data ≠ []
  start : f.hdr.start = iphdr.start + pre.length
  mf : f.hdr.mf = true ↔ iphdr.mf = true ∨ pre ++ f.data ≠ data
  len : f.hdr.len.toNat = ipHlen + f.data.length
  room : ipHlen + f.data.length ≤ f.totLen ∧ f.totLen ≤ mtu
  chksum : inetChksum f.hdr.bytes = 0
  fields : ∃ len offset chksum, f.hdr = { iphdr with len := len, offset := offset, chksum := chksum }

variable {hdr iphdr : IpHdr} {data pre rest : List Byte} {mtu fuel nfb : ℕ} {ofo tmp : BitVec 16} {header : ℕ → Bool}
  {s : FragLoop}

theorem inetChksum_withChksum (hdr : IpHdr) : inetChksum hdr.withChksum.bytes = 0 := by
  let z : IpHdr := { hdr with chksum := 0 }
  have hwords : ∀ v, words ({ hdr with chksum := v } : IpHdr).bytes =
      words (z.bytes.take 10) ++ htons v :: words (z.bytes.drop 12) := fun v => rfl
  have hlen : ∀ v, ({ hdr with chksum := v } : IpHdr).bytes.length ≤ 65535 := fun v => by
    show 20 ≤ 65535
    omega
  have hzero : words z.bytes = words (z.bytes.take 10) ++ 0 :: words (z.bytes.drop 12) := hwords 0
  have hsum : onesSum (words ({ hdr with chksum := inetChksum z.bytes } : IpHdr).bytes) = 0xffff := by
    rw [hwords]
    apply onesSum_complement
    rw [inetChksum, lwipStandardChksum_eq (hlen 0), htons_not, htons_htons, ← hzero]
  show inetChksum ({ hdr with chksum := inetChksum z.bytes } : IpHdr).bytes = 0
  rw [inetChksum, lwipStandardChksum_eq (hlen _), hsum]
  decide

/-! ### Offsets -/

theorem and_ipOffmask (h : ofo.toNat < 8192) : ofo &&& ipOffmask = ofo := by
  apply BitVec.eq_of_toNat_eq
  rw [BitVec.toNat_and]
  exact (Nat.and_two_pow_sub_one_eq_mod ofo.toNat 13).trans (Nat.mod_eq_of_lt h)

theorem start_or (hoffset : hdr.offset = tmp ||| ofo) (hflag : tmp &&& ipOffmask = 0) (hofo : ofo.toNat < 8192) :
    hdr.start = ofo.toNat * 8 := by
  unfold IpHdr.start
  rw [hoffset, BitVec.and_or_distrib_right, hflag, and_ipOffmask hofo]
  exact congrArg (fun v => BitVec.toNat v * 8) BitVec.zero_or

theorem mf_or (hoffset : hdr.offset = tmp ||| ofo) (hofo : ofo.toNat < 8192) : hdr.mf = decide (tmp &&& ipMf ≠ 0) := by
  have hzero : ofo &&& ipMf = 0#16 := by
    rw [← and_ipOffmask hofo, BitVec.and_assoc]
    exact BitVec.and_zero
  unfold IpHdr.mf
  rw [hoffset, BitVec.and_or_distrib_right, hzero, BitVec.or_zero]

/-! ### The loop -/

theorem of_withChksum {piece : List Byte} {totLen : ℕ} (hinitial : pre ++ piece <+: data) (hne : piece ≠ [])
    (hmax : iphdr.start + data.length + ipHlen < 65536) (hofo : ofo.toNat * 8 = iphdr.start + pre.length)
    (hflag : tmp &&& ipOffmask = 0) (hmf : tmp &&& ipMf ≠ 0 ↔ iphdr.mf = true ∨ pre ++ piece ≠ data)
    (hroom : ipHlen + piece.length ≤ totLen ∧ totLen ≤ mtu) :
    Fragment.Of iphdr mtu data pre ⟨({ iphdr with
      offset := tmp ||| ofo, len := BitVec.ofNat 16 (piece.length + ipHlen) } : IpHdr).withChksum, piece, totLen⟩ := by
  have hle := hinitial.length_le
  have hpos := List.length_pos_of_ne_nil hne
  rw [List.length_append] at hle
  have hofo' : ofo.toNat < 8192 := by omega
  constructor
  · exact hinitial
  · exact hne
  · rw [← hofo]
    exact start_or rfl hflag hofo'
  · rw [mf_or rfl hofo', decide_eq_true_iff]
    exact hmf
  · show (BitVec.ofNat 16 (piece.length + ipHlen)).toNat = ipHlen + piece.length
    rw [BitVec.toNat_ofNat]
    omega
  · exact hroom
  · exact inetChksum_withChksum _
  · exact ⟨_, _, _, rfl⟩

/-- What an iteration sends is a fragment, where `rest` is left and `pre` has been sent. -/
theorem of_fragment (hrest : rest ≠ []) (hmtu : ipHlen + 8 ≤ mtu)
    (hmax : iphdr.start + (pre ++ rest).length + ipHlen < 65536)
    (hofo : ofo.toNat * 8 = iphdr.start + pre.length) (hs : s = ⟨rest.length, ofo, ipHlen + pre.length⟩) :
    (s.fragment iphdr (pre ++ rest) mtu).Of iphdr mtu (pre ++ rest) pre ∧
      (s.fragment iphdr (pre ++ rest) mtu).data = rest.take (s.cop mtu) ∧
      (rest.take (s.cop mtu)).length = s.cop mtu := by
  subst hs
  have hpos := List.length_pos_of_ne_nil hrest
  have hlen : (pre ++ rest).length = pre.length + rest.length := List.length_append
  have hcomm : ipOffmask &&& ofo = ofo := (BitVec.and_comm _ _).trans (and_ipOffmask (by omega))
  have hdata : ∀ len, pbufCopyPartial (pre ++ rest) len (ipHlen + pre.length) = rest.take len := fun len => by
    rw [pbufCopyPartial, Nat.add_sub_cancel_left, List.drop_left]
  have hmask : (iphdr.offset &&& ipMf) &&& ipOffmask = 0#16 := by
    rw [BitVec.and_assoc]
    exact BitVec.and_zero
  have hmf : (iphdr.offset &&& ipMf) &&& ipMf ≠ 0 ↔ iphdr.mf = true := by
    rw [BitVec.and_assoc, IpHdr.mf, decide_eq_true_iff]
    exact Iff.rfl
  unfold FragLoop.fragment
  simp only [hcomm, hdata]
  unfold ipHlen at hmtu
  by_cases hlast : rest.length ≤ mtu - ipHlen
  · have hcop : (FragLoop.mk rest.length ofo (ipHlen + pre.length)).cop mtu = rest.length := if_pos hlast
    simp only [hcop, if_pos hlast, List.take_length]
    unfold ipHlen at hlast
    refine ⟨of_withChksum List.prefix_rfl hrest hmax hofo hmask ?_ ?_, trivial, trivial⟩
    · rw [hmf]
      simp
    · unfold ipHlen
      omega
  · have hcop : (FragLoop.mk rest.length ofo (ipHlen + pre.length)).cop mtu = (mtu - ipHlen) / 8 * 8 := if_neg hlast
    have hswap : (iphdr.offset &&& ipMf ||| ofo) ||| ipMf = (iphdr.offset &&& ipMf ||| ipMf) ||| ofo := by
      rw [BitVec.or_assoc, BitVec.or_comm ofo, ← BitVec.or_assoc]
    simp only [hcop, if_neg hlast, hswap]
    have hle : (mtu - ipHlen) / 8 * 8 ≤ mtu - ipHlen := Nat.div_mul_le_self _ 8
    generalize hk : (mtu - ipHlen) / 8 * 8 = k at hle ⊢
    unfold ipHlen at hlast hle hk
    have htake : (rest.take k).length = k := by
      rw [List.length_take]
      omega
    rw [show BitVec.ofNat 16 (k + ipHlen) = BitVec.ofNat 16 ((rest.take k).length + ipHlen) by rw [htake]]
    refine ⟨of_withChksum ?_ ?_ hmax hofo ?_ ?_ ?_, trivial, htake⟩
    · exact (List.prefix_append_right_inj pre).mpr (List.take_prefix k rest)
    · apply List.ne_nil_of_length_pos
      omega
    · rw [BitVec.and_or_distrib_right, hmask]
      rfl
    · refine iff_of_true ?_ (.inr fun heq => ?_)
      · rw [BitVec.and_or_distrib_right]
        intro hzero
        have hbit := congrArg (fun v => BitVec.getLsbD v 13) hzero
        simp [ipMf] at hbit
      · have hlength := congrArg List.length (List.append_cancel_left heq)
        omega
    · unfold ipHlen
      omega

/-- What the loop sends: the fragments of what is left one after another, up to the first allocation that fails. -/
theorem fragLoop_spec (hmtu : ipHlen + 8 ≤ mtu) (hmtu' : mtu ≤ ipFragMaxMtu)
    (hmax : iphdr.start + (pre ++ rest).length + ipHlen < 65536)
    (hofo : rest ≠ [] → ofo.toNat * 8 = iphdr.start + pre.length) (hfuel : rest.length ≤ fuel) :
    ∃ err sent, fragLoop iphdr (pre ++ rest) mtu fuel header ⟨rest.length, ofo, ipHlen + pre.length⟩ =
        some (err, sent) ∧
      (∀ l f l', sent = l ++ f :: l' → f.Of iphdr mtu (pre ++ rest) (pre ++ l.flatMap Fragment.data)) ∧
      (err = .ok → sent.flatMap Fragment.data = rest) ∧ (err = .mem → header sent.length = false) := by
  induction fuel generalizing pre rest ofo header with
  | zero =>
    have hnil := List.eq_nil_of_length_eq_zero (Nat.eq_zero_of_le_zero hfuel)
    refine ⟨.ok, [], ?_, ?_, fun _ => hnil.symm, fun herr => absurd herr (by decide)⟩
    · rw [hnil]
      rfl
    · intro l f l' heq
      cases l <;> cases heq
  | succ fuel ih =>
    by_cases hrest : rest = []
    · refine ⟨.ok, [], ?_, ?_, fun _ => hrest.symm, fun herr => absurd herr (by decide)⟩
      · rw [hrest]
        rfl
      · intro l f l' heq
        cases l <;> cases heq
    · have hpos := List.length_pos_of_ne_nil hrest
      have hstart := hofo hrest
      generalize hs : FragLoop.mk rest.length ofo (ipHlen + pre.length) = s
      obtain ⟨hof, hdata, hcop⟩ := of_fragment hrest hmtu hmax hstart hs.symm
      have hleft : s.left = rest.length := congrArg FragLoop.left hs.symm
      have hbuf : ¬ ipFragMaxMtu < ipHlen + s.cop mtu := by
        have hroom := hof.room
        rw [hdata, hcop] at hroom
        omega
      rw [fragLoop, if_neg (by omega), if_neg hbuf]
      cases hheader : header 0 with
      | false =>
        refine ⟨.mem, [], rfl, ?_, fun herr => absurd herr (by decide), fun _ => hheader⟩
        intro l f l' heq
        cases l <;> cases heq
      | true =>
        have hne := hof.nonempty
        rw [hdata] at hne
        have hcoppos := List.length_pos_of_ne_nil hne
        have hjoin : pre ++ rest.take (s.cop mtu) ++ rest.drop (s.cop mtu) = pre ++ rest := by
          rw [List.append_assoc, List.take_append_drop]
        have hofo' : rest.drop (s.cop mtu) ≠ [] → (ofo + BitVec.ofNat 16 ((mtu - ipHlen) / 8)).toNat * 8 =
            iphdr.start + (pre ++ rest.take (s.cop mtu)).length := by
          intro hdrop
          have hmore := List.length_pos_of_ne_nil hdrop
          rw [List.length_drop] at hmore
          have hnotlast : ¬ s.left ≤ mtu - ipHlen := fun hle => by
            have hall : s.cop mtu = s.left := if_pos hle
            omega
          have hcopeq : s.cop mtu = (mtu - ipHlen) / 8 * 8 := if_neg hnotlast
          rw [List.length_append] at hmax
          rw [List.length_append, hcop, BitVec.toNat_add, BitVec.toNat_ofNat]
          unfold ipFragMaxMtu at hmtu'
          omega
        obtain ⟨err, sent, hrun, hall, hok, hmem⟩ := @ih _ _ _ (fun k => header (k + 1)) (by rwa [hjoin]) hofo'
          (by rw [List.length_drop]; omega)
        rw [hjoin] at hrun hall
        rw [List.length_drop, List.length_append, hcop, ← Nat.add_assoc] at hrun
        refine ⟨err, s.fragment iphdr (pre ++ rest) mtu :: sent, ?_, ?_, fun herr => ?_, hmem⟩
        · have hpoff : s.poff = ipHlen + pre.length := congrArg FragLoop.poff hs.symm
          have hsofo : s.ofo = ofo := congrArg FragLoop.ofo hs.symm
          simp only [if_true, hleft, hpoff, hsofo, hdata, hcop, hrun, Option.map_some]
        · intro l f l' heq
          cases l with
          | nil =>
            obtain ⟨rfl, -⟩ := List.cons.inj heq
            simpa using hof
          | cons g l =>
            obtain ⟨rfl, hsent⟩ := List.cons.inj heq
            have hf := hall l f l' hsent
            rw [List.append_assoc, ← hdata] at hf
            exact hf
        · rw [List.flatMap_cons, hdata, hok herr, List.take_append_drop]

/-- Whatever allocations fail, the fragments that are sent are the first ones of the datagram: each says where its
data belong and whether more follow, fits the interface, and has a checksum that is right. They are all of it unless
an allocation failed. -/
theorem frag_sends (iphdr : IpHdr) (data : List Byte) (hmtu : ipHlen + 8 ≤ mtu) (hmtu' : mtu ≤ ipFragMaxMtu)
    (hmax : iphdr.start + data.length + ipHlen < 65536) (rambuf : Bool) (header : ℕ → Bool) :
    ∃ err sent, ipFrag iphdr data mtu rambuf header = some (err, sent) ∧
      (∀ l f l', sent = l ++ f :: l' → f.Of iphdr mtu data (l.flatMap Fragment.data)) ∧
      (err = .ok → sent.flatMap Fragment.data = data) ∧
      (err = .mem → rambuf = false ∨ header sent.length = false) := by
  cases rambuf with
  | false =>
    refine ⟨.mem, [], rfl, ?_, fun herr => absurd herr (by decide), fun _ => .inl rfl⟩
    intro l f l' heq
    cases l <;> cases heq
  | true =>
    have hofo : data ≠ [] → (iphdr.offset &&& ipOffmask).toNat * 8 = iphdr.start + ([] : List Byte).length :=
      fun _ => rfl
    obtain ⟨err, sent, hrun, hall, hok, hmem⟩ :=
      fragLoop_spec hmtu hmtu' hmax hofo (Nat.le_refl data.length)
    exact ⟨err, sent, hrun, hall, hok, fun herr => .inr (hmem herr)⟩

/-- A header without options and flags. -/
def plainHdr : IpHdr := ⟨0x45, 0, 1620, 7, 0, 64, 17, 0, 1, 2⟩

theorem frag_sends_two : ∃ sent, ipFrag plainHdr (List.replicate 1600 0) 1500 true (fun _ => true) = some (.ok, sent) ∧
    sent.flatMap Fragment.data = List.replicate 1600 0 := by
  obtain ⟨err, sent, hrun, -, hok, hmem⟩ := frag_sends plainHdr (List.replicate 1600 0) (by decide : ipHlen + 8 ≤ 1500)
    (by decide) (by rw [List.length_replicate]; decide) true fun _ => true
  cases err with
  | ok => exact ⟨sent, hrun, hok rfl⟩
  | mem =>
    have hfailed := hmem rfl
    simp at hfailed

end LoraGateway.Core
