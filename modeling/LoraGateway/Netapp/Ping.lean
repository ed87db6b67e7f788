import LoraGateway.Lib.Bytes

/-!
# Ping requests and replies

`ping.c` sends echo requests numbered by `ping_seq_num` and looks for their replies in a raw callback. The
callback reads the ICMP header at a fixed offset behind the IP header and its test ends in an assignment:
`iechohdr->seqno = htons(ping_seq_num)` writes the packet, and passes unless the number is 0. So the number
a reply carries is never compared, and `ping_run_iff` says of which packets the outcome is right all the
same.
-/

namespace LoraGateway.Netapp

open Lib

/-- `PBUF_IP_HLEN`, the length of an IP header without options. -/
def pbufIpHlen : ℕ := 20

/-- `sizeof(struct icmp_echo_hdr)`: type, code, checksum, id and sequence number. -/
def icmpEchoHdrSize : ℕ := 8

def icmpEr : Byte := 0

def icmpEcho : Byte := 8

def pingId : BitVec 16 := 0xAFAF

def pingDataSize : ℕ := 32

def pingSize : ℕ := icmpEchoHdrSize + pingDataSize

/-! ## The checksum -/

/-- The loop of `lwip_standard_chksum`: the sum of the 16-bit words, in network order. -/
def chksumAcc (acc : BitVec 32) : List Byte → BitVec 32
  | high :: low :: rest => chksumAcc (acc + (halfword low high).setWidth 32) rest
  | [high] => acc + (halfword 0 high).setWidth 32
  | [] => acc

def lwipStandardChksum (bytes : List Byte) : BitVec 16 :=
  let acc := chksumAcc 0 bytes
  let acc := (acc >>> 16) + (acc &&& 0x0000ffff)
  let acc := if acc &&& 0xffff0000 ≠ 0 then (acc >>> 16) + (acc &&& 0x0000ffff) else acc
  htons (acc.setWidth 16)

def inetChksum (bytes : List Byte) : BitVec 16 := ~~~ lwipStandardChksum bytes

/-! ## Requests -/

/-- What `pbuf_alloc(PBUF_IP, ping_size, PBUF_RAM)` returns: one segment, whatever it holds. -/
abbrev EchoBuf := { b : List Byte // b.length = pingSize }

/-- The request is filled in, under the next number: the header, the data, and the checksum last. -/
def pingPrepareEcho (pingSeqNum : BitVec 16) (iechohdr : List Byte) : BitVec 16 × List Byte :=
  let b := (iechohdr.set 0 icmpEcho).set 1 0
  let b := setU16 b 2 0
  let b := setU16 b 4 pingId
  let seq := pingSeqNum + 1
  let b := setU16 b 6 (htons seq)
  let b := b.take icmpEchoHdrSize ++
    (List.range (iechohdr.length - icmpEchoHdrSize)).map fun i => BitVec.ofNat 8 i
  (seq, setU16 b 2 (inetChksum b))

/-- The statics of `ping.c` that a packet meets, and the latest request handed to `raw_sendto`. -/
structure Ping where
  pingSeqNum : BitVec 16
  pingState : Byte
  latest : Option (List Byte)
  deriving DecidableEq

/-- `none` is a `pbuf_alloc` that fails. -/
def pingSend (s : Ping) : Option EchoBuf → Ping
  | none => s
  | some p =>
    let (seq, request) := pingPrepareEcho s.pingSeqNum p.val
    { s with pingSeqNum := seq, latest := some request }

theorem u16At_append {b b' : List Byte} {i : ℕ} (h : i + 1 < b.length) :
    u16At (b ++ b') i = u16At b i := by
  rw [u16At, u16At, List.getD_append _ _ _ _ h, List.getD_append _ _ _ _ (by omega)]

theorem u16At_take {b : List Byte} {i n : ℕ} (h : i + 1 < n) : u16At (b.take n) i = u16At b i := by
  simp [u16At, List.getD_eq_getElem?_getD, h, Nat.lt_of_succ_lt h]

theorem pingPrepareEcho_number (seq : BitVec 16) {b : List Byte} (hb : b.length = pingSize) :
    u16At (pingPrepareEcho seq b).2 6 = htons (seq + 1) := by
  have hlen : b.length = 40 := hb
  simp only [pingPrepareEcho, icmpEchoHdrSize]
  rw [u16At_setU16_of_ne (by omega), u16At_append (by simp; omega), u16At_take (by omega),
    u16At_setU16 (by simp; omega)]

/-- The latest request carries the number that `ping_seq_num` holds. -/
def Ping.Numbered (s : Ping) : Prop :=
  ∀ request, s.latest = some request → u16At request 6 = htons s.pingSeqNum

theorem numbered_send {s : Ping} (h : s.Numbered) (p : Option EchoBuf) : (pingSend s p).Numbered := by
  cases p with
  | none => exact h
  | some p =>
    intro request hrequest
    obtain rfl := Option.some.inj hrequest
    exact pingPrepareEcho_number s.pingSeqNum p.property

/-! ## Replies -/

/-- What a call of the raw callback leaves: the value returned, whether the pbuf was freed, its bytes. -/
structure Received where
  ret : ℕ
  freed : Bool
  payload : List Byte
  ping : Ping
  deriving DecidableEq

/-- `p` is the IP datagram, its header included. -/
def pingRawRecvFn (s : Ping) (p : List Byte) : Received :=
  if p.length ≥ pbufIpHlen + icmpEchoHdrSize then
    if p.getD pbufIpHlen 0 = icmpEr ∧ u16At p (pbufIpHlen + 4) = pingId then
      -- the last operand of the test assigns: its value is what was written
      let p := setU16 p (pbufIpHlen + 6) (htons s.pingSeqNum)
      if htons s.pingSeqNum ≠ 0 then ⟨1, true, p, { s with pingState := 1 }⟩
      else ⟨0, false, p, s⟩
    else ⟨0, false, p, s⟩
  else ⟨0, false, p, s⟩

/-- `IPH_HL(iphdr) * 4`: where the ICMP message starts. -/
def icmpOffset (p : List Byte) : ℕ := 4 * ((p.getD 0 0).toNat % 16)

/-- The ICMP message is an echo reply with ping's id and the number of the latest request. -/
def Genuine (s : Ping) (p : List Byte) : Prop :=
  icmpOffset p + icmpEchoHdrSize ≤ p.length ∧ p.getD (icmpOffset p) 0 = icmpEr ∧
    u16At p (icmpOffset p + 4) = pingId ∧ u16At p (icmpOffset p + 6) = htons s.pingSeqNum

instance (s : Ping) (p : List Byte) : Decidable (Genuine s p) := by
  unfold Genuine
  infer_instance

/-- The packet is consumed exactly if it is genuine, and otherwise left as it is. -/
structure HandledRight (s : Ping) (p : List Byte) : Prop where
  consumed : (pingRawRecvFn s p).ret = 1 ↔ Genuine s p
  taken : (pingRawRecvFn s p).ret = 1 →
    (pingRawRecvFn s p).freed = true ∧ (pingRawRecvFn s p).ping = { s with pingState := 1 }
  left : (pingRawRecvFn s p).ret ≠ 1 → pingRawRecvFn s p = ⟨0, false, p, s⟩

/-- An echo reply with ping's id, if the IP header has no options. -/
def LooksLikeReply (p : List Byte) : Prop :=
  p.length ≥ pbufIpHlen + icmpEchoHdrSize ∧ p.getD pbufIpHlen 0 = icmpEr ∧
    u16At p (pbufIpHlen + 4) = pingId

theorem htons_eq_zero_iff {v : BitVec 16} : htons v = 0 ↔ v = 0 := by
  constructor
  · intro h
    rw [← htons_htons v, h]
    rfl
  · rintro rfl
    rfl

theorem pingRawRecvFn_of_looks {s : Ping} {p : List Byte} (h : LooksLikeReply p) :
    pingRawRecvFn s p =
      if s.pingSeqNum ≠ 0 then
        ⟨1, true, setU16 p (pbufIpHlen + 6) (htons s.pingSeqNum), { s with pingState := 1 }⟩
      else ⟨0, false, setU16 p (pbufIpHlen + 6) (htons s.pingSeqNum), s⟩ := by
  rw [pingRawRecvFn, if_pos h.1, if_pos h.2]
  simp only [ne_eq, htons_eq_zero_iff]

theorem pingRawRecvFn_of_not_looks {s : Ping} {p : List Byte} (h : ¬ LooksLikeReply p) :
    pingRawRecvFn s p = ⟨0, false, p, s⟩ := by
  rw [pingRawRecvFn]
  split
  · rename_i hlen
    rw [if_neg fun htest => h ⟨hlen, htest⟩]
  · rfl

/-- The packets that the callback handles right. -/
inductive Meets (s : Ping) (p : List Byte) : Prop
  /-- It has not the form of an echo reply to `ping` at byte 20, and is none where its header really is. -/
  | other (looks : ¬ LooksLikeReply p) (genuine : ¬ Genuine s p)
  /-- It answers the latest request. -/
  | reply (looks : LooksLikeReply p) (seq : s.pingSeqNum ≠ 0) (genuine : Genuine s p)
  /-- The number is 0, so the test fails after its assignment, which writes what was there. -/
  | unchanged (looks : LooksLikeReply p) (seq : s.pingSeqNum = 0)
      (number : u16At p (pbufIpHlen + 6) = 0) (genuine : ¬ Genuine s p)

theorem handledRight_of_taken {s : Ping} {p q : List Byte}
    (h : pingRawRecvFn s p = ⟨1, true, q, { s with pingState := 1 }⟩) :
    HandledRight s p ↔ Genuine s p := by
  constructor
  · rintro ⟨hconsumed, -, -⟩
    exact hconsumed.mp (by rw [h])
  · intro hgenuine
    refine ⟨⟨fun _ => hgenuine, fun _ => by rw [h]⟩, fun _ => by rw [h]; exact ⟨rfl, rfl⟩, fun hret => ?_⟩
    exact absurd (by rw [h]) hret

theorem handledRight_of_left {s : Ping} {p q : List Byte} (h : pingRawRecvFn s p = ⟨0, false, q, s⟩) :
    HandledRight s p ↔ ¬ Genuine s p ∧ q = p := by
  have hret : (pingRawRecvFn s p).ret ≠ 1 := by
    rw [h]
    exact Nat.zero_ne_one
  constructor
  · rintro ⟨hconsumed, -, hleft⟩
    exact ⟨fun hgenuine => hret (hconsumed.mpr hgenuine),
      congrArg Received.payload (h.symm.trans (hleft hret))⟩
  · rintro ⟨hgenuine, rfl⟩
    exact ⟨⟨fun h => absurd h hret, fun h => absurd h hgenuine⟩, fun h => absurd h hret, fun _ => h⟩

theorem meets_of_not_looks {s : Ping} {p : List Byte} (h : ¬ LooksLikeReply p) :
    Meets s p ↔ ¬ Genuine s p := by
  constructor
  · rintro (⟨-, hgenuine⟩ | ⟨hlooks, -, -⟩ | ⟨hlooks, -, -, -⟩)
    · exact hgenuine
    · exact absurd hlooks h
    · exact absurd hlooks h
  · exact .other h

theorem meets_of_seq {s : Ping} {p : List Byte} (h : LooksLikeReply p) (hseq : s.pingSeqNum ≠ 0) :
    Meets s p ↔ Genuine s p := by
  constructor
  · rintro (⟨hlooks, -⟩ | ⟨-, -, hgenuine⟩ | ⟨-, hzero, -, -⟩)
    · exact absurd h hlooks
    · exact hgenuine
    · exact absurd hzero hseq
  · exact .reply h hseq

theorem meets_of_seq_zero {s : Ping} {p : List Byte} (h : LooksLikeReply p) (hseq : s.pingSeqNum = 0) :
    Meets s p ↔ ¬ Genuine s p ∧ u16At p (pbufIpHlen + 6) = 0 := by
  constructor
  · rintro (⟨hlooks, -⟩ | ⟨-, hne, -⟩ | ⟨-, -, hnumber, hgenuine⟩)
    · exact absurd h hlooks
    · exact absurd hseq hne
    · exact ⟨hgenuine, hnumber⟩
  · rintro ⟨hgenuine, hnumber⟩
    exact .unchanged h hseq hnumber hgenuine

theorem handledRight_iff (s : Ping) (p : List Byte) : HandledRight s p ↔ Meets s p := by
  by_cases hlooks : LooksLikeReply p
  · have hrecv := pingRawRecvFn_of_looks (s := s) hlooks
    by_cases hseq : s.pingSeqNum = 0
    · rw [if_neg (not_not.mpr hseq), hseq] at hrecv
      have hwrite : setU16 p (pbufIpHlen + 6) (htons 0) = p ↔ u16At p (pbufIpHlen + 6) = 0 :=
        setU16_eq_self_iff hlooks.1
      rw [handledRight_of_left hrecv, hwrite, meets_of_seq_zero hlooks hseq]
    · rw [if_pos hseq] at hrecv
      rw [handledRight_of_taken hrecv, meets_of_seq hlooks hseq]
  · rw [handledRight_of_left (pingRawRecvFn_of_not_looks hlooks), meets_of_not_looks hlooks]
    exact and_iff_left rfl

/-- A packet without IP options is handled right exactly if it is no echo reply to ping at all, or carries
the number of the latest request, and this is not 0. -/
theorem meets_iff_of_no_options {s : Ping} {p : List Byte} (h : icmpOffset p = pbufIpHlen) :
    Meets s p ↔
      ¬ LooksLikeReply p ∨ s.pingSeqNum ≠ 0 ∧ u16At p (pbufIpHlen + 6) = htons s.pingSeqNum := by
  have hgenuine : Genuine s p ↔
      LooksLikeReply p ∧ u16At p (pbufIpHlen + 6) = htons s.pingSeqNum := by
    rw [Genuine, h]
    exact ⟨fun h => ⟨⟨h.1, h.2.1, h.2.2.1⟩, h.2.2.2⟩, fun h => ⟨h.1.1, h.1.2.1, h.1.2.2, h.2⟩⟩
  by_cases hlooks : LooksLikeReply p
  · by_cases hseq : s.pingSeqNum = 0
    · rw [meets_of_seq_zero hlooks hseq, hgenuine, hseq]
      constructor
      · rintro ⟨hother, hnumber⟩
        exact absurd ⟨hlooks, hnumber⟩ hother
      · rintro (h' | ⟨h', -⟩)
        · exact absurd hlooks h'
        · exact absurd rfl h'
    · rw [meets_of_seq hlooks hseq, hgenuine]
      exact ⟨fun h => .inr ⟨hseq, h.2⟩, fun h => ⟨hlooks, (h.resolve_left (not_not.mpr hlooks)).2⟩⟩
  · rw [meets_of_not_looks hlooks, hgenuine]
    exact ⟨fun _ => .inl hlooks, fun _ h => hlooks h.1⟩

/-! ## Runs -/

inductive PingEvent
  | send (p : Option EchoBuf)
  | recv (p : List Byte)

/-- Before the first request. -/
def Ping.start : Ping := ⟨0, 0, none⟩

/-- The packets of a run, each with the state it meets. -/
def deliveries : Ping → List PingEvent → List (Ping × List Byte)
  | _, [] => []
  | s, .send p :: l => deliveries (pingSend s p) l
  | s, .recv p :: l => (s, p) :: deliveries (pingRawRecvFn s p).ping l

theorem pingRawRecvFn_ping (s : Ping) (p : List Byte) :
    (pingRawRecvFn s p).ping = s ∨ (pingRawRecvFn s p).ping = { s with pingState := 1 } := by
  by_cases hlooks : LooksLikeReply p
  · rw [pingRawRecvFn_of_looks hlooks]
    split
    · exact .inr rfl
    · exact .inl rfl
  · rw [pingRawRecvFn_of_not_looks hlooks]
    exact .inl rfl

theorem numbered_recv {s : Ping} (h : s.Numbered) (p : List Byte) :
    (pingRawRecvFn s p).ping.Numbered := by
  rcases pingRawRecvFn_ping s p with hp | hp
  · rw [hp]
    exact h
  · rw [hp]
    exact h

theorem numbered_deliveries {s : Ping} (h : s.Numbered) (l : List PingEvent) :
    ∀ d ∈ deliveries s l, d.1.Numbered := by
  induction l generalizing s with
  | nil => exact fun d hd => absurd hd List.not_mem_nil
  | cons e l ih =>
    cases e with
    | send p => exact ih (numbered_send h p)
    | recv p =>
      intro d hd
      rcases List.mem_cons.mp hd with rfl | hd
      · exact h
      · exact ih (numbered_recv h p) d hd

/-- In every run, the number compared with is that of the latest request, and the packets are all handled
right exactly if they all meet the condition. -/
theorem ping_run_iff (l : List PingEvent) :
    (∀ d ∈ deliveries .start l, d.1.Numbered) ∧
      ((∀ d ∈ deliveries .start l, HandledRight d.1 d.2) ↔ ∀ d ∈ deliveries .start l, Meets d.1 d.2) :=
  ⟨numbered_deliveries (fun _ h => absurd h (by simp [Ping.start])) l,
    forall₂_congr fun d _ => handledRight_iff d.1 d.2⟩

/-- A reply of 28 bytes to another request: the number is 7. -/
def foreignReply : List Byte :=
  [0x45, 0, 0, 28, 0, 0, 0, 0, 64, 1, 0, 0, 172, 20, 199, 194, 192, 168, 0, 18,
    0, 0, 0, 0, 0xAF, 0xAF, 0, 7]

/-- After one request, the reply to another one is taken for its own, and written. -/
theorem ping_takes_foreign :
    ∃ d ∈ deliveries .start [.send (some ⟨List.replicate 40 0, rfl⟩), .recv foreignReply],
      ¬ HandledRight d.1 d.2 ∧ ¬ Genuine d.1 d.2 ∧ (pingRawRecvFn d.1 d.2).ret = 1 ∧
        u16At d.2 26 = htons 7 ∧ u16At (pingRawRecvFn d.1 d.2).payload 26 = htons 1 := by
  refine ⟨_, List.mem_cons_self, fun h => absurd h.consumed ?_, ?_⟩
  · decide +kernel
  · decide +kernel

end LoraGateway.Netapp
