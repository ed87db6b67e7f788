import LoraGateway.Lib.OnesSum
import LoraGateway.Netapp.Ping

/-!
# Echo requests in memory

`ping_prepare_echo` fills in a request where it lies in memory, with 16-bit counters, and puts the checksum in
last. `pingPrepareEcho_memory` relates it to the request as a list of bytes; such a request adds up to all ones,
and so a receiver that sums it gets 0 (`ping_calls_prepared`).

Proof: the loop that fills in the data is followed from an iteration on (`fillData_eq`), and its counters are numbers
as the length fits in 16 bits. The sum keeps its carries in the upper half of 32 bits, which has room for all of them
(`toNat_chksumAcc`).
-/

namespace LoraGateway.Netapp

open Lib

/-! ## The call -/

/-- A halfword field of the header. -/
def storeU16 (mem : ℕ → Byte) (i : ℕ) (v : BitVec 16) : ℕ → Byte := memcpy mem i [lowByte v, highByte v]

/-- `for (; i < data_len; i++)`. -/
def fillData (iechohdr : ℕ) (dataLen i : BitVec 16) (mem : ℕ → Byte) : ℕ → Byte :=
  if i < dataLen then
    fillData iechohdr dataLen (i + 1) (memcpy mem (iechohdr + icmpEchoHdrSize + i.toNat) [i.setWidth 8])
  else mem
termination_by dataLen.toNat - i.toNat
decreasing_by
  rename_i h
  have hlt : i.toNat < dataLen.toNat := h
  rw [BitVec.toNat_add]
  show dataLen.toNat - (i.toNat + 1) % 65536 < dataLen.toNat - i.toNat
  omega

/-- `ping_prepare_echo`, on the memory it finds. -/
def pingPrepareEchoAt (pingSeqNum : BitVec 16) (mem : ℕ → Byte) (iechohdr : ℕ) (len : BitVec 16) :
    BitVec 16 × (ℕ → Byte) :=
  let dataLen := len - BitVec.ofNat 16 icmpEchoHdrSize
  let mem := memcpy mem iechohdr [icmpEcho]
  let mem := memcpy mem (iechohdr + 1) [0]
  let mem := storeU16 mem (iechohdr + 2) 0
  let mem := storeU16 mem (iechohdr + 4) pingId
  let seq := pingSeqNum + 1
  let mem := storeU16 mem (iechohdr + 6) (htons seq)
  let mem := fillData iechohdr dataLen 0 mem
  (seq, storeU16 mem (iechohdr + 2) (inetChksum (readBytes mem iechohdr len.toNat)))

/-- A call with the memory it finds; the message is not shorter than its header. -/
structure EchoCall where
  mem : ℕ → Byte
  iechohdr : ℕ
  len : BitVec 16
  header : icmpEchoHdrSize ≤ len.toNat

/-- Calls one after another, each with the memory it leaves. -/
def pingCalls (pingSeqNum : BitVec 16) : List EchoCall → List (EchoCall × (ℕ → Byte))
  | [] => []
  | c :: rest =>
    let (seq, mem) := pingPrepareEchoAt pingSeqNum c.mem c.iechohdr c.len
    (c, mem) :: pingCalls seq rest

/-! ## The request as a list -/

/-- The header with no checksum yet. -/
def echoHeader (seq : BitVec 16) : List Byte :=
  [icmpEcho, 0, 0, 0, lowByte pingId, highByte pingId, lowByte (htons seq), highByte (htons seq)]

def echoData (n : ℕ) : List Byte := (List.range n).map fun i => BitVec.ofNat 8 i

def unsummed (seq : BitVec 16) (n : ℕ) : List Byte := echoHeader seq ++ echoData n

section request

variable {seq v : BitVec 16} {b : List Byte} {n : ℕ}

theorem length_unsummed (seq : BitVec 16) (n : ℕ) : (unsummed seq n).length = 8 + n := by
  rw [unsummed, List.length_append, echoData, List.length_map, List.length_range]
  rfl

theorem pingPrepareEcho_eq (hb : icmpEchoHdrSize ≤ b.length) :
    pingPrepareEcho seq b = (seq + 1, setU16 (unsummed (seq + 1) (b.length - icmpEchoHdrSize)) 2
      (inetChksum (unsummed (seq + 1) (b.length - icmpEchoHdrSize)))) := by
  match b, hb with
  | _ :: _ :: _ :: _ :: _ :: _ :: _ :: _ :: rest, _ => rfl

theorem setU16_unsummed : setU16 (unsummed seq n) 2 v =
    icmpEcho :: 0 :: lowByte v :: highByte v :: (unsummed seq n).drop 4 := rfl

theorem htons_not (v : BitVec 16) : htons (~~~ v) = ~~~ htons v := by
  have hhigh : highByte (~~~ v) = ~~~ highByte v := by
    apply BitVec.eq_of_toNat_eq
    simp only [highByte, BitVec.toNat_not, BitVec.toNat_ofNat]
    omega
  have hlow : lowByte (~~~ v) = ~~~ lowByte v := by
    apply BitVec.eq_of_toNat_eq
    simp only [lowByte, BitVec.toNat_not, BitVec.toNat_ofNat]
    omega
  have hbytes : ∀ a b : Byte, halfword (~~~ a) (~~~ b) = ~~~ halfword a b := by
    intro a b
    apply BitVec.eq_of_toNat_eq
    simp only [halfword, BitVec.toNat_not, BitVec.toNat_ofNat]
    omega
  rw [htons, hhigh, hlow, hbytes, ← htons]

/-- The loop of `lwip_standard_chksum` adds up the words; the accumulator has room for all of them. -/
theorem toNat_chksumAcc {acc : BitVec 32} (h : acc.toNat + total (words b) < 2 ^ 32) :
    (chksumAcc acc b).toNat = acc.toNat + total (words b) := by
  induction b using words.induct generalizing acc with
  | case1 high low rest ih =>
    rw [words, total_cons] at h
    have hadd : (acc + (halfword low high).setWidth 32).toNat = acc.toNat + (halfword low high).toNat := by
      rw [BitVec.toNat_add, BitVec.toNat_setWidth]
      omega
    rw [chksumAcc, ih (by omega), hadd, words, total_cons, Nat.add_assoc]
  | case2 high =>
    rw [words, total_cons] at h
    have hnil : total [] = 0 := rfl
    rw [chksumAcc, words, total_cons, BitVec.toNat_add, BitVec.toNat_setWidth]
    omega
  | case3 => rfl

/-- What `lwip_standard_chksum` returns is the one's-complement sum, in network order. -/
theorem lwipStandardChksum_eq (hb : b.length ≤ 65535) : lwipStandardChksum b = htons (onesSum (words b)) := by
  have hlen := length_words_le b
  have hle := total_le (words b)
  have hacc : (chksumAcc 0 b).toNat = total (words b) := by
    rw [toNat_chksumAcc]
    · exact Nat.zero_add _
    · show 0 + total (words b) < 2 ^ 32
      omega
  show htons _ = htons _
  congr 1
  apply BitVec.eq_of_toNat_eq
  rw [toNat_onesSum, ← hacc]
  exact residue_foldCarry (chksumAcc 0 b)

theorem onesSum_request (seq : BitVec 16) (hn : 8 + n ≤ 65535) :
    onesSum (words (setU16 (unsummed seq n) 2 (inetChksum (unsummed seq n)))) = 0xffff := by
  have hlen : (unsummed seq n).length ≤ 65535 := by rwa [length_unsummed]
  have hword : htons (inetChksum (unsummed seq n)) = ~~~ onesSum (words (unsummed seq n)) := by
    rw [inetChksum, lwipStandardChksum_eq hlen, htons_not, htons_htons]
  rw [setU16_unsummed]
  show onesSum ([halfword 0 icmpEcho] ++ htons (inetChksum (unsummed seq n)) :: words ((unsummed seq n).drop 4)) = _
  exact onesSum_complement hword

end request

/-! ## The request in memory -/

section memory

variable {seq : BitVec 16} {mem : ℕ → Byte} {iechohdr : ℕ} {len dataLen i : BitVec 16}

theorem echoData_succ (n : ℕ) : echoData (n + 1) = echoData n ++ [BitVec.ofNat 8 n] := by
  rw [echoData, List.range_succ, List.map_append]
  rfl

theorem fillData_eq {header : List Byte} (hheader : header.length = icmpEchoHdrSize) (hi : i ≤ dataLen) :
    fillData iechohdr dataLen i (memcpy mem iechohdr (header ++ echoData i.toNat)) =
      memcpy mem iechohdr (header ++ echoData dataLen.toNat) := by
  induction hleft : dataLen.toNat - i.toNat generalizing i with
  | zero =>
    have heq : i = dataLen := by
      apply BitVec.eq_of_toNat_eq
      have hle : i.toNat ≤ dataLen.toNat := hi
      omega
    rw [fillData, if_neg (by rw [heq]; exact Nat.lt_irrefl _), heq]
  | succ n ih =>
    have hlt : i < dataLen := by
      show i.toNat < dataLen.toNat
      omega
    have hnext : (i + 1).toNat = i.toNat + 1 := by
      rw [BitVec.toNat_add]
      show (i.toNat + 1) % 65536 = i.toNat + 1
      omega
    have hchar : i.setWidth 8 = BitVec.ofNat 8 i.toNat := BitVec.eq_of_toNat_eq (by simp)
    have hend : iechohdr + icmpEchoHdrSize + i.toNat = iechohdr + (header ++ echoData i.toNat).length := by
      rw [List.length_append, hheader, echoData, List.length_map, List.length_range, Nat.add_assoc]
    rw [fillData, if_pos hlt, memcpy_append hend, List.append_assoc, hchar, ← echoData_succ, ← hnext]
    refine ih ?_ ?_
    · show (i + 1).toNat ≤ dataLen.toNat
      omega
    · omega

/-- The request is written over the buffer, and over nothing else. -/
theorem pingPrepareEcho_memory (hlen : icmpEchoHdrSize ≤ len.toNat) :
    pingPrepareEchoAt seq mem iechohdr len =
      (seq + 1, memcpy mem iechohdr (pingPrepareEcho seq (readBytes mem iechohdr len.toNat)).2) := by
  have hdataLen : (len - BitVec.ofNat 16 icmpEchoHdrSize).toNat = len.toNat - icmpEchoHdrSize := by
    unfold icmpEchoHdrSize at hlen ⊢
    rw [BitVec.toNat_sub_of_le hlen]
    rfl
  have htype : memcpy (memcpy mem iechohdr [icmpEcho]) (iechohdr + 1) [0] =
      memcpy mem iechohdr [icmpEcho, 0] := memcpy_append rfl
  have hchksum : storeU16 (memcpy mem iechohdr [icmpEcho, 0]) (iechohdr + 2) 0 =
      memcpy mem iechohdr [icmpEcho, 0, 0, 0] := memcpy_append rfl
  have hid : storeU16 (memcpy mem iechohdr [icmpEcho, 0, 0, 0]) (iechohdr + 4) pingId =
      memcpy mem iechohdr [icmpEcho, 0, 0, 0, lowByte pingId, highByte pingId] := memcpy_append rfl
  have hseqno : storeU16 (memcpy mem iechohdr [icmpEcho, 0, 0, 0, lowByte pingId, highByte pingId]) (iechohdr + 6)
      (htons (seq + 1)) = memcpy mem iechohdr (echoHeader (seq + 1) ++ echoData (0 : BitVec 16).toNat) :=
    memcpy_append rfl
  generalize hd : len - BitVec.ofNat 16 icmpEchoHdrSize = dataLen at hdataLen
  have hfill : fillData iechohdr dataLen 0 (memcpy mem iechohdr (echoHeader (seq + 1) ++
      echoData (0 : BitVec 16).toNat)) = memcpy mem iechohdr (unsummed (seq + 1) dataLen.toNat) :=
    fillData_eq rfl (Nat.zero_le dataLen.toNat)
  have hlength : (unsummed (seq + 1) dataLen.toNat).length = len.toNat := by
    rw [length_unsummed, hdataLen]
    exact Nat.add_sub_of_le hlen
  have hread : readBytes (memcpy mem iechohdr (unsummed (seq + 1) dataLen.toNat)) iechohdr len.toNat =
      unsummed (seq + 1) dataLen.toNat := by
    rw [← hlength]
    exact readBytes_memcpy
  rw [pingPrepareEcho_eq (by rwa [length_readBytes]), length_readBytes, ← hdataLen, pingPrepareEchoAt]
  simp only [hd, htype, hchksum, hid, hseqno, hfill, hread]
  rw [storeU16, memcpy_setU16 (by rw [hlength]; unfold icmpEchoHdrSize at hlen; omega)]

end memory

/-! ## Sequences of requests -/

/-- A message as it should be: its words add up to all ones, so that the sum a receiver computes is 0, and it
carries its number and counting data. -/
structure EchoMessage (number : BitVec 16) (message : List Byte) : Prop where
  sum : onesSum (words message) = 0xffff
  verifies : inetChksum message = 0
  data : ∀ i, icmpEchoHdrSize + i < message.length →
    message.getD (icmpEchoHdrSize + i) 0 = BitVec.ofNat 8 (i % 256)
  seqno : u16At message 6 = htons number

/-- What a call leaves: such a message in the `len` bytes, and nothing outside them changed. -/
structure Prepared (number : BitVec 16) (c : EchoCall) (mem : ℕ → Byte) : Prop where
  message : EchoMessage number (readBytes mem c.iechohdr c.len.toNat)
  frame : ∀ j, j < c.iechohdr ∨ c.iechohdr + c.len.toNat ≤ j → mem j = c.mem j

theorem echoMessage_request (seq : BitVec 16) {n : ℕ} (hn : 8 + n ≤ 65535) :
    EchoMessage seq (setU16 (unsummed seq n) 2 (inetChksum (unsummed seq n))) := by
  have hsum := onesSum_request seq hn
  have hlength := length_unsummed seq n
  refine ⟨hsum, ?_, fun i hi => ?_, ?_⟩
  · rw [inetChksum, lwipStandardChksum_eq (by rwa [length_setU16, hlength]), hsum]
    decide
  · rw [length_setU16, hlength] at hi
    have hin : i < n := Nat.lt_of_add_lt_add_left hi
    rw [setU16, getD_set_of_ne (by unfold icmpEchoHdrSize; omega),
      getD_set_of_ne (by unfold icmpEchoHdrSize; omega), unsummed,
      List.getD_append_right _ _ _ _ (Nat.le_add_right icmpEchoHdrSize i), show (echoHeader seq).length = icmpEchoHdrSize from rfl,
      Nat.add_sub_cancel_left, echoData, List.getD_eq_getElem _ _ (by simpa using hin), List.getElem_map,
      List.getElem_range]
    exact BitVec.eq_of_toNat_eq (by simp)
  · rw [u16At_setU16_of_ne (by omega)]
    exact halfword_bytes (htons seq)

theorem prepared (seq : BitVec 16) (c : EchoCall) :
    Prepared (seq + 1) c (pingPrepareEchoAt seq c.mem c.iechohdr c.len).2 := by
  have hlen := c.header
  have hmax := c.len.isLt
  have hcount : 8 + (c.len.toNat - icmpEchoHdrSize) = c.len.toNat := Nat.add_sub_of_le hlen
  rw [pingPrepareEcho_memory hlen, pingPrepareEcho_eq (by rwa [length_readBytes]), length_readBytes]
  generalize hm : setU16 (unsummed (seq + 1) (c.len.toNat - icmpEchoHdrSize)) 2 _ = message
  have hlength : message.length = c.len.toNat := by rw [← hm, length_setU16, length_unsummed, hcount]
  constructor
  · show EchoMessage (seq + 1) (readBytes (memcpy c.mem c.iechohdr message) c.iechohdr c.len.toNat)
    rw [← hlength, readBytes_memcpy, ← hm]
    exact echoMessage_request (seq + 1) (by omega)
  · intro j hj
    rw [← hlength] at hj
    show memcpy c.mem c.iechohdr message j = c.mem j
    exact if_neg (by omega)

theorem pingCalls_fst (seq : BitVec 16) (calls : List EchoCall) : (pingCalls seq calls).map Prod.fst = calls := by
  induction calls generalizing seq with
  | nil => rfl
  | cons c rest ih => exact congrArg (c :: ·) (ih _)

/-- The messages of any sequence of calls are as they should be, and the `k`-th one, from 1, carries the number
that the counter held at first plus `k`. -/
theorem ping_calls_prepared (seq : BitVec 16) (calls : List EchoCall) :
    (pingCalls seq calls).map Prod.fst = calls ∧ ∀ k : Fin (pingCalls seq calls).length,
      Prepared (seq + BitVec.ofNat 16 (k + 1)) (pingCalls seq calls)[k].1 (pingCalls seq calls)[k].2 := by
  refine ⟨pingCalls_fst seq calls, ?_⟩
  rintro ⟨k, hk⟩
  induction calls generalizing seq k with
  | nil => exact absurd hk (Nat.not_lt_zero k)
  | cons c rest ih =>
    cases k with
    | zero => exact prepared seq c
    | succ k =>
      have hnumber : seq + BitVec.ofNat 16 (k + 1 + 1) = seq + 1 + BitVec.ofNat 16 (k + 1) := by
        rw [BitVec.ofNat_add (k + 1) 1, BitVec.add_comm (BitVec.ofNat 16 (k + 1)), ← BitVec.add_assoc]
        rfl
      have hrest := ih (seq + 1) k (Nat.lt_of_succ_lt_succ hk)
      rw [← hnumber] at hrest
      exact hrest

end LoraGateway.Netapp
