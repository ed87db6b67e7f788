import Mathlib.Algebra.BigOperators.Group.List.Basic
import LoraGateway.Lib.Bytes

/-!
# Sending a packet

`PacketSend` of `ethernetif.c`, which `low_level_output` is: the segments of a pbuf chain are copied
one behind the other into `MySendbuf`, the length so far is checked after each copy, and the whole is
given to `enc28j60PacketSend`. A chain whose segments add up to its `tot_len` is sent exactly when it
fits the buffer (`packetSend_spec`). The check comes after the copy, so the segment that makes a chain too
long for the buffer is copied past its end (`copies_fit_iff`).

`copyChain` runs the loop on a memory that goes on behind `MySendbuf`, which is the loop of the code as
long as the copies stay in the array. `copyChainIn` has the array end where it does, and nothing to say of a call
that copies past it; the two are told apart by the list of the copies (`packetSendIn_eq`).
-/

namespace LoraGateway.Netif

open Lib

/-- The fields of `struct pbuf` the network interface reads: the `len` bytes at `payload`, and
`tot_len`. -/
structure Pbuf where
  payload : List Byte
  totLen : ℕ
  deriving DecidableEq, Repr

def Pbuf.len (q : Pbuf) : ℕ := q.payload.length

/-- `err_t`, as far as these functions return it. -/
inductive Err
  | ok
  | buf
  | rte
  deriving DecidableEq, Repr

/-- The size of `MySendbuf`, and the bound `PacketSend` checks. -/
def sendbufSize : ℕ := 1500

/-- The check after a segment has been copied, true for an error. -/
def tooLong (templen totLen : ℕ) : Bool := sendbufSize < templen || totLen < templen

/-- The copy loop of `PacketSend`: the buffer it leaves, and `templen` unless a check failed. -/
def copyChain (totLen : ℕ) : (ℕ → Byte) → ℕ → List Pbuf → (ℕ → Byte) × Option ℕ
  | mySendbuf, templen, [] => (mySendbuf, some templen)
  | mySendbuf, templen, q :: rest =>
    let mySendbuf := memcpy mySendbuf templen q.payload
    let templen := templen + q.len
    if tooLong templen totLen then (mySendbuf, none) else copyChain totLen mySendbuf templen rest

/-- What a call of `PacketSend` leaves: its value, the buffer, and the bytes given to
`enc28j60PacketSend`, if it came to that. -/
structure SendResult where
  err : Err
  mySendbuf : ℕ → Byte
  frame : Option (List Byte)

/-- `PacketSend` of the chain `p :: rest`. -/
def packetSend (mySendbuf : ℕ → Byte) (p : Pbuf) (rest : List Pbuf) : SendResult :=
  match copyChain p.totLen mySendbuf 0 (p :: rest) with
  | (buf, none) => ⟨.buf, buf, none⟩
  | (buf, some templen) =>
    if templen = p.totLen then ⟨.ok, buf, some (readBytes buf 0 templen)⟩ else ⟨.buf, buf, none⟩

/-- The bytes of a chain. -/
def chainBytes (l : List Pbuf) : List Byte := l.flatMap Pbuf.payload

@[simp] theorem chainBytes_nil : chainBytes [] = [] := rfl

@[simp] theorem chainBytes_cons (q : Pbuf) (l : List Pbuf) :
    chainBytes (q :: l) = q.payload ++ chainBytes l := List.flatMap_cons

@[simp] theorem chainBytes_append (l l' : List Pbuf) :
    chainBytes (l ++ l') = chainBytes l ++ chainBytes l' := List.flatMap_append

theorem copyChain_some (totLen : ℕ) (buf : ℕ → Byte) (templen : ℕ) (l : List Pbuf)
    (hbuf : templen + (chainBytes l).length ≤ sendbufSize)
    (htot : templen + (chainBytes l).length ≤ totLen) :
    (copyChain totLen buf templen l).2 = some (templen + (chainBytes l).length) ∧
      readBytes (copyChain totLen buf templen l).1 0 (templen + (chainBytes l).length) =
        readBytes buf 0 templen ++ chainBytes l := by
  induction l generalizing buf templen with
  | nil => simp [copyChain]
  | cons q rest ih =>
    rw [chainBytes_cons, List.length_append] at hbuf htot
    have hpass : ¬ tooLong (templen + q.len) totLen = true := by
      simp only [tooLong, Bool.or_eq_true, decide_eq_true_eq]
      rw [Pbuf.len]
      omega
    obtain ⟨hlen, hread⟩ := ih (memcpy buf templen q.payload) (templen + q.len)
      (by rw [Pbuf.len]; omega) (by rw [Pbuf.len]; omega)
    simp only [copyChain, if_neg hpass, chainBytes_cons, List.length_append]
    rw [← Nat.add_assoc]
    refine ⟨hlen, hread.trans ?_⟩
    rw [Pbuf.len, readBytes_memcpy_zero, List.append_assoc]

theorem copyChain_none (totLen : ℕ) (buf : ℕ → Byte) (templen : ℕ) (l : List Pbuf)
    (hlong : min sendbufSize totLen < templen + (chainBytes l).length)
    (hnow : templen ≤ min sendbufSize totLen) : (copyChain totLen buf templen l).2 = none := by
  induction l generalizing buf templen with
  | nil =>
    simp only [chainBytes_nil, List.length_nil] at hlong
    omega
  | cons q rest ih =>
    simp only [copyChain]
    split_ifs with hcheck
    · rfl
    · simp only [tooLong, Bool.or_eq_true, decide_eq_true_eq, not_or, Nat.not_lt] at hcheck
      refine ih _ _ ?_ (by omega)
      rw [chainBytes_cons, List.length_append] at hlong
      rw [Pbuf.len]
      omega

/-- A chain whose segments add up is sent as it is if it fits the buffer, and refused if not. -/
theorem packetSend_spec (buf : ℕ → Byte) {p : Pbuf} {rest : List Pbuf}
    (hwf : p.totLen = (chainBytes (p :: rest)).length) :
    ((packetSend buf p rest).err = .ok ∧
        (packetSend buf p rest).frame = some (chainBytes (p :: rest))) ↔
      p.totLen ≤ sendbufSize := by
  constructor
  · rintro ⟨herr, -⟩
    by_contra hlong
    have hnone := copyChain_none p.totLen buf 0 (p :: rest) (by omega) (Nat.zero_le _)
    unfold packetSend at herr
    split at herr
    · exact absurd herr (by simp)
    · rename_i heq
      rw [heq] at hnone
      exact absurd hnone (by simp)
  · intro hfit
    obtain ⟨hlen, hread⟩ := copyChain_some p.totLen buf 0 (p :: rest) (by omega) (by omega)
    rw [Nat.zero_add, readBytes_zero, List.nil_append] at hread
    rw [Nat.zero_add] at hlen
    unfold packetSend
    split
    · rename_i heq
      rw [heq] at hlen
      exact absurd hlen (by simp)
    · rename_i b templen heq
      rw [heq] at hlen hread
      simp only [Option.some.injEq] at hlen
      rw [if_pos (hlen.trans hwf.symm)]
      exact ⟨rfl, by rw [hlen]; exact congrArg some hread⟩

/-! ## The copies -/

/-- The `memcpy`s of the copy loop: the index in `MySendbuf` and the bytes of each. -/
def chainCopies (totLen : ℕ) : ℕ → List Pbuf → List (ℕ × List Byte)
  | _, [] => []
  | templen, q :: rest =>
    (templen, q.payload) ::
      if tooLong (templen + q.len) totLen then [] else chainCopies totLen (templen + q.len) rest

theorem copyChain_eq_foldl (totLen : ℕ) (buf : ℕ → Byte) (templen : ℕ) (l : List Pbuf) :
    (copyChain totLen buf templen l).1 =
      (chainCopies totLen templen l).foldl (fun buf c => memcpy buf c.1 c.2) buf := by
  induction l generalizing buf templen with
  | nil => rfl
  | cons q rest ih =>
    simp only [copyChain, chainCopies, List.foldl_cons]
    split_ifs
    · rfl
    · exact ih _ _

/-- The loop from `templen` on stays in the buffer if the rest of the chain fits, or if a part of it that
fits is already longer than `tot_len`, where the loop ends. -/
theorem chainCopies_fit {totLen templen : ℕ} (l : List Pbuf) (hnow : templen ≤ min sendbufSize totLen) :
    (∀ c ∈ chainCopies totLen templen l, c.1 + c.2.length ≤ sendbufSize) ↔
      templen + (chainBytes l).length ≤ sendbufSize ∨ ∃ pre, pre <+: l ∧
        totLen < templen + (chainBytes pre).length ∧ templen + (chainBytes pre).length ≤ sendbufSize := by
  induction l generalizing templen with
  | nil =>
    refine ⟨fun _ => .inl ?_, fun _ c hc => nomatch hc⟩
    rw [chainBytes_nil, List.length_nil]
    omega
  | cons q rest ih =>
    have hpre : (∃ pre, pre <+: q :: rest ∧ totLen < templen + (chainBytes pre).length ∧
        templen + (chainBytes pre).length ≤ sendbufSize) ↔
      ∃ pre, pre <+: rest ∧ totLen < templen + q.len + (chainBytes pre).length ∧
        templen + q.len + (chainBytes pre).length ≤ sendbufSize := by
      constructor
      · rintro ⟨pre, hpre, hlt, hle⟩
        rcases List.prefix_cons_iff.mp hpre with rfl | ⟨t, rfl, ht⟩
        · -- what has been copied already has passed the check
          rw [chainBytes_nil, List.length_nil] at hlt
          omega
        · rw [chainBytes_cons, List.length_append] at hlt hle
          exact ⟨t, ht, by rw [Pbuf.len]; omega, by rw [Pbuf.len]; omega⟩
      · rintro ⟨pre, hpre, hlt, hle⟩
        refine ⟨q :: pre, List.prefix_cons_iff.mpr (.inr ⟨pre, rfl, hpre⟩), ?_, ?_⟩ <;>
          rw [chainBytes_cons, List.length_append, ← Nat.add_assoc]
        · exact hlt
        · exact hle
    rw [hpre, chainCopies, List.forall_mem_cons, chainBytes_cons, List.length_append, ← Nat.add_assoc]
    simp only [tooLong, Bool.or_eq_true, decide_eq_true_eq]
    split_ifs with hcheck
    · -- the check fails: this is the last copy
      refine ⟨fun h => ?_, fun h => ⟨?_, fun c hc => nomatch hc⟩⟩
      · have hfit : templen + q.len ≤ sendbufSize := h.1
        exact .inr ⟨[], List.nil_prefix, by simp; omega, by simpa using hfit⟩
      · show templen + q.len ≤ sendbufSize
        rw [Pbuf.len]
        rcases h with h | ⟨pre, -, -, h⟩
        · omega
        · rw [Pbuf.len] at h
          omega
    · rw [not_or, Nat.not_lt, Nat.not_lt] at hcheck
      rw [ih (le_min hcheck.1 hcheck.2)]
      exact and_iff_right hcheck.1

/-- Every `memcpy` of a call is inside `MySendbuf` exactly if the chain fits it, or if some of its first
segments fit and are longer than `tot_len` together. -/
theorem copies_fit_iff (p : Pbuf) (rest : List Pbuf) :
    (∀ c ∈ chainCopies p.totLen 0 (p :: rest), c.1 + c.2.length ≤ sendbufSize) ↔
      (chainBytes (p :: rest)).length ≤ sendbufSize ∨ ∃ pre, pre <+: p :: rest ∧
        p.totLen < (chainBytes pre).length ∧ (chainBytes pre).length ≤ sendbufSize := by
  have h := chainCopies_fit (p :: rest) (Nat.zero_le (min sendbufSize p.totLen))
  simpa only [Nat.zero_add] using h

/-! ## The array -/

/-- The copy loop on an array of `sendbufSize` bytes; `none` is a `memcpy` that ends behind it, after which
nothing is known. -/
def copyChainIn (totLen : ℕ) : (ℕ → Byte) → ℕ → List Pbuf → Option ((ℕ → Byte) × Option ℕ)
  | mySendbuf, templen, [] => some (mySendbuf, some templen)
  | mySendbuf, templen, q :: rest =>
    if sendbufSize < templen + q.len then none
    else
      let mySendbuf := memcpy mySendbuf templen q.payload
      let templen := templen + q.len
      if tooLong templen totLen then some (mySendbuf, none) else copyChainIn totLen mySendbuf templen rest

/-- `PacketSend` of the chain `p :: rest`, on that array. -/
def packetSendIn (mySendbuf : ℕ → Byte) (p : Pbuf) (rest : List Pbuf) : Option SendResult :=
  match copyChainIn p.totLen mySendbuf 0 (p :: rest) with
  | none => none
  | some (buf, none) => some ⟨.buf, buf, none⟩
  | some (buf, some templen) =>
    if templen = p.totLen then some ⟨.ok, buf, some (readBytes buf 0 templen)⟩ else some ⟨.buf, buf, none⟩

theorem copyChainIn_eq (totLen : ℕ) (buf : ℕ → Byte) (templen : ℕ) (l : List Pbuf) :
    copyChainIn totLen buf templen l =
      if ∀ c ∈ chainCopies totLen templen l, c.1 + c.2.length ≤ sendbufSize
      then some (copyChain totLen buf templen l) else none := by
  induction l generalizing buf templen with
  | nil => rfl
  | cons q rest ih =>
    simp only [copyChainIn, copyChain, chainCopies, List.forall_mem_cons]
    by_cases hfit : sendbufSize < templen + q.len
    · rw [if_pos hfit, if_neg fun h => absurd h.1 (Nat.not_le.mpr hfit)]
    · rw [if_neg hfit]
      have hhead : templen + q.payload.length ≤ sendbufSize := Nat.not_lt.mp hfit
      by_cases hcheck : tooLong (templen + q.len) totLen = true
      · rw [if_pos hcheck, if_pos hcheck, if_pos hcheck,
          if_pos ⟨hhead, fun c hc => absurd hc List.not_mem_nil⟩]
      · rw [if_neg hcheck, if_neg hcheck, if_neg hcheck, ih]
        exact if_congr (and_iff_right hhead).symm rfl rfl

theorem packetSendIn_eq (mySendbuf : ℕ → Byte) (p : Pbuf) (rest : List Pbuf) :
    packetSendIn mySendbuf p rest =
      if ∀ c ∈ chainCopies p.totLen 0 (p :: rest), c.1 + c.2.length ≤ sendbufSize
      then some (packetSend mySendbuf p rest) else none := by
  unfold packetSendIn packetSend
  rw [copyChainIn_eq]
  split_ifs
  · rcases copyChain p.totLen mySendbuf 0 (p :: rest) with ⟨buf, _ | templen⟩
    · rfl
    · exact (apply_ite some _ _ _).symm
  · rfl

/-- The headers and the data of a full TCP segment, in two pbufs. -/
def fullSegment : Pbuf × List Pbuf := (⟨List.replicate 54 0, 1514⟩, [⟨List.replicate 1460 0, 1460⟩])

/-- The second copy ends 14 bytes behind the buffer, and the chain is refused then. -/
theorem copies_overrun : fullSegment.1.totLen = (chainBytes (fullSegment.1 :: fullSegment.2)).length ∧
    ¬ (∀ c ∈ chainCopies fullSegment.1.totLen 0 (fullSegment.1 :: fullSegment.2),
      c.1 + c.2.length ≤ sendbufSize) ∧
    (packetSend (fun _ => 0) fullSegment.1 fullSegment.2).err = .buf := by
  have hlens : (chainCopies fullSegment.1.totLen 0 (fullSegment.1 :: fullSegment.2)).map
      (fun c => (c.1, c.2.length)) = [(0, 54), (54, 1460)] := by decide +kernel
  refine ⟨by decide +kernel, fun h => ?_, by decide +kernel⟩
  have hmem : (54, 1460) ∈ (chainCopies fullSegment.1.totLen 0 (fullSegment.1 :: fullSegment.2)).map
      (fun c => (c.1, c.2.length)) := by
    rw [hlens]
    decide
  obtain ⟨c, hc, heq⟩ := List.mem_map.mp hmem
  rw [Prod.mk.injEq] at heq
  have hle := h c hc
  rw [heq.1, heq.2, sendbufSize] at hle
  omega

end LoraGateway.Netif
