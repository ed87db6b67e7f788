import LoraGateway.Enc28j60.Ahead
import LoraGateway.Enc28j60.Receive

/-!
# The length of a packet

What `enc28j60PacketReceive` makes of the length and the status in the header of a packet, whatever the
chip gives for them. The length is an `unsigned int` when the 4 bytes of the CRC are subtracted, so one of
less than 4 bytes wraps round and is cut to `maxlen - 1` like a long one (`received_length_iff`).
-/

namespace LoraGateway.Enc28j60

open Lib Lib.Prog

variable {P R : World → Prop}

/-! ## The words of the header -/

/-- `readHeader` up to the subtraction: the length and the status as they are read. -/
def readWords : Drv (BitVec 32 × BitVec 32) := do
  let ptr ← Prog.look World.nextPacketPtr
  enc28j60WriteAll [(erdptl, ptr.setWidth 8), (erdpth, (ptr >>> 8).setWidth 8)]
  let next ← readBufWord
  Prog.update fun w => { w with nextPacketPtr := next }
  let len ← readBufWord
  let rxstat ← readBufWord
  pure (len, rxstat)

theorem readHeader_eq : readHeader = readWords >>= fun x => pure (x.1 - 4, x.2) := by
  simp only [readHeader, readWords, bind_assoc, pure_bind]

theorem halfword_readBufWord :
    Triple (fun _ => True) readBufWord (fun x _ => ∃ v : BitVec 16, x = v.setWidth 32) R := by
  refine (ahead_readOp ahead_true _ _).bind fun low => (ahead_readOp ahead_true _ _).bind fun high => ?_
  refine Triple.pure fun _ _ => ⟨high ++ low, ?_⟩
  apply BitVec.eq_of_getLsbD_eq
  intro i hi
  simp only [BitVec.getLsbD_or, BitVec.getLsbD_shiftLeft, BitVec.getLsbD_setWidth, BitVec.getLsbD_append]
  rcases Nat.lt_or_ge i 8 with hlt | hge
  · simp [hlt, hi]
  · simp [Nat.not_lt.mpr hge, hi, BitVec.getLsbD_of_ge low i hge, show i - 8 < 32 by omega]

theorem halfwords_readWords : Triple (fun _ => True) readWords
    (fun x _ => ∃ L S : BitVec 16, x = (L.setWidth 32, S.setWidth 32)) R := by
  refine Triple.bind (Q := fun _ _ => True) (Triple.look fun _ h => h) fun ptr => ?_
  refine (ahead_writeAll ahead_true _).bind fun _ => (ahead_readBufWord ahead_true).bind fun next => ?_
  refine (ahead_nextPacketPtr ahead_true next).bind fun _ => halfword_readBufWord.bind fun len => ?_
  refine Triple.exists_pre fun L => Triple.pre (P := fun _ => len = L.setWidth 32 ∧ True) ?_ fun _ h => ⟨h, trivial⟩
  refine Triple.assume fun hlen => halfword_readBufWord.bind fun rxstat => Triple.pure fun _ h => ?_
  obtain ⟨S, hS⟩ := h
  exact ⟨L, S, by rw [hlen, hS]⟩

/-! ## The data -/

theorem length_readLoop (n : ℕ) : Triple (fun _ => True) (readLoop n) (fun l _ => l.length = n) R := by
  induction n with
  | zero => exact Triple.pure fun _ _ => rfl
  | succ n ih =>
    refine (ahead_exchange ahead_true 0).bind fun x => ih.bind fun rest => Triple.pure fun _ h => ?_
    rw [List.length_cons, h]

theorem length_readBuffer (n : ℕ) :
    Triple (fun _ => True) (enc28j60ReadBuffer n) (fun l _ => l.length = n + 1) R := by
  refine (ahead_chip ahead_true _).bind fun _ => (ahead_exchange ahead_true _).bind fun _ => ?_
  refine (length_readLoop n).bind fun bytes => ?_
  refine Triple.pre (P := fun _ => bytes.length = n ∧ True) ?_ fun _ h => ⟨h, trivial⟩
  refine Triple.assume fun hlen => (ahead_chip ahead_true _).bind fun _ => Triple.pure fun _ _ => ?_
  rw [List.length_append, hlen, List.length_singleton]

theorem length_readData (len rxstat : BitVec 32) : Triple (fun _ => True) (readData len rxstat)
    (fun x _ => if rxstat &&& 0x80 = 0 then x = (0, []) else x.1 = len ∧ x.2.length = len.toNat + 1) R := by
  unfold readData
  split_ifs
  · exact Triple.pure fun _ _ => rfl
  · exact (length_readBuffer len.toNat).bind fun bytes => Triple.pure fun _ h => ⟨rfl, h⟩

/-! ## The call -/

/-- `len` as it is passed to `enc28j60ReadBuffer`. -/
def cutLength (L maxlen : BitVec 32) : BitVec 32 := if maxlen - 1 < L - 4 then maxlen - 1 else L - 4

/-- What a call makes of the words of the header. -/
def MadeOf (L S maxlen : BitVec 32) (r : Received) : Prop :=
  if S &&& 0x80 = 0 then r.len = 0 ∧ r.packet = []
  else r.len = cutLength L maxlen ∧ r.packet.length = (cutLength L maxlen).toNat + 1

theorem receive_madeOf {w w₁ w₂ : World} {count : Byte} {L S : BitVec 32} (maxlen : BitVec 32)
    (hcount : (enc28j60Read epktcnt).exec w = (some count, w₁)) (hne : count ≠ 0)
    (hwords : readWords.exec w₁ = (some (L, S), w₂)) :
    ∃ r w₃, (enc28j60PacketReceive maxlen).exec w = (some r, w₃) ∧ r.count = count ∧ MadeOf L S maxlen r := by
  have hheader : readHeader.exec w₁ = (some (L - 4, S), w₂) := by
    rw [readHeader_eq, exec_bind_some hwords, exec_pure]
  have hrest : Triple (fun _ => True) (do
      let x ← readData (cutLength L maxlen) S
      freePacket
      pure (⟨count, x.1, x.2⟩ : Received)) (fun r _ => r.count = count ∧ MadeOf L S maxlen r) fun _ => False := by
    refine (length_readData _ S).bind fun x => ?_
    refine Triple.pre (P := fun _ => (if S &&& 0x80 = 0 then x = (0, []) else
      x.1 = cutLength L maxlen ∧ x.2.length = (cutLength L maxlen).toNat + 1) ∧ True) ?_ fun _ h => ⟨h, trivial⟩
    refine Triple.assume fun hx => (ahead_freePacket ahead_true).bind fun _ => Triple.pure fun _ _ => ⟨rfl, ?_⟩
    unfold MadeOf
    split_ifs at hx ⊢
    · rw [hx]
      exact ⟨rfl, rfl⟩
    · exact hx
  obtain ⟨r, w₃, hexec, hr⟩ := hrest.total (s := w₂) trivial
  refine ⟨r, w₃, ?_, hr⟩
  rw [enc28j60PacketReceive, exec_bind_some hcount, if_neg hne, exec_bind_some hheader]
  exact hexec

/-- The length returned is that of the packet without the CRC, cut to `maxlen - 1`, or 0 for a bad status;
that many bytes are copied, and nothing is written outside `packet[0 .. maxlen - 1]`. -/
structure ProperLength (L S : BitVec 16) (maxlen : BitVec 32) (r : Received) : Prop where
  value : r.len.toNat = if S.getLsbD 7 then min (L.toNat - 4) (maxlen.toNat - 1) else 0
  copied : r.packet.dropLast.length = r.len.toNat
  inside : r.packet.length ≤ maxlen.toNat

/-- The length wraps round below 4, and is cut unless there is nothing to cut it to. -/
theorem cutLength_iff (L : BitVec 16) {maxlen : BitVec 32} (hmaxlen : 1 ≤ maxlen.toNat) :
    (cutLength (L.setWidth 32) maxlen).toNat < maxlen.toNat ∧
      ((cutLength (L.setWidth 32) maxlen).toNat = min (L.toNat - 4) (maxlen.toNat - 1) ↔
        4 ≤ L.toNat ∨ maxlen.toNat = 1) := by
  have hL := L.isLt
  have hmax := maxlen.isLt
  have hlast : (maxlen - 1).toNat = maxlen.toNat - 1 := BitVec.toNat_sub_of_le hmaxlen
  have hword : (L.setWidth 32).toNat = L.toNat := by
    rw [BitVec.toNat_setWidth, Nat.mod_eq_of_lt (by omega)]
  have hsub : (L.setWidth 32 - 4).toNat = (2 ^ 32 - 4 + L.toNat) % 2 ^ 32 := by
    rw [BitVec.toNat_sub, hword]
    rfl
  rw [cutLength]
  split_ifs with hcut <;> rw [BitVec.lt_def, hlast, hsub] at hcut
  · rw [hlast]
    omega
  · rw [hsub]
    omega

theorem properLength_iff {L S : BitVec 16} {maxlen : BitVec 32} {r : Received} (hmaxlen : 1 ≤ maxlen.toNat)
    (hr : MadeOf (L.setWidth 32) (S.setWidth 32) maxlen r) :
    ProperLength L S maxlen r ↔ S.getLsbD 7 = false ∨ 4 ≤ L.toNat ∨ maxlen.toNat = 1 := by
  obtain ⟨hlt, hcut⟩ := cutLength_iff L hmaxlen
  have hstatus := status_bit S
  rw [BitVec.ofNat_toNat] at hstatus
  unfold MadeOf at hr
  split_ifs at hr with hbit
  · rw [hstatus] at hbit
    refine iff_of_true ⟨?_, ?_, ?_⟩ (.inl hbit)
    · rw [hr.1, hbit]
      rfl
    · rw [hr.1, hr.2]
      rfl
    · rw [hr.2]
      exact Nat.zero_le _
  · rw [hstatus, Bool.not_eq_false] at hbit
    constructor
    · intro h
      have hvalue := h.value
      rw [hr.1, if_pos hbit, hcut] at hvalue
      exact .inr hvalue
    · intro h
      refine ⟨?_, ?_, ?_⟩
      · rw [hr.1, if_pos hbit, hcut]
        exact h.resolve_left fun hno => by
          rw [hbit] at hno
          exact Bool.noConfusion hno
      · rw [List.length_dropLast, hr.2, hr.1, Nat.add_sub_cancel]
      · rw [hr.2]
        exact hlt

/-- On a chip in any state, with the driver's variables in any state: a call that finds the packet counter
above 0 reads a length `L` and a status `S` and returns. Its length is the proper one exactly if the status
is bad, or `L` is at least 4, or `maxlen` is 1. -/
theorem received_length_iff (w : World) {maxlen : BitVec 32} (hmaxlen : 1 ≤ maxlen.toNat) :
    ∃ count w₁, (enc28j60Read epktcnt).exec w = (some count, w₁) ∧ (count ≠ 0 →
      ∃ (L S : BitVec 16) (w₂ : World) (r : Received) (w₃ : World),
        readWords.exec w₁ = (some (L.setWidth 32, S.setWidth 32), w₂) ∧
        (enc28j60PacketReceive maxlen).exec w = (some r, w₃) ∧
        (ProperLength L S maxlen r ↔ S.getLsbD 7 = false ∨ 4 ≤ L.toNat ∨ maxlen.toNat = 1)) := by
  obtain ⟨count, w₁, hcount, -⟩ := (ahead_read (R := fun _ => False) ahead_true epktcnt).total (s := w) trivial
  refine ⟨count, w₁, hcount, fun hne => ?_⟩
  obtain ⟨x, w₂, hwords, L, S, rfl⟩ := (halfwords_readWords (R := fun _ => False)).total (s := w₁) trivial
  obtain ⟨r, w₃, hexec, -, hr⟩ := receive_madeOf maxlen hcount hne hwords
  exact ⟨L, S, w₂, r, w₃, hwords, hexec, properLength_iff hmaxlen hr⟩

/-- A packet is counted whose header says 3 bytes and a good status. -/
def shortPacket : World :=
  { promptWorld fun _ => [] with
    chip :=
      { (promptWorld fun _ => []).chip with
        reg := fun r => if r = regOf econ2 then 0x80 else if r = regOf epktcnt then 1
          else if r = regOf erxndl then 0xFE else if r = regOf erxndh then 0x19 else 0
        mem := fun p => [14, 0, 3, 0, 0x80, 0].getD p 0 } }

theorem shortPacket_run : ((enc28j60Read epktcnt >>= fun count => readWords >>= fun x =>
    pure (count, x)).exec shortPacket).1 = some (1, 3, 0x0080) := by
  decide +kernel

theorem shortPacket_words : ∃ w₁ w₂, (enc28j60Read epktcnt).exec shortPacket = (some 1, w₁) ∧
    readWords.exec w₁ = (some (3, 0x0080), w₂) := by
  have hrun := shortPacket_run
  generalize shortPacket = w at hrun ⊢
  rcases hcount : (enc28j60Read epktcnt).exec w with ⟨_ | count, w₁⟩
  · rw [exec_bind, hcount] at hrun
    exact nomatch hrun
  · rw [exec_bind_some hcount] at hrun
    rcases hwords : readWords.exec w₁ with ⟨_ | x, w₂⟩
    · rw [exec_bind, hwords] at hrun
      exact nomatch hrun
    · rw [exec_bind_some hwords, exec_pure] at hrun
      obtain ⟨rfl, rfl⟩ := Prod.mk.inj (Option.some.inj hrun)
      exact ⟨w₁, w₂, rfl, hwords⟩

/-- Asked for one byte at most, the call returns 0 as it should. -/
theorem received_length_short : ∃ r w, (enc28j60PacketReceive 1).exec shortPacket = (some r, w) ∧
    r.len.toNat = 0 ∧ r.packet.length ≤ 1 := by
  obtain ⟨w₁, -, hcount₁, -⟩ := shortPacket_words
  obtain ⟨count, w₁', hcount, h⟩ :=
    received_length_iff shortPacket (show 1 ≤ (1 : BitVec 32).toNat by decide)
  rw [hcount₁, Prod.mk.injEq, Option.some.injEq] at hcount
  obtain ⟨L, S, -, r, w₃, -, hexec, hproper⟩ := h (by rw [← hcount.1]; decide)
  obtain ⟨hvalue, -, hinside⟩ := hproper.mpr (.inr (.inr rfl))
  refine ⟨r, w₃, hexec, ?_, hinside⟩
  rw [hvalue, show (1 : BitVec 32).toNat - 1 = 0 from rfl, Nat.min_zero, ite_self]

/-- Asked for up to 1500 bytes, it returns 1499. -/
theorem length_wraps : ∃ w₁ w₂ r w₃, (enc28j60Read epktcnt).exec shortPacket = (some 1, w₁) ∧
    readWords.exec w₁ = (some (3, 0x0080), w₂) ∧
    (enc28j60PacketReceive 1500).exec shortPacket = (some r, w₃) ∧
    r.len.toNat = 1499 ∧ ¬ ProperLength 3 0x0080 1500 r := by
  obtain ⟨w₁, w₂, hcount, hwords⟩ := shortPacket_words
  obtain ⟨r, w₃, hexec, -, hr⟩ := receive_madeOf 1500 hcount (by decide) hwords
  have hlen : r.len.toNat = 1499 := by
    rw [MadeOf, if_neg (by decide)] at hr
    rw [hr.1]
    rfl
  refine ⟨w₁, w₂, r, w₃, hcount, hwords, hexec, hlen, fun h => ?_⟩
  have hvalue := h.value
  rw [hlen] at hvalue
  exact absurd hvalue (by decide)

end LoraGateway.Enc28j60
