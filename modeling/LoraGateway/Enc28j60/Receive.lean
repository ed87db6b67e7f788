import LoraGateway.Enc28j60.RxRing
import LoraGateway.Enc28j60.Transmit

/-!
# Receiving over a run

`enc28j60PacketReceive` against the receive buffer. Between calls the frames taken so far are released and
counted down, and `NextPacketPtr` is the address behind them (`Waiting`). A call that finds the packet
counter at 0 leaves it there; any other takes the frame behind those taken, whatever arrives while it
reads (`triple_receive`), so the packets taken in a run are the frames stored, in order
(`receives_in_order`).
-/

namespace LoraGateway.Enc28j60

open Lib Lib.Prog

variable {c : Chip} {w : World} {r : Reg} {v address data : Byte} {k j : ℕ} {f : RxFrame}
  {R : World → Prop}

/-! ## Words -/

theorem wordOf_bytes {n : ℕ} (hn : n < 2 ^ 16) :
    wordOf (BitVec.ofNat 8 n) (BitVec.ofNat 8 (n / 256)) = BitVec.ofNat 32 n := by
  apply BitVec.eq_of_toNat_eq
  have hlow : n % 256 < 2 ^ 8 := Nat.mod_lt _ (by decide)
  simp only [wordOf, BitVec.toNat_or, BitVec.toNat_shiftLeft, BitVec.toNat_setWidth, BitVec.toNat_ofNat]
  have hshift : (n / 256 % 2 ^ 8 % 2 ^ 32) <<< 8 % 2 ^ 32 = (n / 256) <<< 8 := by
    rw [Nat.shiftLeft_eq, Nat.shiftLeft_eq]
    omega
  rw [show n % 2 ^ 8 % 2 ^ 32 = n % 256 by omega, hshift, Nat.or_comm,
    ← Nat.shiftLeft_add_eq_or_of_lt hlow, Nat.shiftLeft_eq]
  omega

theorem lowByte_word {n : ℕ} : (BitVec.ofNat 32 n).setWidth 8 = BitVec.ofNat 8 n := by
  apply BitVec.eq_of_toNat_eq
  simp only [BitVec.toNat_setWidth, BitVec.toNat_ofNat]
  omega

theorem highByte_word {n : ℕ} (hn : n < 2 ^ 32) :
    (BitVec.ofNat 32 n >>> 8).setWidth 8 = BitVec.ofNat 8 (n / 256) := by
  apply BitVec.eq_of_toNat_eq
  simp only [BitVec.toNat_setWidth, BitVec.toNat_ushiftRight, BitVec.toNat_ofNat,
    Nat.shiftRight_eq_div_pow]
  rw [Nat.mod_eq_of_lt hn]

/-! ## Writes -/

theorem store_eq_set (h : r ∉ readOnlyRegs ++
    [econ1, econ2, erxrdpth, erxstl, erxsth, erxndl, erxndh, miwrh].map regOf) :
    c.store r v = c.set r v := by
  have hne : ∀ a ∈ [econ1, econ2, erxrdpth, erxstl, erxsth, erxndl, erxndh, miwrh], r ≠ regOf a :=
    fun a ha heq => h (List.mem_append_right _ (heq ▸ List.mem_map_of_mem ha))
  rw [Chip.store, if_neg fun hro => h (List.mem_append_left _ hro), if_neg (hne _ (by decide)),
    if_neg (hne _ (by decide)), if_neg (hne _ (by decide)), if_neg fun hmem => ?_,
    if_neg (hne _ (by decide))]
  obtain ⟨a, ha, heq⟩ := List.mem_map.mp hmem
  exact hne a (List.mem_append_right [econ1, econ2, erxrdpth] (List.mem_append_left [miwrh] ha)) heq.symm

theorem issue_write_chip (hw : Banked address w) : (w.issue (.write address data)).chip =
    (w.chip.store (regOf address) data).reach (w.chip.reached ++ [regOf address]) := by
  show (w.chip.store (w.chip.target address) data).reach (w.chip.reached ++ [w.chip.target address]) = _
  rw [target_eq hw.bsel]

theorem store_stored (c : Chip) (r : Reg) (v : Byte) : (c.store r v).stored = c.stored := by
  simp only [Chip.store, Chip.storeEcon1, Chip.storeEcon2]
  split_ifs <;> rfl

theorem issue_write_stored (hw : Banked address w) :
    (w.issue (.write address data)).chip.stored = w.chip.stored := by
  rw [issue_write_chip hw]
  exact store_stored ..

theorem store_reg_self (hro : r ∉ readOnlyRegs) (hecon2 : r ≠ regOf econ2) :
    (c.store r v).reg r = v := by
  have hptr : ∀ a ∈ [erxwrptl, erxwrpth, mistat], r ≠ regOf a := fun a ha heq =>
    hro (heq ▸ List.mem_map_of_mem (List.mem_cons_of_mem _
      ((show [erxwrptl, erxwrpth, mistat] ⊆ [erxwrptl, erxwrpth, erevid, mistat, mirdl, mirdh] by
        decide) ha)))
  simp only [Chip.store, if_neg hro, if_neg hecon2]
  split_ifs with hecon1
  · subst hecon1
    exact Chip.set_reg_self c (regOf econ1) v
  · exact Chip.set_reg_self c r v
  · rw [setPtr_reg (hptr _ (by decide)) (hptr _ (by decide)), Chip.set_reg_self]
  · exact (Chip.set_reg_of_ne (hptr _ (by decide)) (c.set r v) _).trans (Chip.set_reg_self c r v)
  · exact Chip.set_reg_self c r v

theorem issue_write_self (hw : Banked address w) (hro : regOf address ∉ readOnlyRegs)
    (hecon2 : regOf address ≠ regOf econ2) :
    (w.issue (.write address data)).chip.reg (regOf address) = data := by
  rw [issue_write_chip hw]
  exact store_reg_self hro hecon2

theorem issue_write_of_ne (hw : Banked address w) (hne : r ≠ regOf address)
    (hr : r ∉ echoes (regOf address)) :
    (w.issue (.write address data)).chip.reg r = w.chip.reg r := by
  rw [issue_write_chip hw]
  exact store_reg_of_ne hne hr

theorem Chip.RxRing.reach (h : c.RxRing k j) (l : List Reg) : (c.reach l).RxRing k j :=
  h.congr (fun _ _ => rfl) rfl h.apart (fun _ _ => rfl) rfl rfl rfl

theorem Chip.RxRing.write (h : w.chip.RxRing k j) (hw : Banked address w)
    (hplain : regOf address ∉ readOnlyRegs ++
      [econ1, econ2, erxrdpth, erxstl, erxsth, erxndl, erxndh, miwrh].map regOf)
    (hr : regOf address ∉ ringRegs ++ [econ1, etxndl, etxndh].map regOf) :
    (w.issue (.write address data)).chip.RxRing k j := by
  rw [issue_write_chip hw, store_eq_set hplain]
  exact (h.set hr).reach _

theorem keeps_writePair {P P₁ P₂ : World → Prop} {a b x y : Byte} (hP : Steady P) (hP₁ : Steady P₁)
    (ha : KeepsBank a x) (hb : KeepsBank b y)
    (h₁ : ∀ w, Banked a w → P w → P₁ (w.issue (.write a x)))
    (h₂ : ∀ w, Banked b w → P₁ w → P₂ (w.issue (.write b y))) :
    Triple (Between P) (enc28j60WriteAll [(a, x), (b, y)]) (fun _ => Between P₂) R := by
  have hfirst : Triple (Between P) (enc28j60Write a x) (fun _ => Between P₁) R :=
    triple_enc28j60Write hP fun w hw h => ⟨(hw.write ha).synced, h₁ w hw h⟩
  have hsecond : Triple (Between P₁) (enc28j60Write b y) (fun _ => Between P₂) R :=
    triple_enc28j60Write hP₁ fun w hw h => ⟨(hw.write hb).synced, h₂ w hw h⟩
  exact hfirst.bind fun _ => hsecond.bind fun _ => Triple.pure fun _ h => h

/-! ## What stays as it is -/

theorem steady_ring (k j : ℕ) : Steady fun w => w.chip.RxRing k j where
  hear w := hear_rel (R := fun c c' => c.RxRing k j → c'.RxRing k j) (fun _ h => h)
    (fun _ _ _ h h' hc => h' (h hc)) (fun _ e h => h.event e) w
  rebank w v s l b issued hv h := by
    have hrxen : v.getLsbD 2 = w.chip.rxen := by
      simpa [Chip.rxen] using congrArg (fun x => BitVec.getLsbD x 2) hv
    have htxrts : v.getLsbD 3 = w.chip.txrts := by
      simpa [Chip.txrts] using congrArg (fun x => BitVec.getLsbD x 3) hv
    have hset : (w.chip.set (regOf econ1) v).RxRing k j :=
      h.set_econ1 (hrxen.trans h.rxen) fun htx => h.apart (htxrts.symm.trans htx)
    exact hset.congr (fun _ _ => rfl) rfl hset.apart (fun _ _ => rfl) rfl rfl rfl

theorem steady_stored (l : List RxFrame) : Steady fun w => l <+: w.chip.stored where
  hear w := hear_rel (R := fun c c' => l <+: c.stored → l <+: c'.stored) (fun _ h => h)
    (fun _ _ _ h h' hc => h' (h hc)) (fun c e h => h.trans (event_stored c e)) w
  rebank _ _ _ _ _ _ _ h := h

theorem steady_nextPacketPtr (p : BitVec 32) : Steady fun w => w.nextPacketPtr = p where
  hear _ h := h
  rebank _ _ _ _ _ _ _ h := h

theorem steady_own (hr : r ∉ eventRegs) (x : Byte) : Steady fun w => w.chip.reg r = x where
  hear w := hear_rel (R := fun c c' => c.reg r = x → c'.reg r = x) (fun _ h => h)
    (fun _ _ _ h h' hc => h' (h hc)) (fun c e h => (event_reg hr c e).trans h) w
  rebank w v s l b issued _ h := by
    have hne : r ≠ regOf econ1 := fun heq => hr (heq ▸ by decide)
    exact (Chip.set_reg_of_ne hne w.chip v).trans h

theorem steady_erdpt (p : ℕ) : Steady fun w => w.chip.erdpt = p where
  hear w := hear_rel (R := fun c c' => c.erdpt = p → c'.erdpt = p) (fun _ h => h)
    (fun _ _ _ h h' hc => h' (h hc))
    (fun c e h => (ptr_congr (event_reg (by decide) c e) (event_reg (by decide) c e)).trans h) w
  rebank w v s l b issued _ h := by
    have hptr : (w.chip.set (regOf econ1) v).erdpt = w.chip.erdpt :=
      ptr_congr (Chip.set_reg_of_ne (by decide) ..) (Chip.set_reg_of_ne (by decide) ..)
    exact hptr.trans h

/-! ## The call -/

/-- What a call returns of a frame, and stores from `packet` on: its data without the CRC, cut to one
byte less than `maxlen`, if it was received without errors. -/
def RxFrame.received (f : RxFrame) (maxlen : BitVec 32) : BitVec 32 × List Byte :=
  if f.status.getLsbD 7 then
    let len := min (f.data.length - 4) (maxlen - 1).toNat
    (BitVec.ofNat 32 len, f.data.take len ++ [0])
  else (0, [])

/-- The frames `seen` have been taken, and the next packet is the one behind them. -/
def Waiting (seen : List RxFrame) (w : World) : Prop :=
  w.chip.RxRing seen.length seen.length ∧ seen <+: w.chip.stored ∧
    w.nextPacketPtr = BitVec.ofNat 32 (framesSize seen % rxSize)

/-- The frame behind them is being taken; `NextPacketPtr` is `p`. -/
def Taking (seen : List RxFrame) (f : RxFrame) (p : BitVec 32) (w : World) : Prop :=
  w.chip.RxRing seen.length seen.length ∧ seen ++ [f] <+: w.chip.stored ∧ w.nextPacketPtr = p

/-- The next byte read is byte `i` of the frame. -/
def TakingAt (seen : List RxFrame) (f : RxFrame) (p : BitVec 32) (i : ℕ) (w : World) : Prop :=
  Taking seen f p w ∧ w.chip.erdpt = (framesSize seen + i) % rxSize

/-- The frame is released, and not counted down yet. -/
def Releasing (seen : List RxFrame) (f : RxFrame) (p : BitVec 32) (w : World) : Prop :=
  w.chip.RxRing seen.length (seen.length + 1) ∧ seen ++ [f] <+: w.chip.stored ∧ w.nextPacketPtr = p

variable {seen : List RxFrame} {p : BitVec 32} {i : ℕ}

theorem steady_waiting (seen : List RxFrame) : Steady (Waiting seen) :=
  (steady_ring _ _).and ((steady_stored _).and (steady_nextPacketPtr _))

theorem steady_taking (seen : List RxFrame) (f : RxFrame) (p : BitVec 32) : Steady (Taking seen f p) :=
  (steady_ring _ _).and ((steady_stored _).and (steady_nextPacketPtr _))

theorem steady_takingAt (seen : List RxFrame) (f : RxFrame) (p : BitVec 32) (i : ℕ) :
    Steady (TakingAt seen f p i) :=
  (steady_taking seen f p).and (steady_erdpt _)

theorem steady_releasing (seen : List RxFrame) (f : RxFrame) (p : BitVec 32) :
    Steady (Releasing seen f p) :=
  (steady_ring _ _).and ((steady_stored _).and (steady_nextPacketPtr _))

theorem take_seen {l : List RxFrame} (h : seen ++ [f] <+: l) : l.take seen.length = seen := by
  obtain ⟨t, rfl⟩ := h
  rw [List.append_assoc, List.take_left]

theorem getElem?_seen {l : List RxFrame} (h : seen ++ [f] <+: l) : l[seen.length]? = some f := by
  obtain ⟨t, rfl⟩ := h
  simp

theorem take_seen_succ {l : List RxFrame} (h : seen ++ [f] <+: l) :
    l.take (seen.length + 1) = seen ++ [f] := by
  rw [List.take_add_one, take_seen h, getElem?_seen h]
  rfl

/-- The address of the packet behind the frame. -/
def nextAddress (seen : List RxFrame) (f : RxFrame) : ℕ := framesSize (seen ++ [f]) % rxSize

theorem nextAddress_lt (seen : List RxFrame) (f : RxFrame) : nextAddress seen f < rxSize := Nat.mod_lt _ (by decide)

theorem TakingAt.byte (h : TakingAt seen f p i w) (hi : i < f.size) :
    w.chip.fetch.1 = (f.bytes (nextAddress seen f)).getD i 0 := by
  rw [h.1.1.fetch_byte (getElem?_seen h.1.2.1) hi (by rw [take_seen h.1.2.1]; exact h.2),
    take_seen_succ h.1.2.1]
  rfl

theorem fetch_stored (c : Chip) : c.fetch.2.stored = c.stored := by
  rw [Chip.fetch]
  split_ifs <;> rfl

theorem TakingAt.fetched (h : TakingAt seen f p i w) : TakingAt seen f p (i + 1) w.fetched := by
  refine ⟨⟨h.1.1.fetch, ?_, h.1.2.2⟩, ?_⟩
  · show seen ++ [f] <+: w.chip.fetch.2.stored
    rw [fetch_stored]
    exact h.1.2.1
  · show w.chip.fetch.2.erdpt = _
    rw [h.1.1.fetch_erdpt h.2, Nat.add_assoc]

theorem takingAt_word (hi : i + 1 < f.size) :
    Triple (Between (TakingAt seen f p i)) readBufWord (fun x => Between fun w =>
      x = wordOf ((f.bytes (nextAddress seen f)).getD i 0) ((f.bytes (nextAddress seen f)).getD (i + 1) 0) ∧
        TakingAt seen f p (i + 2) w) R := by
  refine keeps_readBufWord
    (T := fun x w => x = (f.bytes (nextAddress seen f)).getD i 0 ∧ TakingAt seen f p (i + 1) w)
    (U := fun x w => x = wordOf ((f.bytes (nextAddress seen f)).getD i 0)
      ((f.bytes (nextAddress seen f)).getD (i + 1) 0) ∧ TakingAt seen f p (i + 2) w)
    (steady_takingAt seen f p i).hear (fun x w h => ⟨h.1, (steady_takingAt seen f p _).hear w h.2⟩)
    (fun w _ h => ⟨h.byte (by omega), h.fetched⟩) fun x w _ h => ⟨?_, h.2.fetched⟩
  rw [h.1, h.2.byte hi]

theorem taking_erdpt {a : ℕ} (ha : a = framesSize seen % rxSize) :
    Triple (Between (Taking seen f p)) (enc28j60WriteAll
        [(erdptl, (BitVec.ofNat 32 a).setWidth 8), (erdpth, (BitVec.ofNat 32 a >>> 8).setWidth 8)])
      (fun _ => Between (TakingAt seen f p 0)) R := by
  have hlt : a < rxSize := ha ▸ Nat.mod_lt _ (by decide)
  have hlt' : a < 0x2000 := hlt.trans (by decide)
  rw [lowByte_word, highByte_word (by omega)]
  have hlow : Steady fun w => Taking seen f p w ∧ w.chip.reg (regOf erdptl) = BitVec.ofNat 8 a :=
    (steady_taking seen f p).and (steady_own (by decide) _)
  refine keeps_writePair (steady_taking seen f p) hlow (keepsBank_of_ne (by decide))
    (keepsBank_of_ne (by decide)) (fun w hw h => ?_) fun w hw h => ?_
  · refine ⟨⟨h.1.write hw (by decide) (by decide), ?_, h.2.2⟩, ?_⟩
    · rw [issue_write_stored hw]
      exact h.2.1
    · exact issue_write_self hw (by decide) (by decide)
  · refine ⟨⟨h.1.1.write hw (by decide) (by decide), ?_, h.1.2.2⟩, ?_⟩
    · rw [issue_write_stored hw]
      exact h.1.2.1
    · rw [Nat.add_zero, ← ha]
      exact ptr_eq ((issue_write_of_ne hw (by decide) (by decide)).trans h.2)
        (issue_write_self hw (by decide) (by decide)) hlt'

theorem header_words (f : RxFrame) {next : ℕ} (hnext : next < rxSize) :
    wordOf ((f.bytes next).getD 0 0) ((f.bytes next).getD 1 0) = BitVec.ofNat 32 next ∧
      wordOf ((f.bytes next).getD 2 0) ((f.bytes next).getD 3 0) = BitVec.ofNat 32 f.data.length ∧
      wordOf ((f.bytes next).getD 4 0) ((f.bytes next).getD 5 0) = BitVec.ofNat 32 f.status.toNat :=
  ⟨wordOf_bytes (hnext.trans (by decide)), wordOf_bytes f.lt, wordOf_bytes f.status.isLt⟩

theorem data_byte (f : RxFrame) (next : ℕ) {m : ℕ} (hm : m < f.data.length) :
    (f.bytes next).getD (6 + m) 0 = f.data[m] := by
  have hheader : (le16 next ++ le16 f.data.length ++ le16 f.status.toNat).length = 6 := rfl
  rw [RxFrame.bytes, List.append_assoc, List.getD_eq_getElem?_getD,
    List.getElem?_append_right (by rw [hheader]; omega), hheader, Nat.add_sub_cancel_left,
    List.getElem?_append_left hm, List.getElem?_eq_getElem hm, Option.getD_some]

theorem taking_header (seen : List RxFrame) (f : RxFrame) :
    Triple (Between (Taking seen f (BitVec.ofNat 32 (framesSize seen % rxSize)))) readHeader
      (fun x => Between fun w =>
        x = (BitVec.ofNat 32 f.data.length - 4, BitVec.ofNat 32 f.status.toNat) ∧
          TakingAt seen f (BitVec.ofNat 32 (nextAddress seen f)) 6 w) R := by
  obtain ⟨hnext, hlen, hstatus⟩ := header_words f (nextAddress_lt seen f)
  have hsize : 6 ≤ f.size := by
    rw [RxFrame.size]
    omega
  refine Triple.bind (Q := fun ptr w => ptr = BitVec.ofNat 32 (framesSize seen % rxSize) ∧
      Between (Taking seen f (BitVec.ofNat 32 (framesSize seen % rxSize))) w)
    (Triple.look fun w h => ⟨h.2.2.2, h⟩) fun ptr => Triple.assume fun hptr => ?_
  subst hptr
  refine (taking_erdpt rfl).bind fun _ => (takingAt_word (by omega)).bind fun x => ?_
  -- the pointer is kept before the rest of the header is read
  have hkeep : Triple (Between fun w => x = wordOf ((f.bytes (nextAddress seen f)).getD 0 0)
        ((f.bytes (nextAddress seen f)).getD 1 0) ∧
        TakingAt seen f (BitVec.ofNat 32 (framesSize seen % rxSize)) 2 w)
      (Prog.update fun w : World => { w with nextPacketPtr := x })
      (fun _ => Between (TakingAt seen f (BitVec.ofNat 32 (nextAddress seen f)) 2)) R :=
    Triple.update fun w h => ⟨⟨⟨h.1.linked.idle, h.1.linked.reached, h.1.linked.agree⟩, h.1.bank⟩,
      ⟨h.2.2.1.1, h.2.2.1.2.1, h.2.1.trans hnext⟩, h.2.2.2⟩
  refine hkeep.bind fun _ => (takingAt_word (by omega)).bind fun len => ?_
  refine Triple.bind (Q := fun status => Between fun w => (len = BitVec.ofNat 32 f.data.length ∧
      status = BitVec.ofNat 32 f.status.toNat) ∧
      TakingAt seen f (BitVec.ofNat 32 (nextAddress seen f)) 6 w) ?_ fun status =>
    Triple.pure fun w h => ⟨h.1, by rw [h.2.1.1, h.2.1.2], h.2.2⟩
  have hword : len = BitVec.ofNat 32 f.data.length →
      Triple (Between (TakingAt seen f (BitVec.ofNat 32 (nextAddress seen f)) 4)) readBufWord
        (fun status => Between fun w => (len = BitVec.ofNat 32 f.data.length ∧
          status = BitVec.ofNat 32 f.status.toNat) ∧
          TakingAt seen f (BitVec.ofNat 32 (nextAddress seen f)) 6 w) R := fun heq =>
    (takingAt_word (by omega)).post fun status w h => ⟨h.1, ⟨heq, h.2.1.trans hstatus⟩, h.2.2⟩
  exact (Triple.assume hword).pre fun w h => ⟨h.2.1.trans hlen, h.1, h.2.2⟩

theorem taking_buffer {n : ℕ} (hn : n ≤ f.data.length) :
    Triple (Between (TakingAt seen f p 6)) (enc28j60ReadBuffer n)
      (fun x => Between fun w => x = f.data.take n ++ [0] ∧ Taking seen f p w) R := by
  let J : List Byte → World → Prop := fun l w => TakingAt seen f p (6 + l.length) w ∧
    (l.length ≤ f.data.length → l = f.data.take l.length)
  have hread : Triple (Between (J [])) (enc28j60ReadBuffer n)
      (fun x w => ∃ bytes, x = bytes ++ [0] ∧ bytes.length = n ∧ Between (J bytes) w) R := by
    refine keeps_readBuffer (J := J) (fun l w h => ⟨(steady_takingAt ..).hear w h.1, h.2⟩)
      (fun l w _ h => ?_) n
    have hlen : (l ++ [w.chip.fetch.1]).length = l.length + 1 := by simp
    refine ⟨?_, fun hle => ?_⟩
    · rw [hlen, ← Nat.add_assoc]
      exact h.1.fetched
    · rw [hlen] at hle ⊢
      have hsize : 6 + l.length < f.size := by
        rw [RxFrame.size]
        omega
      rw [h.1.byte hsize, data_byte f _ hle, List.take_add_one, List.getElem?_eq_getElem hle,
        ← h.2 (by omega)]
      rfl
  refine (hread.pre fun w h => ⟨h.1, h.2, fun _ => rfl⟩).post fun x w hx => ?_
  obtain ⟨bytes, rfl, hlen, hw⟩ := hx
  refine ⟨hw.1, ?_, hw.2.1.1⟩
  have hbytes := hw.2.2 (hlen.symm ▸ hn)
  rw [hlen] at hbytes
  rw [hbytes]

/-- The length read for the packet: 4 bytes less than it is stored with, at most `maxlen - 1`. -/
theorem cut_length (f : RxFrame) (maxlen : BitVec 32) :
    (if maxlen - 1 < BitVec.ofNat 32 f.data.length - 4 then maxlen - 1
      else BitVec.ofNat 32 f.data.length - 4) =
      BitVec.ofNat 32 (min (f.data.length - 4) (maxlen - 1).toNat) := by
  have hle := f.four_le
  have hlt := f.lt
  have hsub : (BitVec.ofNat 32 f.data.length - 4).toNat = f.data.length - 4 := by
    rw [BitVec.toNat_sub, BitVec.toNat_ofNat, show (4 : BitVec 32).toNat = 4 from rfl]
    omega
  apply BitVec.eq_of_toNat_eq
  have hlt' := (maxlen - 1).isLt
  rw [BitVec.toNat_ofNat, Nat.mod_eq_of_lt (by omega)]
  split_ifs with hcut
  · rw [BitVec.lt_def, hsub] at hcut
    omega
  · rw [BitVec.lt_def, hsub] at hcut
    rw [hsub]
    omega

theorem status_bit (x : BitVec 16) : BitVec.ofNat 32 x.toNat &&& 0x80 = 0 ↔ x.getLsbD 7 = false := by
  have hbit : (BitVec.ofNat 32 x.toNat).getLsbD 7 = x.getLsbD 7 := by
    simp
  rw [show (0x80 : BitVec 32) = BitVec.twoPow 32 7 from rfl, BitVec.and_twoPow, hbit]
  cases x.getLsbD 7 <;> decide

theorem taking_data (maxlen : BitVec 32) :
    Triple (Between (TakingAt seen f p 6)) (readData
        (BitVec.ofNat 32 (min (f.data.length - 4) (maxlen - 1).toNat)) (BitVec.ofNat 32 f.status.toNat))
      (fun x => Between fun w => x = f.received maxlen ∧ Taking seen f p w) R := by
  have hle := f.four_le
  have hlt := f.lt
  rw [readData, RxFrame.received]
  by_cases hbit : f.status.getLsbD 7 = true
  · have hset : ¬ BitVec.ofNat 32 f.status.toNat &&& 0x80 = 0 := by
      rw [status_bit, hbit]
      exact Bool.noConfusion
    rw [if_neg hset, if_pos hbit, BitVec.toNat_ofNat, Nat.mod_eq_of_lt (by omega)]
    refine (taking_buffer (by omega)).bind fun bytes => Triple.pure fun w h => ⟨h.1, ?_, h.2.2⟩
    rw [h.2.1]
  · rw [if_pos ((status_bit _).mpr (Bool.eq_false_iff.mpr hbit)), if_neg hbit]
    exact Triple.pure fun w h => ⟨h.1, rfl, h.2.1⟩

theorem taking_release : Triple (Between (Taking seen f (BitVec.ofNat 32 (nextAddress seen f))))
    (enc28j60WriteAll [(erxrdptl, (BitVec.ofNat 32 (nextAddress seen f)).setWidth 8),
      (erxrdpth, (BitVec.ofNat 32 (nextAddress seen f) >>> 8).setWidth 8)])
    (fun _ => Between (Releasing seen f (BitVec.ofNat 32 (nextAddress seen f)))) R := by
  have hlt : nextAddress seen f < 0x2000 := (nextAddress_lt seen f).trans (by decide)
  rw [lowByte_word, highByte_word (by omega)]
  have hlow : Steady fun w => Taking seen f (BitVec.ofNat 32 (nextAddress seen f)) w ∧
      w.chip.reg (regOf erxrdptl) = BitVec.ofNat 8 (nextAddress seen f) :=
    (steady_taking ..).and (steady_own (by decide) _)
  refine keeps_writePair (steady_taking ..) hlow (keepsBank_of_ne (by decide))
    (keepsBank_of_ne (by decide)) (fun w hw h => ?_) fun w hw h => ?_
  · refine ⟨⟨h.1.write hw (by decide) (by decide), ?_, h.2.2⟩, ?_⟩
    · rw [issue_write_stored hw]
      exact h.2.1
    · exact issue_write_self hw (by decide) (by decide)
  · refine ⟨?_, ?_, h.1.2.2⟩
    · have hlatch : w.chip.store (regOf erxrdpth) (BitVec.ofNat 8 (nextAddress seen f / 256)) =
          { w.chip.set (regOf erxrdpth) (BitVec.ofNat 8 (nextAddress seen f / 256)) with
            rxRdPt := nextAddress seen f } := by
        have hptr : (w.chip.set (regOf erxrdpth) (BitVec.ofNat 8 (nextAddress seen f / 256))).ptr
            erxrdptl erxrdpth = nextAddress seen f :=
          ptr_eq ((Chip.set_reg_of_ne (by decide) w.chip _).trans h.2) (Chip.set_reg_self w.chip _ _) hlt
        rw [Chip.store, if_neg (by decide), if_neg (by decide), if_neg (by decide), if_pos rfl]
        simp only [hptr]
      have hset : (w.chip.set (regOf erxrdpth)
          (BitVec.ofNat 8 (nextAddress seen f / 256))).RxRing seen.length seen.length :=
        h.1.1.set (by decide)
      rw [issue_write_chip hw, hlatch]
      exact (hset.release (getElem?_seen h.1.2.1) (by rw [nextAddress, ← take_seen_succ h.1.2.1]; rfl)).reach _
    · rw [issue_write_stored hw]
      exact h.1.2.1

theorem releasing_countDown :
    Triple (Between (Releasing seen f (BitVec.ofNat 32 (nextAddress seen f))))
      (enc28j60WriteOp bitFieldSet econ2 0x40) (fun _ => Between (Waiting (seen ++ [f]))) R := by
  refine keeps_set (steady_releasing ..).hear (by decide) (by decide) fun w _ h => ?_
  have hlen : seen.length < w.chip.stored.length :=
    (List.getElem?_eq_some_iff.mp (getElem?_seen h.2.1)).1
  have hchip : (w.issue (.set econ2 0x40)).chip =
      (w.chip.storeEcon2 (w.chip.get econ2 ||| 0x40)).reach (w.chip.reached ++ [regOf econ2]) := by
    show (w.chip.bitSet (w.chip.target econ2) 0x40).reach (w.chip.reached ++ [w.chip.target econ2]) = _
    rw [target_shared (by decide), Chip.bitSet, if_neg (by decide), Chip.store, if_neg (by decide),
      if_neg (by decide), if_pos rfl]
    rfl
  refine ⟨?_, ?_, h.2.2⟩
  · rw [hchip, List.length_append, List.length_singleton]
    exact (h.1.countDown hlen).reach _
  · rw [hchip]
    exact h.2.1

theorem taking_free : Triple (Between (Taking seen f (BitVec.ofNat 32 (nextAddress seen f))))
    freePacket (fun _ => Between (Waiting (seen ++ [f]))) R := by
  refine Triple.bind (Q := fun ptr w => ptr = BitVec.ofNat 32 (nextAddress seen f) ∧
      Between (Taking seen f (BitVec.ofNat 32 (nextAddress seen f))) w)
    (Triple.look fun w h => ⟨h.2.2.2, h⟩) fun ptr => Triple.assume fun hptr => ?_
  subst hptr
  exact taking_release.bind fun _ => releasing_countDown

theorem Waiting.taking (h : Waiting seen w) (hcount : w.chip.get epktcnt ≠ 0) :
    ∃ f, Taking seen f (BitVec.ofNat 32 (framesSize seen % rxSize)) w := by
  obtain ⟨t, ht⟩ := h.2.1
  have hlen := h.1.count
  rw [← ht, List.length_append] at hlen
  cases t with
  | nil =>
    refine absurd (BitVec.eq_of_toNat_eq ?_) hcount
    rw [List.length_nil] at hlen
    rw [show (0 : Byte).toNat = 0 from rfl]
    omega
  | cons f t => exact ⟨f, h.1, ⟨t, by rw [← ht]; simp⟩, h.2.2⟩

theorem taking_packet (maxlen : BitVec 32) (count : Byte) :
    Triple (Between (Taking seen f (BitVec.ofNat 32 (framesSize seen % rxSize))))
      (do
        let (len, rxstat) ← readHeader
        let (len, packet) ← readData (if maxlen - 1 < len then maxlen - 1 else len) rxstat
        freePacket
        pure (⟨count, len, packet⟩ : Received))
      (fun r w => r.count = count ∧ (r.len, r.packet) = f.received maxlen ∧
        Between (Waiting (seen ++ [f])) w) R := by
  refine (taking_header seen f).bind fun x => ?_
  refine Triple.pre (P := fun w => x = (BitVec.ofNat 32 f.data.length - 4, BitVec.ofNat 32 f.status.toNat) ∧
    Between (TakingAt seen f (BitVec.ofNat 32 (nextAddress seen f)) 6) w) ?_
    fun w h => ⟨h.2.1, h.1, h.2.2⟩
  refine Triple.assume fun hx => ?_
  subst hx
  show Triple _ (readData (if maxlen - 1 < BitVec.ofNat 32 f.data.length - 4 then maxlen - 1
    else BitVec.ofNat 32 f.data.length - 4) (BitVec.ofNat 32 f.status.toNat) >>= _) _ _
  rw [cut_length]
  refine (taking_data maxlen).bind fun x => ?_
  refine Triple.pre (P := fun w => x = f.received maxlen ∧
    Between (Taking seen f (BitVec.ofNat 32 (nextAddress seen f))) w) ?_
    fun w h => ⟨h.2.1, h.1, h.2.2⟩
  exact Triple.assume fun hx => taking_free.bind fun _ => Triple.pure fun w h => ⟨rfl, hx, h⟩

/-- A call finds the packet counter at 0 and changes nothing, or it takes the frame behind those taken
so far. It does not stop short. -/
theorem triple_receive (seen : List RxFrame) (maxlen : BitVec 32) :
    Triple (Between (Waiting seen)) (enc28j60PacketReceive maxlen)
      (fun r w => (r = ⟨0, 0, []⟩ ∧ Between (Waiting seen) w) ∨
        r.count ≠ 0 ∧ ∃ f, (r.len, r.packet) = f.received maxlen ∧ Between (Waiting (seen ++ [f])) w)
      R := by
  refine (keeps_read (steady_waiting seen) epktcnt).bind fun count => ?_
  split_ifs with hzero
  · exact Triple.pure fun w h => .inl ⟨by rw [hzero], h.1⟩
  · refine Triple.pre (P := fun w => ∃ f, Between (Taking seen f
        (BitVec.ofNat 32 (framesSize seen % rxSize))) w) ?_ fun w h => ?_
    · exact Triple.exists_pre fun f => (taking_packet maxlen count).post fun r w h =>
        .inr ⟨by rw [h.1]; exact hzero, f, h.2⟩
    · obtain ⟨f, hf⟩ := h.1.2.taking (by rw [← h.2 (by decide)]; exact hzero)
      exact ⟨f, h.1.1, hf⟩

theorem triple_take (seen : List RxFrame) (f : RxFrame) (maxlen : BitVec 32) :
    Triple (Between (Taking seen f (BitVec.ofNat 32 (framesSize seen % rxSize))))
      (enc28j60PacketReceive maxlen)
      (fun r w => r.count ≠ 0 ∧ (r.len, r.packet) = f.received maxlen ∧
        Between (Waiting (seen ++ [f])) w) R := by
  refine (keeps_read (steady_taking seen f _) epktcnt).bind fun count => ?_
  split_ifs with hzero
  · refine Triple.pure fun w h => absurd ?_ (Nat.lt_irrefl seen.length)
    have hlen := (List.getElem?_eq_some_iff.mp (getElem?_seen h.1.2.2.1)).1
    have hcount := h.1.2.1.count
    rw [← h.2 (by decide), hzero, show (0 : Byte).toNat = 0 from rfl] at hcount
    omega
  · exact ((taking_packet maxlen count).pre fun w h => h.1).post fun r w h =>
      ⟨by rw [h.1]; exact hzero, h.2⟩

/-! ## Runs -/

/-- The call is one of `enc28j60PacketReceive`. -/
def Call.IsReceive (a : Call) : Prop := ∃ maxlen, a = .receive maxlen

namespace NetCard

variable {s s' : NetCard}

/-- The frames stored that have not been taken. -/
def unread (s : NetCard) : List RxFrame := s.world.chip.stored.drop s.taken.length

/-- The offset of the first of them. -/
def start (s : NetCard) : ℕ := framesSize (s.world.chip.stored.take s.taken.length)

/-- Between two calls, the packets taken are the first of the frames stored, in order, and
`NextPacketPtr` is the address of the first of the others. These are all in the buffer, outside of what
is released to the receive logic: up to `ERXRDPT`, which is `NextPacketPtr`. The packet counter has been
counted down once for each packet taken. -/
structure InStep (s : NetCard) : Prop where
  returned : s.returned = true
  taken_le : s.taken.length ≤ s.world.chip.stored.length
  taken : ∀ i (h : i < s.taken.length), ∃ f, s.world.chip.stored[i]? = some f ∧
    (s.taken[i].received.len, s.taken[i].received.packet) = f.received s.taken[i].maxlen
  next : s.world.nextPacketPtr = BitVec.ofNat 32 (s.start % rxSize)
  buffer : Ring.slice s.world.chip.mem rxSize s.start (framesSize s.unread) =
    framesBytes s.start s.unread
  rxRdPt : s.world.chip.rxRdPt = s.world.nextPacketPtr.toNat
  released : ∀ i < framesSize s.unread, ∀ m ≤ s.world.chip.rxFree,
    (s.start + i) % rxSize ≠ (s.world.chip.erxwrpt + m) % rxSize
  count : (s.world.chip.get epktcnt).toNat = s.unread.length
  decrements : s.world.chip.decrements = s.taken.length

/-- The packets taken are what the calls made of the frames `seen`, and the next is behind them. -/
structure Follows (s : NetCard) (seen : List RxFrame) : Prop where
  returned : s.returned = true
  waiting : Between (Waiting seen) s.world
  taken : List.Forall₂
    (fun (t : Receipt) f => (t.received.len, t.received.packet) = f.received t.maxlen) s.taken seen

theorem Follows.length (h : s.Follows seen) : s.taken.length = seen.length := h.taken.length_eq

theorem Follows.inStep (h : s.Follows seen) : s.InStep := by
  obtain ⟨hring, hseen, hnext⟩ := h.waiting.2
  have htake : s.world.chip.stored.take seen.length = seen := by
    obtain ⟨t, ht⟩ := hseen
    rw [← ht, List.take_left]
  have hlt : framesSize seen % rxSize < rxSize := Nat.mod_lt _ (by decide)
  have hstart : s.start = framesSize seen := by rw [start, h.length, htake]
  have hunread : s.unread = s.world.chip.stored.drop seen.length := by rw [unread, h.length]
  exact {
    returned := h.returned
    taken_le := h.length ▸ hseen.length_le
    taken := fun i hi => by
      have hi' : i < seen.length := h.length ▸ hi
      have hget : s.world.chip.stored[i]? = some seen[i] := by
        obtain ⟨t, ht⟩ := hseen
        rw [← ht, List.getElem?_append_left hi', List.getElem?_eq_getElem hi']
      exact ⟨seen[i], hget, h.taken.get hi hi'⟩
    next := by rw [hstart, hnext]
    buffer := by
      have hslice := hring.unread
      rw [htake] at hslice
      rw [hstart, hunread]
      exact hslice
    rxRdPt := by
      rw [hring.rxRdPt, htake, hnext, BitVec.toNat_ofNat, Nat.mod_eq_of_lt (hlt.trans (by decide))]
    released := fun i hi m hm => by
      have hfree := hring.rxFree
      have hsize := framesSize_take_add_drop s.world.chip.stored seen.length
      rw [htake] at hsize
      rw [hunread] at hi
      rw [hstart, hring.erxwrpt, Nat.mod_add_mod, ← hsize, Nat.add_assoc]
      have hbound : rxSize = rxstopInit + 1 := rfl
      exact Ring.index_ne (by omega) (by omega) (by omega)
    count := by
      have hcount := hring.count
      rw [hunread, List.length_drop]
      omega
    decrements := by rw [hring.decrements, h.length] }

theorem Follows.taking (h : s.Follows seen) (hf : s.unread.head? = some f) :
    Between (Taking seen f (BitVec.ofNat 32 (framesSize seen % rxSize))) s.world := by
  obtain ⟨hring, ⟨t, ht⟩, hnext⟩ := h.waiting.2
  rw [unread, ← ht, h.length, List.drop_left] at hf
  obtain ⟨t', rfl⟩ := List.head?_eq_some_iff.mp hf
  exact ⟨h.waiting.1, hring, ⟨t', by rw [← ht]; simp⟩, hnext⟩

/-- A call returns, and takes the frame behind those taken if there is one when it begins. -/
theorem Follows.receive (h : s.Follows seen) (maxlen : BitVec 32) (fuel : ℕ) :
    ∃ r s', s.step (.receive maxlen, fuel) = some s' ∧
      s'.taken = s.taken ++ (Call.receive maxlen).takes (some r) ∧ (s.unread ≠ [] → r.count ≠ 0) ∧
      (r = ⟨0, 0, []⟩ ∧ s'.Follows seen ∨ r.count ≠ 0 ∧ ∃ f, s'.Follows (seen ++ [f])) := by
  obtain ⟨r, w, hexec, hw⟩ := (triple_receive (R := fun _ => False) seen maxlen).total h.waiting
  have hrun : ((Call.receive maxlen).run fuel).exec s.world = (some (some r), w) :=
    exec_bind_some hexec
  have hstep : s.step (.receive maxlen, fuel) =
      some ⟨w, true, s.taken ++ (Call.receive maxlen).takes (some r)⟩ := by
    rw [NetCard.step, if_pos h.returned]
    simp only [hrun]
  refine ⟨r, _, hstep, rfl, fun hunread => ?_, ?_⟩
  · obtain ⟨f, t, ht⟩ := List.exists_cons_of_ne_nil hunread
    have hf : s.unread.head? = some f := by rw [ht, List.head?_cons]
    exact ((triple_take (R := fun _ => False) seen f maxlen).returned (h.taking hf) hexec).1
  · rcases hw with ⟨rfl, hwaiting⟩ | ⟨hcount, f, hf, hwaiting⟩
    · refine .inl ⟨rfl, rfl, hwaiting, ?_⟩
      show List.Forall₂ _ (s.taken ++ []) seen
      rw [List.append_nil]
      exact h.taken
    · refine .inr ⟨hcount, f, rfl, hwaiting, ?_⟩
      show List.Forall₂ _ (s.taken ++ if r.count = 0 then [] else [⟨maxlen, r⟩]) (seen ++ [f])
      rw [if_neg hcount]
      exact List.rel_append h.taken (.cons hf .nil)

end NetCard

theorem Booted.waiting (h : Booted w) : Between (Waiting []) w := by
  have hreg : ∀ p ∈ bootValues, w.chip.reg (regOf p.1) = p.2 := h.regs
  have hpast := h.past
  simp only [Chip.past, Prod.mk.injEq] at hpast
  obtain ⟨hstored, -, -, -, -, hdecrements⟩ := hpast
  have hring : w.chip.RxRing 0 0 := {
    erxst := ptr_eq (hreg (erxstl, 0) (by decide)) (hreg (erxsth, 0) (by decide)) (by decide)
    erxnd := ptr_eq (hreg (erxndl, 0xFE) (by decide)) (hreg (erxndh, 0x19) (by decide)) (by decide)
    etxst := ptr_eq (hreg (etxstl, 0xFF) (by decide)) (hreg (etxsth, 0x19) (by decide)) (by decide)
    rxen := h.rxen
    autoinc := by
      rw [Chip.autoinc, Chip.get, hreg (econ2, 0x80) (by decide)]
      rfl
    apart := fun htx => by
      rw [h.txrts] at htx
      exact Bool.noConfusion htx
    count := by
      rw [Chip.get, hreg (epktcnt, 0) (by decide), hstored]
      rfl
    decrements := hdecrements
    released := Nat.zero_le _
    erxwrpt := by
      rw [hstored]
      exact ptr_eq (hreg (erxwrptl, 0) (by decide)) (hreg (erxwrpth, 0) (by decide)) (by decide)
    rxRdPt := h.rxRdPt
    fits := by
      rw [hstored]
      decide
    unread := by
      rw [hstored]
      rfl }
  exact ⟨h.synced, hring, List.nil_prefix, h.nextPacketPtr⟩

theorem follows_init {s : NetCard} (hinit : netMachine.init s) (hret : s.returned = true) :
    s.Follows [] := by
  obtain ⟨hboot, htaken⟩ := booted_init hinit hret
  exact ⟨hret, hboot.waiting, by rw [htaken]; exact .nil⟩

theorem follows_step {s s' : NetCard} {a : Call × ℕ} (hs : ∃ seen, s.Follows seen)
    (ha : a.1.IsReceive) (hstep : netMachine.step s a = some s') : ∃ seen, s'.Follows seen := by
  obtain ⟨seen, hseen⟩ := hs
  obtain ⟨call, fuel⟩ := a
  obtain ⟨maxlen, rfl⟩ := ha
  obtain ⟨r, s₁, hstep₁, -, -, hs₁⟩ := hseen.receive maxlen fuel
  obtain rfl := Option.some.inj (hstep₁.symm.trans hstep)
  rcases hs₁ with ⟨-, hfollows⟩ | ⟨-, f, hfollows⟩
  · exact ⟨seen, hfollows⟩
  · exact ⟨seen ++ [f], hfollows⟩

/-- In a run of `enc28j60PacketReceive` calls after `enc28j60Init`, whatever frames arrive meanwhile, the
packets taken are the frames stored, in order. A further call returns; if it finds the packet counter at 0
it returns 0 and changes neither pointer nor the number of decrements, and else it takes one frame and
counts it down once. -/
theorem receives_in_order {s₀ s : NetCard} {l : List (Call × ℕ)} (hinit : netMachine.init s₀)
    (hret : s₀.returned = true) (hs : netMachine.Steps (fun _ a => a.1.IsReceive) s₀ l s) :
    s.InStep ∧ ∀ maxlen fuel, ∃ r s', netMachine.step s (.receive maxlen, fuel) = some s' ∧ s'.InStep ∧
      s'.taken = s.taken ++ (Call.receive maxlen).takes (some r) ∧
      (s.unread ≠ [] → r.count ≠ 0) ∧
      (r.count = 0 → r.len = 0 ∧ s'.world.nextPacketPtr = s.world.nextPacketPtr ∧
        s'.world.chip.rxRdPt = s.world.chip.rxRdPt ∧
        s'.world.chip.decrements = s.world.chip.decrements) ∧
      (r.count ≠ 0 → s'.world.chip.decrements = s.world.chip.decrements + 1) := by
  obtain ⟨seen, hseen⟩ := hs.invariant (fun _ _ _ => follows_step) ⟨[], follows_init hinit hret⟩
  refine ⟨hseen.inStep, fun maxlen fuel => ?_⟩
  obtain ⟨r, s', hstep, htaken, hunread, hs'⟩ := hseen.receive maxlen fuel
  have hring := hseen.waiting.2.1
  rcases hs' with ⟨rfl, hsame⟩ | ⟨hcount, f, hmore⟩
  · refine ⟨_, s', hstep, hsame.inStep, htaken, hunread, fun _ => ⟨rfl, ?_, ?_, ?_⟩, fun hne => absurd rfl hne⟩
    · rw [hsame.waiting.2.2.2, hseen.waiting.2.2.2]
    · rw [hsame.inStep.rxRdPt, hseen.inStep.rxRdPt, hsame.waiting.2.2.2, hseen.waiting.2.2.2]
    · rw [hsame.waiting.2.1.decrements, hring.decrements]
  · refine ⟨r, s', hstep, hmore.inStep, htaken, hunread, fun hzero => absurd hzero hcount, fun _ => ?_⟩
    rw [hmore.waiting.2.1.decrements, hring.decrements, List.length_append, List.length_singleton]

/-- Three bytes and the CRC, received without an error. -/
def sampleFrame : RxFrame := ⟨[1, 2, 3, 0xA, 0xB, 0xC, 0xD], 0x0080, [0], by decide, by decide⟩

/-- A frame of three bytes arrives in time for the first call. -/
def oneFrame (n : ℕ) : List HwEvent := if n = 145 then [.frame sampleFrame] else []

theorem oneFrame_run : ((netMachine.run (promptStart oneFrame) [(.receive 1500, 0), (.receive 1500, 0)]).map
    fun s => (s.taken.map (fun t => (t.received.len, t.received.packet)), s.world.chip.rxRdPt)) =
    some ([(3, [1, 2, 3, 0])], 14) := by
  decide +kernel

theorem receives_in_order_two : ∃ s, netMachine.Steps (fun _ a => a.1.IsReceive) (promptStart oneFrame)
      [(.receive 1500, 0), (.receive 1500, 0)] s ∧
    s.taken.map (fun t => (t.received.len, t.received.packet)) = [(3, [1, 2, 3, 0])] ∧ s.InStep ∧
    s.world.nextPacketPtr.toNat = 14 := by
  have hrun := oneFrame_run
  have hinit := promptStart_init oneFrame
  generalize promptStart oneFrame = s₀ at hrun hinit ⊢
  obtain ⟨s, hrun', hs⟩ := Option.map_eq_some_iff.mp hrun
  simp only [Prod.mk.injEq] at hs
  have hok : ∀ a ∈ [(Call.receive 1500, 0), (Call.receive 1500, 0)], ∀ _ : NetCard, a.1.IsReceive := by
    intro a ha _
    refine ⟨1500, ?_⟩
    simp only [List.mem_cons, List.not_mem_nil, or_false, or_self] at ha
    rw [ha]
  have hsteps : netMachine.Steps (fun _ a => a.1.IsReceive) s₀ _ s := .of_run hok hrun'
  have hstep := receives_in_order hinit (returned_of_run hrun') hsteps
  exact ⟨s, hsteps, hs.1, hstep.1, by rw [← hstep.1.rxRdPt, hs.2]⟩

end LoraGateway.Enc28j60
