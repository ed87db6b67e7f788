import LoraGateway.Enc28j60.Receive

/-!
# Sending beside the receive buffer

`enc28j60PacketSend` fills the memory behind the receive buffer: a control byte and the packet, with the
end of the transmit buffer at the last byte (`Loading`). What the chip does by itself leaves these bytes
alone, before the request and after it, so what it puts on the wire is the packet
(`outgoing_loaded`), and the packets to be received are where they were.
-/

namespace LoraGateway.Enc28j60

open Lib Lib.Prog

variable {c : Chip} {w : World} {r : Reg} {v address data b : Byte} {k j len : ℕ} {f : RxFrame}
  {l packet : List Byte} {seen : List RxFrame} {R : World → Prop}

/-! ## The transmit buffer -/

/-- The bytes a transmission puts on the wire: those behind the control byte at `ETXST`, up to `ETXND`. -/
def Chip.outgoing (c : Chip) : List Byte := readBytes c.mem (c.etxst + 1) (c.etxnd - c.etxst)

/-- The bytes `l` are in the transmit buffer, whose last byte is that of a packet of length `len`. -/
structure Chip.Loading (c : Chip) (len : ℕ) (l : List Byte) : Prop where
  etxnd : c.etxnd = txstartInit + len
  bytes : readBytes c.mem txstartInit l.length = l
  le : l.length ≤ len + 1

theorem outgoing_loaded (hring : c.RxRing k j) (h : c.Loading packet.length (0 :: packet)) :
    c.outgoing = packet := by
  have hbytes := h.bytes
  rw [List.length_cons, Nat.add_comm, readBytes_add] at hbytes
  rw [Chip.outgoing, hring.etxst, h.etxnd, Nat.add_sub_cancel_left]
  exact (List.append_inj (hbytes.trans (List.singleton_append (x := (0 : Byte)) (l := packet)).symm)
    (by simp)).2

theorem receive_mem (h : c.RxRing k j) {p : ℕ} (hp : rxSize ≤ p) (f : RxFrame) :
    (c.receive f).mem p = c.mem p := by
  rw [Chip.receive]
  split_ifs
  · have hwrpt : c.erxwrpt < rxSize := by rw [h.erxwrpt]; exact Nat.mod_lt _ (by decide)
    show rxPut c.erxst c.erxnd c.mem c.erxwrpt (f.bytes _) p = c.mem p
    rw [h.erxst, h.erxnd, rxPut_eq hwrpt]
    exact Ring.put_of_ne fun i _ => Nat.ne_of_gt ((Nat.mod_lt _ (by decide)).trans_le hp)
  · rfl

/-- What the chip writes into memory, it writes below the transmit buffer or behind its end. -/
theorem event_mem (h : c.RxRing k j) {p : ℕ} (hlow : rxSize ≤ p) (hhigh : p ≤ c.etxnd) (e : HwEvent) :
    (c.event e).mem p = c.mem p := by
  cases e with
  | frame f => exact receive_mem h hlow f
  | txEnd aborted stuck status =>
    simp only [Chip.event, Chip.endTx]
    by_cases htx : c.txrts = true
    · obtain ⟨-, hend⟩ := h.apart htx
      rw [if_pos htx]
      refine Ring.put_of_ne fun i hi => ?_
      have hi' : i < 7 := hi.trans_le (List.length_take_le ..)
      rw [Nat.mod_eq_of_lt (by omega)]
      omega
    · rw [if_neg htx]
  | status r v =>
    simp only [Chip.event]
    split_ifs <;> rfl
  | interrupt v => rfl

theorem Chip.Loading.event (hring : c.RxRing k j) (h : c.Loading len l) (e : HwEvent) :
    (c.event e).Loading len l where
  etxnd := by
    rw [← h.etxnd]
    exact ptr_congr (event_reg (by decide) c e) (event_reg (by decide) c e)
  bytes := by
    refine (readBytes_congr fun p hlow hhigh => ?_).trans h.bytes
    have hle := h.le
    refine event_mem hring hlow ?_ e
    rw [h.etxnd]
    omega
  le := h.le

theorem Chip.Loading.congr {c' : Chip} (h : c.Loading len l)
    (hl : c'.reg (regOf etxndl) = c.reg (regOf etxndl))
    (hh : c'.reg (regOf etxndh) = c.reg (regOf etxndh)) (hmem : c'.mem = c.mem) :
    c'.Loading len l where
  etxnd := (ptr_congr hl hh).trans h.etxnd
  bytes := by rw [hmem]; exact h.bytes
  le := h.le

/-- The packets to be received, and the transmit buffer. -/
def Loading (seen : List RxFrame) (len : ℕ) (l : List Byte) (w : World) : Prop :=
  Waiting seen w ∧ w.chip.Loading len l

theorem steady_loading (seen : List RxFrame) (len : ℕ) (l : List Byte) :
    Steady (Loading seen len l) where
  hear w h := by
    have hboth := hear_rel
      (R := fun c c' => c.RxRing seen.length seen.length ∧ c.Loading len l →
        c'.RxRing seen.length seen.length ∧ c'.Loading len l) (fun _ h => h)
      (fun _ _ _ h h' hc => h' (h hc)) (fun c e h => ⟨h.1.event e, h.2.event h.1 e⟩) w ⟨h.1.1, h.2⟩
    exact ⟨(steady_waiting seen).hear w h.1, hboth.2⟩
  rebank w v s l' b issued hv h := by
    have hset : (w.chip.set (regOf econ1) v).Loading len l :=
      h.2.congr (Chip.set_reg_of_ne (by decide) ..) (Chip.set_reg_of_ne (by decide) ..) rfl
    exact ⟨(steady_waiting seen).rebank w v s l' b issued hv h.1, hset.etxnd, hset.bytes, hset.le⟩

/-- `EWRPT` is behind the bytes put so far. -/
def Filling (seen : List RxFrame) (len : ℕ) (l : List Byte) (w : World) : Prop :=
  Loading seen len l w ∧ w.chip.txrts = false ∧ w.chip.ewrpt = txstartInit + l.length

theorem stable_filling (seen : List RxFrame) (len : ℕ) (l : List Byte) :
    Stable (Filling seen len l) := fun w h =>
  ⟨(steady_loading seen len l).hear w h.1, hear_txrts h.2.1,
    (hear_rel (R := fun c c' => c'.ewrpt = c.ewrpt) (fun _ => rfl) (fun _ _ _ h h' => h'.trans h)
      (fun c e => ptr_congr (event_reg (by decide) c e) (event_reg (by decide) c e)) w).trans h.2.2⟩

theorem Filling.pushed (h : Filling seen len l w) (hlen : len ≤ 1500) (hl : l.length ≤ len) (b : Byte) :
    Filling seen len (l ++ [b]) (w.pushed b) := by
  obtain ⟨⟨⟨hring, hseen, hnext⟩, hload⟩, htx, hewrpt⟩ := h
  have htxstart : txstartInit = rxSize := rfl
  have hsize : rxSize = 6655 := rfl
  have hpush : (w.chip.push b) = ({ w.chip with
      mem := Function.update w.chip.mem (txstartInit + l.length) b } : Chip).setPtr ewrptl ewrpth
        (txstartInit + l.length + 1) := by
    rw [Chip.push, if_pos hring.autoinc, hewrpt, Nat.mod_eq_of_lt (by omega)]
  have hreg : ∀ r, r ≠ regOf ewrptl → r ≠ regOf ewrpth → (w.chip.push b).reg r = w.chip.reg r :=
    fun r h₁ h₂ => by
      rw [hpush, setPtr_reg h₁ h₂]
  have hmem : (w.chip.push b).mem = Function.update w.chip.mem (txstartInit + l.length) b := by
    rw [hpush]
    rfl
  have hringRegs : ∀ r ∈ ringRegs, r ≠ regOf ewrptl ∧ r ≠ regOf ewrpth := by decide
  refine ⟨⟨⟨hring.congr (fun r hr => hreg r (hringRegs r hr).1 (hringRegs r hr).2) ?_
    (hring.apart.congr ?_ (hreg _ (by decide) (by decide)) (hreg _ (by decide) (by decide)))
    (fun p hp => ?_) ?_ ?_ ?_, ?_, hnext⟩, ?_, ?_, ?_⟩, ?_, ?_⟩
  · show ((w.chip.push b).reg (regOf econ1)).getLsbD 2 = _
    rw [hreg _ (by decide) (by decide)]
    rfl
  · show ((w.chip.push b).reg (regOf econ1)).getLsbD 3 = true → _
    rw [hreg _ (by decide) (by decide)]
    exact fun htx => htx
  · show (w.chip.push b).mem p = _
    rw [hmem, Function.update_of_ne (by omega)]
  · show (w.chip.push b).stored = _
    rw [hpush]
    rfl
  · show (w.chip.push b).rxRdPt = _
    rw [hpush]
    rfl
  · show (w.chip.push b).decrements = _
    rw [hpush]
    rfl
  · show seen <+: (w.chip.push b).stored
    rw [hpush]
    exact hseen
  · exact (ptr_congr (hreg _ (by decide) (by decide)) (hreg _ (by decide) (by decide))).trans hload.etxnd
  · have hold : readBytes (Function.update w.chip.mem (txstartInit + l.length) b) txstartInit l.length =
        readBytes w.chip.mem txstartInit l.length :=
      readBytes_congr fun i _ hi => Function.update_of_ne (by omega) ..
    show readBytes (w.chip.push b).mem _ _ = _
    rw [hmem, List.length_append, List.length_singleton, readBytes_add, hold, hload.bytes]
    congr 1
    simp [readBytes]
  · rw [List.length_append, List.length_singleton]
    omega
  · exact (pushed_txrts w b).trans htx
  · show (w.chip.push b).ewrpt = _
    rw [hpush, List.length_append, List.length_singleton, ← Nat.add_assoc]
    exact ptr_setPtr (by decide) (by omega) _

theorem Filling.pushed_mem (h : Filling seen len l w) (b : Byte) :
    (∀ p < rxSize, (w.pushed b).chip.mem p = w.chip.mem p) ∧ (w.pushed b).chip.stored = w.chip.stored := by
  obtain ⟨⟨⟨hring, -, -⟩, -⟩, -, hewrpt⟩ := h
  have htxstart : txstartInit = rxSize := rfl
  have hpush : (w.pushed b).chip.mem = Function.update w.chip.mem w.chip.ewrpt b ∧
      (w.pushed b).chip.stored = w.chip.stored := by
    show (w.chip.push b).mem = _ ∧ (w.chip.push b).stored = _
    rw [Chip.push, if_pos hring.autoinc]
    exact ⟨rfl, rfl⟩
  rw [hpush.1]
  exact ⟨fun p hp => Function.update_of_ne (by omega) .., hpush.2⟩

/-! ## Beside the transmit buffer -/

/-- A property of what is in the receive buffer that the chip keeps by itself. -/
structure Beside (K : Chip → Prop) : Prop where
  event : ∀ (c : Chip) (k j : ℕ) (e : HwEvent), c.RxRing k j → K c → K (c.event e)
  congr : ∀ c c' : Chip, (∀ p < rxSize, c'.mem p = c.mem p) → c'.stored = c.stored → K c → K c'

theorem beside_true : Beside fun _ => True := ⟨fun _ _ _ _ _ _ => trivial, fun _ _ _ _ _ => trivial⟩

variable {K : Chip → Prop}

theorem Stable.beside {P : World → Prop} (hP : Stable P) (hring : ∀ w, P w → w.chip.RxRing k j)
    (hK : Beside K) : Stable fun w => P w ∧ K w.chip := by
  intro w h
  have hboth := hear_rel (R := fun c c' => c.RxRing k j ∧ K c → c'.RxRing k j ∧ K c') (fun _ h => h)
    (fun _ _ _ h h' hc => h' (h hc)) (fun c e h => ⟨h.1.event e, hK.event c k j e h.1 h.2⟩) w
    ⟨hring w h.1, h.2⟩
  exact ⟨hP w h.1, hboth.2⟩

theorem Steady.beside {P : World → Prop} (hP : Steady P) (hring : ∀ w, P w → w.chip.RxRing k j)
    (hK : Beside K) : Steady fun w => P w ∧ K w.chip where
  hear := hP.hear.beside hring hK
  rebank w v s l b issued hv h :=
    ⟨hP.rebank w v s l b issued hv h.1, hK.congr w.chip _ (fun _ _ => rfl) rfl h.2⟩

/-- No byte of the receive buffer has changed from `m`, unless a frame was stored behind the first `n`. -/
def Chip.Untouched (m : ℕ → Byte) (n : ℕ) (c : Chip) : Prop :=
  n ≤ c.stored.length ∧ (c.stored.length = n → ∀ p < rxSize, c.mem p = m p)

theorem beside_untouched (m : ℕ → Byte) (n : ℕ) : Beside (Chip.Untouched m n) where
  event c k j e hring h := by
    have hmem : (c.event e).stored = c.stored → ∀ p < rxSize, (c.event e).mem p = c.mem p := by
      cases e with
      | frame f =>
        simp only [Chip.event, Chip.receive]
        split_ifs
        · intro hstored
          have hlen := congrArg List.length hstored
          simp at hlen
        · exact fun _ _ _ => rfl
      | txEnd aborted stuck status =>
        intro _ p hp
        simp only [Chip.event, Chip.endTx]
        by_cases htx : c.txrts = true
        · -- the status vector is behind the transmit buffer
          obtain ⟨hlow, hhigh⟩ := hring.apart htx
          rw [if_pos htx]
          refine Ring.put_of_ne fun i hi => ?_
          have hi' : i < 7 := hi.trans_le (List.length_take_le ..)
          rw [Nat.mod_eq_of_lt (by omega)]
          omega
        · rw [if_neg htx]
      | status r v =>
        intro _ p _
        simp only [Chip.event]
        split_ifs <;> rfl
      | interrupt v => exact fun _ _ _ => rfl
    have hstart := event_stored c e
    refine ⟨h.1.trans hstart.length_le, fun hlen p hp => ?_⟩
    have hlen' : c.stored.length = (c.event e).stored.length :=
      le_antisymm hstart.length_le (hlen ▸ h.1)
    have hstored : (c.event e).stored = c.stored := (hstart.eq_of_length hlen').symm
    rw [hmem hstored p hp]
    exact h.2 (hlen'.trans hlen) p hp
  congr c c' hmem hstored h := by
    rw [Chip.Untouched, hstored]
    exact ⟨h.1, fun hlen p hp => (hmem p hp).trans (h.2 hlen p hp)⟩

theorem untouched_self (c : Chip) : c.Untouched c.mem c.stored.length := ⟨le_rfl, fun _ _ _ => rfl⟩

/-! ## The call -/

/-- The registers that are written before the buffer is filled. -/
def sendRegs : List Reg := [ewrptl, ewrpth, etxndl, etxndh].map regOf

/-- Nothing is being sent, and of `sendRegs` those in `d` have been written. -/
def Preparing (seen : List RxFrame) (d : Reg → Option Byte) (w : World) : Prop :=
  Waiting seen w ∧ w.chip.txrts = false ∧ ∀ r ∈ sendRegs, ∀ v, d r = some v → w.chip.reg r = v

theorem steady_preparing (seen : List RxFrame) (d : Reg → Option Byte) :
    Steady (Preparing seen d) := by
  have hown : ∀ r ∈ sendRegs, r ∉ eventRegs := by decide
  refine (steady_waiting seen).and (steady_txrts.and ⟨fun w h r hr v hv => ?_, ?_⟩)
  · exact (steady_own (hown r hr) v).hear w (h r hr v hv)
  · intro w v s l b issued hecon1 h r hr x hx
    exact (steady_own (hown r hr) x).rebank w v s l b issued hecon1 (h r hr x hx)

theorem Chip.RxRing.set_unsent (h : c.RxRing k j) (htx : c.txrts = false)
    (hr : r ∉ ringRegs ++ [econ1].map regOf) : (c.set r v).RxRing k j := by
  have hne : ∀ r' ∈ ringRegs ++ [econ1].map regOf, r' ≠ r := fun r' hr' heq => hr (heq ▸ hr')
  have hecon1 : (c.set r v).reg (regOf econ1) = c.reg (regOf econ1) :=
    Chip.set_reg_of_ne (hne _ (by decide)) ..
  refine h.congr (fun r' hr' => Chip.set_reg_of_ne (hne r' (List.mem_append_left _ hr')) ..) ?_
    (fun hset => ?_) (fun _ _ => rfl) rfl rfl rfl
  · rw [Chip.rxen, Chip.get, hecon1]
    rfl
  · rw [Chip.txrts, Chip.get, hecon1, show (c.reg (regOf econ1)).getLsbD 3 = false from htx] at hset
    exact Bool.noConfusion hset

theorem store_mem (c : Chip) (r : Reg) (v : Byte) : (c.store r v).mem = c.mem := by
  simp only [Chip.store, Chip.storeEcon1, Chip.storeEcon2]
  split_ifs <;> rfl

theorem Preparing.write {d : Reg → Option Byte} (h : Preparing seen d w) (hw : Banked address w)
    (haddress : address ∈ [ewrptl, ewrpth, etxndl, etxndh]) :
    Preparing seen (Function.update d (regOf address) (some data)) (w.issue (.write address data)) := by
  have hplain : ∀ a ∈ [ewrptl, ewrpth, etxndl, etxndh], regOf a ∉ readOnlyRegs ++
      [econ1, econ2, erxrdpth, erxstl, erxsth, erxndl, erxndh, miwrh].map regOf ∧
      regOf a ∉ ringRegs ++ [econ1].map regOf ∧ regOf econ1 ≠ regOf a := by decide
  obtain ⟨hset, hring, hecon1⟩ := hplain address haddress
  obtain ⟨⟨hrx, hseen, hnext⟩, htx, hregs⟩ := h
  have hchip : (w.issue (.write address data)).chip =
      (w.chip.set (regOf address) data).reach (w.chip.reached ++ [regOf address]) := by
    rw [issue_write_chip hw, store_eq_set hset]
  refine ⟨⟨?_, ?_, hnext⟩, ?_, fun r hr v hv => ?_⟩
  all_goals rw [hchip]
  · exact (hrx.set_unsent htx hring).reach _
  · exact hseen
  · show ((w.chip.set (regOf address) data).reg (regOf econ1)).getLsbD 3 = false
    rw [Chip.set_reg_of_ne hecon1]
    exact htx
  · show (w.chip.set (regOf address) data).reg r = v
    by_cases heq : r = regOf address
    · subst heq
      rw [Function.update_self, Option.some.injEq] at hv
      rw [Chip.set_reg_self, hv]
    · rw [Function.update_of_ne heq] at hv
      rw [Chip.set_reg_of_ne heq]
      exact hregs r hr v hv

theorem preparing_sendWrites (hK : Beside K) (hlen : len ≤ 1500) :
    Triple (Between fun w => Preparing seen (fun _ => none) w ∧ K w.chip) (enc28j60WriteAll (sendWrites len))
      (fun _ => Between fun w => Filling seen len [] w ∧ K w.chip) R := by
  have hmem : ∀ p ∈ sendWrites len, p.1 ∈ [ewrptl, ewrpth, etxndl, etxndh] := fun p hp =>
    List.mem_map_of_mem (f := Prod.fst) hp
  have hwrites : Triple (Between fun w => Preparing seen (fun _ => none) w ∧ K w.chip)
      (enc28j60WriteAll (sendWrites len))
      (fun _ => Between fun w => Preparing seen ((sendWrites len).foldl
        (fun d p => Function.update d (regOf p.1) (some p.2)) fun _ => none) w ∧ K w.chip) R :=
    keeps_writeAll (P := fun d w => Preparing seen d w ∧ K w.chip)
      (fun d => (steady_preparing seen d).beside (fun _ h => h.1.1) hK)
      (keepsBank_table (sendWrites_ne len))
      (fun p hp d w hw h => ⟨h.1.write hw (hmem p hp), hK.congr w.chip _ (fun a _ => by
        rw [issue_write_chip hw]
        exact congrFun (store_mem ..) a) (issue_write_stored hw) h.2⟩) _
  refine hwrites.post fun _ w h => ⟨h.1, ?_, h.2.2⟩
  obtain ⟨hwaiting, htx, hregs⟩ := h.2.1
  have hsize : txstartInit = 6655 := rfl
  have hne : regOf ewrptl ≠ regOf ewrpth ∧ regOf ewrptl ≠ regOf etxndl ∧ regOf ewrptl ≠ regOf etxndh ∧
      regOf ewrpth ≠ regOf etxndl ∧ regOf ewrpth ≠ regOf etxndh ∧ regOf etxndl ≠ regOf etxndh := by decide
  have hewrpt : w.chip.ewrpt = txstartInit := by
    refine ptr_eq (hregs _ (by decide) _ ?_) (hregs _ (by decide) _ ?_) (by decide)
    · simp [sendWrites, Function.update_of_ne, hne, lowByte]
    · simp [sendWrites, Function.update_of_ne, hne, highByte]
  have hetxnd : w.chip.etxnd = txstartInit + len := by
    refine ptr_eq (hregs _ (by decide) _ ?_) (hregs _ (by decide) _ ?_) (by omega)
    · simp [sendWrites, Function.update_of_ne, hne, lowByte]
    · simp [sendWrites, highByte]
  exact ⟨⟨hwaiting, hetxnd, rfl, Nat.zero_le _⟩, htx, hewrpt⟩

theorem Filling.request (h : Filling seen packet.length (0 :: packet) w) (hlen : packet.length ≤ 1500) :
    Loading seen packet.length (0 :: packet) (w.issue (.set econ1 0x08)) := by
  obtain ⟨⟨⟨hring, hseen, hnext⟩, hload⟩, htx, -⟩ := h
  have hbit : ∀ x : Byte, (x ||| 0x08).getLsbD 2 = x.getLsbD 2 := by decide
  have hsize : txstartInit = rxSize ∧ rxSize = 6655 := by decide
  have hend := hload.etxnd
  have hset : (w.chip.set (regOf econ1) (w.chip.reg (regOf econ1) ||| 0x08)).RxRing
      seen.length seen.length :=
    hring.set_econ1 ((hbit _).trans hring.rxen) fun _ => ⟨by omega, by omega⟩
  have hload' : (w.chip.set (regOf econ1) (w.chip.reg (regOf econ1) ||| 0x08)).Loading
      packet.length (0 :: packet) :=
    hload.congr (Chip.set_reg_of_ne (by decide) ..) (Chip.set_reg_of_ne (by decide) ..) rfl
  refine ⟨⟨?_, ?_, hnext⟩, ?_⟩
  all_goals rw [issue_request htx]
  · exact hset.congr (fun _ _ => rfl) rfl hset.apart (fun _ _ => rfl) rfl rfl rfl
  · exact hseen
  · exact hload'.congr rfl rfl rfl

theorem Loading.cancel (h : Loading seen len l w) :
    Loading seen len l (w.issue (.clear econ1 0x08)) := by
  obtain ⟨⟨hring, hseen, hnext⟩, hload⟩ := h
  have hbit : ∀ x : Byte, (x &&& ~~~0x08).getLsbD 2 = x.getLsbD 2 ∧
      (x &&& ~~~0x08).getLsbD 3 = false := by decide
  have hset : (w.chip.set (regOf econ1) (w.chip.reg (regOf econ1) &&& ~~~0x08)).RxRing
      seen.length seen.length :=
    hring.set_econ1 ((hbit _).1.trans hring.rxen) fun htx => by
      rw [(hbit _).2] at htx
      exact Bool.noConfusion htx
  have hload' : (w.chip.set (regOf econ1) (w.chip.reg (regOf econ1) &&& ~~~0x08)).Loading len l :=
    hload.congr (Chip.set_reg_of_ne (by decide) ..) (Chip.set_reg_of_ne (by decide) ..) rfl
  refine ⟨⟨?_, ?_, hnext⟩, ?_⟩
  all_goals rw [issue_cancel]
  · exact hset.congr (fun _ _ => rfl) rfl hset.apart (fun _ _ => rfl) rfl rfl rfl
  · exact hseen
  · exact hload'.congr rfl rfl rfl

theorem issue_request_mem (htx : w.chip.txrts = false) :
    (w.issue (.set econ1 0x08)).chip.mem = w.chip.mem ∧
      (w.issue (.set econ1 0x08)).chip.stored = w.chip.stored := by
  rw [issue_request htx]
  exact ⟨rfl, rfl⟩

theorem issue_cancel_mem : (w.issue (.clear econ1 0x08)).chip.mem = w.chip.mem ∧
    (w.issue (.clear econ1 0x08)).chip.stored = w.chip.stored := by
  rw [issue_cancel]
  exact ⟨rfl, rfl⟩

/-- A packet of up to 1500 bytes is loaded once the transmitter is idle, and the packets to be received
stay where they are. -/
theorem waiting_load (hK : Beside K) (hlen : packet.length ≤ 1500) :
    Triple (Between fun w => (Waiting seen w ∧ K w.chip) ∧ w.chip.txrts = false)
      (do
        enc28j60WriteAll (sendWrites packet.length)
        enc28j60WriteOp writeBufMem 0 0x00
        enc28j60WriteBuffer packet
        enc28j60WriteOp bitFieldSet econ1 0x08
        let flags ← enc28j60Read eir
        if flags &&& 0x02 ≠ 0 then
          enc28j60SetBank econ1
          enc28j60WriteOp bitFieldClr econ1 0x08
        else pure ())
      (fun _ => Between fun w => Loading seen packet.length (0 :: packet) w ∧ K w.chip) R := by
  let J : List Byte → World → Prop := fun l w =>
    l.length ≤ packet.length + 1 → Filling seen packet.length l w ∧ K w.chip
  have hJ : ∀ l, Stable (J l) := fun l w h hl =>
    (stable_filling seen packet.length l).beside (fun _ h => h.1.1.1) hK w (h hl)
  have hpush : ∀ l w b, J l w → J (l ++ [b]) (w.pushed b) := fun l w b h hl => by
    rw [List.length_append, List.length_singleton] at hl
    obtain ⟨hfill, hk⟩ := h (by omega)
    obtain ⟨hmem, hstored⟩ := hfill.pushed_mem b
    exact ⟨hfill.pushed hlen (by omega) b, hK.congr w.chip _ hmem hstored hk⟩
  have hwrites : Triple (Between fun w => (Waiting seen w ∧ K w.chip) ∧ w.chip.txrts = false)
      (enc28j60WriteAll (sendWrites packet.length)) (fun _ => Between (J [])) R :=
    ((preparing_sendWrites hK hlen).pre fun w h =>
      ⟨h.1, ⟨h.2.1.1, h.2.2, fun _ _ _ hv => nomatch hv⟩, h.2.1.2⟩).post fun _ w h => ⟨h.1, fun _ => h.2⟩
  refine hwrites.bind fun _ => (keeps_push (hJ []) (hpush [] · 0)).bind fun _ =>
    (keeps_writeBuffer hJ hpush [0] packet).bind fun _ => ?_
  refine keeps_request (hJ _)
    ((steady_loading seen packet.length (0 :: packet)).beside (fun _ h => h.1.1) hK)
    (fun w _ h => ?_) (fun w _ h _ => ?_) fun _ _ h => h
  · obtain ⟨hfill, hk⟩ := h (by simp)
    obtain ⟨hmem, hstored⟩ := issue_request_mem hfill.2.1
    exact ⟨hfill.request hlen, hK.congr w.chip _ (fun a _ => congrFun hmem a) hstored hk⟩
  · obtain ⟨hmem, hstored⟩ := issue_cancel_mem (w := w)
    exact ⟨h.1.cancel, hK.congr w.chip _ (fun a _ => congrFun hmem a) hstored h.2⟩

/-- The call, with what is in the receive buffer. -/
theorem waiting_send_beside {fuel : ℕ} (hK : Beside K) (hlen : packet.length ≤ 1500) :
    Triple (Between fun w => Waiting seen w ∧ K w.chip) (enc28j60PacketSend fuel packet)
      (fun _ => Between fun w => Loading seen packet.length (0 :: packet) w ∧ K w.chip) (fun _ => True) :=
  (keeps_pollTxrts ((steady_waiting seen).beside (fun _ h => h.1) hK) (fun _ _ _ => trivial) fuel).bind
    fun _ => waiting_load hK hlen

theorem waiting_send {fuel : ℕ} (hlen : packet.length ≤ 1500) :
    Triple (Between (Waiting seen)) (enc28j60PacketSend fuel packet)
      (fun _ => Between (Loading seen packet.length (0 :: packet))) (fun _ => True) :=
  ((waiting_send_beside beside_true hlen).pre fun _ h => ⟨h.1, h.2, trivial⟩).post
    fun _ _ h => ⟨h.1, h.2.1⟩

theorem waiting_send_idle {fuel : ℕ} (hlen : packet.length ≤ 1500) :
    Triple (Between fun w => Waiting seen w ∧ w.chip.txrts = false) (enc28j60PacketSend (fuel + 1) packet)
      (fun _ => Between (Loading seen packet.length (0 :: packet))) R := by
  have hfree : ∀ x : Byte, x.getLsbD 3 = false → (x &&& 0x08 == 0) = true := by decide
  have hread : Triple (Between fun w => Waiting seen w ∧ w.chip.txrts = false) (do
      let busy ← enc28j60Read econ1
      pure (busy &&& 0x08 == 0)) (fun x w => x = true ∧
        (Between fun w => Waiting seen w ∧ w.chip.txrts = false) w) R := by
    refine (keeps_read ((steady_waiting seen).and steady_txrts) econ1).bind fun x =>
      Triple.pure fun w h => ⟨hfree x ?_, h.1⟩
    rw [h.2 (by decide)]
    exact h.1.2.2
  have hpoll : Triple (Between fun w => Waiting seen w ∧ w.chip.txrts = false) (Prog.pollUntil (do
      let busy ← enc28j60Read econ1
      pure (busy &&& 0x08 == 0)) (fuel + 1)) (fun _ => Between fun w => Waiting seen w ∧ w.chip.txrts = false)
      R := by
    refine hread.bind fun x => Triple.assume fun hx => ?_
    subst hx
    exact Triple.pure fun _ h => h
  exact hpoll.bind fun _ => ((waiting_load beside_true hlen).pre fun _ h =>
    ⟨h.1, ⟨h.2.1, trivial⟩, h.2.2⟩).post fun _ _ h => ⟨h.1, h.2.1⟩

/-! ## Runs -/

/-- Packets received, and packets of up to 1500 bytes sent. -/
def Call.IsTraffic (a : Call) : Prop :=
  a.IsReceive ∨ ∃ packet, a = .send packet ∧ packet.length ≤ 1500

theorem NetCard.Follows.send {s s' : NetCard} {fuel : ℕ} (h : s.Follows seen)
    (hlen : packet.length ≤ 1500) (hstep : netMachine.step s (.send packet, fuel) = some s')
    (hret : s'.returned = true) : s'.Follows seen := by
  have hstep' : s.step (.send packet, fuel) = some s' := hstep
  rw [NetCard.step, if_pos h.returned] at hstep'
  have htriple : Triple (Between (Waiting seen)) ((Call.send packet).run fuel)
      (fun _ => Between (Loading seen packet.length (0 :: packet))) (fun _ => True) :=
    (waiting_send hlen).bind fun _ => Triple.pure fun _ h => h
  split at hstep'
  · rename_i x w hrun
    have hw := htriple.returned h.waiting hrun
    obtain rfl := Option.some.inj hstep'
    refine ⟨rfl, ⟨hw.1, hw.2.1⟩, ?_⟩
    show List.Forall₂ _ (s.taken ++ []) seen
    rw [List.append_nil]
    exact h.taken
  · obtain rfl := Option.some.inj hstep'
    exact Bool.noConfusion hret

theorem traffic_step {s s' : NetCard} {a : Call × ℕ} (hs : s.returned = true → ∃ seen, s.Follows seen)
    (ha : a.1.IsTraffic) (hstep : netMachine.step s a = some s') :
    s'.returned = true → ∃ seen, s'.Follows seen := by
  intro hret
  have hret' : s.returned = true := by
    have hstep' : s.step a = some s' := hstep
    unfold NetCard.step at hstep'
    split_ifs at hstep' with h
    exact h
  obtain ⟨call, fuel⟩ := a
  rcases ha with hreceive | ⟨packet, rfl, hlen⟩
  · exact follows_step (hs hret') hreceive hstep
  · obtain ⟨seen, hseen⟩ := hs hret'
    exact ⟨seen, hseen.send hlen hstep hret⟩

/-- Between two calls of a run, the packets taken are the first of the frames stored. -/
theorem traffic_follows {s₀ s : NetCard} {l : List (Call × ℕ)} (hinit : netMachine.init s₀)
    (hret : s₀.returned = true) (hs : netMachine.Steps (fun _ a => a.1.IsTraffic) s₀ l s)
    (hret' : s.returned = true) : ∃ seen, s.Follows seen :=
  hs.invariant (fun _ _ _ => traffic_step) (fun _ => ⟨[], follows_init hinit hret⟩) hret'

end LoraGateway.Enc28j60
