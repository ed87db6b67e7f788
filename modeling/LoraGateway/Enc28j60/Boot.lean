import Mathlib.Data.Bool.AllAny
import LoraGateway.Enc28j60.Calls

/-!
# `enc28j60Init`

The start, from a chip and driver variables in any state. After the reset and up to the last command,
reception and transmission are off, so the chip changes its status registers at most: in all else it
is a reference chip that takes the commands and does nothing by itself (`Chip.Quiet`). What the start
leaves (`Booted`) is then read off the reference chip.

The cache is not the bank after the reset. It need not be: the first register polled is a shared one,
and `enc28j60SetBank` either leaves bank 0 selected or selects it (`Ready`).
-/

namespace LoraGateway.Enc28j60

open Lib Lib.Prog

variable {R : World → Prop} {w : World} {c d : Chip} {r : Reg} {v address data : Byte}

/-! ## The reference chip -/

/-- Registers the chip changes while it neither receives nor transmits, and the one that switches
banks. -/
def looseRegs : List Reg := statusRegs ++ [eir, econ1].map regOf

/-- The frames stored, and what became of the transmit requests. -/
def Chip.past (c : Chip) : List RxFrame × List Bool × List ℕ × List ℕ × List ℕ × ℕ :=
  (c.stored, c.requests, c.sent, c.failed, c.cancelled, c.decrements)

/-- Reception and transmission are off, and the chip is `d` in what they change and in all that it
does not change by itself. -/
structure Chip.Quiet (c d : Chip) : Prop where
  rxen : c.rxen = false
  txrts : c.txrts = false
  reg : ∀ r ∉ looseRegs, c.reg r = d.reg r
  txerif : c.txerif = d.txerif
  rxRdPt : c.rxRdPt = d.rxRdPt
  past : c.past = d.past

theorem Chip.Quiet.set_loose (h : c.Quiet d) (hr : r ∈ looseRegs) (hne : r ≠ regOf econ1)
    (hv : r = regOf eir → v.getLsbD 1 = c.txerif) : (c.set r v).Quiet d where
  rxen := by
    rw [Chip.rxen, Chip.get, Chip.set_reg_of_ne (Ne.symm hne)]
    exact h.rxen
  txrts := by
    rw [Chip.txrts, Chip.get, Chip.set_reg_of_ne (Ne.symm hne)]
    exact h.txrts
  reg r' hr' := by
    rw [Chip.set_reg_of_ne fun heq : r' = r => hr' (heq ▸ hr)]
    exact h.reg r' hr'
  txerif := by
    rw [← h.txerif, Chip.txerif, Chip.get]
    by_cases heq : r = regOf eir
    · subst heq
      rw [Chip.set_reg_self, hv rfl]
    · rw [Chip.set_reg_of_ne (Ne.symm heq)]
      rfl
  rxRdPt := h.rxRdPt
  past := h.past

theorem Chip.Quiet.event (h : c.Quiet d) (e : HwEvent) : (c.event e).Quiet d := by
  cases e with
  | frame f =>
    rw [Chip.event, Chip.receive, if_neg (by rw [h.rxen]; simp)]
    exact h
  | txEnd aborted stuck status =>
    rw [Chip.event, Chip.endTx, if_neg (by rw [h.txrts]; simp)]
    exact h
  | status r v =>
    simp only [Chip.event]
    split_ifs with hr
    · exact h.set_loose (List.mem_append_left _ hr) (fun heq => absurd (heq ▸ hr) (by decide))
        fun heq => absurd (heq ▸ hr) (by decide)
    · exact h
  | interrupt v =>
    refine h.set_loose (by decide) (by decide) fun _ => ?_
    rw [BitVec.getLsbD_or, BitVec.getLsbD_and, BitVec.getLsbD_and]
    simp [Chip.txerif]

theorem Chip.Quiet.hear (h : w.chip.Quiet d) : w.hear.chip.Quiet d :=
  hear_rel (R := fun c c' => c.Quiet d → c'.Quiet d) (fun _ h => h) (fun _ _ _ h h' hc => h' (h hc))
    (fun _ e h => h.event e) w h

theorem Chip.Quiet.set (h : c.Quiet d) (h₁ : r ≠ regOf econ1) (h₂ : r ≠ regOf eir) :
    (c.set r v).Quiet (d.set r v) where
  rxen := by
    rw [Chip.rxen, Chip.get, Chip.set_reg_of_ne (Ne.symm h₁)]
    exact h.rxen
  txrts := by
    rw [Chip.txrts, Chip.get, Chip.set_reg_of_ne (Ne.symm h₁)]
    exact h.txrts
  reg r' hr' := by
    by_cases heq : r' = r
    · subst heq
      rw [Chip.set_reg_self, Chip.set_reg_self]
    · rw [Chip.set_reg_of_ne heq, Chip.set_reg_of_ne heq]
      exact h.reg r' hr'
  txerif := by
    rw [Chip.txerif, Chip.txerif, Chip.get, Chip.get, Chip.set_reg_of_ne (Ne.symm h₂),
      Chip.set_reg_of_ne (Ne.symm h₂)]
    exact h.txerif
  rxRdPt := h.rxRdPt
  past := h.past

theorem Chip.Quiet.reach (h : c.Quiet d) (l : List Reg) : (c.reach l).Quiet d :=
  ⟨h.rxen, h.txrts, h.reg, h.txerif, h.rxRdPt, h.past⟩

theorem Chip.Quiet.ptr (h : c.Quiet d) {l k : Byte} (hl : regOf l ∉ looseRegs)
    (hh : regOf k ∉ looseRegs) : c.ptr l k = d.ptr l k := by
  rw [Chip.ptr, Chip.ptr, Chip.get, Chip.get, h.reg _ hl, h.reg _ hh]
  rfl

theorem Chip.Quiet.store (h : c.Quiet d) (h₁ : r ∉ [econ1, econ2, eir].map regOf) :
    (c.store r v).Quiet (d.store r v) := by
  simp only [List.map_cons, List.map_nil, List.mem_cons, List.not_mem_nil, or_false, not_or] at h₁
  obtain ⟨hecon1, hecon2, heir⟩ := h₁
  have hset : (c.set r v).Quiet (d.set r v) := h.set hecon1 heir
  simp only [Chip.store, if_neg hecon1, if_neg hecon2]
  split_ifs
  · exact h
  · have hptr := hset.ptr (l := erxrdptl) (k := erxrdpth) (by decide) (by decide)
    exact { hset with rxRdPt := hptr }
  · have hst := hset.ptr (l := erxstl) (k := erxsth) (by decide) (by decide)
    rw [Chip.erxst, hst]
    exact (hset.set (by decide) (by decide)).set (by decide) (by decide)
  · have hmii := (hset.set_loose (r := regOf mistat) (v := c.get mistat ||| 0x01) (by decide)
      (by decide) fun heq => absurd heq (by decide))
    refine { hmii with reg := fun r' hr' => (hmii.reg r' hr').trans ?_ }
    exact (Chip.set_reg_of_ne (fun heq : r' = regOf mistat => hr' (by rw [heq]; decide)) ..).symm
  · exact hset

/-! ## The reset -/

/-- Every access so far has reached the register it named. -/
def Traced (w : World) : Prop := w.chip.reached = w.issued.filterMap Issue.reg?

theorem quiet_softReset (c : Chip) : c.softReset.Quiet c.softReset where
  rxen := by
    show (c.por.reg (regOf econ1)).getLsbD 2 = false
    rw [c.por.econ1]
    rfl
  txrts := by
    show (c.por.reg (regOf econ1)).getLsbD 3 = false
    rw [c.por.econ1]
    rfl
  reg _ _ := rfl
  txerif := rfl
  rxRdPt := rfl
  past := rfl

theorem Linked.reset (hidle : w.Idle) (h : Traced w) : Linked (w.issue .reset) where
  idle := hidle
  reached := by
    show w.chip.reached = (w.issued ++ [Issue.reset]).filterMap Issue.reg?
    rw [List.filterMap_append, ← h]
    exact (List.append_nil _).symm
  agree r := by
    show w.chip.por.reg r &&& kept r =
      (w.issued ++ [Issue.reset]).foldl (RegFile.apply w.chip.por.reg) w.chip.por.reg r &&& kept r
    rw [List.foldl_append]
    rfl

theorem hear_traced (h : Traced w) : Traced w.hear := by
  rw [Traced, hear_reached, hear_issued]
  exact h

theorem event_phy (c : Chip) (e : HwEvent) : (c.event e).phy = c.phy := by
  cases e <;> simp only [Chip.event, Chip.receive, Chip.endTx] <;> (try split_ifs) <;> rfl

theorem hear_phy (w : World) : w.hear.chip.phy = w.chip.phy :=
  hear_rel (R := fun c c' => c'.phy = c.phy) (fun _ => rfl) (fun _ _ _ h h' => h'.trans h)
    event_phy w

/-- After a reset bank 0 is selected, and the cache holds what it held before. The PHY registers are not
reset. -/
theorem triple_reset (por : ResetValues) (phy : BitVec 5 → BitVec 16) :
    Triple (fun w => w.Idle ∧ Traced w ∧ w.chip.por = por ∧ w.chip.phy = phy)
      (enc28j60WriteOp softResetOp 0 softResetOp)
      (fun _ w => ∃ d : Chip, (d.por = por ∧ d.phy = phy) ∧
        Ready estat w ∧ w.chip.Quiet d.softReset ∧ w.chip.phy = d.softReset.phy) R := by
  rintro w ⟨hw, htraced, hpor, hphy⟩
  rw [enc28j60WriteOp_reset hw]
  have hlinked : Linked (w.hear.issue .reset) := Linked.reset hw.hear (hear_traced htraced)
  have hbsel : (w.hear.issue .reset).chip.bsel = 0 := by
    show (w.hear.chip.por.reg (regOf econ1)).extractLsb' 0 2 = 0
    rw [w.hear.chip.por.econ1]
    rfl
  have hready : Ready estat (w.hear.issue .reset) := ⟨hlinked, fun _ => hbsel⟩
  exact ⟨w.hear.chip, ⟨(hear_por w).trans hpor, (hear_phy w).trans hphy⟩, hready.hear,
    Chip.Quiet.hear (quiet_softReset _), hear_phy _⟩

/-! ## The commands after the reset -/

/-- The start has got to where the reference chip is, and the first packet is to be read at 0. -/
def Starting (d : Chip) (w : World) : Prop := w.chip.Quiet d ∧ w.nextPacketPtr = 0

theorem steady_quiet (d : Chip) : Steady fun w => w.chip.Quiet d where
  hear w h := h.hear
  rebank w v s l b issued hv h := by
    have hrxen : v.getLsbD 2 = w.chip.rxen := by
      simpa [Chip.rxen] using congrArg (fun x => BitVec.getLsbD x 2) hv
    have htxrts : v.getLsbD 3 = w.chip.txrts := by
      simpa [Chip.txrts] using congrArg (fun x => BitVec.getLsbD x 3) hv
    have hloose : regOf econ1 ∈ looseRegs := by decide
    exact {
      rxen := by
        show ((w.chip.set (regOf econ1) v).reg (regOf econ1)).getLsbD 2 = false
        rw [Chip.set_reg_self, hrxen]
        exact h.rxen
      txrts := by
        show ((w.chip.set (regOf econ1) v).reg (regOf econ1)).getLsbD 3 = false
        rw [Chip.set_reg_self, htxrts]
        exact h.txrts
      reg := fun r' hr' => by
        show (w.chip.set (regOf econ1) v).reg r' = _
        rw [Chip.set_reg_of_ne fun heq : r' = regOf econ1 => hr' (heq ▸ hloose)]
        exact h.reg r' hr'
      txerif := by
        show ((w.chip.set (regOf econ1) v).reg (regOf eir)).getLsbD 1 = _
        rw [Chip.set_reg_of_ne (by decide)]
        exact h.txerif
      rxRdPt := h.rxRdPt
      past := h.past }

theorem steady_starting (d : Chip) : Steady (Starting d) where
  hear _ h := ⟨h.1.hear, h.2⟩
  rebank w v s l b issued hv h := ⟨(steady_quiet d).rebank w v s l b issued hv h.1, h.2⟩

theorem steady_phy (phy : BitVec 5 → BitVec 16) : Steady fun w => w.chip.phy = phy where
  hear w h := (hear_phy w).trans h
  rebank _ _ _ _ _ _ _ h := h

/-- The same, with the PHY registers. -/
def Loaded (d : Chip) (w : World) : Prop := Starting d w ∧ w.chip.phy = d.phy

theorem steady_loaded (d : Chip) : Steady (Loaded d) := (steady_starting d).and (steady_phy d.phy)

/-- The reference chip after a write. -/
def Chip.take (d : Chip) (p : Byte × Byte) : Chip := d.store (regOf p.1) p.2

theorem Starting.write {d : Chip} {p : Byte × Byte} (hp : regOf p.1 ∉ [econ1, econ2, eir].map regOf)
    (hw : Banked p.1 w) (h : Starting d w) : Starting (d.take p) (w.issue (.write p.1 p.2)) := by
  refine ⟨?_, h.2⟩
  show ((w.chip.store (w.chip.target p.1) p.2).reach _).Quiet _
  rw [target_eq hw.bsel]
  exact (h.1.store hp).reach _

theorem below_shared : ∀ a : Byte, argOf a < 0x1B →
    argOf a ≠ argOf econ1 ∧ regOf a ∉ [econ1, econ2, eir].map regOf := by
  decide

/-- What a write makes of the PHY registers depends on registers that the reference chip has too. -/
theorem Chip.Quiet.store_phy (h : c.Quiet d) (hphy : c.phy = d.phy) :
    (c.store r v).phy = (d.store r v).phy := by
  have hread : ∀ a ∈ [miregadr, miwrl], c.get a = d.get a := by
    have hquiet : ∀ a ∈ [miregadr, miwrl], regOf a ∉ looseRegs := by decide
    exact fun a ha => h.reg _ (hquiet a ha)
  simp only [Chip.store]
  split_ifs
  · exact hphy
  · exact hphy
  · exact hphy
  · exact hphy
  · exact hphy
  · rw [hread miregadr (by decide), hread miwrl (by decide), hphy]
  · exact hphy

theorem Loaded.write {d : Chip} {p : Byte × Byte} (hp : regOf p.1 ∉ [econ1, econ2, eir].map regOf)
    (hw : Banked p.1 w) (h : Loaded d w) : Loaded (d.take p) (w.issue (.write p.1 p.2)) := by
  refine ⟨h.1.write hp hw, ?_⟩
  show (w.chip.store (w.chip.target p.1) p.2).phy = _
  rw [target_eq hw.bsel]
  exact h.1.1.store_phy h.2

theorem loaded_write {p : Byte × Byte} (hp : argOf p.1 < 0x1B) (d : Chip) :
    Triple (Between (Loaded d)) (enc28j60Write p.1 p.2)
      (fun _ w => Banked p.1 w ∧ Loaded (d.take p) w) R :=
  triple_enc28j60Write (steady_loaded d) fun _ hw h =>
    ⟨hw.write (keepsBank_of_ne (below_shared _ hp).1), h.write (below_shared _ hp).2 hw⟩

theorem loaded_writeAll {l : List (Byte × Byte)} (hl : ∀ a ∈ l.map Prod.fst, argOf a < 0x1B)
    (d : Chip) :
    Triple (Between (Loaded d)) (enc28j60WriteAll l)
      (fun _ => Between (Loaded (l.foldl Chip.take d))) R :=
  Triple.foldM (J := fun d => Between (Loaded d)) (fun p hp d =>
    (loaded_write (hl p.1 (List.mem_map_of_mem hp)) d).post fun _ _ h => ⟨h.1.synced, h.2⟩) d

theorem writeAll_concat (l : List (Byte × Byte)) (p : Byte × Byte) :
    enc28j60WriteAll (l ++ [p]) = (do enc28j60WriteAll l; enc28j60Write p.1 p.2) := by
  show forM (l ++ [p]) (fun p : Byte × Byte => enc28j60Write p.1 p.2) = _
  rw [List.forM_append]
  refine congrArg (enc28j60WriteAll l >>= ·) (funext fun _ => ?_)
  exact bind_pure (enc28j60Write p.1 p.2)

/-- The bit field command that a MAC register does not take, right after a write to its bank. -/
theorem loaded_macon3 (data : Byte) (d : Chip) :
    Triple (fun w => Banked macon2 w ∧ Loaded d w) (enc28j60WriteOp bitFieldSet macon3 data)
      (fun _ => Between (Loaded d)) R := by
  refine (triple_set (P := fun w => Banked macon2 w ∧ Loaded d w)
    (fun w h => ⟨h.1.hear, (steady_loaded d).hear w h.2⟩) fun w _ h => ?_).pre
    fun w h => ⟨h.1.linked.idle, h⟩
  have htarget : w.chip.target macon3 = regOf macon3 := target_eq h.1.bsel
  have hchip : (w.issue (.set macon3 data)).chip = w.chip.reach (w.chip.reached ++ [regOf macon3]) := by
    show (w.chip.bitSet (w.chip.target macon3) data).reach _ = _
    rw [htarget]
    rfl
  refine ⟨⟨h.1.linked.issue htarget, ?_⟩, ⟨?_, h.2.1.2⟩, ?_⟩
  · rw [hchip]
    exact h.1.synced.bank
  · rw [hchip]
    exact h.2.1.1.reach _
  · rw [hchip]
    exact h.2.2

theorem loaded_phyWrite {fuel : ℕ} (address : Byte) (data : BitVec 32) (d : Chip) :
    Triple (Between (Loaded d)) (enc28j60PhyWrite fuel address data)
      (fun _ => Between (Loaded ((phyWrites address data).foldl Chip.take d))) Linked :=
  (loaded_writeAll (l := phyWrites address data) (show ∀ a ∈ [miregadr, miwrl, miwrh], argOf a < 0x1B by decide) d).bind fun _ =>
    Triple.pollUntil (((keeps_read (steady_loaded _) mistat).post fun _ _ h => h.1).bind fun x =>
      Triple.pure fun w h => by split_ifs <;> exact h) (fun _ h => h.1.linked) fuel

theorem loaded_printMac (macaddr : Fin 6 → Byte) (d : Chip) :
    Triple (Between (Loaded d)) (printMac macaddr) (fun _ => Between (Loaded d)) R := by
  have hread : ∀ address, Triple (Between (Loaded d)) (enc28j60Read address)
      (fun _ => Between (Loaded d)) R := fun address =>
    (keeps_read (steady_loaded d) address).post fun _ _ h => h.1
  refine (hread maadr5).bind fun first => ?_
  split_ifs
  · exact Triple.forM fun address _ => (hread address).bind fun _ => Triple.pure fun _ h => h
  · exact Triple.pure fun _ h => h

/-! ## What the reference chip comes to -/

theorem store_past (h₁ : r ≠ regOf econ1) (h₂ : r ≠ regOf econ2) : (c.store r v).past = c.past := by
  simp only [Chip.store, if_neg h₁, if_neg h₂]
  split_ifs <;> rfl

theorem store_rxRdPt (h : r ≠ regOf erxrdpth) : (c.store r v).rxRdPt = c.rxRdPt := by
  simp only [Chip.store, if_neg h, Chip.storeEcon1, Chip.storeEcon2]
  split_ifs <;> rfl

theorem take_reg (hr : still r = 0xFF) (d : Chip) (p : Byte × Byte) :
    (d.take p).reg r = if regOf p.1 = r then p.2 else d.reg r := by
  rw [Chip.take, (store_same d (regOf p.1) p.2).reg_eq hr]
  split_ifs with heq
  · rw [heq, Chip.set_reg_self]
  · rw [Chip.set_reg_of_ne (Ne.symm heq)]

theorem foldl_take_reg (hr : still r = 0xFF) (l : List (Byte × Byte)) (d : Chip) :
    (l.foldl Chip.take d).reg r = l.foldl (fun x p => if regOf p.1 = r then p.2 else x) (d.reg r) := by
  induction l generalizing d with
  | nil => rfl
  | cons p l ih => rw [List.foldl_cons, ih, take_reg hr, List.foldl_cons]

theorem foldl_take_keeps {l : List (Byte × Byte)}
    (h : ∀ a ∈ l.map Prod.fst, r ≠ regOf a ∧ r ∉ echoes (regOf a)) (d : Chip) :
    (l.foldl Chip.take d).reg r = d.reg r := by
  induction l generalizing d with
  | nil => rfl
  | cons p l ih =>
    rw [List.map_cons, List.forall_mem_cons] at h
    rw [List.foldl_cons, ih h.2, Chip.take, store_reg_of_ne h.1.1 h.1.2]

theorem foldl_take_get {l : List (Byte × Byte)} (hnodup : (l.map fun p => regOf p.1).Nodup) (d : Chip) :
    ∀ p ∈ l, still (regOf p.1) = 0xFF → (l.foldl Chip.take d).get p.1 = p.2 := by
  induction l generalizing d with
  | nil => exact fun p hp => absurd hp List.not_mem_nil
  | cons q l ih =>
    rw [List.map_cons, List.nodup_cons] at hnodup
    intro p hp hstill
    rcases List.mem_cons.mp hp with rfl | hp
    · have hkeep : ∀ d' : Chip, d'.get p.1 = p.2 → (l.foldl Chip.take d').get p.1 = p.2 := by
        have hne : ∀ q ∈ l, regOf q.1 ≠ regOf p.1 := fun q hq heq => hnodup.1 (List.mem_map.mpr ⟨q, hq, heq⟩)
        intro d' h
        refine List.foldlRecOn l Chip.take (motive := fun d' => d'.get p.1 = p.2) h fun d' h q hq => ?_
        rw [Chip.get, take_reg hstill, if_neg (hne q hq)]
        exact h
      apply hkeep
      rw [Chip.get, take_reg hstill, if_pos rfl]
    · exact ih hnodup.2 (d.take q) p hp hstill

theorem foldl_take_rxRdPt {l : List (Byte × Byte)}
    (h : ∀ a ∈ l.map Prod.fst, regOf a ≠ regOf erxrdpth) (d : Chip) :
    (l.foldl Chip.take d).rxRdPt = d.rxRdPt := by
  induction l generalizing d with
  | nil => rfl
  | cons p l ih =>
    rw [List.map_cons, List.forall_mem_cons] at h
    rw [List.foldl_cons, ih h.2, Chip.take, store_rxRdPt h.1]

theorem foldl_take_past {l : List (Byte × Byte)} (h : ∀ a ∈ l.map Prod.fst, argOf a < 0x1B)
    (d : Chip) : (l.foldl Chip.take d).past = d.past := by
  induction l generalizing d with
  | nil => rfl
  | cons p l ih =>
    rw [List.map_cons, List.forall_mem_cons] at h
    have hne : ∀ a : Byte, argOf a < 0x1B → regOf a ≠ regOf econ1 ∧ regOf a ≠ regOf econ2 := by decide
    rw [List.foldl_cons, ih h.2, Chip.take, store_past (hne _ h.1).1 (hne _ h.1).2]

theorem take_erxndh (d : Chip) (v : Byte) :
    (d.take (erxndh, v)).get erxwrptl = BitVec.ofNat 8 d.erxst ∧
      (d.take (erxndh, v)).get erxwrpth = BitVec.ofNat 8 (d.erxst / 256) := by
  have herxst : (d.set (regOf erxndh) v).erxst = d.erxst := by
    rw [Chip.erxst, Chip.ptr, Chip.get, Chip.get, Chip.set_reg_of_ne (by decide),
      Chip.set_reg_of_ne (by decide)]
    rfl
  have htake : d.take (erxndh, v) =
      (d.set (regOf erxndh) v).setPtr erxwrptl erxwrpth (d.set (regOf erxndh) v).erxst := by
    show d.store (regOf erxndh) v = _
    rw [Chip.store, if_neg (by decide), if_neg (by decide), if_neg (by decide), if_neg (by decide),
      if_pos (by decide)]
  rw [htake, herxst, Chip.setPtr]
  constructor
  · rw [Chip.get, Chip.set_reg_of_ne (by decide), Chip.set_reg_self]
  · rw [Chip.get, Chip.set_reg_self]

/-- The writes after those of `bufferWrites`. -/
def laterWrites (macaddr : Fin 6 → Byte) : List (Byte × Byte) :=
  macWrites macaddr ++ phyWrites phcon1 0x0100 ++ [(phlcon, BitVec.ofNat 8 0x0476)] ++
    phyWrites phcon2 0x0100

/-- Their registers. -/
def laterRegs : List Byte :=
  [maipgl, maipgh, mabbipg, mamxfll, mamxflh, maadr5, maadr4, maadr3, maadr2, maadr1, maadr0,
    miregadr, miwrl, miwrh, phlcon, miregadr, miwrl, miwrh]

theorem laterWrites_fst (macaddr : Fin 6 → Byte) : (laterWrites macaddr).map Prod.fst = laterRegs :=
  rfl

/-- The reference chip after all writes. -/
def Chip.configured (d : Chip) (macaddr : Fin 6 → Byte) : Chip :=
  (laterWrites macaddr).foldl Chip.take (bufferWrites.foldl Chip.take d)

/-- Registers as the start leaves them. -/
def bootValues : List (Byte × Byte) :=
  [(erxstl, 0x00), (erxsth, 0x00), (erxndl, 0xFE), (erxndh, 0x19), (mamxfll, 0xDC), (mamxflh, 0x05),
    (econ2, 0x80), (epktcnt, 0x00), (erxwrptl, 0x00), (erxwrpth, 0x00), (etxstl, 0xFF), (etxsth, 0x19)]

theorem bufferWrites_erxwrpt (d : Chip) :
    (bufferWrites.foldl Chip.take d).get erxwrptl = 0 ∧
      (bufferWrites.foldl Chip.take d).get erxwrpth = 0 := by
  have hsplit : bufferWrites = bufferWrites.take 5 ++
      (erxndh, highByte rxstopInit) :: bufferWrites.drop 6 := rfl
  let d' := (bufferWrites.take 5).foldl Chip.take d
  have herxst : d'.erxst = 0 := by
    have hl : d'.get erxstl = 0 := foldl_take_reg (by decide) ..
    have hh : d'.get erxsth = 0 := foldl_take_reg (by decide) ..
    rw [Chip.erxst, Chip.ptr, hl, hh]
    rfl
  obtain ⟨hl, hh⟩ := take_erxndh d' (highByte rxstopInit)
  rw [herxst] at hl hh
  rw [hsplit, List.foldl_append, List.foldl_cons, Chip.get, Chip.get,
    foldl_take_keeps (by decide), foldl_take_keeps (by decide)]
  exact ⟨hl, hh⟩

theorem configured_keeps (hr : ∀ a ∈ bufferWrites.map Prod.fst ++ laterRegs, r ≠ regOf a ∧ r ∉ echoes (regOf a))
    (d : Chip) (macaddr : Fin 6 → Byte) : (d.configured macaddr).reg r = d.reg r := by
  rw [List.forall_mem_append] at hr
  rw [Chip.configured, foldl_take_keeps (by rw [laterWrites_fst]; exact hr.2), foldl_take_keeps hr.1]

theorem configured_bufferWrites (d : Chip) (macaddr : Fin 6 → Byte) :
    ∀ p ∈ bufferWrites, still (regOf p.1) = 0xFF → (d.configured macaddr).get p.1 = p.2 := by
  have hlater : ∀ p ∈ bufferWrites, ∀ a ∈ laterRegs, regOf p.1 ≠ regOf a ∧ regOf p.1 ∉ echoes (regOf a) :=
    List.all_iff_forall_prop.mp (by decide +kernel)
  intro p hp hstill
  have hkeep : (d.configured macaddr).get p.1 = (bufferWrites.foldl Chip.take d).get p.1 :=
    foldl_take_keeps (by rw [laterWrites_fst]; exact hlater p hp) _
  exact hkeep.trans (foldl_take_get (by decide +kernel) d p hp hstill)

theorem laterRegs_mac : ((laterRegs.take 11).map regOf).Nodup ∧ ∀ a ∈ laterRegs.take 11, still (regOf a) = 0xFF ∧
    ∀ b ∈ laterRegs.drop 11, regOf a ≠ regOf b ∧ regOf a ∉ echoes (regOf b) := by
  decide +kernel

theorem laterWrites_eq (macaddr : Fin 6 → Byte) :
    laterWrites macaddr = macWrites macaddr ++ (laterWrites macaddr).drop 11 := rfl

theorem laterWrites_drop (d : Chip) (macaddr : Fin 6 → Byte) {p : Byte × Byte}
    (hp : p.1 ∈ laterRegs.take 11) : (((laterWrites macaddr).drop 11).foldl Chip.take d).get p.1 = d.get p.1 :=
  foldl_take_keeps (l := (laterWrites macaddr).drop 11) (laterRegs_mac.2 p.1 hp).2 d

theorem configured_macWrites (d : Chip) (macaddr : Fin 6 → Byte) :
    ∀ p ∈ macWrites macaddr, (d.configured macaddr).get p.1 = p.2 := by
  have hnodup : ((macWrites macaddr).map fun p => regOf p.1).Nodup := laterRegs_mac.1
  intro p hp
  have hmem : p.1 ∈ laterRegs.take 11 := List.mem_map_of_mem (f := Prod.fst) hp
  rw [Chip.configured, laterWrites_eq, List.foldl_append, laterWrites_drop _ _ hmem]
  exact foldl_take_get hnodup _ p hp (laterRegs_mac.2 p.1 hmem).1

theorem configured_epktcnt (d : Chip) (macaddr : Fin 6 → Byte) :
    (d.configured macaddr).reg (regOf epktcnt) = d.reg (regOf epktcnt) :=
  configured_keeps (by decide +kernel) d macaddr

theorem configured_regs (d : Chip) (macaddr : Fin 6 → Byte) :
    ∀ p ∈ bootValues, (d.softReset.configured macaddr).get p.1 = p.2 := by
  have hwritten : ∀ p ∈ bootValues, p ∈ bufferWrites ∧ still (regOf p.1) = 0xFF ∨
      p ∈ (macWrites fun _ => 0).take 5 ∨ p = (econ2, 0x80) ∨ p = (epktcnt, 0) ∨
      p = (erxwrptl, 0) ∨ p = (erxwrpth, 0) :=
    List.all_iff_forall_prop.mp (by decide +kernel)
  have hlater : ∀ r ∈ [erxwrptl, erxwrpth].map regOf, ∀ a ∈ laterRegs, r ≠ regOf a ∧ r ∉ echoes (regOf a) := by
    decide +kernel
  have htake : (macWrites fun _ => 0).take 5 = (macWrites macaddr).take 5 := rfl
  intro p hp
  rcases hwritten p hp with ⟨hmem, hstill⟩ | hmem | rfl | rfl | rfl | rfl
  · exact configured_bufferWrites _ macaddr p hmem hstill
  · rw [htake] at hmem
    exact configured_macWrites _ macaddr p (List.mem_of_mem_take hmem)
  · exact (configured_keeps (by decide +kernel) _ _).trans d.por.econ2
  · exact (configured_epktcnt _ _).trans d.por.epktcnt
  · exact (foldl_take_keeps (by rw [laterWrites_fst]; exact hlater _ (by decide)) _).trans (bufferWrites_erxwrpt _).1
  · exact (foldl_take_keeps (by rw [laterWrites_fst]; exact hlater _ (by decide)) _).trans (bufferWrites_erxwrpt _).2

theorem configured_rxRdPt (d : Chip) (macaddr : Fin 6 → Byte) : (d.configured macaddr).rxRdPt = 0 := by
  have hsplit : bufferWrites = bufferWrites.take 3 ++
      (erxrdpth, highByte rxstartInit) :: bufferWrites.drop 4 := rfl
  let d' := (bufferWrites.take 3).foldl Chip.take d
  have hl : d'.get erxrdptl = 0 := foldl_take_reg (by decide +kernel) ..
  have htake : (d'.take (erxrdpth, 0)).rxRdPt =
      (d'.set (regOf erxrdpth) 0).ptr erxrdptl erxrdpth := by
    show (d'.store (regOf erxrdpth) 0).rxRdPt = _
    rw [Chip.store, if_neg (by decide), if_neg (by decide), if_neg (by decide), if_pos rfl]
  rw [Chip.configured, foldl_take_rxRdPt (by rw [laterWrites_fst]; decide +kernel), hsplit,
    List.foldl_append, List.foldl_cons, foldl_take_rxRdPt (by decide +kernel)]
  refine htake.trans ?_
  rw [Chip.ptr, Chip.get, Chip.get, Chip.set_reg_self, Chip.set_reg_of_ne (by decide)]
  exact (congrArg (fun x : Byte => (x.toNat + 256 * (0 : Byte).toNat) % 0x2000) hl).trans rfl

/-! ## The start -/

/-- What `enc28j60Init` leaves: the receive buffer is empty and reception is on. -/
structure Booted (w : World) : Prop where
  synced : Synced w
  regs : ∀ p ∈ bootValues, w.chip.get p.1 = p.2
  rxen : w.chip.rxen = true
  txrts : w.chip.txrts = false
  txerif : w.chip.txerif = false
  rxRdPt : w.chip.rxRdPt = 0
  past : w.chip.past = ([], [], [], [], [], 0)
  nextPacketPtr : w.nextPacketPtr = 0

/-- The interrupts are enabled. -/
def Chip.enabled (d : Chip) : Chip := d.take (eie, d.get eie ||| (0x80 ||| 0x40 ||| 0x01))

theorem issue_rxen (h : w.chip.txrts = false) : (w.issue (.set econ1 0x04)).chip =
    (w.chip.set (regOf econ1) (w.chip.get econ1 ||| 0x04)).reach (w.chip.reached ++ [regOf econ1]) := by
  have hv : ∀ x : Byte, (x ||| 0x04).getLsbD 3 = x.getLsbD 3 := by decide
  show (w.chip.bitSet (w.chip.target econ1) 0x04).reach (w.chip.reached ++ [w.chip.target econ1]) = _
  rw [target_shared (by decide), Chip.bitSet, if_neg (by decide), Chip.store, if_neg (by decide),
    if_pos rfl, Chip.storeEcon1, show w.chip.reg (regOf econ1) = w.chip.get econ1 from rfl,
    hv, show (w.chip.get econ1).getLsbD 3 = false from h, h]
  rfl

theorem Starting.boot {d : Chip} {macaddr : Fin 6 → Byte} (hw : Synced w)
    (h : Starting (d.softReset.configured macaddr).enabled w) :
    Booted (w.issue (.set econ1 0x04)) := by
  have hv : ∀ x : Byte, (x ||| 0x04).getLsbD 3 = x.getLsbD 3 ∧ (x ||| 0x04).getLsbD 2 = true := by
    decide
  have hchip := issue_rxen h.1.txrts
  have hpast : (d.softReset.configured macaddr).enabled.past = ([], [], [], [], [], 0) := by
    refine (store_past (r := regOf eie) (by decide) (by decide)).trans ?_
    rw [Chip.configured, foldl_take_past (by rw [laterWrites_fst]; decide),
      foldl_take_past (by decide)]
    rfl
  have hreg : bootValues.all (fun p => decide (regOf p.1 ∉ looseRegs ∧ regOf p.1 ≠ regOf eie ∧
      regOf p.1 ∉ echoes (regOf eie) ∧ regOf p.1 ≠ regOf econ1)) = true := by decide
  exact {
    synced := hw.set (by decide) (by decide)
    regs := fun p hp => by
      obtain ⟨hloose, hne, hecho, hecon1⟩ := of_decide_eq_true (List.all_eq_true.mp hreg p hp)
      rw [hchip]
      exact (Chip.set_reg_of_ne hecon1 ..).trans ((h.1.reg _ hloose).trans
        ((store_reg_of_ne hne hecho).trans (configured_regs d macaddr p hp)))
    rxen := by
      rw [hchip]
      exact (congrArg (fun x => BitVec.getLsbD x 2) (Chip.set_reg_self ..)).trans (hv _).2
    txrts := by
      rw [hchip]
      exact (congrArg (fun x => BitVec.getLsbD x 3) (Chip.set_reg_self ..)).trans
        ((hv _).1.trans h.1.txrts)
    txerif := by
      rw [hchip]
      refine (congrArg (fun x => BitVec.getLsbD x 1) (Chip.set_reg_of_ne (by decide) w.chip
        (w.chip.get econ1 ||| 0x04))).trans (h.1.txerif.trans ?_)
      have heir : (d.softReset.configured macaddr).enabled.reg (regOf eir) = 0 := by
        refine (store_reg_of_ne (r := regOf eie) (by decide) (by decide)).trans ?_
        rw [Chip.configured, foldl_take_keeps (by rw [laterWrites_fst]; decide +kernel),
          foldl_take_keeps (by decide +kernel)]
        exact d.por.eir
      rw [Chip.txerif, Chip.get, heir]
      rfl
    rxRdPt := by
      rw [hchip]
      refine h.1.rxRdPt.trans ?_
      exact (store_rxRdPt (r := regOf eie) (by decide)).trans (configured_rxRdPt _ _)
    past := by
      rw [hchip]
      exact h.1.past.trans hpast
    nextPacketPtr := h.2 }

/-- Whatever the cache holds, the poll ends with bank 0 selected and in the cache. -/
theorem triple_ready {fuel : ℕ} {P : World → Prop} (hP : Steady P) :
    Triple (fun w => Ready estat w ∧ P w) (Prog.pollUntil (do
      let ready ← enc28j60Read estat
      pure (ready &&& 0x01 != 0)) fuel) (fun _ => Between P) Linked := by
  refine Triple.pollUntil ?_ (fun w h => h.1.linked) fuel
  refine (triple_enc28j60Read hP hP.hear fun _ => hP.read).bind fun x => Triple.pure fun w h => ?_
  split_ifs
  · exact ⟨h.1.synced, h.2.1⟩
  · exact ⟨h.1.synced.ready, h.2.1⟩

theorem loaded_next (d : Chip) :
    Triple (Between fun w => w.chip.Quiet d ∧ w.chip.phy = d.phy)
      (Prog.update fun w : World => { w with nextPacketPtr := BitVec.ofNat 32 rxstartInit })
      (fun _ => Between (Loaded d)) R :=
  Triple.update fun _ h => ⟨⟨⟨h.1.linked.idle, h.1.linked.reached, h.1.linked.agree⟩, h.1.bank⟩,
    ⟨h.2.1, rfl⟩, h.2.2⟩

theorem loaded_bufferWrites (d : Chip) :
    Triple (Between (Loaded d)) (enc28j60WriteAll bufferWrites)
      (fun _ w => Banked macon2 w ∧ Loaded (bufferWrites.foldl Chip.take d) w) R := by
  have hsplit : bufferWrites = bufferWrites.dropLast ++ [(macon2, 0x00)] := rfl
  rw [hsplit, writeAll_concat, List.foldl_append]
  exact (loaded_writeAll (by decide) d).bind fun _ => loaded_write (by decide) _

theorem loaded_setBank (d : Chip) :
    Triple (Between (Loaded d)) (enc28j60SetBank econ1) (fun _ => Between (Loaded d)) R :=
  ((triple_setBank (steady_loaded d) econ1).pre fun _ h => ⟨h.1.ready, h.2⟩).post
    fun _ _ h => ⟨h.1.synced, h.2⟩

theorem loaded_eie (d : Chip) :
    Triple (Between (Loaded d)) (enc28j60WriteOp bitFieldSet eie (0x80 ||| 0x40 ||| 0x01))
      (fun _ => Between (Loaded d.enabled)) R := by
  refine keeps_set (steady_loaded d).hear (by decide) (by decide) fun w hw h => ?_
  have hreg : w.chip.reg (regOf eie) = d.reg (regOf eie) := h.1.1.reg _ (by decide)
  have hchip : (w.issue (.set eie (0x80 ||| 0x40 ||| 0x01))).chip =
      (w.chip.store (regOf eie) (d.reg (regOf eie) ||| (0x80 ||| 0x40 ||| 0x01))).reach
        (w.chip.reached ++ [w.chip.target eie]) := by
    show (w.chip.bitSet (w.chip.target eie) _).reach _ = _
    rw [target_shared (by decide), Chip.bitSet, if_neg (by decide), hreg]
  refine ⟨⟨?_, h.1.2⟩, ?_⟩
  · rw [hchip]
    exact (h.1.1.store (by decide)).reach _
  · rw [hchip]
    exact h.1.1.store_phy h.2

/-- Up to its last command, the start makes of the chip what it makes of the reference chip. -/
theorem triple_start (fuel : ℕ) (macaddr : Fin 6 → Byte) (por : ResetValues) (phy : BitVec 5 → BitVec 16) :
    Triple (fun w => Traced w ∧ w.chip.por = por ∧ w.chip.phy = phy) (enc28j60Init fuel macaddr)
      (fun _ w' => ∃ (d : Chip) (w : World), (d.por = por ∧ d.phy = phy) ∧ Synced w ∧
        Loaded (d.softReset.configured macaddr).enabled w ∧ w' = w.issue (.set econ1 0x04)) Linked := by
  have hcsh : Triple (fun w => Traced w ∧ w.chip.por = por ∧ w.chip.phy = phy) enc28j60CSH
      (fun _ w => w.Idle ∧ Traced w ∧ w.chip.por = por ∧ w.chip.phy = phy) Linked :=
    Triple.update fun w h => ⟨rfl, h⟩
  refine hcsh.bind fun _ => (triple_reset por phy).bind fun _ => Triple.exists_pre fun d =>
    Triple.assume fun hd => ?_
  have hmac : ∀ d, Triple (Between (Loaded d)) (enc28j60WriteAll (macWrites macaddr))
      (fun _ => Between (Loaded ((macWrites macaddr).foldl Chip.take d))) Linked := fun d =>
    loaded_writeAll (l := macWrites macaddr)
      (show ∀ a ∈ laterRegs.take 11, argOf a < 0x1B by decide) d
  have hwrite : ∀ d, Triple (Between (Loaded d)) (enc28j60Write phlcon (BitVec.ofNat 8 0x0476))
      (fun _ => Between (Loaded (d.take (phlcon, BitVec.ofNat 8 0x0476)))) Linked := fun d =>
    (loaded_write (p := (phlcon, BitVec.ofNat 8 0x0476)) (by decide) d).post
      fun _ w h => ⟨h.1.synced, h.2⟩
  have hrxen : Triple (Between (Loaded (d.softReset.configured macaddr).enabled))
      (enc28j60WriteOp bitFieldSet econ1 0x04)
      (fun _ w' => ∃ (d : Chip) (w : World), (d.por = por ∧ d.phy = phy) ∧ Synced w ∧
        Loaded (d.softReset.configured macaddr).enabled w ∧ w' = w.issue (.set econ1 0x04)) Linked :=
    (triple_set (P := Between (Loaded (d.softReset.configured macaddr).enabled))
      (steady_loaded _).between fun w _ h => ⟨d, w, hd, h.1, h.2, rfl⟩).pre
        fun w h => ⟨h.1.linked.idle, h⟩
  rw [Chip.configured, laterWrites, List.foldl_append, List.foldl_append, List.foldl_append,
    List.foldl_cons, List.foldl_nil] at hrxen
  refine (triple_ready ((steady_quiet d.softReset).and (steady_phy d.softReset.phy))).bind fun _ =>
    (loaded_next _).bind fun _ =>
    (loaded_bufferWrites _).bind fun _ => (loaded_macon3 _ _).bind fun _ =>
    (hmac _).bind fun _ => (loaded_printMac _ _).bind fun _ => ?_
  exact (loaded_phyWrite _ _ _).bind fun _ => (hwrite _).bind fun _ =>
    (loaded_phyWrite _ _ _).bind fun _ => (loaded_setBank _).bind fun _ =>
    (loaded_eie _).bind fun _ => hrxen

theorem triple_init (fuel : ℕ) (macaddr : Fin 6 → Byte) :
    Triple Traced (enc28j60Init fuel macaddr) (fun _ => Booted) Linked := by
  intro w htraced
  have hstart : Triple (fun v => Traced v ∧ v.chip.por = w.chip.por ∧ v.chip.phy = w.chip.phy)
      (enc28j60Init fuel macaddr) (fun _ => Booted) Linked := by
    refine (triple_start fuel macaddr w.chip.por w.chip.phy).post fun _ w' h => ?_
    obtain ⟨d, w, -, hsynced, hloaded, rfl⟩ := h
    exact hloaded.1.boot hsynced
  exact hstart w ⟨htraced, rfl, rfl⟩

end LoraGateway.Enc28j60
