import LoraGateway.Enc28j60.History
import LoraGateway.Enc28j60.Registers

/-!
# The registers that `enc28j60Init` programs

What the start leaves in the registers, from any state of the chip and any cached bank. Two of its accesses
go the wrong way: the bits of `MACON3` are set by a bit field command, which a MAC register does not take,
and `PHLCON` is written as if it were a control register, so that its low byte lands in `EDMADSTL`, the
register of that number in bank 0. So the registers hold what was meant exactly if they do without these
accesses (`init_lands_iff`).
-/

namespace LoraGateway.Enc28j60

open Lib Lib.Prog

variable {w w' : World} {c d : Chip} {r : Reg}

/-! ## What is meant -/

/-- The addresses of the buffers and the maximum frame length. -/
def pointerValues : List (Byte × Byte) :=
  [(erxstl, lowByte rxstartInit), (erxsth, highByte rxstartInit),
    (erxrdptl, lowByte rxstartInit), (erxrdpth, highByte rxstartInit),
    (erxndl, lowByte rxstopInit), (erxndh, highByte rxstopInit),
    (etxstl, lowByte txstartInit), (etxsth, highByte txstartInit),
    (etxndl, lowByte txstopInit), (etxndh, highByte txstopInit),
    (mamxfll, lowByte maxFramelen), (mamxflh, highByte maxFramelen)]

/-- The MAC address, which is byte-backward. -/
def addressValues (macaddr : Fin 6 → Byte) : List (Byte × Byte) :=
  [maadr5, maadr4, maadr3, maadr2, maadr1, maadr0].zip (List.ofFn macaddr)

/-- The control registers that the routine accesses by their names, in its own text or in that of
`enc28j60PhyWrite`. -/
def namedRegs : List Reg :=
  (bufferWrites.map Prod.fst ++ [macon3] ++ (macWrites fun _ => 0).map Prod.fst ++
    [miregadr, miwrl, miwrh, mistat, estat, eie, econ1]).map regOf

/-- The registers that the chip writes by itself: status, flags, and the write pointer of the receive
logic. -/
def hardwareRegs : List Reg := statusRegs ++ [eir, erxwrptl, erxwrpth].map regOf

/-- `PADCFG0`, `TXCRCEN`, `FRMLNEN` and `FULDPX`. -/
def macon3Bits : Byte := 0x20 ||| 0x10 ||| 0x02 ||| 0x01

/-- What is programmed in any case. -/
structure Programmed (macaddr : Fin 6 → Byte) (c : Chip) : Prop where
  maadr : ∀ p ∈ addressValues macaddr, c.get p.1 = p.2
  pointers : ∀ p ∈ pointerValues, c.get p.1 = p.2
  phcon1 : c.phy (argOf phcon1) = 0x0100
  phcon2 : c.phy (argOf phcon2) = 0x0100

/-- All registers hold what was meant for them, and the others their reset values. -/
structure Landed (macaddr : Fin 6 → Byte) (por : ResetValues) (c : Chip) : Prop
    extends Programmed macaddr c where
  macon3 : c.get macon3 &&& macon3Bits = macon3Bits
  phlcon : c.phy (argOf phlcon) = 0x0476
  unnamed : ∀ r ∉ namedRegs, r ∉ hardwareRegs → c.reg r = por.reg r

/-- What the two accesses were meant to bring about is there without them, and what one of them does
instead makes no difference. -/
structure Preset (por : ResetValues) (phy : BitVec 5 → BitVec 16) : Prop where
  macon3 : por.reg (regOf macon3) &&& macon3Bits = macon3Bits
  phlcon : phy (argOf phlcon) = 0x0476
  edmadstl : por.reg (regOf edmadstl) = BitVec.ofNat 8 0x0476

/-! ## The PHY registers of the reference chip -/

theorem store_phy {v : Byte} (h : r ≠ regOf miwrh) : (c.store r v).phy = c.phy := by
  simp only [Chip.store, Chip.storeEcon1, Chip.storeEcon2, if_neg h]
  split_ifs <;> rfl

theorem foldl_take_phy {l : List (Byte × Byte)} (h : ∀ a ∈ l.map Prod.fst, regOf a ≠ regOf miwrh)
    (d : Chip) : (l.foldl Chip.take d).phy = d.phy := by
  induction l generalizing d with
  | nil => rfl
  | cons p l ih =>
    rw [List.map_cons, List.forall_mem_cons] at h
    rw [List.foldl_cons, ih h.2, Chip.take, store_phy h.1]

theorem store_miwrh (c : Chip) (v : Byte) : (c.store (regOf miwrh) v).phy =
    Function.update c.phy (argOf (c.get miregadr)) (v ++ c.get miwrl) := by
  rw [Chip.store, if_neg (by decide), if_neg (by decide), if_neg (by decide), if_neg (by decide),
    if_neg (by decide), if_pos rfl]

/-- `MIREGADR` says which PHY register the write to `MIWRH` sets off. -/
theorem phyWrites_phy (address : Byte) (data : BitVec 32) (d : Chip) :
    ((phyWrites address data).foldl Chip.take d).phy =
      Function.update d.phy (argOf address) ((data >>> 8).setWidth 8 ++ data.setWidth 8) := by
  have hphy : ([(miregadr, address), (miwrl, data.setWidth 8)].foldl Chip.take d).phy = d.phy :=
    foldl_take_phy (l := [(miregadr, address), (miwrl, data.setWidth 8)])
      (show ∀ a ∈ [miregadr, miwrl], regOf a ≠ regOf miwrh by decide) d
  have hget := foldl_take_get (l := [(miregadr, address), (miwrl, data.setWidth 8)])
    (show ([miregadr, miwrl].map regOf).Nodup by decide) d
  have haddress : ([(miregadr, address), (miwrl, data.setWidth 8)].foldl Chip.take d).get miregadr = address :=
    hget (miregadr, address) List.mem_cons_self (show still (regOf miregadr) = 0xFF by decide)
  have hlow : ([(miregadr, address), (miwrl, data.setWidth 8)].foldl Chip.take d).get miwrl = data.setWidth 8 :=
    hget (miwrl, data.setWidth 8) (List.mem_cons_of_mem _ List.mem_cons_self)
      (show still (regOf miwrl) = 0xFF by decide)
  have hsplit : phyWrites address data =
      [(miregadr, address), (miwrl, data.setWidth 8)] ++ [(miwrh, (data >>> 8).setWidth 8)] := rfl
  rw [hsplit, List.foldl_append, List.foldl_cons, List.foldl_nil, Chip.take, store_miwrh, haddress, hlow, hphy]

theorem configured_phy (d : Chip) (macaddr : Fin 6 → Byte) : (d.configured macaddr).phy =
    Function.update (Function.update d.phy (argOf phcon1) 0x0100) (argOf phcon2) 0x0100 := by
  have hmac : ∀ a ∈ (macWrites macaddr).map Prod.fst, regOf a ≠ regOf miwrh :=
    show ∀ a ∈ laterRegs.take 11, regOf a ≠ regOf miwrh by decide
  rw [Chip.configured, laterWrites, List.foldl_append, List.foldl_append, List.foldl_append, phyWrites_phy,
    foldl_take_phy (l := [(phlcon, BitVec.ofNat 8 0x0476)]) (by decide), phyWrites_phy,
    foldl_take_phy hmac, foldl_take_phy (l := bufferWrites) (by decide)]
  rfl

/-! ## What the start leaves -/

theorem Loaded.phy (h : Loaded d.enabled w) : (w.issue (.set econ1 0x04)).chip.phy = d.phy := by
  have heie : d.enabled.phy = d.phy := store_phy (r := regOf eie) (by decide)
  rw [issue_rxen h.1.1.txrts]
  exact h.2.trans heie

theorem Loaded.reg (h : Loaded d.enabled w) (hr : r ∉ looseRegs) (hne : r ≠ regOf eie) :
    (w.issue (.set econ1 0x04)).chip.reg r = d.reg r := by
  have hecon1 : r ≠ regOf econ1 := fun heq => hr (heq ▸ by decide)
  have hecho : r ∉ echoes (regOf eie) := by
    rw [show echoes (regOf eie) = [] by decide]
    exact List.not_mem_nil
  have heie : d.enabled.reg r = d.reg r := store_reg_of_ne hne hecho
  rw [issue_rxen h.1.1.txrts]
  exact (Chip.set_reg_of_ne hecon1 ..).trans ((h.1.1.reg r hr).trans heie)

/-! ## The registers that the writes leave out -/

theorem configured_macon3 (d : Chip) (macaddr : Fin 6 → Byte) :
    (d.configured macaddr).reg (regOf macon3) = d.reg (regOf macon3) :=
  configured_keeps (by decide +kernel) d macaddr

/-- The number of `PHLCON` is that of `EDMADSTL`. -/
theorem configured_edmadstl (d : Chip) (macaddr : Fin 6 → Byte) :
    (d.configured macaddr).reg (regOf edmadstl) = BitVec.ofNat 8 0x0476 := by
  have hlast : ∀ d' : Chip, ((phyWrites phcon2 0x0100).foldl Chip.take d').reg (regOf edmadstl) =
      d'.reg (regOf edmadstl) :=
    foldl_take_keeps (l := phyWrites phcon2 0x0100) (show ∀ a ∈ [miregadr, miwrl, miwrh],
      regOf edmadstl ≠ regOf a ∧ regOf edmadstl ∉ echoes (regOf a) by decide)
  have hphlcon : ∀ d' : Chip, (d'.take (phlcon, BitVec.ofNat 8 0x0476)).reg (regOf edmadstl) =
      BitVec.ofNat 8 0x0476 := by
    intro d'
    rw [take_reg (by decide)]
    exact if_pos rfl
  rw [Chip.configured, laterWrites, List.foldl_append, hlast, List.foldl_append, List.foldl_cons,
    List.foldl_nil, hphlcon]

theorem configured_unnamed (hr : r ∉ namedRegs) (hhw : r ∉ hardwareRegs) (hne : r ≠ regOf edmadstl)
    (d : Chip) (macaddr : Fin 6 → Byte) : (d.configured macaddr).reg r = d.reg r := by
  by_cases hcount : r = regOf epktcnt
  · rw [hcount]
    exact configured_epktcnt d macaddr
  · have hechoes : ∀ r' ∈ [epktcnt, erxwrptl, erxwrpth, mistat].map regOf,
        r' = regOf epktcnt ∨ r' ∈ hardwareRegs := by decide
    have hwritten : ∀ a ∈ bufferWrites.map Prod.fst ++ laterRegs, regOf a ∈ namedRegs ∨ a = edmadstl := by
      decide +kernel
    apply configured_keeps
    intro a ha
    refine ⟨fun heq => ?_, fun hecho => ?_⟩
    · rcases hwritten a ha with hnamed | rfl
      · exact hr (heq ▸ hnamed)
      · exact hne heq
    · rcases hechoes r (echoes_subset hecho) with heq | hmem
      · exact hcount heq
      · exact hhw hmem

section started

variable {macaddr : Fin 6 → Byte} (h : Loaded (d.softReset.configured macaddr).enabled w)

include h

theorem started_programmed : Programmed macaddr (w.issue (.set econ1 0x04)).chip := by
  have hmac : ∀ a ∈ laterRegs.take 11, regOf a ∉ looseRegs ∧ regOf a ≠ regOf eie := by decide +kernel
  have hpointer : ∀ p ∈ pointerValues, (p ∈ bufferWrites ∧ still (regOf p.1) = 0xFF ∨
      p ∈ (macWrites fun _ => 0).take 5) ∧ regOf p.1 ∉ looseRegs ∧ regOf p.1 ≠ regOf eie :=
    List.all_iff_forall_prop.mp (by decide +kernel)
  have haddress : addressValues macaddr = (macWrites macaddr).drop 5 := rfl
  have htake : (macWrites fun _ => 0).take 5 = (macWrites macaddr).take 5 := rfl
  refine ⟨fun p hp => ?_, fun p hp => ?_, ?_, ?_⟩
  · rw [haddress] at hp
    have hmem := List.mem_of_mem_drop hp
    obtain ⟨hr, hne⟩ := hmac p.1 (List.mem_map_of_mem (f := Prod.fst) hmem)
    exact (h.reg hr hne).trans (configured_macWrites _ _ p hmem)
  · obtain ⟨hmem, hr, hne⟩ := hpointer p hp
    refine (h.reg hr hne).trans ?_
    rcases hmem with ⟨hmem, hstill⟩ | hmem
    · exact configured_bufferWrites _ _ p hmem hstill
    · rw [htake] at hmem
      exact configured_macWrites _ _ p (List.mem_of_mem_take hmem)
  · rw [h.phy, configured_phy, Function.update_of_ne (by decide), Function.update_self]
  · rw [h.phy, configured_phy, Function.update_self]

theorem started_landed_iff :
    Landed macaddr d.por (w.issue (.set econ1 0x04)).chip ↔ Preset d.por d.phy := by
  have hloose : ∀ a ∈ [macon3, edmadstl], regOf a ∉ looseRegs ∧ regOf a ≠ regOf eie := by decide
  have hmacon3 : (w.issue (.set econ1 0x04)).chip.get macon3 = d.por.reg (regOf macon3) :=
    (h.reg (hloose _ (by decide)).1 (hloose _ (by decide)).2).trans (configured_macon3 ..)
  have hedmadstl : (w.issue (.set econ1 0x04)).chip.reg (regOf edmadstl) = BitVec.ofNat 8 0x0476 :=
    (h.reg (hloose _ (by decide)).1 (hloose _ (by decide)).2).trans (configured_edmadstl ..)
  have hphlcon : (w.issue (.set econ1 0x04)).chip.phy (argOf phlcon) = d.phy (argOf phlcon) := by
    rw [h.phy, configured_phy, Function.update_of_ne (by decide), Function.update_of_ne (by decide)]
    rfl
  constructor
  · intro hlanded
    refine ⟨hmacon3 ▸ hlanded.macon3, hphlcon ▸ hlanded.phlcon, ?_⟩
    rw [← hlanded.unnamed (regOf edmadstl) (by decide) (by decide)]
    exact hedmadstl
  · intro hpreset
    refine ⟨started_programmed h, hmacon3 ▸ hpreset.macon3, hphlcon ▸ hpreset.phlcon, fun r hr hhw => ?_⟩
    by_cases hne : r = regOf edmadstl
    · rw [hne, hedmadstl, hpreset.edmadstl]
    · have hrloose : r ∉ looseRegs := by
        intro hmem
        rcases List.mem_append.mp hmem with hmem | hmem
        · exact hhw (List.mem_append_left _ hmem)
        · rcases List.mem_pair.mp hmem with rfl | rfl
          · exact hhw (by decide)
          · exact hr (by decide)
      have hreie : r ≠ regOf eie := fun heq => hr (heq ▸ by decide)
      exact (h.reg hrloose hreie).trans (configured_unnamed hr hhw hne _ _)

end started

/-- From any world, the start ends where it ends from empty histories. -/
theorem init_started {fuel : ℕ} {macaddr : Fin 6 → Byte}
    (h : (enc28j60Init fuel macaddr).exec w = (some (), w')) :
    ∃ (d : Chip) (v : World), (d.por = w.chip.por ∧ d.phy = w.chip.phy) ∧
      Loaded (d.softReset.configured macaddr).enabled v ∧
      (v.issue (.set econ1 0x04)).chip.reg = w'.chip.reg ∧
      (v.issue (.set econ1 0x04)).chip.phy = w'.chip.phy := by
  have hmark : World.Alike w (w.mark w.chip.spi [] []) := ⟨[], [], rfl⟩
  obtain ⟨t, hexec, halike⟩ := (alike_init fuel macaddr).exec hmark h
  obtain ⟨d, v, hd, -, hloaded, rfl⟩ := (triple_start fuel macaddr w.chip.por w.chip.phy).returned
    (s := w.mark w.chip.spi [] []) ⟨rfl, rfl, rfl⟩ hexec
  exact ⟨d, v, hd, hloaded, (alike_chip halike).1, (alike_chip halike).2.1⟩

theorem Programmed.congr {macaddr : Fin 6 → Byte} {c' : Chip} (hreg : c.reg = c'.reg)
    (hphy : c.phy = c'.phy) (h : Programmed macaddr c) : Programmed macaddr c' where
  maadr p hp := (congrFun hreg (regOf p.1)).symm.trans (h.maadr p hp)
  pointers p hp := (congrFun hreg (regOf p.1)).symm.trans (h.pointers p hp)
  phcon1 := hphy ▸ h.phcon1
  phcon2 := hphy ▸ h.phcon2

theorem Landed.congr {macaddr : Fin 6 → Byte} {por : ResetValues} {c' : Chip} (hreg : c.reg = c'.reg)
    (hphy : c.phy = c'.phy) (h : Landed macaddr por c) : Landed macaddr por c' where
  toProgrammed := h.toProgrammed.congr hreg hphy
  macon3 := by
    rw [Chip.get, ← hreg]
    exact h.macon3
  phlcon := hphy ▸ h.phlcon
  unnamed r hr hhw := hreg ▸ h.unnamed r hr hhw

/-- After `enc28j60Init` returns, from any state of the chip and of the driver's variables, the buffer
pointers, the frame length, the MAC address, `PHCON1` and `PHCON2` are as programmed; everything is as it was
meant to be exactly if `MACON3`, `PHLCON` and `EDMADSTL` are so without the accesses that miss. -/
theorem init_lands_iff {fuel : ℕ} {macaddr : Fin 6 → Byte}
    (h : (enc28j60Init fuel macaddr).exec w = (some (), w')) :
    Programmed macaddr w'.chip ∧
      (Landed macaddr w.chip.por w'.chip ↔ Preset w.chip.por w.chip.phy) := by
  obtain ⟨d, v, ⟨hpor, hphy⟩, hloaded, hreg', hphy'⟩ := init_started h
  refine ⟨(started_programmed hloaded).congr hreg' hphy', ?_⟩
  rw [← hpor, ← hphy, ← started_landed_iff hloaded]
  exact ⟨Landed.congr hreg'.symm hphy'.symm, Landed.congr hreg' hphy'⟩

theorem init_lands_prompt : ∃ w', (enc28j60Init 1 fun _ => 0).exec (promptWorld fun _ => []) = (some (), w') ∧
    Programmed (fun _ => 0) w'.chip := by
  obtain ⟨w', hw'⟩ := prompt_init
  exact ⟨w', hw', (init_lands_iff hw').1⟩

/-- `MACON3` and `PHLCON` hold 0 there, and `EDMADSTL` does not. -/
theorem init_misses : ∃ w', (enc28j60Init 1 fun _ => 0).exec (promptWorld fun _ => []) = (some (), w') ∧
    ¬ Landed (fun _ => 0) (promptWorld fun _ => []).chip.por w'.chip ∧
    w'.chip.get macon3 = 0 ∧ w'.chip.phy (argOf phlcon) = 0 ∧ w'.chip.get edmadstl = 0x76 := by
  obtain ⟨w', hw'⟩ := prompt_init
  obtain ⟨d, v, ⟨hpor, hphy⟩, hloaded, hreg', hphy'⟩ := init_started hw'
  have hloose : ∀ a ∈ [macon3, edmadstl], regOf a ∉ looseRegs ∧ regOf a ≠ regOf eie := by decide
  have hmacon3 : w'.chip.get macon3 = 0 := by
    rw [Chip.get, ← hreg', hloaded.reg (hloose _ (by decide)).1 (hloose _ (by decide)).2, configured_macon3]
    show d.por.reg (regOf macon3) = 0
    rw [hpor]
    decide
  refine ⟨w', hw', fun hlanded => ?_, hmacon3, ?_, ?_⟩
  · have hbits := hlanded.macon3
    rw [hmacon3] at hbits
    exact absurd hbits (by decide)
  · rw [← hphy', hloaded.phy, configured_phy, Function.update_of_ne (by decide), Function.update_of_ne (by decide)]
    show d.phy (argOf phlcon) = 0
    rw [hphy]
    rfl
  · rw [Chip.get, ← hreg', hloaded.reg (hloose _ (by decide)).1 (hloose _ (by decide)).2, configured_edmadstl]
    rfl

end LoraGateway.Enc28j60
