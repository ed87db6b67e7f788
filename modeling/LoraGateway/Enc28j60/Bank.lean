import LoraGateway.Enc28j60.Commands

/-!
# The register file behind the bank switching

What the driver means is a register file addressed by its constants (`RegFile`), with one cell for
each of them. What it has is a chip with four banks and a cached copy of the bank select bits. The two
agree as long as the cache is right: each access then reaches the register its constant names
(`Linked`), and the registers hold what the commands issued so far make of the file, in the bits that
the chip does not change by itself (`kept`).

Between calls the cache is the bank (`Synced`). It is not after a reset, which puts the chip back to
bank 0 behind the driver's back; the first access after it is to a shared register of bank 0, and
`enc28j60SetBank` is right for that one whatever the cache holds (`Ready`). A call that breaks the
invariant has to write the bank bits of `ECON1` by itself (`Call.KeepsBank`).
-/

namespace LoraGateway.Enc28j60

open Lib Lib.Prog

/-! ## The file -/

abbrev RegFile := Reg → Byte

/-- The register a command names. -/
def Issue.reg? : Issue → Option Reg
  | .reset => none
  | .read address | .write address _ | .set address _ | .clear address _ => some (regOf address)

/-- The file after a command, addressed by the constant. -/
def RegFile.apply (por f : RegFile) : Issue → RegFile
  | .reset => por
  | .read _ => f
  | .write address data => Function.update f (regOf address) data
  | .set address data =>
    if (regOf address).macMii then f
    else Function.update f (regOf address) (f (regOf address) ||| data)
  | .clear address data =>
    if (regOf address).macMii then f
    else Function.update f (regOf address) (f (regOf address) &&& ~~~data)

/-- The file that the commands issued so far make. -/
def World.file (w : World) : RegFile := w.issued.foldl (RegFile.apply w.chip.por.reg) w.chip.por.reg

/-- The bits that only what the driver issues changes, its bank switching apart. -/
def kept (r : Reg) : Byte := if r = regOf econ1 then 0xD4 else still r

theorem kept_eq (r : Reg) : kept r = still r &&& kept r := by
  rw [kept]
  split_ifs with h
  · rw [h]; decide
  · rw [BitVec.and_self]

/-- The registers are the file's, in the bits kept. -/
def Chip.Agree (c : Chip) (f : RegFile) : Prop := ∀ r, c.reg r &&& kept r = f r &&& kept r

variable {c c' : Chip} {f por : RegFile} {r : Reg} {v : Byte} {w : World} {address data : Byte}

theorem Chip.Agree.same (h : c.Agree f) (hs : c.Same c') : c'.Agree f := by
  intro r
  rw [← h r, kept_eq, ← BitVec.and_assoc, hs r, BitVec.and_assoc]

theorem Chip.Same.symm (h : c.Same c') : c'.Same c := fun r => (h r).symm

theorem still_readOnlyRegs : ∀ r ∈ readOnlyRegs, still r = 0 := by decide

theorem store_same (c : Chip) (r : Reg) (v : Byte) : (c.set r v).Same (c.store r v) := by
  simp only [Chip.store]
  split_ifs with hro h₁ h₂ h₃ h₄ h₅
  · exact ((Chip.Same.refl c).set_volatile (still_readOnlyRegs r hro)).symm
  · subst h₁
    exact fun _ => rfl
  · subst h₂
    have hset : (c.set (regOf econ2) v).set (regOf econ2) (v &&& ~~~0x40) =
        c.set (regOf econ2) (v &&& ~~~0x40) := by
      simp only [Chip.set, Function.update_idem]
    have h := (Chip.Same.refl (c.set (regOf econ2) v)).set (r := regOf econ2)
      (v := v &&& ~~~0x40) (by
        rw [Chip.set_reg_self, show still (regOf econ2) = 0xBF by decide, BitVec.and_assoc]
        rfl)
    rw [hset] at h
    exact h.set_volatile (by decide)
  · exact fun _ => rfl
  · exact (Chip.Same.refl _).setPtr (by decide) (by decide)
  · exact (Chip.Same.refl _).set_volatile (by decide)
  · exact .refl _

theorem Chip.Agree.store (h : c.Agree f) (r : Reg) (v : Byte) :
    (c.store r v).Agree (Function.update f r v) := by
  have hset : (c.set r v).Agree (Function.update f r v) := by
    intro r'
    by_cases hr : r' = r
    · subst hr
      simp only [Chip.set, Function.update_self]
    · simp only [Chip.set, Function.update_of_ne hr]
      exact h r'
  exact hset.same (store_same c r v)

/-- A change that depends on the old value only in the bits kept. -/
theorem Chip.Agree.congr {f' : RegFile} (h : c.Agree f) (hf : ∀ r, f r &&& kept r = f' r &&& kept r) :
    c.Agree f' := fun r => (h r).trans (hf r)

theorem Chip.Agree.bitSet (h : c.Agree f) (r : Reg) (d : Byte) :
    (c.bitSet r d).Agree (if r.macMii then f else Function.update f r (f r ||| d)) := by
  rw [Chip.bitSet]
  split_ifs with hmac
  · exact h
  · refine (h.store r _).congr fun r' => ?_
    by_cases hr : r' = r
    · subst hr
      simp only [Function.update_self, BitVec.and_comm _ (kept r'), BitVec.and_or_distrib_left]
      rw [BitVec.and_comm, h r', BitVec.and_comm]
    · simp only [Function.update_of_ne hr]

theorem Chip.Agree.bitClear (h : c.Agree f) (r : Reg) (d : Byte) :
    (c.bitClear r d).Agree (if r.macMii then f else Function.update f r (f r &&& ~~~d)) := by
  rw [Chip.bitClear]
  split_ifs with hmac
  · exact h
  · refine (h.store r _).congr fun r' => ?_
    by_cases hr : r' = r
    · subst hr
      simp only [Function.update_self]
      rw [BitVec.and_assoc, BitVec.and_comm (~~~d), ← BitVec.and_assoc, h r', BitVec.and_assoc,
        BitVec.and_comm (kept r'), ← BitVec.and_assoc]
    · simp only [Function.update_of_ne hr]

/-- The command reaches the register it names. -/
def Issue.Hits (i : Issue) (c : Chip) : Prop :=
  match i with
  | .reset => True
  | .read address | .write address _ | .set address _ | .clear address _ =>
    c.target address = regOf address

theorem Chip.Agree.command {i : Issue} (h : c.Agree f) (hi : i.Hits c) :
    (c.command i).Agree (RegFile.apply c.por.reg f i) := by
  cases i with
  | reset => exact fun _ => rfl
  | read address => exact h
  | write address data =>
    rw [Chip.command, show c.target address = regOf address from hi]
    exact h.store _ _
  | set address data =>
    rw [Chip.command, show c.target address = regOf address from hi]
    exact h.bitSet _ _
  | clear address data =>
    rw [Chip.command, show c.target address = regOf address from hi]
    exact h.bitClear _ _

/-! ## Banks -/

/-- A bank in bits 5 and 6. -/
def bankByte (b : BitVec 2) : Byte := b.setWidth 8 <<< 5

theorem and_bankMask : ∀ address : Byte, address &&& bankMask = bankByte (bankOf address) := by
  decide

theorem bankByte_inj : ∀ b b' : BitVec 2, bankByte b = bankByte b' → b = b' := by decide

theorem target_eq (h : c.bsel = bankOf address) : c.target address = regOf address := by
  rw [Chip.target, regOf, h]

theorem target_shared (h : 0x1B ≤ argOf address) : c.target address = regOf address := by
  rw [Chip.target, regOf, Reg.at, Reg.at, if_pos h, if_pos h]

theorem event_por (c : Chip) (e : HwEvent) : (c.event e).por = c.por := by
  cases e <;> simp only [Chip.event, Chip.receive, Chip.endTx] <;> (try split_ifs) <;> rfl

theorem hear_por (w : World) : w.hear.chip.por = w.chip.por :=
  hear_rel (R := fun c c' => c'.por = c.por) (fun _ => rfl) (fun _ _ _ h h' => h'.trans h)
    event_por w

theorem store_por (c : Chip) (r : Reg) (v : Byte) : (c.store r v).por = c.por := by
  simp only [Chip.store]
  split_ifs <;> rfl

theorem command_por (c : Chip) (i : Issue) : (c.command i).por = c.por := by
  cases i with
  | reset => rfl
  | read address => rfl
  | write address data => exact store_por ..
  | set address data =>
    show (c.bitSet _ _).por = c.por
    rw [Chip.bitSet]
    split_ifs
    · rfl
    · exact store_por ..
  | clear address data =>
    show (c.bitClear _ _).por = c.por
    rw [Chip.bitClear]
    split_ifs
    · rfl
    · exact store_por ..

theorem command_spi (c : Chip) (i : Issue) : (c.command i).spi = c.spi := by
  cases i with
  | reset => rfl
  | read address => rfl
  | write address data => exact store_spi ..
  | set address data => exact bitSet_spi ..
  | clear address data => exact bitClear_spi ..

theorem command_reached {i : Issue} (hi : i.Hits c) :
    (c.command i).reached = c.reached ++ i.reg?.toList := by
  cases i with
  | reset => exact (List.append_nil _).symm
  | read address | write address data | set address data | clear address data =>
    show c.reached ++ [c.target address] = _
    rw [show c.target address = regOf address from hi]
    rfl

/-- Every access so far has reached the register it named, and the registers are the file's. -/
structure Linked (w : World) : Prop where
  idle : w.Idle
  reached : w.chip.reached = w.issued.filterMap Issue.reg?
  agree : w.chip.Agree w.file

theorem Linked.hear (h : Linked w) : Linked w.hear where
  idle := h.idle.hear
  reached := by rw [hear_reached, hear_issued, h.reached]
  agree := by
    rw [World.file, hear_por, hear_issued]
    exact h.agree.same (hear_same w)

theorem Linked.issue {i : Issue} (h : Linked w) (hi : i.Hits w.chip) : Linked (w.issue i) where
  idle := (command_spi ..).trans h.idle
  reached := by
    show (w.chip.command i).reached = (w.issued ++ [i]).filterMap Issue.reg?
    rw [command_reached hi, h.reached, List.filterMap_append]
    cases i <;> rfl
  agree := by
    have hfile : (w.issue i).file = RegFile.apply w.chip.por.reg w.file i := by
      show (w.issued ++ [i]).foldl (RegFile.apply (w.chip.command i).por.reg)
        (w.chip.command i).por.reg = _
      rw [List.foldl_append, command_por]
      rfl
    rw [hfile]
    exact h.agree.command hi

/-- The cache holds the bank selected. -/
structure Synced (w : World) : Prop where
  linked : Linked w
  bank : w.enc28j60Bank = bankByte w.chip.bsel

/-- `enc28j60SetBank` can rely on the cache for this address. -/
structure Ready (address : Byte) (w : World) : Prop where
  linked : Linked w
  bank : address &&& bankMask = w.enc28j60Bank → w.chip.bsel = bankOf address

/-- The bank of this address is selected. -/
structure Banked (address : Byte) (w : World) : Prop where
  linked : Linked w
  bsel : w.chip.bsel = bankOf address
  bank : w.enc28j60Bank = address &&& bankMask

theorem Synced.ready (h : Synced w) : Ready address w where
  linked := h.linked
  bank heq := by
    rw [h.bank, and_bankMask] at heq
    exact (bankByte_inj _ _ heq).symm

theorem Banked.synced (h : Banked address w) : Synced w where
  linked := h.linked
  bank := by rw [h.bank, h.bsel, and_bankMask]

theorem hear_bank (w : World) : w.hear.enc28j60Bank = w.enc28j60Bank := rfl

theorem Synced.hear (h : Synced w) : Synced w.hear where
  linked := h.linked.hear
  bank := by rw [hear_bank, (hear_same w).bsel_eq, h.bank]

theorem Banked.hear (h : Banked address w) : Banked address w.hear where
  linked := h.linked.hear
  bsel := by rw [(hear_same w).bsel_eq, h.bsel]
  bank := by rw [hear_bank, h.bank]

theorem Ready.hear (h : Ready address w) : Ready address w.hear where
  linked := h.linked.hear
  bank := by rw [hear_bank, (hear_same w).bsel_eq]; exact h.bank

/-! ## Switching banks -/

/-- A property that depends neither on the bank selected nor on the histories and the cache, and that
what the chip does by itself keeps. -/
structure Steady (P : World → Prop) : Prop where
  hear : Stable P
  rebank : ∀ (w : World) (v : Byte) (s : Spi) (l : List Reg) (b : Byte) (issued : List Issue),
    v &&& ~~~0x03 = w.chip.get econ1 &&& ~~~0x03 → P w →
      P { w with
        chip := (w.chip.set (regOf econ1) v).mark s l
        enc28j60Bank := b
        issued := issued }

theorem Steady.true : Steady fun _ => True := ⟨fun _ _ => trivial, fun _ _ _ _ _ _ _ _ => trivial⟩

theorem Steady.and {P P' : World → Prop} (h : Steady P) (h' : Steady P') :
    Steady fun w => P w ∧ P' w where
  hear w hw := ⟨h.hear w hw.1, h'.hear w hw.2⟩
  rebank w v s l b issued hv hw := ⟨h.rebank w v s l b issued hv hw.1, h'.rebank w v s l b issued hv hw.2⟩

theorem or_low (a : Byte) {b : Byte} (hb : b &&& ~~~0x03 = 0) :
    (a ||| b) &&& ~~~0x03 = a &&& ~~~0x03 := by
  rw [BitVec.and_comm, BitVec.and_or_distrib_left, BitVec.and_comm _ b, hb, BitVec.and_comm]
  exact BitVec.or_zero

theorem clear_low (a : Byte) : a &&& ~~~0x03 &&& ~~~0x03 = a &&& ~~~0x03 := by
  rw [BitVec.and_assoc, BitVec.and_self]

theorem store_econ1 (hv : v &&& ~~~0x03 = c.reg (regOf econ1) &&& ~~~0x03) :
    c.store (regOf econ1) v = c.set (regOf econ1) v := by
  have hbit : v.getLsbD 3 = c.txrts := by
    simpa [Chip.txrts, Chip.get] using congrArg (fun x => BitVec.getLsbD x 3) hv
  rw [Chip.store, if_neg (by decide), if_pos rfl, Chip.storeEcon1, hbit]
  cases c.txrts <;> rfl

section Steady

variable {P : World → Prop}

theorem Steady.read (hP : Steady P) (h : P w) : P (w.issue (.read address)) := by
  have := hP.rebank w (w.chip.get econ1) w.chip.spi (w.chip.reached ++ [w.chip.target address])
    w.enc28j60Bank (w.issued ++ [.read address]) rfl h
  rwa [Chip.set, Chip.get, Function.update_eq_self] at this

theorem Steady.clear (hP : Steady P) (h : P w) : P (w.issue (.clear econ1 0x03)) := by
  have := hP.rebank w (w.chip.get econ1 &&& ~~~0x03) w.chip.spi
    (w.chip.reached ++ [w.chip.target econ1]) w.enc28j60Bank (w.issued ++ [.clear econ1 0x03])
    (clear_low _) h
  rw [World.issue, Chip.command, Chip.bitClear, target_shared (by decide),
    if_neg (by decide), store_econ1 (clear_low _)]
  exact this

theorem Steady.set {b : Byte} (hP : Steady P) (hb : b &&& ~~~0x03 = 0) (h : P w) :
    P (w.issue (.set econ1 b)) := by
  have := hP.rebank w (w.chip.get econ1 ||| b) w.chip.spi
    (w.chip.reached ++ [w.chip.target econ1]) w.enc28j60Bank (w.issued ++ [.set econ1 b])
    (or_low _ hb) h
  rw [World.issue, Chip.command, Chip.bitSet, target_shared (by decide), if_neg (by decide),
    store_econ1 (or_low _ hb)]
  exact this

theorem Steady.cache (hP : Steady P) (b : Byte) (h : P w) : P { w with enc28j60Bank := b } := by
  have := hP.rebank w (w.chip.get econ1) w.chip.spi w.chip.reached b w.issued rfl h
  rwa [Chip.set, Chip.get, Function.update_eq_self] at this

end Steady

theorem bsel_clear (c : Chip) :
    (c.bitClear (regOf econ1) 0x03).bsel = 0 := by
  rw [Chip.bitClear, if_neg (by decide), store_econ1 (clear_low _), Chip.bsel, Chip.get, Chip.set_reg_self]
  apply BitVec.eq_of_getLsbD_eq
  intro i hi
  obtain rfl | rfl : i = 0 ∨ i = 1 := by omega
  all_goals simp

theorem bank_bits : ∀ address : Byte, ((address &&& bankMask) >>> 5) &&& ~~~0x03 = 0 ∧
    ((address &&& bankMask) >>> 5).extractLsb' 0 2 = bankOf address := by
  decide

theorem bsel_set (h : c.bsel = 0) (address : Byte) :
    (c.bitSet (regOf econ1) ((address &&& bankMask) >>> 5)).bsel = bankOf address := by
  obtain ⟨hlow, hbank⟩ := bank_bits address
  rw [Chip.bitSet, if_neg (by decide), store_econ1 (or_low _ hlow), Chip.bsel, Chip.get,
    Chip.set_reg_self, BitVec.extractLsb'_or, hbank,
    show (c.reg (regOf econ1)).extractLsb' 0 2 = 0 from h]
  exact BitVec.zero_or

variable {P R : World → Prop}

theorem triple_setBank (hP : Steady P) (address : Byte) :
    Triple (fun w => Ready address w ∧ P w) (enc28j60SetBank address)
      (fun _ w => Banked address w ∧ P w) R := by
  refine Triple.bind (Q := fun bank w => bank = w.enc28j60Bank ∧ Ready address w ∧ P w)
    (Triple.look fun w h => ⟨rfl, h⟩) fun bank => ?_
  split_ifs with hne
  · -- clear, then set, then remember
    have hclear : Triple (fun w => Ready address w ∧ P w) (enc28j60WriteOp bitFieldClr econ1 0x03)
        (fun _ w => (Linked w ∧ w.chip.bsel = 0) ∧ P w) R := by
      refine (triple_clear (P := fun w => Linked w ∧ P w)
        (fun w h => ⟨h.1.hear, hP.hear w h.2⟩) fun w _ h => ?_).pre
        fun w h => ⟨h.1.linked.idle, h.1.linked, h.2⟩
      refine ⟨⟨h.1.issue (target_shared (by decide)), ?_⟩, hP.clear h.2⟩
      show (w.chip.bitClear (w.chip.target econ1) 0x03).bsel = 0
      rw [target_shared (by decide), bsel_clear]
    have hset : Triple (fun w => (Linked w ∧ w.chip.bsel = 0) ∧ P w)
        (enc28j60WriteOp bitFieldSet econ1 ((address &&& bankMask) >>> 5))
        (fun _ w => (Linked w ∧ w.chip.bsel = bankOf address) ∧ P w) R := by
      refine (triple_set (P := fun w => (Linked w ∧ w.chip.bsel = 0) ∧ P w)
        (fun w h => ⟨⟨h.1.1.hear, ?_⟩, hP.hear w h.2⟩) fun w _ h => ?_).pre
        fun w h => ⟨h.1.1.idle, h⟩
      · rw [(hear_same w).bsel_eq, h.1.2]
      · refine ⟨⟨h.1.1.issue (target_shared (by decide)), ?_⟩, hP.set (bank_bits address).1 h.2⟩
        show (w.chip.bitSet (w.chip.target econ1) _).bsel = _
        rw [target_shared (by decide), bsel_set h.1.2]
    refine (hclear.pre fun w h => h.2).bind fun _ => hset.bind fun _ => Triple.update fun w h => ?_
    exact ⟨⟨⟨h.1.1.idle, h.1.1.reached, h.1.1.agree⟩, h.1.2, rfl⟩, hP.cache _ h.2⟩
  · refine Triple.pure fun w h => ⟨⟨h.2.1.linked, h.2.1.bank ?_, ?_⟩, h.2.2⟩
    · rw [← h.1]; exact not_not.mp hne
    · rw [← h.1]; exact (not_not.mp hne).symm

/-- A read of a register: of the value it has when it is read, if the constant is right about the
dummy byte. `K` is what holds of `P` after the chip has had its time. -/
theorem triple_enc28j60Read {K : World → Prop} (hP : Steady P) {address : Byte}
    (hK : ∀ w, P w → K w.hear) (hread : ∀ w, K w → K (w.issue (.read address))) :
    Triple (fun w => Ready address w ∧ P w) (enc28j60Read address)
      (fun x w => Banked address w ∧ K w ∧
        (address.getLsbD 7 = (regOf address).macMii → x = w.chip.get address)) R := by
  refine (triple_setBank hP address).bind fun _ =>
    (triple_read (P := fun w => Banked address w ∧ P w) (K := fun w => Banked address w ∧ K w)
      (fun w h => ⟨h.1.hear, hP.hear w h.2⟩) (fun w h => ⟨h.1.hear, hK w h.2⟩)
      fun w x _ h hx => ?_).pre fun w h => ⟨h.1.linked.idle, h⟩
  have htarget := target_eq h.1.bsel
  refine ⟨⟨h.1.linked.issue htarget, h.1.bsel, h.1.bank⟩, hread w h.2, fun hmac => ?_⟩
  rw [htarget] at hx
  exact hx hmac

theorem triple_enc28j60Write {Q : Unit → World → Prop} (hP : Steady P) {address data : Byte}
    (h : ∀ w, Banked address w → P w → Q () (w.issue (.write address data))) :
    Triple (fun w => Synced w ∧ P w) (enc28j60Write address data) Q R :=
  ((triple_setBank hP address).pre fun _ h => ⟨h.1.ready, h.2⟩).bind fun _ =>
    (triple_write (P := fun w => Banked address w ∧ P w) (fun w h => ⟨h.1.hear, hP.hear w h.2⟩)
      fun w _ hw => h w hw.1 hw.2).pre fun _ h => ⟨h.1.linked.idle, h⟩

end LoraGateway.Enc28j60
