import LoraGateway.Enc28j60.Bank

/-!
# What the calls keep

The functions of the driver, one after another, from the invariant between calls (`Synced`) and a
property that does not depend on the bank (`Steady`): what has to be shown of the property is that the
commands of the function keep it, and the rest is bank switching. `enc28j60Init`, which starts without
the invariant, has a module of its own.
-/

namespace LoraGateway.Enc28j60

open Lib Lib.Prog

variable {P R : World → Prop} {w : World} {c : Chip} {r : Reg} {v address data : Byte}

/-! ## Commands -/

theorem bsel_store (h : r ≠ regOf econ1 ∨ v.extractLsb' 0 2 = c.bsel) :
    (c.store r v).bsel = c.bsel := by
  rw [(store_same c r v).bsel_eq, Chip.bsel, Chip.bsel, Chip.get, Chip.get]
  by_cases hr : r = regOf econ1
  · subst hr
    rw [Chip.set_reg_self]
    exact h.resolve_left fun hne => hne rfl
  · rw [Chip.set_reg_of_ne (Ne.symm hr)]

theorem regOf_addr (address : Byte) : (regOf address).addr = argOf address := by
  rw [regOf, Reg.at]
  split_ifs <;> rfl

theorem argOf_of_regOf {a b : Byte} (h : regOf a = regOf b) : argOf a = argOf b := by
  rw [← regOf_addr, h, regOf_addr]

/-- A write that does not change the bank behind the driver's back. -/
def KeepsBank (address data : Byte) : Prop :=
  argOf address = argOf econ1 → data.extractLsb' 0 2 = bankOf address

instance (address data : Byte) : Decidable (KeepsBank address data) :=
  inferInstanceAs (Decidable (_ → _))

theorem keepsBank_of_ne (h : argOf address ≠ argOf econ1) : KeepsBank address data :=
  fun heq => absurd heq h

theorem keepsBank_table {l : List (Byte × Byte)}
    (h : ∀ a ∈ l.map Prod.fst, argOf a ≠ argOf econ1) : ∀ p ∈ l, KeepsBank p.1 p.2 :=
  fun _ hp => keepsBank_of_ne (h _ (List.mem_map_of_mem hp))

theorem Banked.write (h : Banked address w) (hok : KeepsBank address data) :
    Banked address (w.issue (.write address data)) where
  linked := h.linked.issue (target_eq h.bsel)
  bsel := by
    show (w.chip.store (w.chip.target address) data).bsel = _
    rw [bsel_store, h.bsel]
    rw [target_eq h.bsel, h.bsel]
    by_cases heq : regOf address = regOf econ1
    · exact .inr (hok (argOf_of_regOf heq))
    · exact .inl heq
  bank := h.bank

theorem Synced.set (h : Synced w) (hshared : 0x1B ≤ argOf address)
    (hok : argOf address = argOf econ1 → data.extractLsb' 0 2 = 0) :
    Synced (w.issue (.set address data)) where
  linked := h.linked.issue (target_shared hshared)
  bank := by
    have hbsel : (w.issue (.set address data)).chip.bsel = w.chip.bsel := by
      show (w.chip.bitSet (w.chip.target address) data).bsel = w.chip.bsel
      rw [target_shared hshared, Chip.bitSet]
      split_ifs
      · rfl
      · refine bsel_store ?_
        by_cases heq : regOf address = regOf econ1
        · refine .inr ?_
          rw [heq, BitVec.extractLsb'_or, hok (argOf_of_regOf heq)]
          exact BitVec.or_zero
        · exact .inl heq
    rw [hbsel]
    exact h.bank

theorem Synced.clear (h : Synced w) (hshared : 0x1B ≤ argOf address)
    (hok : argOf address = argOf econ1 → data.extractLsb' 0 2 = 0) :
    Synced (w.issue (.clear address data)) where
  linked := h.linked.issue (target_shared hshared)
  bank := by
    have hbsel : (w.issue (.clear address data)).chip.bsel = w.chip.bsel := by
      show (w.chip.bitClear (w.chip.target address) data).bsel = w.chip.bsel
      rw [target_shared hshared, Chip.bitClear]
      split_ifs
      · rfl
      · refine bsel_store ?_
        by_cases heq : regOf address = regOf econ1
        · refine .inr ?_
          have hdata := hok (argOf_of_regOf heq)
          apply BitVec.eq_of_getLsbD_eq
          intro i hi
          have hbit : data.getLsbD i = false := by
            simpa [hi] using congrArg (fun x => BitVec.getLsbD x i) hdata
          have hi8 : i < 8 := by omega
          rw [heq, BitVec.getLsbD_extractLsb', BitVec.getLsbD_and, BitVec.getLsbD_not, Nat.zero_add,
            hbit]
          simp [Chip.bsel, Chip.get, hi, hi8]
        · exact .inl heq
    rw [hbsel]
    exact h.bank

theorem Linked.fetched (h : Linked w) : Linked w.fetched where
  idle := (fetch_spi _).trans h.idle
  reached := (fetch_reached _).trans h.reached
  agree := by
    have hpor : w.chip.fetch.2.por = w.chip.por := by
      rw [Chip.fetch]
      split_ifs <;> rfl
    show w.chip.fetch.2.Agree
      (w.issued.foldl (RegFile.apply w.chip.fetch.2.por.reg) w.chip.fetch.2.por.reg)
    rw [hpor]
    exact h.agree.same (fetch_same _)

theorem Linked.pushed (h : Linked w) (b : Byte) : Linked (w.pushed b) where
  idle := (push_spi ..).trans h.idle
  reached := (push_reached ..).trans h.reached
  agree := by
    have hpor : (w.chip.push b).por = w.chip.por := by
      rw [Chip.push]
      split_ifs <;> rfl
    show (w.chip.push b).Agree
      (w.issued.foldl (RegFile.apply (w.chip.push b).por.reg) (w.chip.push b).por.reg)
    rw [hpor]
    exact h.agree.same (push_same w.chip b)

theorem Synced.fetched (h : Synced w) : Synced w.fetched where
  linked := h.linked.fetched
  bank := by
    show w.enc28j60Bank = bankByte w.chip.fetch.2.bsel
    rw [(fetch_same _).bsel_eq, h.bank]

theorem Synced.pushed (h : Synced w) (b : Byte) : Synced (w.pushed b) where
  linked := h.linked.pushed b
  bank := by
    show w.enc28j60Bank = bankByte (w.chip.push b).bsel
    rw [(push_same w.chip b).bsel_eq, h.bank]

/-- The registers that a write to `r` sets off a change of. -/
def echoes (r : Reg) : List Reg :=
  if r = regOf econ2 then [regOf epktcnt]
  else if r ∈ [erxstl, erxsth, erxndl, erxndh].map regOf then [erxwrptl, erxwrpth].map regOf
  else if r = regOf miwrh then [regOf mistat]
  else []

theorem echoes_subset {r' : Reg} (h : r' ∈ echoes r) :
    r' ∈ [epktcnt, erxwrptl, erxwrpth, mistat].map regOf := by
  unfold echoes at h
  split_ifs at h
  all_goals simp only [List.map_cons, List.map_nil, List.mem_cons, List.not_mem_nil] at h ⊢
  all_goals grind

theorem store_reg_of_ne {r' : Reg} (h : r' ≠ r) (hr : r' ∉ echoes r) :
    (c.store r v).reg r' = c.reg r' := by
  simp only [Chip.store]
  split_ifs with _ h₁ h₂ _ h₄ h₅
  · rfl
  · exact Chip.set_reg_of_ne (h₁ ▸ h) ..
  · rw [echoes, if_pos h₂, List.mem_singleton] at hr
    exact (Chip.set_reg_of_ne hr ..).trans (Chip.set_reg_of_ne (h₂ ▸ h) ..)
  · exact Chip.set_reg_of_ne h ..
  · rw [echoes, if_neg h₂, if_pos h₄, List.map_cons, List.map_singleton, List.mem_pair, not_or] at hr
    exact (Chip.set_reg_of_ne hr.2 ..).trans
      ((Chip.set_reg_of_ne hr.1 ..).trans (Chip.set_reg_of_ne h ..))
  · rw [echoes, if_neg h₂, if_neg h₄, if_pos h₅, List.mem_singleton] at hr
    exact (Chip.set_reg_of_ne hr ..).trans (Chip.set_reg_of_ne h ..)
  · exact Chip.set_reg_of_ne h ..

theorem receive_reg (hr : r ∉ [erxwrptl, erxwrpth, epktcnt].map regOf) (c : Chip) (f : RxFrame) :
    (c.receive f).reg r = c.reg r := by
  simp only [List.map_cons, List.map_nil, List.mem_cons, List.not_mem_nil, or_false, not_or] at hr
  obtain ⟨h₁, h₂, h₃⟩ := hr
  rw [Chip.receive]
  split_ifs
  · exact (Chip.set_reg_of_ne h₃ ..).trans
      ((Chip.set_reg_of_ne h₂ ..).trans (Chip.set_reg_of_ne h₁ ..))
  · rfl

theorem receive_txrts (c : Chip) (f : RxFrame) : (c.receive f).txrts = c.txrts := by
  rw [Chip.txrts, Chip.get, receive_reg (by decide)]
  rfl

theorem receive_txerif (c : Chip) (f : RxFrame) : (c.receive f).txerif = c.txerif := by
  rw [Chip.txerif, Chip.get, receive_reg (by decide)]
  rfl

theorem event_txrts (h : c.txrts = false) (e : HwEvent) : (c.event e).txrts = false := by
  cases e with
  | frame f => exact (receive_txrts c f).trans h
  | txEnd aborted stuck status =>
    rw [Chip.event, Chip.endTx, h]
    exact h
  | status r v =>
    simp only [Chip.event]
    split_ifs with hr
    · have hne : regOf econ1 ≠ r := fun heq => absurd (heq ▸ hr) (by decide)
      rw [Chip.txrts, Chip.get, Chip.set_reg_of_ne hne]
      exact h
    · exact h
  | interrupt v =>
    rw [Chip.event, Chip.txrts, Chip.get, Chip.set_reg_of_ne (by decide)]
    exact h

theorem hear_txrts (h : w.chip.txrts = false) : w.hear.chip.txrts = false :=
  hear_rel (R := fun c c' => c.txrts = false → c'.txrts = false) (fun _ h => h)
    (fun _ _ _ h h' hc => h' (h hc)) (fun _ e h => event_txrts h e) w h

theorem event_txerif (h : c.txerif = true) (e : HwEvent) : (c.event e).txerif = true := by
  cases e with
  | frame f => exact (receive_txerif c f).trans h
  | txEnd aborted stuck status =>
    simp only [Chip.event, Chip.endTx]
    split_ifs
    all_goals first
      | exact h
      | rw [Chip.txerif, Chip.get, Chip.set_reg_self, BitVec.getLsbD_or, show (c.get eir).getLsbD 1 = true from h]
        rfl
  | status r v =>
    simp only [Chip.event]
    split_ifs with hr
    · have hne : regOf eir ≠ r := fun heq => absurd (heq ▸ hr) (by decide)
      rw [Chip.txerif, Chip.get, Chip.set_reg_of_ne hne]
      exact h
    · exact h
  | interrupt v =>
    rw [Chip.event, Chip.txerif, Chip.get, Chip.set_reg_self, BitVec.getLsbD_or, BitVec.getLsbD_and (x := c.get eir),
      show (c.get eir).getLsbD 1 = true from h]
    simp

theorem hear_txerif (h : w.chip.txerif = true) : w.hear.chip.txerif = true :=
  hear_rel (R := fun c c' => c.txerif = true → c'.txerif = true) (fun _ h => h)
    (fun _ _ _ h h' hc => h' (h hc)) (fun _ e h => event_txerif h e) w h

/-! ## Functions -/

/-- Between calls, with `P`. -/
abbrev Between (P : World → Prop) (w : World) : Prop := Synced w ∧ P w

theorem Steady.between (hP : Steady P) : Stable (Between P) :=
  fun w h => ⟨h.1.hear, hP.hear w h.2⟩

theorem steady_reg (hr : still r = 0xFF) (x : Byte) : Steady fun w => w.chip.reg r = x where
  hear w h := ((hear_same w).reg_eq hr).trans h
  rebank w v s l b issued _ h := by
    have hne : r ≠ regOf econ1 := fun heq => absurd (heq ▸ hr) (by decide)
    exact (Chip.set_reg_of_ne hne w.chip v).trans h

theorem keeps_write (hP : Steady P) (hok : KeepsBank address data)
    (h : ∀ w, Banked address w → P w → P (w.issue (.write address data))) :
    Triple (Between P) (enc28j60Write address data) (fun _ w => Banked address w ∧ P w) R :=
  triple_enc28j60Write hP fun w hw hp => ⟨hw.write hok, h w hw hp⟩

theorem keeps_read (hP : Steady P) (address : Byte) :
    Triple (Between P) (enc28j60Read address)
      (fun x w => Between P w ∧
        (address.getLsbD 7 = (regOf address).macMii → x = w.chip.get address)) R :=
  ((triple_enc28j60Read hP hP.hear fun _ => hP.read).pre fun _ h => ⟨h.1.ready, h.2⟩).post
    fun _ _ h => ⟨⟨h.1.synced, h.2.1⟩, h.2.2⟩

/-- Writes one after another, from `P d` to what they make of `d`. -/
theorem keeps_writeAll {δ : Type} {P : δ → World → Prop} {next : δ → Byte × Byte → δ}
    {l : List (Byte × Byte)} (hP : ∀ d, Steady (P d)) (hok : ∀ p ∈ l, KeepsBank p.1 p.2)
    (h : ∀ p ∈ l, ∀ d w, Banked p.1 w → P d w → P (next d p) (w.issue (.write p.1 p.2))) (d : δ) :
    Triple (Between (P d)) (enc28j60WriteAll l) (fun _ => Between (P (l.foldl next d))) R :=
  Triple.foldM (J := fun d => Between (P d)) (fun p hp d =>
    (triple_enc28j60Write (hP d) fun w hw hpw =>
      ⟨(hw.write (hok p hp)).synced, h p hp d w hw hpw⟩)) d

theorem keeps_set (hP : Stable P) (hshared : 0x1B ≤ argOf address)
    (hok : argOf address = argOf econ1 → data.extractLsb' 0 2 = 0) {P' : World → Prop}
    (h : ∀ w, Synced w → P w → P' (w.issue (.set address data))) :
    Triple (Between P) (enc28j60WriteOp bitFieldSet address data) (fun _ => Between P') R :=
  (triple_set (P := Between P) (fun w hw => ⟨hw.1.hear, hP w hw.2⟩) fun w _ hw =>
    ⟨hw.1.set hshared hok, h w hw.1 hw.2⟩).pre fun _ hw => ⟨hw.1.linked.idle, hw⟩

theorem keeps_clear (hP : Stable P) (hshared : 0x1B ≤ argOf address)
    (hok : argOf address = argOf econ1 → data.extractLsb' 0 2 = 0) {P' : World → Prop}
    (h : ∀ w, Synced w → P w → P' (w.issue (.clear address data))) :
    Triple (Between P) (enc28j60WriteOp bitFieldClr address data) (fun _ => Between P') R :=
  (triple_clear (P := Between P) (fun w hw => ⟨hw.1.hear, hP w hw.2⟩) fun w _ hw =>
    ⟨hw.1.clear hshared hok, h w hw.1 hw.2⟩).pre fun _ hw => ⟨hw.1.linked.idle, hw⟩

theorem phyWrites_ne (address : Byte) (data : BitVec 32) :
    ∀ a ∈ (phyWrites address data).map Prod.fst, argOf a ≠ argOf econ1 :=
  show ∀ a ∈ [miregadr, miwrl, miwrh], argOf a ≠ argOf econ1 by decide

theorem txrts_read : ∀ x : Byte, (x &&& 0x08 == 0) = true → x.getLsbD 3 = false := by decide

theorem txerif_read : ∀ x : Byte, x &&& 0x02 ≠ 0 → x.getLsbD 1 = true := by decide

theorem pushed_txrts (w : World) (b : Byte) : (w.pushed b).chip.txrts = w.chip.txrts := by
  show ((w.chip.push b).reg (regOf econ1)).getLsbD 3 = _
  rw [Chip.push]
  split_ifs
  · rw [Chip.setPtr, Chip.set_reg_of_ne (by decide), Chip.set_reg_of_ne (by decide)]
    rfl
  · rfl

theorem steady_txrts : Steady fun w => w.chip.txrts = false where
  hear w h := hear_txrts h
  rebank w v s l b issued hv h := by
    have hbit : v.getLsbD 3 = w.chip.txrts := by
      simpa [Chip.txrts] using congrArg (fun x => BitVec.getLsbD x 3) hv
    show ((w.chip.set (regOf econ1) v).reg (regOf econ1)).getLsbD 3 = false
    rw [Chip.set_reg_self, hbit]
    exact h

theorem steady_txerif : Steady fun w => w.chip.txerif = true where
  hear w h := hear_txerif h
  rebank w v s l b issued hv h := by
    show ((w.chip.set (regOf econ1) v).reg (regOf eir)).getLsbD 1 = true
    rw [Chip.set_reg_of_ne (by decide)]
    exact h

theorem sendWrites_ne (len : ℕ) : ∀ a ∈ (sendWrites len).map Prod.fst, argOf a ≠ argOf econ1 :=
  show ∀ a ∈ [ewrptl, ewrpth, etxndl, etxndh], argOf a ≠ argOf econ1 by decide

theorem keeps_push {P T : World → Prop} {b : Byte} (hP : Stable P) (h : ∀ w, P w → T (w.pushed b)) :
    Triple (Between P) (enc28j60WriteOp writeBufMem 0 b) (fun _ => Between T) R :=
  (triple_push (P := Between P) (fun w hw => ⟨hw.1.hear, hP w hw.2⟩) fun w _ hw =>
    ⟨hw.1.pushed b, h w hw.2⟩).pre fun _ hw => ⟨hw.1.linked.idle, hw⟩

theorem keeps_writeBuffer {J : List Byte → World → Prop} (hJ : ∀ l, Stable (J l))
    (hpush : ∀ l w b, J l w → J (l ++ [b]) (w.pushed b)) (l bytes : List Byte) :
    Triple (Between (J l)) (enc28j60WriteBuffer bytes) (fun _ => Between (J (l ++ bytes))) R :=
  ((triple_writeBuffer (J := fun l => Between (J l)) (fun l w h => ⟨h.1.hear, hJ l w h.2⟩)
    (fun l w b h => ⟨h.1.pushed b, hpush l w b h.2⟩) l bytes).pre
      fun _ h => ⟨h.1.linked.idle, h⟩).post fun _ _ h => h.2

/-- The transmitter is waited for; once it is found clear, `TXRTS` stays so up to the request. -/
theorem keeps_pollTxrts {P : World → Prop} (hP : Steady P) (hR : ∀ w, Synced w → P w → R w) (fuel : ℕ) :
    Triple (Between P) (Prog.pollUntil (do
      let busy ← enc28j60Read econ1
      pure (busy &&& 0x08 == 0)) fuel) (fun _ => Between fun w => P w ∧ w.chip.txrts = false) R := by
  refine Triple.pollUntil ((keeps_read hP econ1).bind fun x => Triple.pure fun w h => ?_)
    (fun w h => hR w h.1 h.2) fuel
  split_ifs with hfree
  · rw [h.2 (by decide)] at hfree
    exact ⟨h.1.1, h.1.2, txrts_read _ hfree⟩
  · exact h.1

theorem sendWrites_txrts {len : ℕ} {p : Byte × Byte} (hp : p ∈ sendWrites len) (hw : Banked p.1 w) :
    (w.issue (.write p.1 p.2)).chip.txrts = w.chip.txrts := by
  have hne : argOf p.1 ≠ argOf econ1 := sendWrites_ne len p.1 (List.mem_map_of_mem hp)
  show ((w.chip.store (w.chip.target p.1) p.2).reg (regOf econ1)).getLsbD 3 = _
  rw [target_eq hw.bsel, store_reg_of_ne (fun heq => hne (argOf_of_regOf heq.symm)) fun hmem =>
    absurd (echoes_subset hmem) (by decide)]
  rfl

/-- `enc28j60PacketSend` from where the buffer is filled, in `T`: `P₁` from the transmit request on, and
`P₂` at the end. The request is cleared if `TXERIF` is found set. -/
theorem keeps_request {T P₁ P₂ : World → Prop} (hT : Stable T) (hP₁ : Steady P₁)
    (hset : ∀ w, Synced w → T w → P₁ (w.issue (.set econ1 0x08)))
    (hclear : ∀ w, Synced w → P₁ w → w.chip.txerif = true → P₂ (w.issue (.clear econ1 0x08)))
    (hskip : ∀ w, Synced w → P₁ w → P₂ w) :
    Triple (Between T)
      (do
        enc28j60WriteOp bitFieldSet econ1 0x08
        let flags ← enc28j60Read eir
        if flags &&& 0x02 ≠ 0 then
          enc28j60SetBank econ1
          enc28j60WriteOp bitFieldClr econ1 0x08
        else pure ()) (fun _ => Between P₂) R := by
  have hrequest : Triple (Between T) (enc28j60WriteOp bitFieldSet econ1 0x08)
      (fun _ => Between P₁) R :=
    keeps_set hT (by decide) (by decide) hset
  refine hrequest.bind fun _ => (keeps_read hP₁ eir).bind fun flags => ?_
  split_ifs with herr
  · -- a frame was aborted, this one or an earlier one
    have hcancel : Triple (Between fun w => P₁ w ∧ w.chip.txerif = true)
        (enc28j60WriteOp bitFieldClr econ1 0x08) (fun _ => Between P₂) R :=
      keeps_clear (hP₁.and steady_txerif).hear (by decide) (by decide)
        fun w hw h => hclear w hw h.1 h.2
    refine ((triple_setBank (hP₁.and steady_txerif) econ1).pre fun w h => ?_).bind fun _ =>
      hcancel.pre fun w h => ⟨h.1.synced, h.2⟩
    refine ⟨h.1.1.ready, h.1.2, ?_⟩
    rw [h.2 (by decide)] at herr
    exact txerif_read _ herr
  · exact Triple.pure fun w h => ⟨h.1.1, hskip w h.1.1 h.1.2⟩

/-- `enc28j60PacketSend`: `P` up to the transmit request, `P₁` from there, and `P₂` at the end. The
request is made with `TXRTS` clear. -/
theorem triple_send {P P₁ P₂ : World → Prop} {fuel : ℕ} (hP : Steady P) (hP₁ : Steady P₁)
    {packet : List Byte} (hR : ∀ w, Synced w → P w → R w)
    (hwrite : ∀ p ∈ sendWrites packet.length, ∀ w, Banked p.1 w → P w →
      P (w.issue (.write p.1 p.2)))
    (hpush : ∀ w b, P w → P (w.pushed b))
    (hset : ∀ w, Synced w → P w → w.chip.txrts = false → P₁ (w.issue (.set econ1 0x08)))
    (hclear : ∀ w, Synced w → P₁ w → w.chip.txerif = true → P₂ (w.issue (.clear econ1 0x08)))
    (hskip : ∀ w, Synced w → P₁ w → P₂ w) :
    Triple (Between P) (enc28j60PacketSend fuel packet) (fun _ => Between P₂) R := by
  let P₀ : World → Prop := fun w => P w ∧ w.chip.txrts = false
  have hP₀ : Steady P₀ := hP.and steady_txrts
  have hpush₀ : ∀ w b, P₀ w → P₀ (w.pushed b) := fun w b h =>
    ⟨hpush w b h.1, (pushed_txrts w b).trans h.2⟩
  have hwrites : Triple (Between P₀) (enc28j60WriteAll (sendWrites packet.length))
      (fun _ => Between P₀) R := by
    refine Triple.forM fun p hp => triple_enc28j60Write hP₀ fun w hw h => ?_
    have hne : argOf p.1 ≠ argOf econ1 :=
      sendWrites_ne packet.length p.1 (List.mem_map_of_mem hp)
    exact ⟨(hw.write (keepsBank_of_ne hne)).synced, hwrite p hp w hw h.1,
      (sendWrites_txrts hp hw).trans h.2⟩
  exact (keeps_pollTxrts hP hR fuel).bind fun _ => hwrites.bind fun _ =>
    (keeps_push hP₀.hear fun w h => hpush₀ w 0 h).bind fun _ =>
    (keeps_writeBuffer (J := fun _ => P₀) (fun _ => hP₀.hear) (fun _ w b h => hpush₀ w b h) [] packet).bind
      fun _ => keeps_request hP₀.hear hP₁ (fun w hw h => hset w hw h.1 h.2) hclear hskip

/-! ## The receive buffer -/

theorem keeps_fetch {T : Byte → World → Prop} (hP : Stable P)
    (h : ∀ w, Synced w → P w → T w.chip.fetch.1 w.fetched) :
    Triple (Between P) (enc28j60ReadOp readBufMem 0) (fun x => Between (T x)) R :=
  (triple_fetch (P := Between P) (fun w hw => ⟨hw.1.hear, hP w hw.2⟩) fun w _ hw =>
    ⟨hw.1.fetched, h w hw.1 hw.2⟩).pre fun _ hw => ⟨hw.1.linked.idle, hw⟩

/-- A word of the receive buffer. -/
def wordOf (low high : Byte) : BitVec 32 := low.setWidth 32 ||| high.setWidth 32 <<< 8

theorem keeps_readBufWord {T : Byte → World → Prop} {U : BitVec 32 → World → Prop} (hP : Stable P)
    (hT : ∀ x, Stable (T x)) (h : ∀ w, Synced w → P w → T w.chip.fetch.1 w.fetched)
    (h' : ∀ x w, Synced w → T x w → U (wordOf x w.chip.fetch.1) w.fetched) :
    Triple (Between P) readBufWord (fun x => Between (U x)) R :=
  (keeps_fetch hP h).bind fun x =>
    (keeps_fetch (T := fun y => U (wordOf x y)) (hT x) (h' x)).bind fun _ => Triple.pure fun _ h => h

theorem keeps_readBuffer {J : List Byte → World → Prop} (hJ : ∀ l, Stable (J l))
    (hfetch : ∀ l w, Synced w → J l w → J (l ++ [w.chip.fetch.1]) w.fetched) (len : ℕ) :
    Triple (Between (J [])) (enc28j60ReadBuffer len)
      (fun x w => ∃ bytes, x = bytes ++ [0] ∧ bytes.length = len ∧ Between (J bytes) w) R :=
  ((triple_readBuffer (J := fun l => Between (J l)) (fun l w h => ⟨h.1.hear, hJ l w h.2⟩)
    (fun l w h => ⟨h.1.fetched, hfetch l w h.1 h.2⟩) len).pre
      fun _ h => ⟨h.1.linked.idle, h⟩).post fun _ _ h => h.2

theorem keeps_receive {P : World → Prop} (hP : Steady P)
    (hwrite : ∀ a ∈ [erdptl, erdpth, erxrdptl, erxrdpth], ∀ x w, Banked a w → P w → P (w.issue (.write a x)))
    (hnext : ∀ w x, P w → P { w with nextPacketPtr := x }) (hfetch : ∀ w, Synced w → P w → P w.fetched)
    (hfree : ∀ w, Synced w → P w → P (w.issue (.set econ2 0x40))) (maxlen : BitVec 32) :
    Triple (Between P) (enc28j60PacketReceive maxlen) (fun _ => Between P) R := by
  have hread : Triple (Between P) (enc28j60Read epktcnt) (fun _ => Between P) R :=
    (keeps_read hP epktcnt).post fun _ _ h => h.1
  have hword : Triple (Between P) readBufWord (fun _ => Between P) R :=
    keeps_readBufWord (T := fun _ => P) (U := fun _ => P) hP.hear (fun _ => hP.hear) hfetch
      fun _ w hw h => hfetch w hw h
  have hwrites : ∀ l : List (Byte × Byte),
      (∀ p ∈ l, p.1 ∈ [erdptl, erdpth, erxrdptl, erxrdpth]) →
      Triple (Between P) (enc28j60WriteAll l) (fun _ => Between P) R := by
    intro l hl
    have hbank : ∀ a ∈ [erdptl, erdpth, erxrdptl, erxrdpth], argOf a ≠ argOf econ1 := by decide
    exact Triple.forM fun p hp => triple_enc28j60Write hP fun w hw h =>
      ⟨(hw.write (keepsBank_of_ne (hbank p.1 (hl p hp)))).synced, hwrite p.1 (hl p hp) p.2 w hw h⟩
  have hupdate : ∀ x, Triple (Between P) (Prog.update fun w : World => { w with nextPacketPtr := x })
      (fun _ => Between P) R := fun x =>
    Triple.update fun w h =>
      ⟨⟨⟨h.1.linked.idle, h.1.linked.reached, h.1.linked.agree⟩, h.1.bank⟩, hnext w x h.2⟩
  have hlook : Triple (Between P) (Prog.look World.nextPacketPtr) (fun _ => Between P) R :=
    Triple.look fun _ h => h
  have hheader : Triple (Between P) readHeader (fun _ => Between P) R :=
    hlook.bind fun ptr => (hwrites _ (by simp)).bind fun _ => hword.bind fun _ =>
      (hupdate _).bind fun _ => hword.bind fun _ => hword.bind fun _ => Triple.pure fun _ h => h
  have hdata : ∀ len rxstat, Triple (Between P) (readData len rxstat) (fun _ => Between P) R := by
    intro len rxstat
    unfold readData
    split_ifs
    · exact Triple.pure fun _ h => h
    · exact (keeps_readBuffer (J := fun _ => P) (fun _ => hP.hear) (fun _ w hw h => hfetch w hw h)
        len.toNat).bind fun bytes => Triple.pure fun _ ⟨_, _, _, h⟩ => h
  have hcount : Triple (Between P) (enc28j60WriteOp bitFieldSet econ2 0x40) (fun _ => Between P) R :=
    keeps_set hP.hear (by decide) (by decide) hfree
  refine hread.bind fun count => ?_
  split_ifs
  · exact Triple.pure fun _ h => h
  · exact hheader.bind fun header => (hdata _ _).bind fun data =>
      (hlook.bind fun ptr => (hwrites _ (by simp)).bind fun _ => hcount).bind fun _ => Triple.pure fun _ h => h

end LoraGateway.Enc28j60
