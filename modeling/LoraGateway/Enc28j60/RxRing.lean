import Mathlib.Algebra.BigOperators.Group.List.Basic
import LoraGateway.Enc28j60.Calls

/-!
# The receive buffer

What the receive logic and the driver have of the buffer between them. The frames stored lie one behind
the other, with offsets counted without wrapping (`framesSize`), and the cell of an offset is its
remainder (`Chip.RxRing`): the first `j` of them are released, so the rest is what the buffer
holds, and the first `k` of them are counted down. A frame that arrives goes behind the rest
(`Chip.RxRing.receive`); the driver reads the oldest of them, releases it (`Chip.RxRing.release`) and
counts it down (`Chip.RxRing.countDown`).
-/

namespace LoraGateway.Enc28j60

open Lib

variable {c c' : Chip} {r : Reg} {v : Byte} {k j : ℕ} {f : RxFrame}

/-! ## Pointers -/

theorem ptr_congr {l h : Byte} (hl : c'.reg (regOf l) = c.reg (regOf l))
    (hh : c'.reg (regOf h) = c.reg (regOf h)) : c'.ptr l h = c.ptr l h := by
  rw [Chip.ptr, Chip.get, Chip.get, hl, hh]
  rfl

theorem ptr_eq {l h : Byte} {p : ℕ} (hl : c.reg (regOf l) = BitVec.ofNat 8 p)
    (hh : c.reg (regOf h) = BitVec.ofNat 8 (p / 256)) (hp : p < 0x2000) : c.ptr l h = p := by
  rw [Chip.ptr, Chip.get, Chip.get, hl, hh, BitVec.toNat_ofNat, BitVec.toNat_ofNat]
  omega

theorem ptr_setPtr {l h : Byte} (hne : regOf l ≠ regOf h) {p : ℕ} (hp : p < 0x2000) (c : Chip) :
    (c.setPtr l h p).ptr l h = p := by
  refine ptr_eq ?_ ?_ hp
  · rw [Chip.setPtr, Chip.set_reg_of_ne hne, Chip.set_reg_self]
  · rw [Chip.setPtr, Chip.set_reg_self]

theorem setPtr_reg {l h : Byte} {p : ℕ} (hl : r ≠ regOf l) (hh : r ≠ regOf h) (c : Chip) :
    (c.setPtr l h p).reg r = c.reg r :=
  (Chip.set_reg_of_ne hh ..).trans (Chip.set_reg_of_ne hl ..)

/-! ## Frames one behind the other -/

/-- Bytes of the receive buffer. -/
def rxSize : ℕ := rxstopInit + 1

/-- Bytes the frames take. -/
def framesSize (l : List RxFrame) : ℕ := (l.map RxFrame.size).sum

@[simp] theorem framesSize_nil : framesSize [] = 0 := rfl

@[simp] theorem framesSize_cons (f : RxFrame) (l : List RxFrame) :
    framesSize (f :: l) = f.size + framesSize l := by
  simp [framesSize]

@[simp] theorem framesSize_append (l l' : List RxFrame) :
    framesSize (l ++ l') = framesSize l + framesSize l' := by
  simp [framesSize]

theorem framesSize_take_add_drop (l : List RxFrame) (j : ℕ) :
    framesSize (l.take j) + framesSize (l.drop j) = framesSize l := by
  rw [← framesSize_append, List.take_append_drop]

/-- The bytes of frames one behind the other, the first at offset `start`: each begins with the address
of the next. -/
def framesBytes : ℕ → List RxFrame → List Byte
  | _, [] => []
  | start, f :: l => f.bytes ((start + f.size) % rxSize) ++ framesBytes (start + f.size) l

theorem framesBytes_append (start : ℕ) (l l' : List RxFrame) :
    framesBytes start (l ++ l') =
      framesBytes start l ++ framesBytes (start + framesSize l) l' := by
  induction l generalizing start with
  | nil => rfl
  | cons f l ih =>
    rw [List.cons_append, framesBytes, ih, framesBytes, framesSize_cons, List.append_assoc,
      Nat.add_assoc]

@[simp] theorem length_bytes (f : RxFrame) (next : ℕ) : (f.bytes next).length = f.size := by
  simp only [RxFrame.bytes, le16, RxFrame.size, List.length_append, List.length_cons, List.length_nil]

@[simp] theorem length_framesBytes (start : ℕ) (l : List RxFrame) :
    (framesBytes start l).length = framesSize l := by
  induction l generalizing start with
  | nil => rfl
  | cons f l ih => rw [framesBytes, List.length_append, length_bytes, ih, framesSize_cons]

/-! ## The buffer and the frames -/

/-- The registers of the buffers. -/
def ringRegs : List Reg :=
  [erxstl, erxsth, erxndl, erxndh, erxwrptl, erxwrpth, econ2, epktcnt, etxstl, etxsth].map regOf

/-- The status vector of a transmission under way does not go into the receive buffer. -/
def Chip.Apart (c : Chip) : Prop := c.txrts = true → rxSize ≤ c.etxnd + 1 ∧ c.etxnd + 8 ≤ 0x2000

/-- The receive buffer with `k` of the frames stored counted down and `j` released. -/
structure Chip.RxRing (c : Chip) (k j : ℕ) : Prop where
  erxst : c.erxst = 0
  erxnd : c.erxnd = rxstopInit
  etxst : c.etxst = txstartInit
  rxen : c.rxen = true
  autoinc : c.autoinc = true
  apart : c.Apart
  count : (c.get epktcnt).toNat + k = c.stored.length
  decrements : c.decrements = k
  released : j ≤ c.stored.length
  erxwrpt : c.erxwrpt = framesSize c.stored % rxSize
  rxRdPt : c.rxRdPt = framesSize (c.stored.take j) % rxSize
  fits : framesSize (c.stored.drop j) < rxSize
  unread : Ring.slice c.mem rxSize (framesSize (c.stored.take j)) (framesSize (c.stored.drop j)) =
    framesBytes (framesSize (c.stored.take j)) (c.stored.drop j)

namespace Chip.RxRing

theorem congr (h : c.RxRing k j) (hreg : ∀ r ∈ ringRegs, c'.reg r = c.reg r)
    (hrxen : c'.rxen = c.rxen) (hapart : c'.Apart) (hmem : ∀ p < rxSize, c'.mem p = c.mem p)
    (hstored : c'.stored = c.stored) (hrxRdPt : c'.rxRdPt = c.rxRdPt)
    (hdecrements : c'.decrements = c.decrements) : c'.RxRing k j where
  erxst := (ptr_congr (hreg _ (by decide)) (hreg _ (by decide))).trans h.erxst
  erxnd := (ptr_congr (hreg _ (by decide)) (hreg _ (by decide))).trans h.erxnd
  etxst := (ptr_congr (hreg _ (by decide)) (hreg _ (by decide))).trans h.etxst
  rxen := hrxen.trans h.rxen
  autoinc := by
    rw [Chip.autoinc, Chip.get, hreg _ (by decide)]
    exact h.autoinc
  apart := hapart
  count := by
    rw [Chip.get, hreg _ (by decide), hstored]
    exact h.count
  decrements := hdecrements.trans h.decrements
  released := by rw [hstored]; exact h.released
  erxwrpt := by
    rw [hstored, ← h.erxwrpt]
    exact ptr_congr (hreg _ (by decide)) (hreg _ (by decide))
  rxRdPt := by rw [hrxRdPt, hstored]; exact h.rxRdPt
  fits := by rw [hstored]; exact h.fits
  unread := by
    rw [hstored, ← h.unread]
    exact Ring.slice_congr fun i _ => hmem _ (Nat.mod_lt _ (by decide))

/-- Free space is what the frames not released leave, but for one byte. -/
theorem rxFree (h : c.RxRing k j) : c.rxFree + framesSize (c.stored.drop j) = rxstopInit := by
  have hfits := h.fits
  rw [Chip.rxFree, h.erxst, h.erxnd, h.erxwrpt, h.rxRdPt, ← framesSize_take_add_drop c.stored j]
  generalize framesSize (c.stored.take j) = start at hfits ⊢
  generalize framesSize (c.stored.drop j) = size at hfits ⊢
  rw [show rxstopInit = 6654 from rfl]
  rw [show rxSize = 6655 from rfl] at hfits ⊢
  by_cases hlt : start % 6655 < (start + size) % 6655
  · rw [if_pos hlt]
    omega
  · rw [if_neg hlt]
    by_cases heq : (start + size) % 6655 = start % 6655
    · rw [if_pos heq]
      omega
    · rw [if_neg heq]
      omega

end Chip.RxRing

/-! ## What the chip does by itself -/

theorem rxStep_eq {p : ℕ} (hp : p < rxSize) : rxStep 0 rxstopInit p = (p + 1) % rxSize := by
  rw [show rxSize = 6655 from rfl] at hp ⊢
  rw [rxStep, show rxstopInit = 6654 from rfl]
  split_ifs <;> omega

theorem rxStep_iterate {p : ℕ} (hp : p < rxSize) (n : ℕ) :
    (rxStep 0 rxstopInit)^[n] p = (p + n) % rxSize := by
  induction n with
  | zero => exact (Nat.mod_eq_of_lt hp).symm
  | succ n ih =>
    rw [Function.iterate_succ_apply', ih, rxStep_eq (Nat.mod_lt _ (by decide)), Nat.mod_add_mod,
      Nat.add_assoc]

theorem rxPut_eq {mem : ℕ → Byte} {p : ℕ} (hp : p < rxSize) (l : List Byte) :
    rxPut 0 rxstopInit mem p l = Ring.put mem rxSize p l := by
  induction l generalizing mem p with
  | nil => rfl
  | cons b l ih =>
    have hcell : p % rxSize = p := Nat.mod_eq_of_lt hp
    rw [rxPut, rxStep_eq hp, ih (Nat.mod_lt _ (by decide)), Ring.put, hcell]
    exact Ring.put_congr (Nat.mod_mod ..)

/-- The registers the chip changes by itself. -/
def eventRegs : List Reg := statusRegs ++ [erxwrptl, erxwrpth, epktcnt, econ1, eir].map regOf

theorem endTx_reg (h₁ : r ≠ regOf econ1) (h₂ : r ≠ regOf eir) (c : Chip) (aborted stuck : Bool)
    (status : List Byte) : (c.endTx aborted stuck status).reg r = c.reg r := by
  rw [Chip.endTx]
  by_cases htx : c.txrts = true
  · rw [if_pos htx]
    show ((Chip.set _ (regOf econ1) _).set (regOf eir) _).reg r = _
    rw [Chip.set_reg_of_ne h₂, Chip.set_reg_of_ne h₁]
  · rw [if_neg htx]

theorem endTx_econ1 (htx : c.txrts = true) (aborted stuck : Bool) (status : List Byte) :
    (c.endTx aborted stuck status).reg (regOf econ1) =
      c.get econ1 &&& (~~~0x08 ||| if aborted && stuck then 0x08 else 0) := by
  have hne : regOf econ1 ≠ regOf eir := by decide
  simp [Chip.endTx, htx, Chip.set, hne]

theorem event_reg (hr : r ∉ eventRegs) (c : Chip) (e : HwEvent) : (c.event e).reg r = c.reg r := by
  have hne : ∀ a ∈ [econ1, eir], r ≠ regOf a := fun a ha heq =>
    hr (List.mem_append_right _ (heq ▸ List.mem_map_of_mem (List.mem_append_right [_, _, _] ha)))
  cases e with
  | frame f =>
    refine receive_reg (fun hmem => hr (List.mem_append_right _ ?_)) c f
    exact List.mem_append_left ([econ1, eir].map regOf) hmem
  | txEnd aborted stuck status =>
    exact endTx_reg (hne econ1 (by decide)) (hne eir (by decide)) c aborted stuck status
  | status r' v =>
    simp only [Chip.event]
    split_ifs with hstatus
    · exact Chip.set_reg_of_ne (fun heq : r = r' => hr (List.mem_append_left _ (heq ▸ hstatus))) ..
    · rfl
  | interrupt v => exact Chip.set_reg_of_ne (hne eir (by decide)) ..

theorem event_stored (c : Chip) (e : HwEvent) : c.stored <+: (c.event e).stored := by
  cases e with
  | frame f =>
    simp only [Chip.event, Chip.receive]
    split_ifs
    · exact List.prefix_append ..
    · exact List.prefix_rfl
  | txEnd aborted stuck status =>
    simp only [Chip.event, Chip.endTx]
    split_ifs <;> exact List.prefix_rfl
  | status r v =>
    simp only [Chip.event]
    split_ifs <;> exact List.prefix_rfl
  | interrupt v => exact List.prefix_rfl

theorem Chip.Apart.congr (h : c.Apart) (htxrts : c'.txrts = true → c.txrts = true)
    (hl : c'.reg (regOf etxndl) = c.reg (regOf etxndl))
    (hh : c'.reg (regOf etxndh) = c.reg (regOf etxndh)) : c'.Apart := by
  intro htx
  rw [Chip.etxnd, ptr_congr hl hh]
  exact h (htxrts htx)

namespace Chip.RxRing

theorem set (h : c.RxRing k j) (hr : r ∉ ringRegs ++ [econ1, etxndl, etxndh].map regOf) :
    (c.set r v).RxRing k j := by
  have hne : ∀ r' ∈ ringRegs ++ [econ1, etxndl, etxndh].map regOf, r' ≠ r :=
    fun r' hr' heq => hr (heq ▸ hr')
  refine h.congr (fun r' hr' => Chip.set_reg_of_ne (hne r' (List.mem_append_left _ hr')) ..) ?_
    (h.apart.congr ?_ (Chip.set_reg_of_ne (hne _ (by decide)) ..)
      (Chip.set_reg_of_ne (hne _ (by decide)) ..)) (fun _ _ => rfl) rfl rfl rfl
  · rw [Chip.rxen, Chip.get, Chip.set_reg_of_ne (hne _ (by decide))]
    rfl
  · rw [Chip.txrts, Chip.get, Chip.set_reg_of_ne (hne _ (by decide))]
    exact fun htx => htx

theorem receive (h : c.RxRing k j) (f : RxFrame) : (c.receive f).RxRing k j := by
  by_cases hstore : c.rxen = true ∧ f.size ≤ c.rxFree ∧ (c.get epktcnt).toNat < 255
  · obtain ⟨-, hspace, hcount⟩ := hstore
    have hwrpt : c.erxwrpt < rxSize := by rw [h.erxwrpt]; exact Nat.mod_lt _ (by decide)
    have hfree := h.rxFree
    have hsize := framesSize_take_add_drop c.stored j
    have hnext : (rxStep c.erxst c.erxnd)^[f.size] c.erxwrpt =
        (framesSize c.stored + f.size) % rxSize := by
      rw [h.erxst, h.erxnd, rxStep_iterate hwrpt, h.erxwrpt, Nat.mod_add_mod]
    have hdrop : (c.stored ++ [f]).drop j = c.stored.drop j ++ [f] :=
      List.drop_append_of_le_length h.released
    have htake : (c.stored ++ [f]).take j = c.stored.take j :=
      List.take_append_of_le_length h.released
    have hstored : (c.receive f).stored = c.stored ++ [f] := by
      rw [Chip.receive, if_pos ⟨h.rxen, hspace, hcount⟩]
    have hmem : (c.receive f).mem = Ring.put c.mem rxSize (framesSize c.stored)
        (f.bytes ((framesSize c.stored + f.size) % rxSize)) := by
      rw [Chip.receive, if_pos ⟨h.rxen, hspace, hcount⟩]
      show rxPut c.erxst c.erxnd c.mem c.erxwrpt (f.bytes _) = _
      rw [hnext, h.erxst, h.erxnd, rxPut_eq hwrpt]
      exact Ring.put_congr (by rw [h.erxwrpt, Nat.mod_mod])
    have hreg : ∀ r ∉ [erxwrptl, erxwrpth, epktcnt].map regOf, (c.receive f).reg r = c.reg r :=
      fun r hr => receive_reg hr c f
    exact {
      erxst := (ptr_congr (hreg _ (by decide)) (hreg _ (by decide))).trans h.erxst
      erxnd := (ptr_congr (hreg _ (by decide)) (hreg _ (by decide))).trans h.erxnd
      etxst := (ptr_congr (hreg _ (by decide)) (hreg _ (by decide))).trans h.etxst
      rxen := by
        rw [Chip.rxen, Chip.get, hreg _ (by decide)]
        exact h.rxen
      autoinc := by
        rw [Chip.autoinc, Chip.get, hreg _ (by decide)]
        exact h.autoinc
      apart := h.apart.congr (by rw [receive_txrts]; exact fun htx => htx) (hreg _ (by decide))
        (hreg _ (by decide))
      count := by
        have hadd : (c.receive f).get epktcnt = c.get epktcnt + 1 := by
          rw [Chip.receive, if_pos ⟨h.rxen, hspace, hcount⟩]
          exact Chip.set_reg_self (c.setPtr erxwrptl erxwrpth
            ((rxStep c.erxst c.erxnd)^[f.size] c.erxwrpt)) (regOf epktcnt) _
        rw [hstored, List.length_append, List.length_singleton, ← h.count, hadd, BitVec.toNat_add,
          show (1 : Byte).toNat = 1 from rfl]
        omega
      decrements := by
        rw [Chip.receive, if_pos ⟨h.rxen, hspace, hcount⟩]
        exact h.decrements
      released := by
        rw [hstored, List.length_append]
        exact Nat.le_add_right_of_le h.released
      erxwrpt := by
        have hptr : (c.receive f).erxwrpt = (framesSize c.stored + f.size) % rxSize := by
          rw [← hnext, Chip.receive, if_pos ⟨h.rxen, hspace, hcount⟩]
          refine (ptr_congr (Chip.set_reg_of_ne (by decide) ..)
            (Chip.set_reg_of_ne (by decide) ..)).trans (ptr_setPtr (by decide) ?_ c)
          rw [hnext]
          exact (Nat.mod_lt _ (by decide)).trans (by decide)
        rw [hptr, hstored, framesSize_append, framesSize_cons, framesSize_nil, Nat.add_zero]
      rxRdPt := by
        have hsame : (c.receive f).rxRdPt = c.rxRdPt := by
          rw [Chip.receive, if_pos ⟨h.rxen, hspace, hcount⟩]
          rfl
        rw [hstored, htake, hsame]
        exact h.rxRdPt
      fits := by
        rw [hstored, hdrop, framesSize_append, framesSize_cons, framesSize_nil]
        rw [show rxstopInit = 6654 from rfl] at hfree
        rw [show rxSize = 6655 from rfl]
        omega
      unread := by
        rw [hstored, hdrop, htake, hmem, framesSize_append, framesBytes_append, ← h.unread, ← hsize]
        have hroom : framesSize (c.stored.drop j) +
            (f.bytes ((framesSize c.stored + f.size) % rxSize)).length ≤ rxSize := by
          rw [length_bytes, show rxSize = rxstopInit + 1 from rfl]
          omega
        have hput := @Ring.slice_put Byte c.mem rxSize (framesSize (c.stored.take j)) _ _ hroom
        rw [length_bytes] at hput
        simp only [framesSize_cons, framesSize_nil, framesBytes, List.append_nil, Nat.add_zero]
        rw [hsize] at hput ⊢
        exact hput }
  · rw [Chip.receive, if_neg hstore]
    exact h

theorem set_econ1 (h : c.RxRing k j) (hrxen : v.getLsbD 2 = true)
    (hapart : v.getLsbD 3 = true → rxSize ≤ c.etxnd + 1 ∧ c.etxnd + 8 ≤ 0x2000) :
    (c.set (regOf econ1) v).RxRing k j := by
  have hne : ∀ r ∈ ringRegs, r ≠ regOf econ1 := by decide
  refine h.congr (fun r hr => Chip.set_reg_of_ne (hne r hr) ..) ?_ (fun htx => ?_)
    (fun _ _ => rfl) rfl rfl rfl
  · rw [Chip.rxen, Chip.get, Chip.set_reg_self, hrxen, h.rxen]
  · rw [Chip.txrts, Chip.get, Chip.set_reg_self] at htx
    have hetxnd : (c.set (regOf econ1) v).etxnd = c.etxnd :=
      ptr_congr (Chip.set_reg_of_ne (by decide) ..) (Chip.set_reg_of_ne (by decide) ..)
    rw [hetxnd]
    exact hapart htx

theorem endTx (h : c.RxRing k j) (aborted stuck : Bool) (status : List Byte) :
    (c.endTx aborted stuck status).RxRing k j := by
  by_cases htx : c.txrts = true
  · have hne : ∀ r ∈ ringRegs ++ [etxndl, etxndh].map regOf, r ≠ regOf econ1 ∧ r ≠ regOf eir := by
      decide
    have hreg : ∀ r ∈ ringRegs ++ [etxndl, etxndh].map regOf,
        (c.endTx aborted stuck status).reg r = c.reg r := fun r hr =>
      endTx_reg (hne r hr).1 (hne r hr).2 ..
    have hbit : ∀ x : Byte, (x &&& (~~~0x08 ||| 0x08)).getLsbD 2 = x.getLsbD 2 ∧
        (x &&& (~~~0x08 ||| 0)).getLsbD 2 = x.getLsbD 2 := by decide
    obtain ⟨hlow, hhigh⟩ := h.apart htx
    refine h.congr (fun r hr => hreg r (List.mem_append_left _ hr)) ?_
      (h.apart.congr (fun _ => htx) (hreg _ (by decide)) (hreg _ (by decide))) (fun p hp => ?_)
      ?_ ?_ ?_
    · rw [Chip.rxen, Chip.get, endTx_econ1 htx]
      cases aborted && stuck
      · exact (hbit _).2
      · exact (hbit _).1
    · rw [Chip.endTx, if_pos htx]
      refine Ring.put_of_ne fun i hi => ?_
      have hi' : i < 7 := hi.trans_le (List.length_take_le ..)
      rw [Nat.mod_eq_of_lt (by omega)]
      omega
    all_goals
      rw [Chip.endTx, if_pos htx]
      rfl
  · rw [Chip.endTx, if_neg htx]
    exact h

/-- What the chip does by itself keeps the frames not released. -/
theorem event (h : c.RxRing k j) (e : HwEvent) : (c.event e).RxRing k j := by
  cases e with
  | frame f => exact h.receive f
  | txEnd aborted stuck status => exact h.endTx aborted stuck status
  | status r v =>
    simp only [Chip.event]
    split_ifs with hr
    · have hne : ∀ r ∈ statusRegs, r ∉ ringRegs ++ [econ1, etxndl, etxndh].map regOf := by decide
      exact h.set (hne r hr)
    · exact h
  | interrupt v => exact h.set (by decide)

/-! ## What the host does -/

theorem take_succ (hf : c.stored[j]? = some f) :
    framesSize (c.stored.take (j + 1)) = framesSize (c.stored.take j) + f.size := by
  rw [List.take_add_one, hf, framesSize_append]
  rfl

theorem drop_eq (hf : c.stored[j]? = some f) : c.stored.drop j = f :: c.stored.drop (j + 1) := by
  obtain ⟨hj, hget⟩ := List.getElem?_eq_some_iff.mp hf
  rw [List.drop_eq_getElem_cons hj, hget]

theorem fetch_byte (h : c.RxRing k j) (hf : c.stored[j]? = some f) {i : ℕ} (hi : i < f.size)
    (hptr : c.erdpt = (framesSize (c.stored.take j) + i) % rxSize) :
    c.fetch.1 = (f.bytes (framesSize (c.stored.take (j + 1)) % rxSize)).getD i 0 := by
  have hunread := h.unread
  rw [drop_eq hf, framesSize_cons, framesBytes, ← take_succ hf] at hunread
  have hbyte := (Ring.slice_eq_iff.mp hunread).2 i (by simp; omega)
  rw [List.getElem_append_left (by simpa using hi)] at hbyte
  rw [Chip.fetch, hptr, hbyte, List.getD_eq_getElem _ _ (by simpa using hi)]

theorem fetch (h : c.RxRing k j) : c.fetch.2.RxRing k j := by
  rw [Chip.fetch, if_pos h.autoinc]
  exact (h.set (by decide)).set (by decide)

theorem fetch_erdpt (h : c.RxRing k j) {p : ℕ} (hptr : c.erdpt = p % rxSize) :
    c.fetch.2.erdpt = (p + 1) % rxSize := by
  rw [Chip.fetch, if_pos h.autoinc, h.erxst, h.erxnd, hptr, rxStep_eq (Nat.mod_lt _ (by decide)),
    Nat.mod_add_mod]
  exact ptr_setPtr (by decide) ((Nat.mod_lt _ (by decide)).trans (by decide)) c

theorem release (h : c.RxRing k j) (hf : c.stored[j]? = some f) {p : ℕ}
    (hp : p = framesSize (c.stored.take (j + 1)) % rxSize) :
    ({ c with rxRdPt := p } : Chip).RxRing k (j + 1) := by
  obtain ⟨hj, -⟩ := List.getElem?_eq_some_iff.mp hf
  have hsize : framesSize (c.stored.drop j) = f.size + framesSize (c.stored.drop (j + 1)) := by
    rw [drop_eq hf, framesSize_cons]
  exact {
    erxst := h.erxst
    erxnd := h.erxnd
    etxst := h.etxst
    rxen := h.rxen
    autoinc := h.autoinc
    apart := h.apart
    count := h.count
    decrements := h.decrements
    released := hj
    erxwrpt := h.erxwrpt
    rxRdPt := hp
    fits := by
      have hfits := h.fits
      show framesSize (c.stored.drop (j + 1)) < rxSize
      omega
    unread := by
      have hunread := h.unread
      rw [hsize, Ring.slice_add, drop_eq hf, framesBytes, ← take_succ hf] at hunread
      exact (List.append_inj hunread (by simp)).2 }

theorem countDown (h : c.RxRing k j) (hk : k < c.stored.length) :
    (c.storeEcon2 (c.get econ2 ||| 0x40)).RxRing (k + 1) j := by
  have hbits : ∀ x : Byte, (x ||| 0x40).getLsbD 6 = true ∧
      ((x ||| 0x40) &&& ~~~0x40).getLsbD 7 = x.getLsbD 7 := by decide
  have hcount := h.count
  have hpos : c.get epktcnt ≠ 0 := fun heq => by
    rw [heq, show (0 : Byte).toNat = 0 from rfl] at hcount
    omega
  have hstore : (c.storeEcon2 (c.get econ2 ||| 0x40)) = { (c.set (regOf econ2)
      ((c.get econ2 ||| 0x40) &&& ~~~0x40)).set (regOf epktcnt) (c.get epktcnt - 1) with
        decrements := c.decrements + 1 } := by
    rw [Chip.storeEcon2, (hbits _).1, if_pos ⟨rfl, hpos⟩, if_pos rfl]
  have hreg : ∀ r, r ≠ regOf econ2 → r ≠ regOf epktcnt →
      (c.storeEcon2 (c.get econ2 ||| 0x40)).reg r = c.reg r := fun r h₁ h₂ => by
    rw [hstore]
    exact (Chip.set_reg_of_ne h₂ ..).trans (Chip.set_reg_of_ne h₁ ..)
  exact {
    erxst := (ptr_congr (hreg _ (by decide) (by decide)) (hreg _ (by decide) (by decide))).trans h.erxst
    erxnd := (ptr_congr (hreg _ (by decide) (by decide)) (hreg _ (by decide) (by decide))).trans h.erxnd
    etxst := (ptr_congr (hreg _ (by decide) (by decide)) (hreg _ (by decide) (by decide))).trans h.etxst
    rxen := by
      rw [Chip.rxen, Chip.get, hreg _ (by decide) (by decide)]
      exact h.rxen
    autoinc := by
      have hecon2 : (c.storeEcon2 (c.get econ2 ||| 0x40)).reg (regOf econ2) =
          (c.get econ2 ||| 0x40) &&& ~~~0x40 := by
        have hne : regOf econ2 ≠ regOf epktcnt := by decide
        simp only [hstore, Chip.set, Function.update_of_ne hne, Function.update_self]
      rw [Chip.autoinc, Chip.get, hecon2, (hbits _).2]
      exact h.autoinc
    apart := h.apart.congr (by
        rw [Chip.txrts, Chip.get, hreg _ (by decide) (by decide)]
        exact fun htx => htx) (hreg _ (by decide) (by decide)) (hreg _ (by decide) (by decide))
    count := by
      have hsub : (c.storeEcon2 (c.get econ2 ||| 0x40)).get epktcnt = c.get epktcnt - 1 := by
        rw [hstore]
        simp only [Chip.get, Chip.set, Function.update_self]
      have hlt := (c.get epktcnt).isLt
      show ((c.storeEcon2 (c.get econ2 ||| 0x40)).get epktcnt).toNat + (k + 1) = c.stored.length
      rw [hsub, BitVec.toNat_sub, show (1 : Byte).toNat = 1 from rfl]
      omega
    decrements := by
      rw [hstore]
      exact congrArg (· + 1) h.decrements
    released := h.released
    erxwrpt := (ptr_congr (hreg _ (by decide) (by decide)) (hreg _ (by decide) (by decide))).trans
      h.erxwrpt
    rxRdPt := h.rxRdPt
    fits := h.fits
    unread := h.unread }

end Chip.RxRing

end LoraGateway.Enc28j60
