import LoraGateway.Enc28j60.Driver

/-!
# SPI commands as steps

The functions that talk to the bus byte by byte, each as one step of the world after the chip has
had its time: a register command is `World.issue` (`enc28j60WriteOp_write`, `enc28j60ReadOp_read`), and
a byte of the buffer is `Chip.fetch` or `Chip.push`. While a command is clocked in, the chip goes on,
and what it does leaves the command as it is (`hear_mark`).

The rules at the end are what the proofs about the driver use: a property that the chip's own doings
keep (`Stable`) holds up to the step that a command is.
-/

namespace LoraGateway.Enc28j60

open Lib Lib.Prog

/-! ## The state of a command -/

/-- The chip with another command state and another history of registers reached. -/
def Chip.mark (c : Chip) (s : Spi) (l : List Reg) : Chip := { c with spi := s, reached := l }

/-- The world with these, and another history of commands issued. -/
def World.mark (w : World) (s : Spi) (l : List Reg) (issued : List Issue) : World :=
  { w with chip := w.chip.mark s l, issued := issued }

theorem event_mark (c : Chip) (s : Spi) (l : List Reg) (e : HwEvent) :
    (c.mark s l).event e = (c.event e).mark s l := by
  cases e with
  | frame f =>
    simp only [Chip.event, Chip.receive, apply_ite (fun c => Chip.mark c s l)]
    rfl
  | txEnd aborted stuck status =>
    simp only [Chip.event, Chip.endTx, apply_ite (fun c => Chip.mark c s l)]
    rfl
  | status r v =>
    simp only [Chip.event, apply_ite (fun c => Chip.mark c s l)]
    rfl
  | interrupt v => rfl

theorem store_mark (c : Chip) (s : Spi) (l : List Reg) (r : Reg) (v : Byte) :
    (c.mark s l).store r v = (c.store r v).mark s l := by
  simp only [Chip.store, apply_ite (fun c => Chip.mark c s l)]
  rfl

theorem fetch_mark (c : Chip) (s : Spi) (l : List Reg) :
    (c.mark s l).fetch = (c.fetch.1, c.fetch.2.mark s l) := by
  simp only [Chip.fetch, apply_ite (fun c => Chip.mark c s l)]
  rfl

theorem push_mark (c : Chip) (s : Spi) (l : List Reg) (b : Byte) :
    (c.mark s l).push b = (c.push b).mark s l := by
  simp only [Chip.push, apply_ite (fun c => Chip.mark c s l)]
  rfl

theorem events_mark (events : List HwEvent) (c : Chip) (s : Spi) (l : List Reg) :
    events.foldl Chip.event (c.mark s l) = (events.foldl Chip.event c).mark s l := by
  induction events generalizing c with
  | nil => rfl
  | cons e events ih => rw [List.foldl_cons, event_mark, ih, List.foldl_cons]

/-- What the chip does while a command is clocked in does not depend on the command. -/
theorem hear_mark (w : World) (s : Spi) (l : List Reg) (issued : List Issue) :
    (w.mark s l issued).hear = w.hear.mark s l issued := by
  show World.mk ((w.script 0).foldl Chip.event (w.chip.mark s l)) _ _ _ issued = _
  rw [events_mark]
  rfl

/-! ## What the chip leaves alone -/

/-- Registers the chip changes by itself or does not let the host change. -/
def volatileRegs : List Reg :=
  statusRegs ++ readOnlyRegs ++ [eir, erdptl, erdpth, ewrptl, ewrpth].map regOf

/-- The bits of a register that only the host changes: `TXRTS` and `DMAST` of `ECON1` and `PKTDEC` of
`ECON2` are not among them. -/
def still (r : Reg) : Byte :=
  if r = regOf econ1 then 0xD7
  else if r = regOf econ2 then 0xBF
  else if r ∈ volatileRegs then 0 else 0xFF

/-- The same in all bits that only the host changes. -/
def Chip.Same (c c' : Chip) : Prop := ∀ r, c'.reg r &&& still r = c.reg r &&& still r

variable {c c' c'' : Chip} {r r' : Reg} {v : Byte}

@[simp] theorem Chip.set_reg_self (c : Chip) (r : Reg) (v : Byte) : (c.set r v).reg r = v :=
  Function.update_self ..

theorem Chip.set_reg_of_ne (h : r' ≠ r) (c : Chip) (v : Byte) : (c.set r v).reg r' = c.reg r' :=
  Function.update_of_ne h ..

theorem Chip.Same.refl (c : Chip) : c.Same c := fun _ => rfl

theorem Chip.Same.trans (h : c.Same c') (h' : c'.Same c'') : c.Same c'' :=
  fun r => (h' r).trans (h r)

theorem Chip.Same.set (h : c.Same c') (hv : v &&& still r = c'.reg r &&& still r) :
    c.Same (c'.set r v) := by
  intro r'
  by_cases hr : r' = r
  · subst hr
    rw [Chip.set_reg_self, hv]
    exact h r'
  · rw [Chip.set_reg_of_ne hr]
    exact h r'

theorem and_zero_eq (x y : Byte) : x &&& 0 = y &&& 0 := by simp

theorem Chip.Same.set_volatile (h : c.Same c') (hr : still r = 0) : c.Same (c'.set r v) :=
  h.set (by rw [hr]; exact and_zero_eq ..)

theorem Chip.Same.setPtr {l h : Byte} {p : ℕ} (hc : c.Same c') (hl : still (regOf l) = 0)
    (hh : still (regOf h) = 0) : c.Same (c'.setPtr l h p) :=
  (hc.set_volatile hl).set_volatile hh

theorem still_statusRegs : ∀ r ∈ statusRegs, still r = 0 := by decide

theorem event_same (c : Chip) (e : HwEvent) : c.Same (c.event e) := by
  cases e with
  | frame f =>
    simp only [Chip.event, Chip.receive]
    split_ifs
    · exact ((Chip.Same.refl c).setPtr (by decide) (by decide)).set_volatile (by decide)
    · exact .refl c
  | txEnd aborted stuck status =>
    simp only [Chip.event, Chip.endTx]
    split_ifs
    all_goals first
      | exact .refl c
      | refine ((Chip.Same.refl c).set ?_).set_volatile (by decide)
        rw [show still (regOf econ1) = 0xD7 by decide, BitVec.and_assoc]
        rfl
  | status r v =>
    simp only [Chip.event]
    split_ifs with h
    · exact (Chip.Same.refl c).set_volatile (still_statusRegs r h)
    · exact .refl c
  | interrupt v => exact (Chip.Same.refl c).set_volatile (by decide)

theorem fetch_same (c : Chip) : c.Same c.fetch.2 := by
  simp only [Chip.fetch]
  split_ifs
  · exact (Chip.Same.refl c).setPtr (by decide) (by decide)
  · exact .refl c

theorem push_same (c : Chip) (b : Byte) : c.Same (c.push b) := by
  simp only [Chip.push]
  split_ifs
  · exact (Chip.Same.refl c).setPtr (by decide) (by decide)
  · exact .refl c

theorem Chip.Same.reg_eq (h : c.Same c') (hr : still r = 0xFF) : c'.reg r = c.reg r := by
  have := h r
  rwa [hr, show (0xFF : Byte) = BitVec.allOnes 8 from rfl, BitVec.and_allOnes,
    BitVec.and_allOnes] at this

theorem Chip.Same.bit_eq (h : c.Same c') {i : ℕ} (hr : (still r).getLsbD i = true) :
    (c'.reg r).getLsbD i = (c.reg r).getLsbD i := by
  simpa [hr] using congrArg (fun x => BitVec.getLsbD x i) (h r)

theorem Chip.Same.bsel_eq (h : c.Same c') : c'.bsel = c.bsel := by
  apply BitVec.eq_of_getLsbD_eq
  intro i hi
  have hbit : (still (regOf econ1)).getLsbD i = true := by
    obtain rfl | rfl : i = 0 ∨ i = 1 := by omega
    all_goals decide
  simpa [Chip.bsel, Chip.get, hi] using h.bit_eq hbit

/-- A relation that events are in and that composes holds over what the chip does in one exchange. -/
theorem hear_rel {R : Chip → Chip → Prop} (hrefl : ∀ c, R c c)
    (htrans : ∀ c c' c'', R c c' → R c' c'' → R c c'') (h : ∀ c e, R c (c.event e)) (w : World) :
    R w.chip w.hear.chip := by
  show R w.chip ((w.script 0).foldl Chip.event w.chip)
  generalize w.chip = c
  induction w.script 0 generalizing c with
  | nil => exact hrefl c
  | cons e events ih => exact htrans _ _ _ (h c e) (ih _)

theorem hear_same (w : World) : w.chip.Same w.hear.chip :=
  hear_rel Chip.Same.refl (fun _ _ _ => Chip.Same.trans) event_same w

theorem event_spi (c : Chip) (e : HwEvent) : (c.event e).spi = c.spi := by
  cases e <;> simp only [Chip.event, Chip.receive, Chip.endTx] <;> (try split_ifs) <;> rfl

theorem hear_spi (w : World) : w.hear.chip.spi = w.chip.spi :=
  hear_rel (R := fun c c' => c'.spi = c.spi) (fun _ => rfl) (fun _ _ _ h h' => h'.trans h)
    event_spi w

theorem event_reached (c : Chip) (e : HwEvent) : (c.event e).reached = c.reached := by
  cases e <;> simp only [Chip.event, Chip.receive, Chip.endTx] <;> (try split_ifs) <;> rfl

theorem hear_reached (w : World) : w.hear.chip.reached = w.chip.reached :=
  hear_rel (R := fun c c' => c'.reached = c.reached) (fun _ => rfl) (fun _ _ _ h h' => h'.trans h)
    event_reached w

/-- The register that a command with this address constant reaches now. -/
def Chip.target (c : Chip) (address : Byte) : Reg := Reg.at c.bsel (argOf address)

theorem hear_target (w : World) (address : Byte) :
    w.hear.chip.target address = w.chip.target address := by
  rw [Chip.target, Chip.target, (hear_same w).bsel_eq]

/-! ## Register commands -/

theorem opcode_byte (op : Byte)
    (hop : op = readCtrlReg ∨ op = writeCtrlReg ∨ op = bitFieldSet ∨ op = bitFieldClr)
    (address : Byte) :
    op ||| (address &&& addrMask) ≠ 0xFF ∧ op ||| (address &&& addrMask) ≠ 0x3A ∧
      op ||| (address &&& addrMask) ≠ 0x7A ∧
      (op ||| (address &&& addrMask)).extractLsb' 5 3 = op.extractLsb' 5 3 ∧
      argOf (op ||| (address &&& addrMask)) = argOf address := by
  rcases hop with rfl | rfl | rfl | rfl <;> revert address <;> decide

/-- The chip with another history of registers reached. -/
def Chip.reach (c : Chip) (l : List Reg) : Chip := { c with reached := l }

/-- The bit field commands, which MAC and MII registers do not take. -/
def Chip.bitSet (c : Chip) (r : Reg) (d : Byte) : Chip :=
  if r.macMii then c else c.store r (c.reg r ||| d)

def Chip.bitClear (c : Chip) (r : Reg) (d : Byte) : Chip :=
  if r.macMii then c else c.store r (c.reg r &&& ~~~d)

/-- What a command does to the chip, between chip select going low and going high. -/
def Chip.command (c : Chip) : Issue → Chip
  | .reset => c.softReset
  | .read address => c.reach (c.reached ++ [c.target address])
  | .write address data =>
    (c.store (c.target address) data).reach (c.reached ++ [c.target address])
  | .set address data =>
    (c.bitSet (c.target address) data).reach (c.reached ++ [c.target address])
  | .clear address data =>
    (c.bitClear (c.target address) data).reach (c.reached ++ [c.target address])

/-- A command issued and carried out. -/
def World.issue (w : World) (i : Issue) : World :=
  { w with chip := w.chip.command i, issued := w.issued ++ [i] }

/-- What the chip waits for after the opcode byte of a register command. -/
def spiOf (op : Byte) (r : Reg) : Spi :=
  if op = readCtrlReg then .rcr r r.macMii
  else if op = writeCtrlReg then .wcr r
  else if op = bitFieldSet then .bfs r
  else .bfc r

theorem exchange_opcode (c : Chip) (l : List Reg) {op : Byte}
    (hop : op = readCtrlReg ∨ op = writeCtrlReg ∨ op = bitFieldSet ∨ op = bitFieldClr)
    (address : Byte) :
    (c.mark .opcode l).exchange (op ||| (address &&& addrMask)) =
      (0, c.mark (spiOf op (c.target address)) (l ++ [c.target address])) := by
  obtain ⟨h₁, h₂, h₃, h₄, h₅⟩ := opcode_byte op hop address
  show (0, (c.mark .opcode l).decode (op ||| (address &&& addrMask))) = _
  simp only [Chip.decode, if_neg h₁, if_neg h₂, if_neg h₃, h₄, h₅]
  rcases hop with rfl | rfl | rfl | rfl <;> rfl

/-- Chip select is high. -/
def World.Idle (w : World) : Prop := w.chip.spi = .idle

theorem World.Idle.hear {w : World} (h : w.Idle) : w.hear.Idle := (hear_spi w).trans h

theorem spi1ReadWrite_exec (w : World) (s : Spi) (l : List Reg) (issued : List Issue) (b : Byte) :
    (spi1ReadWrite b).exec (w.mark s l issued) =
      (some ((w.hear.chip.mark s l).exchange b).1,
        { w.hear with chip := ((w.hear.chip.mark s l).exchange b).2, issued := issued }) := by
  simp only [spi1ReadWrite, exec_act, hear_mark]
  rfl

theorem exec_csl {w : World} (hw : w.Idle) (l : List Issue) :
    enc28j60CSL.exec (w.note l) =
      (some (), w.mark .opcode w.chip.reached (w.issued ++ l)) := by
  simp only [enc28j60CSL, withChip, exec_update, World.note, Chip.csLow]
  rw [show w.chip.spi = .idle from hw]
  rfl

theorem exec_opcode (w : World) {op : Byte}
    (hop : op = readCtrlReg ∨ op = writeCtrlReg ∨ op = bitFieldSet ∨ op = bitFieldClr)
    (address : Byte) (issued : List Issue) :
    (spi1ReadWrite (op ||| (address &&& addrMask))).exec
        (w.mark .opcode w.chip.reached issued) =
      (some 0, w.hear.mark (spiOf op (w.hear.chip.target address))
        (w.hear.chip.reached ++ [w.hear.chip.target address]) issued) := by
  rw [spi1ReadWrite_exec, exchange_opcode _ _ hop, ← hear_reached]
  rfl

theorem exchange_wcr (c : Chip) (l : List Reg) (r : Reg) (b : Byte) :
    (c.mark (.wcr r) l).exchange b = (0, (c.store r b).mark .done l) := by
  show (0, ({ (c.mark (.wcr r) l).store r b with spi := .done } : Chip)) = _
  rw [store_mark]
  rfl

theorem exchange_bfs (c : Chip) (l : List Reg) (r : Reg) (b : Byte) :
    (c.mark (.bfs r) l).exchange b = (0, (c.bitSet r b).mark .done l) := by
  show (0, ({ (c.mark (.bfs r) l).bitSet r b with spi := .done } : Chip)) = _
  rw [Chip.bitSet, store_mark, Chip.bitSet]
  cases r.macMii <;> rfl

theorem exchange_bfc (c : Chip) (l : List Reg) (r : Reg) (b : Byte) :
    (c.mark (.bfc r) l).exchange b = (0, (c.bitClear r b).mark .done l) := by
  show (0, ({ (c.mark (.bfc r) l).bitClear r b with spi := .done } : Chip)) = _
  rw [Chip.bitClear, store_mark, Chip.bitClear]
  cases r.macMii <;> rfl

theorem store_spi (c : Chip) (r : Reg) (v : Byte) : (c.store r v).spi = c.spi := by
  have h := congrArg Chip.spi (store_mark c c.spi c.reached r v)
  exact h

theorem bitSet_spi (c : Chip) (r : Reg) (d : Byte) : (c.bitSet r d).spi = c.spi := by
  rw [Chip.bitSet]
  split_ifs
  · rfl
  · exact store_spi ..

theorem bitClear_spi (c : Chip) (r : Reg) (d : Byte) : (c.bitClear r d).spi = c.spi := by
  rw [Chip.bitClear]
  split_ifs
  · rfl
  · exact store_spi ..

theorem hear_issued (w : World) : w.hear.issued = w.issued := rfl

/-- Two exchanges later, a command is clocked in and carried out. -/
theorem issue_of_exchanges (w : World) (i : Issue) {address : Byte} {c : Chip}
    (hspi : c.spi = .idle)
    (hc : c.reach (w.chip.reached ++ [w.chip.target address]) = w.hear.hear.chip.command i) :
    ({ w.hear.hear with
        chip := (c.mark .done (w.hear.chip.reached ++ [w.hear.chip.target address])).csHigh
        issued := w.issued ++ [i] } : World) = w.hear.hear.issue i := by
  rw [World.issue, ← hc, hear_reached, hear_target, hear_issued, hear_issued, Chip.csHigh,
    Chip.mark, ← hspi]
  rfl

theorem enc28j60WriteOp_write {w : World} (hw : w.Idle) (address data : Byte) :
    (enc28j60WriteOp writeCtrlReg address data).exec w =
      (some (), w.hear.hear.issue (.write address data)) := by
  rw [enc28j60WriteOp, exec_bind_some (exec_update ..), exec_bind_some (exec_csl hw _),
    exec_bind_some (exec_opcode w (by decide) address _),
    exec_bind_some (spi1ReadWrite_exec ..),
    show spiOf writeCtrlReg (w.hear.chip.target address) = .wcr (w.hear.chip.target address)
      from rfl, exchange_wcr]
  refine congrArg (Prod.mk (some ())) (issue_of_exchanges w _ ((store_spi ..).trans hw.hear.hear) ?_)
  simp only [Chip.command, hear_target, hear_reached]

theorem enc28j60WriteOp_set {w : World} (hw : w.Idle) (address data : Byte) :
    (enc28j60WriteOp bitFieldSet address data).exec w =
      (some (), w.hear.hear.issue (.set address data)) := by
  rw [enc28j60WriteOp, exec_bind_some (exec_update ..), exec_bind_some (exec_csl hw _),
    exec_bind_some (exec_opcode w (by decide) address _),
    exec_bind_some (spi1ReadWrite_exec ..),
    show spiOf bitFieldSet (w.hear.chip.target address) = .bfs (w.hear.chip.target address)
      from rfl, exchange_bfs]
  refine congrArg (Prod.mk (some ())) (issue_of_exchanges w _ ((bitSet_spi ..).trans hw.hear.hear) ?_)
  simp only [Chip.command, hear_target, hear_reached]

theorem enc28j60WriteOp_clear {w : World} (hw : w.Idle) (address data : Byte) :
    (enc28j60WriteOp bitFieldClr address data).exec w =
      (some (), w.hear.hear.issue (.clear address data)) := by
  rw [enc28j60WriteOp, exec_bind_some (exec_update ..), exec_bind_some (exec_csl hw _),
    exec_bind_some (exec_opcode w (by decide) address _),
    exec_bind_some (spi1ReadWrite_exec ..),
    show spiOf bitFieldClr (w.hear.chip.target address) = .bfc (w.hear.chip.target address)
      from rfl, exchange_bfc]
  refine congrArg (Prod.mk (some ()))
    (issue_of_exchanges w _ ((bitClear_spi ..).trans hw.hear.hear) ?_)
  simp only [Chip.command, hear_target, hear_reached]

/-- The system reset takes effect with its opcode byte; the byte after it is ignored. -/
theorem enc28j60WriteOp_reset {w : World} (hw : w.Idle) :
    (enc28j60WriteOp softResetOp 0 softResetOp).exec w =
      (some (), (w.hear.issue .reset).hear) := by
  have hreset : ({ w.hear with
      chip := ((w.hear.chip.mark .opcode w.chip.reached).exchange
        (softResetOp ||| (0 &&& addrMask))).2
      issued := w.issued ++ [.reset] } : World) =
      (w.hear.issue .reset).mark .done w.chip.reached (w.issued ++ [.reset]) := by
    rw [World.issue, hear_issued]
    rfl
  have hidle : (w.hear.issue .reset).Idle := hw.hear
  rw [enc28j60WriteOp, exec_bind_some (exec_update ..), exec_bind_some (exec_csl hw _),
    exec_bind_some (spi1ReadWrite_exec ..)]
  rw [show issueOf softResetOp 0 softResetOp = [.reset] from rfl, hreset,
    exec_bind_some (spi1ReadWrite_exec ..)]
  have hreached : (w.hear.issue .reset).hear.chip.reached = w.chip.reached :=
    (hear_reached _).trans (hear_reached w)
  have hissued : (w.hear.issue .reset).hear.issued = w.issued ++ [.reset] := by
    rw [hear_issued, World.issue, hear_issued]
  have hspi : (w.hear.issue .reset).hear.chip.spi = .idle := hidle.hear
  refine congrArg (Prod.mk (some ())) ?_
  show ({ (w.hear.issue .reset).hear with
    chip := (w.hear.issue .reset).hear.chip.mark .idle w.chip.reached
    issued := w.issued ++ [.reset] } : World) = _
  rw [← hreached, ← hissued, ← hspi]
  rfl

theorem exec_rcr (w : World) (r : Reg) (dummy : Bool) (l : List Reg) (issued : List Issue) (b : Byte) :
    (spi1ReadWrite b).exec (w.mark (.rcr r dummy) l issued) =
      (some (if dummy then 0 else w.hear.chip.reg r), w.hear.mark (.rcr r false) l issued) := by
  rw [spi1ReadWrite_exec]
  cases dummy <;> rfl

theorem exec_csh_read {w v : World} {address : Byte} {s : Spi} (hv : v.Idle)
    (hreached : v.chip.reached = w.chip.reached) (hissued : v.issued = w.issued)
    (htarget : v.chip.target address = w.chip.target address) :
    enc28j60CSH.exec (v.mark s (w.chip.reached ++ [w.chip.target address])
      (w.issued ++ [.read address])) = (some (), v.issue (.read address)) := by
  refine congrArg (Prod.mk (some ())) ?_
  rw [World.issue, Chip.command, hreached, hissued, htarget]
  show ({ v with chip := v.chip.mark .idle _, issued := _ } : World) = _
  rw [Chip.mark, ← show v.chip.spi = .idle from hv]
  rfl

theorem enc28j60ReadOp_read {w : World} (hw : w.Idle) (address : Byte) :
    ∃ x v, (v = w.hear.hear ∨ v = w.hear.hear.hear) ∧
      (enc28j60ReadOp readCtrlReg address).exec w = (some x, v.issue (.read address)) ∧
      (address.getLsbD 7 = (v.chip.target address).macMii →
        x = v.chip.reg (v.chip.target address)) := by
  have hop := exec_opcode w (Or.inl (Eq.refl readCtrlReg)) address
    (w.issued ++ [.read address])
  rw [show spiOf readCtrlReg (w.hear.chip.target address) =
    .rcr (w.hear.chip.target address) (w.hear.chip.target address).macMii from rfl,
    hear_target, hear_reached] at hop
  have hbit : ∀ a : Byte, (a &&& 0x80 ≠ 0) ↔ a.getLsbD 7 = true := by decide
  rw [enc28j60ReadOp, exec_bind_some (exec_update ..), exec_bind_some (exec_csl hw _),
    show issueOf readCtrlReg address 0 = [.read address] from rfl, exec_bind_some hop,
    exec_bind_some (exec_rcr ..)]
  by_cases h : address &&& 0x80 ≠ 0
  · have htarget : w.hear.hear.hear.chip.target address = w.chip.target address := by
      rw [hear_target, hear_target, hear_target]
    refine ⟨_, w.hear.hear.hear, .inr rfl, ?_, fun _ => rfl⟩
    rw [if_pos h, exec_bind_some (exec_rcr ..), exec_bind_some
      (exec_csh_read hw.hear.hear.hear (by rw [hear_reached, hear_reached, hear_reached])
        (by rw [hear_issued, hear_issued, hear_issued]) htarget), htarget]
    rfl
  · have htarget : w.hear.hear.chip.target address = w.chip.target address := by
      rw [hear_target, hear_target]
    refine ⟨if (w.chip.target address).macMii then 0 else w.hear.hear.chip.reg (w.chip.target address),
      w.hear.hear, .inl rfl, ?_, fun hmac => ?_⟩
    · rw [if_neg h, exec_bind_some (exec_pure ..), exec_bind_some
        (exec_csh_read hw.hear.hear (by rw [hear_reached, hear_reached])
          (by rw [hear_issued, hear_issued]) htarget)]
      rfl
    · rw [htarget] at hmac ⊢
      rw [← hmac, if_neg fun hset => h ((hbit address).mpr hset)]

/-! ## The buffer -/

/-- The byte at the read pointer is taken. -/
def World.fetched (w : World) : World := { w with chip := w.chip.fetch.2 }

/-- A byte is put at the write pointer. -/
def World.pushed (w : World) (b : Byte) : World := { w with chip := w.chip.push b }

theorem exec_rbm (w : World) (l : List Reg) (issued : List Issue) (b : Byte) :
    (spi1ReadWrite b).exec (w.mark .rbm l issued) =
      (some w.hear.chip.fetch.1, w.hear.fetched.mark .rbm l issued) := by
  rw [spi1ReadWrite_exec]
  show (some (w.hear.chip.mark .rbm l).fetch.1, (World.mk (w.hear.chip.mark .rbm l).fetch.2 ..)) = _
  rw [fetch_mark]
  rfl

theorem exec_wbm (w : World) (l : List Reg) (issued : List Issue) (b : Byte) :
    (spi1ReadWrite b).exec (w.mark .wbm l issued) =
      (some 0, (w.hear.pushed b).mark .wbm l issued) := by
  rw [spi1ReadWrite_exec]
  show (some 0, (World.mk ((w.hear.chip.mark .wbm l).push b) ..)) = _
  rw [push_mark]
  rfl

theorem fetch_spi (c : Chip) : c.fetch.2.spi = c.spi := by
  rw [Chip.fetch]
  split_ifs <;> rfl

theorem fetch_reached (c : Chip) : c.fetch.2.reached = c.reached := by
  rw [Chip.fetch]
  split_ifs <;> rfl

theorem push_spi (c : Chip) (b : Byte) : (c.push b).spi = c.spi := by
  rw [Chip.push]
  split_ifs <;> rfl

theorem push_reached (c : Chip) (b : Byte) : (c.push b).reached = c.reached := by
  rw [Chip.push]
  split_ifs <;> rfl

/-- A buffer command leaves the bus free and the histories as they were. -/
def World.Beside (w v : World) : Prop :=
  v.chip.spi = w.chip.spi ∧ v.chip.reached = w.chip.reached ∧ v.issued = w.issued

theorem World.Beside.hear {w v : World} (h : w.Beside v) : w.Beside v.hear :=
  ⟨(hear_spi v).trans h.1, (hear_reached v).trans h.2.1, (hear_issued v).trans h.2.2⟩

theorem World.Beside.fetched {w v : World} (h : w.Beside v) : w.Beside v.fetched :=
  ⟨(fetch_spi _).trans h.1, (fetch_reached _).trans h.2.1, h.2.2⟩

theorem World.Beside.pushed {w v : World} (h : w.Beside v) (b : Byte) : w.Beside (v.pushed b) :=
  ⟨(push_spi ..).trans h.1, (push_reached ..).trans h.2.1, h.2.2⟩

theorem exec_csh {w v : World} {s : Spi} (hw : w.Idle) (hv : w.Beside v) :
    enc28j60CSH.exec (v.mark s w.chip.reached w.issued) = (some (), v) := by
  refine congrArg (Prod.mk (some ())) ?_
  obtain ⟨hspi, hreached, hissued⟩ := hv
  rw [← hreached, ← hissued]
  show ({ v with chip := v.chip.mark .idle v.chip.reached } : World) = _
  rw [Chip.mark, ← show v.chip.spi = .idle from hspi.trans hw]

theorem exec_buf_opcode (w : World) {b : Byte} {s : Spi} (l : List Reg) (issued : List Issue)
    (hdecode : ∀ c : Chip, c.decode b = { c with spi := s }) :
    (spi1ReadWrite b).exec (w.mark .opcode l issued) = (some 0, w.hear.mark s l issued) := by
  rw [spi1ReadWrite_exec]
  show (some 0, (World.mk ((w.hear.chip.mark .opcode l).decode b) ..)) = _
  rw [hdecode]
  rfl

theorem enc28j60ReadOp_fetch {w : World} (hw : w.Idle) :
    (enc28j60ReadOp readBufMem 0).exec w =
      (some w.hear.hear.chip.fetch.1, w.hear.hear.fetched) := by
  have hbeside : w.Beside w.hear.hear.fetched := (World.Beside.hear ⟨rfl, rfl, rfl⟩).hear.fetched
  rw [enc28j60ReadOp, exec_bind_some (exec_update ..), exec_bind_some (exec_csl hw _),
    show issueOf readBufMem 0 0 = [] from rfl, List.append_nil,
    exec_bind_some (exec_buf_opcode w _ _ fun _ => rfl), exec_bind_some (exec_rbm ..),
    if_neg (by decide), exec_bind_some (exec_pure ..), exec_bind_some (exec_csh hw hbeside)]
  rfl

theorem enc28j60WriteOp_push {w : World} (hw : w.Idle) (b : Byte) :
    (enc28j60WriteOp writeBufMem 0 b).exec w = (some (), w.hear.hear.pushed b) := by
  have hbeside : w.Beside (w.hear.hear.pushed b) := (World.Beside.hear ⟨rfl, rfl, rfl⟩).hear.pushed b
  rw [enc28j60WriteOp, exec_bind_some (exec_update ..), exec_bind_some (exec_csl hw _),
    show issueOf writeBufMem 0 b = [] from rfl, List.append_nil,
    exec_bind_some (exec_buf_opcode w _ _ fun _ => rfl), exec_bind_some (exec_wbm ..),
    exec_csh hw hbeside]

/-! ## Rules -/

/-- What the chip does by itself keeps `P`. -/
def Stable (P : World → Prop) : Prop := ∀ w, P w → P w.hear

section Rules

variable {P R : World → Prop} {address data : Byte}

theorem triple_write {Q : Unit → World → Prop} (hP : Stable P)
    (h : ∀ w, w.Idle → P w → Q () (w.issue (.write address data))) :
    Triple (fun w => w.Idle ∧ P w) (enc28j60WriteOp writeCtrlReg address data) Q R := by
  rintro w ⟨hw, hp⟩
  rw [enc28j60WriteOp_write hw]
  exact h _ hw.hear.hear (hP _ (hP _ hp))

theorem triple_set {Q : Unit → World → Prop} (hP : Stable P)
    (h : ∀ w, w.Idle → P w → Q () (w.issue (.set address data))) :
    Triple (fun w => w.Idle ∧ P w) (enc28j60WriteOp bitFieldSet address data) Q R := by
  rintro w ⟨hw, hp⟩
  rw [enc28j60WriteOp_set hw]
  exact h _ hw.hear.hear (hP _ (hP _ hp))

theorem triple_clear {Q : Unit → World → Prop} (hP : Stable P)
    (h : ∀ w, w.Idle → P w → Q () (w.issue (.clear address data))) :
    Triple (fun w => w.Idle ∧ P w) (enc28j60WriteOp bitFieldClr address data) Q R := by
  rintro w ⟨hw, hp⟩
  rw [enc28j60WriteOp_clear hw]
  exact h _ hw.hear.hear (hP _ (hP _ hp))

/-- `K` is what holds of `P` after the chip has had its time. -/
theorem triple_read {K : World → Prop} {Q : Byte → World → Prop} (hP : Stable P)
    (hK : ∀ w, P w → K w.hear)
    (h : ∀ w x, w.Idle → K w → (address.getLsbD 7 = (w.chip.target address).macMii →
      x = w.chip.reg (w.chip.target address)) → Q x (w.issue (.read address))) :
    Triple (fun w => w.Idle ∧ P w) (enc28j60ReadOp readCtrlReg address) Q R := by
  rintro w ⟨hw, hp⟩
  obtain ⟨x, v, rfl | rfl, hexec, hx⟩ := enc28j60ReadOp_read hw address <;> rw [hexec]
  · exact h _ x hw.hear.hear (hK _ (hP _ hp)) hx
  · exact h _ x hw.hear.hear.hear (hK _ (hP _ (hP _ hp))) hx

theorem triple_fetch {Q : Byte → World → Prop} (hP : Stable P)
    (h : ∀ w, w.Idle → P w → Q w.chip.fetch.1 w.fetched) :
    Triple (fun w => w.Idle ∧ P w) (enc28j60ReadOp readBufMem 0) Q R := by
  rintro w ⟨hw, hp⟩
  rw [enc28j60ReadOp_fetch hw]
  exact h _ hw.hear.hear (hP _ (hP _ hp))

theorem triple_push {Q : Unit → World → Prop} (hP : Stable P)
    (h : ∀ w, w.Idle → P w → Q () (w.pushed data)) :
    Triple (fun w => w.Idle ∧ P w) (enc28j60WriteOp writeBufMem 0 data) Q R := by
  rintro w ⟨hw, hp⟩
  rw [enc28j60WriteOp_push hw]
  exact h _ hw.hear.hear (hP _ (hP _ hp))

/-- The loop of a buffer read: `J` of the bytes taken so far holds before each exchange. -/
theorem readLoop_spec {J : List Byte → World → Prop} (hJ : ∀ l, Stable (J l))
    (hfetch : ∀ l w, J l w → J (l ++ [w.chip.fetch.1]) w.fetched) (len : ℕ) {w v : World}
    {l : List Byte} (hbeside : w.Beside v) (hl : J l v) :
    ∃ bytes u, (readLoop len).exec (v.mark .rbm w.chip.reached w.issued) =
        (some bytes, u.mark .rbm w.chip.reached w.issued) ∧
      bytes.length = len ∧ w.Beside u ∧ J (l ++ bytes) u := by
  induction len generalizing v l with
  | zero => exact ⟨[], v, rfl, rfl, hbeside, by rwa [List.append_nil]⟩
  | succ len ih =>
    obtain ⟨bytes, u, hexec, hlen, hu, hbytes⟩ :=
      ih hbeside.hear.fetched (hfetch l _ (hJ l _ hl))
    refine ⟨v.hear.chip.fetch.1 :: bytes, u, ?_, by rw [List.length_cons, hlen], hu, ?_⟩
    · rw [readLoop, exec_bind_some (exec_rbm ..), exec_bind_some hexec]
      rfl
    · rwa [List.append_assoc, List.singleton_append] at hbytes

theorem triple_readBuffer {J : List Byte → World → Prop} (hJ : ∀ l, Stable (J l))
    (hfetch : ∀ l w, J l w → J (l ++ [w.chip.fetch.1]) w.fetched) (len : ℕ) :
    Triple (fun w => w.Idle ∧ J [] w) (enc28j60ReadBuffer len)
      (fun x w => w.Idle ∧ ∃ bytes, x = bytes ++ [0] ∧ bytes.length = len ∧ J bytes w) R := by
  rintro w ⟨hw, hl⟩
  obtain ⟨bytes, u, hexec, hlen, hu, hbytes⟩ :=
    readLoop_spec hJ hfetch len (World.Beside.hear ⟨rfl, rfl, rfl⟩ : w.Beside w.hear) (hJ _ _ hl)
  have hcsl := exec_csl hw []
  rw [World.note, List.append_nil] at hcsl
  rw [enc28j60ReadBuffer, exec_bind_some hcsl,
    exec_bind_some (exec_buf_opcode w _ _ fun _ => rfl), exec_bind_some hexec,
    exec_bind_some (exec_csh hw hu)]
  exact ⟨hu.1.trans hw, bytes, rfl, hlen, hbytes⟩

theorem writeLoop_spec {J : List Byte → World → Prop} (hJ : ∀ l, Stable (J l))
    (hpush : ∀ l w b, J l w → J (l ++ [b]) (w.pushed b)) (bytes : List Byte)
    {w v : World} {l : List Byte} (hbeside : w.Beside v) (hl : J l v) :
    ∃ u, (writeLoop bytes).exec (v.mark .wbm w.chip.reached w.issued) =
        (some (), u.mark .wbm w.chip.reached w.issued) ∧ w.Beside u ∧ J (l ++ bytes) u := by
  induction bytes generalizing v l with
  | nil => exact ⟨v, rfl, hbeside, by rwa [List.append_nil]⟩
  | cons b bytes ih =>
    obtain ⟨u, hexec, hu, hbytes⟩ := ih (hbeside.hear.pushed b) (hpush l _ b (hJ l _ hl))
    refine ⟨u, ?_, hu, ?_⟩
    · rw [writeLoop, exec_bind_some (exec_wbm ..), hexec]
    · rwa [List.append_assoc, List.singleton_append] at hbytes

theorem triple_writeBuffer {J : List Byte → World → Prop} (hJ : ∀ l, Stable (J l))
    (hpush : ∀ l w b, J l w → J (l ++ [b]) (w.pushed b)) (l bytes : List Byte) :
    Triple (fun w => w.Idle ∧ J l w) (enc28j60WriteBuffer bytes)
      (fun _ w => w.Idle ∧ J (l ++ bytes) w) R := by
  rintro w ⟨hw, hl⟩
  obtain ⟨u, hexec, hu, hbytes⟩ :=
    writeLoop_spec hJ hpush bytes (World.Beside.hear ⟨rfl, rfl, rfl⟩ : w.Beside w.hear) (hJ _ _ hl)
  have hcsl := exec_csl hw []
  rw [World.note, List.append_nil] at hcsl
  rw [enc28j60WriteBuffer, exec_bind_some hcsl,
    exec_bind_some (exec_buf_opcode w _ _ fun _ => rfl), exec_bind_some hexec, exec_csh hw hu]
  exact ⟨hu.1.trans hw, hbytes⟩

end Rules

end LoraGateway.Enc28j60
