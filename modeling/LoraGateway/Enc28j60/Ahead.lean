import LoraGateway.Enc28j60.Driver

/-!
# What the calls leave to come

A property of what the hardware is still going to do (`Ahead`) that passing time keeps is kept by every call
of the driver, in any state of the chip. So a call only uses up a part of the script (`Later`); and a
function without a polling loop, which the property that is always true is enough for, returns.
-/

namespace LoraGateway.Enc28j60

open Lib Lib.Prog

variable {P R : World → Prop}

/-- The property depends on the script only, and passing time keeps it. -/
structure Ahead (P : World → Prop) : Prop where
  hear : ∀ w, P w → P w.hear
  congr : ∀ w w' : World, w'.script = w.script → P w → P w'

theorem ahead_true : Ahead fun _ => True := ⟨fun _ _ => trivial, fun _ _ _ _ => trivial⟩

/-! ## SPI commands -/

theorem ahead_update (hP : Ahead P) {f : World → World} (hf : ∀ w, (f w).script = w.script) :
    Triple P (Prog.update f) (fun _ => P) R :=
  Triple.update fun w h => hP.congr w (f w) (hf w) h

theorem ahead_chip (hP : Ahead P) (f : Chip → Chip) : Triple P (withChip f) (fun _ => P) R :=
  ahead_update hP fun _ => rfl

theorem ahead_note (hP : Ahead P) (l : List Issue) :
    Triple P (Prog.update fun w => w.note l) (fun _ => P) R :=
  ahead_update hP fun _ => rfl

theorem ahead_nextPacketPtr (hP : Ahead P) (p : BitVec 32) :
    Triple P (Prog.update fun w => { w with nextPacketPtr := p }) (fun _ => P) R :=
  ahead_update hP fun _ => rfl

theorem ahead_exchange (hP : Ahead P) (b : Byte) : Triple P (spi1ReadWrite b) (fun _ => P) R :=
  Triple.act fun w h => hP.congr w.hear _ rfl (hP.hear w h)

theorem ahead_readOp (hP : Ahead P) (op address : Byte) :
    Triple P (enc28j60ReadOp op address) (fun _ => P) R := by
  refine (ahead_note hP _).bind fun _ => (ahead_chip hP _).bind fun _ => ?_
  refine (ahead_exchange hP _).bind fun _ => (ahead_exchange hP _).bind fun dat => ?_
  have hdummy : Triple P (if address &&& 0x80 ≠ 0 then spi1ReadWrite 0xFF else pure dat : Drv Byte)
      (fun _ => P) R := by
    split_ifs
    · exact ahead_exchange hP _
    · exact Triple.pure fun _ h => h
  exact hdummy.bind fun _ => (ahead_chip hP _).bind fun _ => Triple.pure fun _ h => h

theorem ahead_writeOp (hP : Ahead P) (op address data : Byte) :
    Triple P (enc28j60WriteOp op address data) (fun _ => P) R := by
  refine (ahead_note hP _).bind fun _ => (ahead_chip hP _).bind fun _ => ?_
  exact (ahead_exchange hP _).bind fun _ => (ahead_exchange hP _).bind fun _ => ahead_chip hP _

theorem ahead_readLoop (hP : Ahead P) (len : ℕ) : Triple P (readLoop len) (fun _ => P) R := by
  induction len with
  | zero => exact Triple.pure fun _ h => h
  | succ len ih => exact (ahead_exchange hP _).bind fun _ => ih.bind fun _ => Triple.pure fun _ h => h

theorem ahead_readBuffer (hP : Ahead P) (len : ℕ) : Triple P (enc28j60ReadBuffer len) (fun _ => P) R := by
  refine (ahead_chip hP _).bind fun _ => (ahead_exchange hP _).bind fun _ => ?_
  refine (ahead_readLoop hP len).bind fun _ => (ahead_chip hP _).bind fun _ => ?_
  exact Triple.pure fun _ h => h

theorem ahead_writeLoop (hP : Ahead P) (data : List Byte) : Triple P (writeLoop data) (fun _ => P) R := by
  induction data with
  | nil => exact Triple.pure fun _ h => h
  | cons x data ih => exact (ahead_exchange hP x).bind fun _ => ih

theorem ahead_writeBuffer (hP : Ahead P) (data : List Byte) :
    Triple P (enc28j60WriteBuffer data) (fun _ => P) R := by
  refine (ahead_chip hP _).bind fun _ => (ahead_exchange hP _).bind fun _ => ?_
  exact (ahead_writeLoop hP data).bind fun _ => ahead_chip hP _

/-! ## Registers -/

theorem ahead_setBank (hP : Ahead P) (address : Byte) : Triple P (enc28j60SetBank address) (fun _ => P) R := by
  refine Triple.bind (Q := fun _ => P) (Triple.look fun _ h => h) fun bank => ?_
  split_ifs
  · refine (ahead_writeOp hP _ _ _).bind fun _ => (ahead_writeOp hP _ _ _).bind fun _ => ?_
    exact ahead_update hP fun _ => rfl
  · exact Triple.pure fun _ h => h

theorem ahead_read (hP : Ahead P) (address : Byte) : Triple P (enc28j60Read address) (fun _ => P) R :=
  (ahead_setBank hP address).bind fun _ => ahead_readOp hP _ _

theorem ahead_write (hP : Ahead P) (address data : Byte) :
    Triple P (enc28j60Write address data) (fun _ => P) R :=
  (ahead_setBank hP address).bind fun _ => ahead_writeOp hP _ _ _

theorem ahead_writeAll (hP : Ahead P) (l : List (Byte × Byte)) :
    Triple P (enc28j60WriteAll l) (fun _ => P) R :=
  Triple.forM fun p _ => ahead_write hP p.1 p.2

theorem ahead_poll (hP : Ahead P) (address : Byte) (done : Byte → Bool) (fuel : ℕ) :
    Triple P (Prog.pollUntil (do
      let x ← enc28j60Read address
      pure (done x)) fuel) (fun _ => P) P := by
  refine Triple.pollUntil (Q := fun _ => P) ?_ (fun _ h => h) fuel
  refine (ahead_read hP address).bind fun x => Triple.pure fun w h => ?_
  split_ifs <;> exact h

/-! ## Calls -/

theorem ahead_phyWrite (hP : Ahead P) (fuel : ℕ) (address : Byte) (data : BitVec 32) :
    Triple P (enc28j60PhyWrite fuel address data) (fun _ => P) P :=
  (ahead_writeAll hP _).bind fun _ => ahead_poll hP _ _ fuel

theorem ahead_printMac (hP : Ahead P) (macaddr : Fin 6 → Byte) : Triple P (printMac macaddr) (fun _ => P) R := by
  refine (ahead_read hP _).bind fun first => ?_
  split_ifs
  · exact Triple.forM fun address _ => (ahead_read hP address).bind fun _ => Triple.pure fun _ h => h
  · exact Triple.pure fun _ h => h

theorem ahead_init (hP : Ahead P) (fuel : ℕ) (macaddr : Fin 6 → Byte) :
    Triple P (enc28j60Init fuel macaddr) (fun _ => P) P := by
  refine (ahead_chip hP _).bind fun _ => (ahead_writeOp hP _ _ _).bind fun _ => ?_
  refine (ahead_poll hP estat _ fuel).bind fun _ => (ahead_nextPacketPtr hP _).bind fun _ => ?_
  refine (ahead_writeAll hP _).bind fun _ => (ahead_writeOp hP _ _ _).bind fun _ => ?_
  refine (ahead_writeAll hP _).bind fun _ => (ahead_printMac hP macaddr).bind fun _ => ?_
  refine (ahead_phyWrite hP fuel phcon1 _).bind fun _ => (ahead_write hP phlcon _).bind fun _ => ?_
  refine (ahead_phyWrite hP fuel phcon2 _).bind fun _ => (ahead_setBank hP econ1).bind fun _ => ?_
  exact (ahead_writeOp hP _ _ _).bind fun _ => ahead_writeOp hP _ _ _

theorem ahead_send (hP : Ahead P) (fuel : ℕ) (packet : List Byte) :
    Triple P (enc28j60PacketSend fuel packet) (fun _ => P) P := by
  refine (ahead_poll hP _ _ fuel).bind fun _ => (ahead_writeAll hP _).bind fun _ => ?_
  refine (ahead_writeOp hP _ _ _).bind fun _ => (ahead_writeBuffer hP _).bind fun _ => ?_
  refine (ahead_writeOp hP _ _ _).bind fun _ => (ahead_read hP _).bind fun flags => ?_
  split_ifs
  · exact (ahead_setBank hP _).bind fun _ => ahead_writeOp hP _ _ _
  · exact Triple.pure fun _ h => h

theorem ahead_readBufWord (hP : Ahead P) : Triple P readBufWord (fun _ => P) R :=
  (ahead_readOp hP _ _).bind fun _ => (ahead_readOp hP _ _).bind fun _ => Triple.pure fun _ h => h

theorem ahead_readData (hP : Ahead P) (len rxstat : BitVec 32) :
    Triple P (readData len rxstat) (fun _ => P) R := by
  unfold readData
  split_ifs
  · exact Triple.pure fun _ h => h
  · exact (ahead_readBuffer hP _).bind fun _ => Triple.pure fun _ h => h

theorem ahead_freePacket (hP : Ahead P) : Triple P freePacket (fun _ => P) R :=
  Triple.bind (Q := fun _ => P) (Triple.look fun _ h => h) fun _ =>
    (ahead_writeAll hP _).bind fun _ => ahead_writeOp hP _ _ _

theorem ahead_readHeader (hP : Ahead P) : Triple P readHeader (fun _ => P) R := by
  refine Triple.bind (Q := fun _ => P) (Triple.look fun _ h => h) fun _ => (ahead_writeAll hP _).bind fun _ => ?_
  refine (ahead_readBufWord hP).bind fun next => (ahead_nextPacketPtr hP next).bind fun _ => ?_
  refine (ahead_readBufWord hP).bind fun _ => (ahead_readBufWord hP).bind fun _ => Triple.pure fun _ h => h

theorem ahead_receive (hP : Ahead P) (maxlen : BitVec 32) :
    Triple P (enc28j60PacketReceive maxlen) (fun _ => P) R := by
  refine (ahead_read hP _).bind fun count => ?_
  split_ifs
  · exact Triple.pure fun _ h => h
  · exact (ahead_readHeader hP).bind fun _ => (ahead_readData hP _ _).bind fun _ =>
      (ahead_freePacket hP).bind fun _ => Triple.pure fun _ h => h

theorem ahead_call (hP : Ahead P) (a : Call) (fuel : ℕ) : Triple P (a.run fuel) (fun _ => P) P := by
  cases a with
  | init macaddr => exact (ahead_init hP fuel macaddr).bind fun _ => Triple.pure fun _ h => h
  | read address => exact (ahead_read hP address).bind fun _ => Triple.pure fun _ h => h
  | write address data => exact (ahead_write hP address data).bind fun _ => Triple.pure fun _ h => h
  | phyWrite address data => exact (ahead_phyWrite hP fuel address data).bind fun _ => Triple.pure fun _ h => h
  | clkout clk => exact (ahead_write hP ecocon _).bind fun _ => Triple.pure fun _ h => h
  | getrev => exact (ahead_read hP erevid).bind fun _ => Triple.pure fun _ h => h
  | send packet => exact (ahead_send hP fuel packet).bind fun _ => Triple.pure fun _ h => h
  | receive maxlen => exact (ahead_receive hP maxlen).bind fun _ => Triple.pure fun _ h => h

/-! ## Runs -/

/-- The script is a later part of `script`. -/
def Later (script : ℕ → List HwEvent) (w : World) : Prop := ∃ k, ∀ n, w.script n = script (n + k)

theorem later_self (w : World) : Later w.script w := ⟨0, fun _ => rfl⟩

theorem ahead_later (script : ℕ → List HwEvent) : Ahead (Later script) where
  hear w h := by
    obtain ⟨k, hk⟩ := h
    refine ⟨k + 1, fun n => (hk (n + 1)).trans ?_⟩
    rw [Nat.add_assoc, Nat.add_comm 1]
  congr w w' heq h := by
    obtain ⟨k, hk⟩ := h
    exact ⟨k, fun n => (congrFun heq n).trans (hk n)⟩

/-- A run uses up a part of the script. -/
theorem later_run {script : ℕ → List HwEvent} {s s' : NetCard} {ok : NetCard → Call × ℕ → Prop}
    {l : List (Call × ℕ)} (hs : netMachine.Steps ok s l s') (h : Later script s.world) :
    Later script s'.world := by
  refine hs.invariant (I := fun s => Later script s.world) (fun s a s' h _ hstep => ?_) h
  have hstep' : s.step a = some s' := hstep
  have hrun := ahead_call (ahead_later script) a.1 a.2 s.world h
  unfold NetCard.step at hstep'
  split_ifs at hstep'
  split at hstep' <;> rename_i heq <;> rw [heq] at hrun <;> obtain rfl := Option.some.inj hstep' <;> exact hrun

end LoraGateway.Enc28j60
