import LoraGateway.Enc28j60.Commands

/-!
# The histories are not looked at

`Chip.reached` and `World.issued` are there for the statements. Worlds that differ in them only are alike
(`World.Alike`), and the functions that `enc28j60Init` consists of do not tell them apart, so that what is
proved of its start from empty histories holds from any.
-/

namespace LoraGateway.Enc28j60

open Lib Lib.Prog

/-- The same but for the histories. -/
def World.Alike (w w' : World) : Prop := ∃ l issued, w' = w.mark w.chip.spi l issued

theorem alike_chip {w w' : World} (h : w.Alike w') :
    w'.chip.reg = w.chip.reg ∧ w'.chip.phy = w.chip.phy ∧ w'.chip.por = w.chip.por := by
  obtain ⟨l, issued, rfl⟩ := h
  exact ⟨rfl, rfl, rfl⟩

/-- One byte on the bus: the chip answers the same, and goes on the same. -/
theorem exchange_reach (c : Chip) (l : List Reg) (b : Byte) :
    ((c.reach l).exchange b).1 = (c.exchange b).1 ∧
      ∃ l', ((c.reach l).exchange b).2 = (c.exchange b).2.reach l' := by
  have hreach : ∀ c' : Chip, c'.reach l = c'.mark c'.spi l := fun _ => rfl
  rcases hspi : c.spi with _ | _ | ⟨r, _ | _⟩ | r | r | r | _ | _ | _ <;>
    simp only [Chip.exchange, show (c.reach l).spi = c.spi from rfl, hspi]
  case rcr.false => exact ⟨rfl, l, rfl⟩
  case opcode =>
    refine ⟨trivial, ?_⟩
    unfold Chip.decode
    split_ifs
    · exact ⟨l, rfl⟩
    · exact ⟨l, rfl⟩
    · exact ⟨l, rfl⟩
    · simp only []
      split
      · exact ⟨_, rfl⟩
      · exact ⟨_, rfl⟩
      · exact ⟨_, rfl⟩
      · exact ⟨_, rfl⟩
      · exact ⟨l, rfl⟩
  case wcr =>
    refine ⟨trivial, l, ?_⟩
    rw [hreach, store_mark]
    rfl
  case bfs =>
    refine ⟨trivial, l, ?_⟩
    rw [hreach, store_mark]
    split_ifs <;> rfl
  case bfc =>
    refine ⟨trivial, l, ?_⟩
    rw [hreach, store_mark]
    split_ifs <;> rfl
  case rbm =>
    rw [hreach, fetch_mark]
    refine ⟨rfl, l, ?_⟩
    rw [← fetch_spi c]
    rfl
  case wbm =>
    refine ⟨trivial, l, ?_⟩
    rw [hreach, push_mark, ← push_spi c b]
    rfl
  all_goals exact ⟨trivial, l, rfl⟩

/-! ## SPI commands -/

theorem alike_update {f : World → World}
    (hf : ∀ (w : World) l issued, ∃ l' issued',
      f (w.mark w.chip.spi l issued) = (f w).mark (f w).chip.spi l' issued') :
    Respects World.Alike (Prog.update f) := by
  apply Respects.update
  rintro w w' ⟨l, issued, rfl⟩
  exact hf w l issued

theorem alike_note (l : List Issue) : Respects World.Alike (Prog.update fun w => w.note l) :=
  alike_update fun _ l' issued => ⟨l', issued ++ l, rfl⟩

theorem alike_csl : Respects World.Alike enc28j60CSL := by
  refine alike_update fun w l issued => ⟨l, issued, ?_⟩
  rcases hspi : w.chip.spi <;> simp only [Chip.csLow, World.mark, Chip.mark, hspi]

theorem alike_csh : Respects World.Alike enc28j60CSH :=
  alike_update fun _ l issued => ⟨l, issued, rfl⟩

theorem alike_exchange (b : Byte) : Respects World.Alike (spi1ReadWrite b) := by
  apply Respects.act
  rintro w w' ⟨l, issued, rfl⟩
  have hhear : (w.mark w.chip.spi l issued).hear = w.hear.mark w.hear.chip.spi l issued := by
    rw [hear_mark, hear_spi]
  obtain ⟨hval, l', hchip⟩ := exchange_reach w.hear.chip l b
  refine ⟨?_, l', issued, ?_⟩
  · rw [hhear]
    exact hval.symm
  · rw [hhear]
    show ({ w.hear with chip := ((w.hear.chip.reach l).exchange b).2, issued := issued } : World) = _
    rw [hchip]
    rfl

theorem alike_readOp (op address : Byte) : Respects World.Alike (enc28j60ReadOp op address) := by
  refine (alike_note _).bind fun _ => alike_csl.bind fun _ => ?_
  refine (alike_exchange _).bind fun _ => (alike_exchange _).bind fun dat => ?_
  have hdummy : Respects World.Alike
      (if address &&& 0x80 ≠ 0 then spi1ReadWrite 0xFF else pure dat : Drv Byte) := by
    split_ifs
    · exact alike_exchange _
    · exact Respects.pure dat
  exact hdummy.bind fun _ => alike_csh.bind fun _ => Respects.pure _

theorem alike_writeOp (op address data : Byte) :
    Respects World.Alike (enc28j60WriteOp op address data) := by
  refine (alike_note _).bind fun _ => alike_csl.bind fun _ => ?_
  exact (alike_exchange _).bind fun _ => (alike_exchange _).bind fun _ => alike_csh

/-! ## Registers -/

theorem alike_setBank (address : Byte) : Respects World.Alike (enc28j60SetBank address) := by
  have hlook : Respects World.Alike (Prog.look World.enc28j60Bank) := by
    apply Respects.look
    rintro w w' ⟨l, issued, rfl⟩
    rfl
  refine hlook.bind fun bank => ?_
  split_ifs
  · refine (alike_writeOp _ _ _).bind fun _ => (alike_writeOp _ _ _).bind fun _ => ?_
    exact alike_update fun _ l issued => ⟨l, issued, rfl⟩
  · exact Respects.pure ()

theorem alike_read (address : Byte) : Respects World.Alike (enc28j60Read address) :=
  (alike_setBank address).bind fun _ => alike_readOp _ _

theorem alike_write (address data : Byte) : Respects World.Alike (enc28j60Write address data) :=
  (alike_setBank address).bind fun _ => alike_writeOp _ _ _

theorem alike_writeAll (l : List (Byte × Byte)) : Respects World.Alike (enc28j60WriteAll l) :=
  Respects.forM fun p _ => alike_write p.1 p.2

theorem alike_poll (address : Byte) (done : Byte → Bool) (fuel : ℕ) :
    Respects World.Alike (Prog.pollUntil (do
      let x ← enc28j60Read address
      pure (done x)) fuel) :=
  Respects.pollUntil ((alike_read address).bind fun _ => Respects.pure _) fuel

theorem alike_phyWrite (fuel : ℕ) (address : Byte) (data : BitVec 32) :
    Respects World.Alike (enc28j60PhyWrite fuel address data) :=
  (alike_writeAll _).bind fun _ => alike_poll _ _ fuel

theorem alike_printMac (macaddr : Fin 6 → Byte) : Respects World.Alike (printMac macaddr) := by
  refine (alike_read _).bind fun first => ?_
  split_ifs
  · exact Respects.forM fun address _ => (alike_read address).bind fun _ => Respects.pure ()
  · exact Respects.pure ()

theorem alike_init (fuel : ℕ) (macaddr : Fin 6 → Byte) :
    Respects World.Alike (enc28j60Init fuel macaddr) := by
  refine alike_csh.bind fun _ => (alike_writeOp _ _ _).bind fun _ => (alike_poll _ _ fuel).bind fun _ => ?_
  have hnext : Respects World.Alike
      (Prog.update fun w : World => { w with nextPacketPtr := BitVec.ofNat 32 rxstartInit }) :=
    alike_update fun _ l issued => ⟨l, issued, rfl⟩
  refine hnext.bind fun _ => (alike_writeAll _).bind fun _ => (alike_writeOp _ _ _).bind fun _ => ?_
  refine (alike_writeAll _).bind fun _ => (alike_printMac macaddr).bind fun _ => ?_
  refine (alike_phyWrite fuel _ _).bind fun _ => (alike_write _ _).bind fun _ => ?_
  refine (alike_phyWrite fuel _ _).bind fun _ => (alike_setBank _).bind fun _ => ?_
  exact (alike_writeOp _ _ _).bind fun _ => alike_writeOp _ _ _

end LoraGateway.Enc28j60
