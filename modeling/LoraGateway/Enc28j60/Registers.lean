import LoraGateway.Enc28j60.Boot

/-!
# The register file over a run

Calls of the driver in any order, after a first `enc28j60Init`: the accesses reach the registers they
name and the chip's registers are the file's (`registers_hold`), as long as no call writes bank bits of
`ECON1` that are not those of the constant by itself (`Call.KeepsBank`). One that does is followed by
accesses in the wrong bank (`bank_lost`).

Proof: `Synced` holds between calls (`synced_call`), and a call that has stopped short in a polling loop is the last
of its run. That the chip has what the file has is a property that only writes can break (`steady_agree`), and a write
makes the same of both (`write_agree`).
-/

namespace LoraGateway.Enc28j60

open Lib Lib.Prog

/-- The call does not change the bank behind the driver's back. -/
def Call.KeepsBank : Call → Prop
  | .write address data => Enc28j60.KeepsBank address data
  | _ => True

variable {R : World → Prop}

theorem synced_read (address : Byte) : Triple Synced (enc28j60Read address) (fun _ => Synced) R :=
  ((keeps_read Steady.true address).pre fun _ h => ⟨h, trivial⟩).post fun _ _ h => h.1.1

theorem synced_write {address data : Byte} (h : KeepsBank address data) :
    Triple Synced (enc28j60Write address data) (fun _ => Synced) R :=
  ((keeps_write Steady.true h fun _ _ _ => trivial).pre fun _ h => ⟨h, trivial⟩).post
    fun _ _ h => h.1.synced

theorem synced_writeAll {l : List (Byte × Byte)} (h : ∀ p ∈ l, KeepsBank p.1 p.2) :
    Triple Synced (enc28j60WriteAll l) (fun _ => Synced) R :=
  Triple.forM fun p hp => synced_write (h p hp)

theorem synced_phyWrite {fuel : ℕ} (address : Byte) (data : BitVec 32) :
    Triple Synced (enc28j60PhyWrite fuel address data) (fun _ => Synced) Linked :=
  (synced_writeAll (keepsBank_table (phyWrites_ne address data))).bind fun _ =>
    Triple.pollUntil ((synced_read mistat).bind fun _ => Triple.pure fun _ h => by
      split_ifs <;> exact h) (fun _ h => h.linked) fuel

theorem synced_send {fuel : ℕ} (packet : List Byte) :
    Triple Synced (enc28j60PacketSend fuel packet) (fun _ => Synced) Linked := by
  have hsend : Triple (Between fun _ => True) (enc28j60PacketSend fuel packet)
      (fun _ => Between fun _ => True) Linked :=
    triple_send Steady.true Steady.true (fun _ h _ => h.linked) (fun _ _ _ _ _ => trivial)
      (fun _ _ _ => trivial) (fun _ _ _ _ => trivial) (fun _ _ _ _ => trivial) fun _ _ _ => trivial
  exact (hsend.pre fun _ h => ⟨h, trivial⟩).post fun _ _ h => h.1

theorem synced_receive (maxlen : BitVec 32) :
    Triple Synced (enc28j60PacketReceive maxlen) (fun _ => Synced) R := by
  have hreceive : Triple (Between fun _ => True) (enc28j60PacketReceive maxlen)
      (fun _ => Between fun _ => True) R :=
    keeps_receive Steady.true (fun _ _ _ _ _ _ => trivial) (fun _ _ _ => trivial) (fun _ _ _ => trivial)
      (fun _ _ _ => trivial) maxlen
  exact (hreceive.pre fun _ h => ⟨h, trivial⟩).post fun _ _ h => h.1

/-- A call keeps the invariant; where it stops short, all but the cache is right. -/
theorem synced_call {a : Call} (ha : a.KeepsBank) (fuel : ℕ) :
    Triple Synced (a.run fuel) (fun _ => Synced) Linked := by
  cases a with
  | init macaddr =>
    refine ((triple_init fuel macaddr).pre fun w h => h.linked.reached).bind fun _ =>
      Triple.pure fun w h => h.synced
  | read address => exact (synced_read address).bind fun _ => Triple.pure fun _ h => h
  | write address data => exact (synced_write ha).bind fun _ => Triple.pure fun _ h => h
  | phyWrite address data => exact (synced_phyWrite address data).bind fun _ => Triple.pure fun _ h => h
  | clkout clk =>
    exact (synced_write (keepsBank_of_ne (by decide))).bind fun _ => Triple.pure fun _ h => h
  | getrev => exact (synced_read erevid).bind fun _ => Triple.pure fun _ h => h
  | send packet => exact (synced_send packet).bind fun _ => Triple.pure fun _ h => h
  | receive maxlen => exact (synced_receive maxlen).bind fun _ => Triple.pure fun _ h => h

/-- The invariant between calls: the cache is right, unless the last call is still polling. -/
structure NetCard.Good (s : NetCard) : Prop where
  linked : Linked s.world
  synced : s.returned = true → Synced s.world

theorem good_init {s : NetCard} (hs : netMachine.init s) : s.Good := by
  obtain ⟨w, fuel, macaddr, hcold, hworld, hreturned, -⟩ := hs
  have htraced : Traced w := by rw [Traced, hcold.1, hcold.2]; rfl
  rcases hrun : (enc28j60Init fuel macaddr).exec w with ⟨_ | _, w'⟩ <;> rw [hrun] at hworld hreturned
  · have hlinked := (triple_init fuel macaddr).stopped htraced hrun
    exact ⟨hworld ▸ hlinked, fun h => by rw [hreturned] at h; exact Bool.noConfusion h⟩
  · have hsynced := ((triple_init fuel macaddr).returned htraced hrun).synced
    exact ⟨hworld ▸ hsynced.linked, fun _ => hworld ▸ hsynced⟩

theorem good_step {s s' : NetCard} {a : Call × ℕ} (hs : s.Good) (ha : a.1.KeepsBank)
    (hstep : netMachine.step s a = some s') : s'.Good := by
  have hstep' : s.step a = some s' := hstep
  unfold NetCard.step at hstep'
  split_ifs at hstep' with hret
  have hsynced := hs.synced hret
  split at hstep'
  · rename_i r w hrun
    have hw := (synced_call ha a.2).returned hsynced hrun
    obtain rfl := Option.some.inj hstep'
    exact ⟨hw.linked, fun _ => hw⟩
  · rename_i w hrun
    have hw := (synced_call ha a.2).stopped hsynced hrun
    obtain rfl := Option.some.inj hstep'
    exact ⟨hw, fun h => Bool.noConfusion h⟩

theorem good_reach {s : NetCard} (hs : netMachine.Reach (fun _ a => a.1.KeepsBank) s) : s.Good :=
  hs.invariant (fun _ => good_init) fun _ _ _ => good_step

/-! ## The file -/

theorem controlRegs_macMii : ∀ address ∈ controlRegs, address.getLsbD 7 = (regOf address).macMii := by
  decide +kernel

theorem steady_agree (f : RegFile) : Steady fun w => w.chip.Agree f where
  hear w h := h.same (hear_same w)
  rebank w v s l b issued hv h := by
    intro r
    by_cases hr : r = regOf econ1
    · subst hr
      have hkept : ∀ x : Byte, x &&& kept (regOf econ1) = x &&& ~~~0x03 &&& kept (regOf econ1) := by
        decide +kernel
      rw [← h (regOf econ1), show (w.chip.reg (regOf econ1)) = w.chip.get econ1 from rfl,
        hkept (w.chip.get econ1), ← hv, ← hkept]
      exact congrArg (· &&& kept (regOf econ1)) (Chip.set_reg_self w.chip (regOf econ1) v)
    · exact (congrArg (· &&& kept r) (Chip.set_reg_of_ne hr w.chip v)).trans (h r)

theorem read_agree {f : RegFile} {address : Byte} (haddress : address ∈ controlRegs) :
    Triple (fun w => Synced w ∧ w.chip.Agree f) (enc28j60Read address)
      (fun x _ => x &&& kept (regOf address) = f (regOf address) &&& kept (regOf address)) R := by
  refine (keeps_read (steady_agree f) address).post fun x w h => ?_
  rw [h.2 (controlRegs_macMii address haddress)]
  exact h.1.2 (regOf address)

theorem write_agree {f : RegFile} (address data : Byte) :
    Triple (fun w => Synced w ∧ w.chip.Agree f) (enc28j60Write address data)
      (fun _ w => ∀ r ≠ regOf address, w.chip.reg r &&& kept r = f r &&& kept r) R := by
  refine triple_enc28j60Write (steady_agree f) fun w hw h r hr => ?_
  have hstore : (w.chip.store (w.chip.target address) data).reg r &&& kept r =
      Function.update f (regOf address) data r &&& kept r := by
    rw [target_eq hw.bsel]
    exact h.store _ _ r
  rwa [Function.update_of_ne hr] at hstore

/-- Driver calls after a first `enc28j60Init` reach the registers they name, and the chip's registers
are what they have made of them; between two calls the cache is the bank selected, a read returns what
was last stored and a write changes the register it names only. -/
theorem registers_hold {s : NetCard} (hs : netMachine.Reach (fun _ a => a.1.KeepsBank) s) :
    s.world.chip.reached = s.world.issued.filterMap Issue.reg? ∧
    (∀ r, s.world.chip.reg r &&& kept r = s.world.file r &&& kept r) ∧
    (s.returned = true →
      s.world.enc28j60Bank = bankByte s.world.chip.bsel ∧
      (∀ address ∈ controlRegs, ∃ x w, (enc28j60Read address).exec s.world = (some x, w) ∧
        x &&& kept (regOf address) = s.world.file (regOf address) &&& kept (regOf address)) ∧
      ∀ address data, ∃ w, (enc28j60Write address data).exec s.world = (some (), w) ∧
        ∀ r ≠ regOf address, w.chip.reg r &&& kept r = s.world.chip.reg r &&& kept r) := by
  have hgood := good_reach hs
  refine ⟨hgood.linked.reached, hgood.linked.agree, fun hret => ⟨(hgood.synced hret).bank, ?_, ?_⟩⟩
  · intro address haddress
    obtain ⟨x, w, hexec, hx⟩ := (read_agree haddress).total
      ⟨hgood.synced hret, fun r => rfl⟩
    exact ⟨x, w, hexec, hx.trans (hgood.linked.agree _)⟩
  · intro address data
    obtain ⟨_, w, hexec, hw⟩ := (write_agree address data).total ⟨hgood.synced hret, fun r => rfl⟩
    exact ⟨w, hexec, hw⟩

/-- A chip that is ready, and done with the PHY, whenever it is asked, and the driver variables as they
are when the program starts. -/
def promptWorld (script : ℕ → List HwEvent) : World where
  chip :=
    { por := ⟨fun r => if r = regOf econ2 then 0x80 else 0, by decide, by decide, by decide, by decide⟩
      reg := fun _ => 0
      phy := fun _ => 0
      mem := fun _ => 0
      rxRdPt := 0
      spi := .idle
      reached := []
      stored := []
      requests := []
      sent := []
      failed := []
      cancelled := []
      decrements := 0 }
  script := fun n => script n ++ [.status (regOf estat) 0x01, .status (regOf mistat) 0x00]
  enc28j60Bank := 0
  nextPacketPtr := 0
  issued := []

/-- The card after the first `enc28j60Init` on such a chip. -/
def promptStart (script : ℕ → List HwEvent) : NetCard :=
  let r := (enc28j60Init 1 fun _ => 0).exec (promptWorld script)
  ⟨r.2, r.1.isSome, []⟩

theorem promptStart_init (script : ℕ → List HwEvent) : netMachine.init (promptStart script) :=
  ⟨promptWorld script, 1, fun _ => 0, ⟨rfl, rfl⟩, rfl, rfl, rfl⟩

theorem promptStart_returned (script : ℕ → List HwEvent) : (promptStart script).returned =
    ((enc28j60Init 1 fun _ => 0).exec (promptWorld script)).1.isSome := rfl

theorem returned_of_run {s s' : NetCard} {a : Call × ℕ} {l : List (Call × ℕ)}
    (h : netMachine.run s (a :: l) = some s') : s.returned = true := by
  obtain ⟨s₁, hstep, -⟩ := Option.bind_eq_some_iff.mp h
  have hstep' : s.step a = some s₁ := hstep
  unfold NetCard.step at hstep'
  split_ifs at hstep' with hret
  exact hret

/-- `enc28j60Write` of 3 to `ECON1`, and then of 0 to `ERDPTL`, which is in bank 0. -/
theorem prompt_run : (netMachine.run (promptStart fun _ => [])
    [(.write econ1 3, 0), (.write erdptl 0, 0)]).map (fun s =>
      (s.returned, s.world.issued.getLast?, s.world.chip.reached.getLast?)) =
      some (true, some (.write erdptl 0), some ⟨3, 0⟩) := by
  decide +kernel

theorem prompt_returned : (promptStart fun _ => []).returned = true := by
  have h := prompt_run
  generalize promptStart (fun _ => []) = s₀ at h ⊢
  obtain ⟨s, hrun, -⟩ := Option.map_eq_some_iff.mp h
  exact returned_of_run hrun

theorem prompt_init : ∃ w', (enc28j60Init 1 fun _ => 0).exec (promptWorld fun _ => []) = (some (), w') := by
  have hret := (promptStart_returned fun _ => []).symm.trans prompt_returned
  generalize promptWorld (fun _ => []) = w at hret ⊢
  rcases hrun : (enc28j60Init 1 fun _ => 0).exec w with ⟨_ | _, w'⟩ <;> rw [hrun] at hret
  · exact Bool.noConfusion hret
  · exact ⟨w', rfl⟩

/-- A frame with 2 bytes of data and 4 of CRC arrives once the card has been started. -/
def mixedScript (n : ℕ) : List HwEvent :=
  if n = 170 then [.frame ⟨[1, 2, 3, 4, 5, 6], 0x80, [], by decide, by decide⟩] else []

/-- Writes to `ECON1`, `ERXFCON` and `EIE`, a frame sent and one received, a second `enc28j60Init` and a
write to `MAADR0`. -/
def mixedCalls : List (Call × ℕ) :=
  [(.write econ1 0x04, 0), (.write erxfcon 0x20, 0), (.send [1, 2], 1), (.receive 1500, 0), (.write eie 0x80, 0),
    (.init (fun _ => 7), 1), (.write maadr0 9, 0)]

theorem mixed_run : (netMachine.run (promptStart mixedScript) mixedCalls).map (fun s =>
    (s.returned, s.taken.map fun r => r.received.packet,
      s.world.file (regOf erxfcon), s.world.file (regOf maadr1), s.world.file (regOf maadr0))) =
    some (true, [[1, 2, 0]], 0xB0, 7, 9) := by
  decide +kernel

theorem mixed_keepsBank : ∀ a ∈ mixedCalls, a.1.KeepsBank := by
  have hecon1 : KeepsBank econ1 0x04 := by decide
  have hne : KeepsBank erxfcon 0x20 ∧ KeepsBank eie 0x80 ∧ KeepsBank maadr0 9 := by decide
  intro a ha
  simp only [mixedCalls, List.mem_cons, List.not_mem_nil, or_false] at ha
  rcases ha with rfl | rfl | rfl | rfl | rfl | rfl | rfl
  · exact hecon1
  · exact hne.1
  · trivial
  · trivial
  · exact hne.2.1
  · trivial
  · exact hne.2.2

theorem registers_hold_mixed : ∃ s,
    netMachine.Steps (fun _ a => a.1.KeepsBank) (promptStart mixedScript) mixedCalls s ∧
    s.returned = true ∧ s.taken.map (fun r => r.received.packet) = [[1, 2, 0]] ∧
    s.world.chip.reached = s.world.issued.filterMap Issue.reg? ∧
    s.world.enc28j60Bank = bankByte s.world.chip.bsel ∧
    s.world.chip.reg (regOf erxfcon) &&& kept (regOf erxfcon) = 0xB0 &&& kept (regOf erxfcon) ∧
    (∃ x w, (enc28j60Read maadr0).exec s.world = (some x, w) ∧
      x &&& kept (regOf maadr0) = 9 &&& kept (regOf maadr0)) ∧
    ∃ w, (enc28j60Write maadr0 8).exec s.world = (some (), w) ∧
      w.chip.reg (regOf maadr1) &&& kept (regOf maadr1) = 7 &&& kept (regOf maadr1) := by
  have h := mixed_run
  have hinit := promptStart_init mixedScript
  generalize promptStart mixedScript = s₀ at h hinit ⊢
  obtain ⟨s, hrun, hs⟩ := Option.map_eq_some_iff.mp h
  simp only [Prod.mk.injEq] at hs
  obtain ⟨hret, htaken, herxfcon, hmaadr1, hmaadr0⟩ := hs
  have hsteps : netMachine.Steps (fun _ a => a.1.KeepsBank) s₀ mixedCalls s :=
    .of_run (fun a ha _ => mixed_keepsBank a ha) hrun
  obtain ⟨hreached, hagree, hcall⟩ := registers_hold ((Machine.Reach.init hinit).steps hsteps)
  obtain ⟨hbank, hread, hwrite⟩ := hcall hret
  obtain ⟨x, w, hexec, hx⟩ := hread maadr0 (by decide)
  obtain ⟨w', hexec', hother⟩ := hwrite maadr0 8
  refine ⟨s, hsteps, hret, htaken, hreached, hbank, ?_, ⟨x, w, hexec, ?_⟩, w', hexec', ?_⟩
  · rw [hagree, herxfcon]
  · rw [hx, hmaadr0]
  · rw [hother _ (by decide), hagree, hmaadr1]

/-- The last register reached is one of bank 3. -/
theorem bank_lost : ∃ s : NetCard, netMachine.Reach Machine.any s ∧ s.returned = true ∧
    s.world.issued.getLast? = some (.write erdptl 0) ∧
    s.world.chip.reached.getLast? = some ⟨3, 0⟩ ∧ regOf erdptl = ⟨0, 0⟩ := by
  have h := prompt_run
  have hinit := promptStart_init fun _ => []
  generalize promptStart (fun _ => []) = s₀ at h hinit
  obtain ⟨s, hrun, hs⟩ := Option.map_eq_some_iff.mp h
  simp only [Prod.mk.injEq] at hs
  exact ⟨s, (Machine.Reach.init hinit).steps (Machine.steps_of_run hrun), hs.1, hs.2.1, hs.2.2, rfl⟩

end LoraGateway.Enc28j60
