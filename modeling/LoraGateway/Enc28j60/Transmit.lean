import LoraGateway.Enc28j60.Registers

/-!
# Transmit errors over a run

`enc28j60PacketSend` clears `TXRTS` if it reads `EIR.TXERIF` set after its transmit request. Nothing
in the driver clears `TXERIF`, so after an aborted frame it is set at every later request too, and those
frames are cancelled while they are being sent (`send_poisoned`). Where `TXERIF` was clear at each
request, it is the frame of the request itself that has set it (`Chip.Blamed`), and only frames that
failed are cancelled (`send_cancels_failed`).

Proof: both properties are about histories that only a transmission touches, so of what the chip does by itself only
the end of a transmission matters (`event_blamed`), and of the commands of a call only the request and its
cancellation (`fair_send`).
-/

namespace LoraGateway.Enc28j60

open Lib Lib.Prog

variable {c : Chip} {w : World}

/-- `TXERIF` was clear at each transmit request. -/
def Chip.Clear (c : Chip) : Prop := ∀ b ∈ c.requests, b = false

/-- Only frames that failed were cancelled. -/
def Chip.Fair (c : Chip) : Prop := c.Clear → ∀ n ∈ c.cancelled, n ∈ c.failed

/-- If `TXERIF` is set, the frame of the last request has failed. -/
def Chip.Blamed (c : Chip) : Prop := c.Clear → c.txerif = true → c.requests.length - 1 ∈ c.failed

/-! ## What the chip does by itself -/

theorem event_requests (c : Chip) (e : HwEvent) : (c.event e).requests = c.requests := by
  cases e <;> simp only [Chip.event, Chip.receive, Chip.endTx] <;> (try split_ifs) <;> rfl

theorem event_cancelled (c : Chip) (e : HwEvent) : (c.event e).cancelled = c.cancelled := by
  cases e <;> simp only [Chip.event, Chip.receive, Chip.endTx] <;> (try split_ifs) <;> rfl

theorem event_failed (c : Chip) (e : HwEvent) : c.failed ⊆ (c.event e).failed := by
  cases e with
  | frame f =>
    simp only [Chip.event, Chip.receive]
    split_ifs <;> exact List.Subset.refl _
  | txEnd aborted stuck status =>
    simp only [Chip.event, Chip.endTx]
    split_ifs
    any_goals exact List.Subset.refl _
    all_goals exact List.subset_append_left ..
  | status r v =>
    simp only [Chip.event]
    split_ifs <;> exact List.Subset.refl _
  | interrupt v => exact List.Subset.refl _

theorem event_txerif_cause (c : Chip) (e : HwEvent) (h : (c.event e).txerif = true) :
    c.txerif = true ∨ c.requests.length - 1 ∈ (c.event e).failed := by
  cases e with
  | frame f => exact .inl ((receive_txerif c f).symm.trans h)
  | txEnd aborted stuck status =>
    by_cases htx : c.txrts = true
    · cases aborted
      · left
        have heir : (c.endTx false stuck status).reg (regOf eir) = c.get eir ||| 0 := by
          simp [Chip.endTx, htx, Chip.set]
        rw [Chip.event, Chip.txerif, Chip.get, heir] at h
        simpa [Chip.txerif] using h
      · right
        rw [Chip.event, Chip.endTx, if_pos htx]
        exact List.mem_append_right _ List.mem_cons_self
    · rw [Chip.event, Chip.endTx, if_neg htx] at h
      exact .inl h
  | status r v =>
    left
    simp only [Chip.event] at h
    split_ifs at h with hr
    · have hne : regOf eir ≠ r := fun heq => absurd (heq ▸ hr) (by decide)
      rwa [Chip.txerif, Chip.get, Chip.set_reg_of_ne hne] at h
    · exact h
  | interrupt v =>
    left
    rw [Chip.event, Chip.txerif, Chip.get, Chip.set_reg_self, BitVec.getLsbD_or, BitVec.getLsbD_and,
      BitVec.getLsbD_and] at h
    simpa [Chip.txerif] using h

theorem event_clear (e : HwEvent) : (c.event e).Clear ↔ c.Clear := by
  rw [Chip.Clear, Chip.Clear, event_requests]

theorem event_fair (h : c.Fair) (e : HwEvent) : (c.event e).Fair := by
  intro hclear n hn
  rw [event_cancelled] at hn
  exact event_failed c e (h ((event_clear e).mp hclear) n hn)

theorem event_blamed (h : c.Blamed) (e : HwEvent) : (c.event e).Blamed := by
  intro hclear herr
  rw [event_requests]
  rcases event_txerif_cause c e herr with hold | hnew
  · exact event_failed c e (h ((event_clear e).mp hclear) hold)
  · exact hnew

theorem steady_fair : Steady fun w => w.chip.Fair where
  hear w := hear_rel (R := fun c c' => c.Fair → c'.Fair) (fun _ h => h)
    (fun _ _ _ h h' hc => h' (h hc)) (fun _ e h => event_fair h e) w
  rebank _ _ _ _ _ _ _ h := h

theorem steady_blamed : Steady fun w => w.chip.Blamed where
  hear w := hear_rel (R := fun c c' => c.Blamed → c'.Blamed) (fun _ h => h)
    (fun _ _ _ h h' hc => h' (h hc)) (fun _ e h => event_blamed h e) w
  rebank w v s l b issued _ h := by
    intro hclear herr
    refine h hclear ?_
    have heir : (w.chip.set (regOf econ1) v).reg (regOf eir) = w.chip.reg (regOf eir) :=
      Chip.set_reg_of_ne (by decide) ..
    have herr' : ((w.chip.set (regOf econ1) v).reg (regOf eir)).getLsbD 1 = true := herr
    rwa [heir] at herr'

/-! ## The call -/

theorem Chip.Fair.past {c' : Chip} (h : c.Fair) (hpast : c'.past = c.past) : c'.Fair := by
  simp only [Chip.past, Prod.mk.injEq] at hpast
  rw [Chip.Fair, Chip.Clear, hpast.2.1, hpast.2.2.2.1, hpast.2.2.2.2.1]
  exact h

theorem request_econ1 (h : c.txrts = false) :
    c.store (regOf econ1) (c.reg (regOf econ1) ||| 0x08) =
      { c.set (regOf econ1) (c.reg (regOf econ1) ||| 0x08) with
        requests := c.requests ++ [c.txerif] } := by
  have hbit : ∀ x : Byte, (x ||| 0x08).getLsbD 3 = true := by decide
  rw [Chip.store, if_neg (by decide), if_pos rfl, Chip.storeEcon1, hbit, h]
  rfl

theorem cancel_econ1 (c : Chip) :
    c.store (regOf econ1) (c.reg (regOf econ1) &&& ~~~0x08) =
      { c.set (regOf econ1) (c.reg (regOf econ1) &&& ~~~0x08) with
        cancelled := if c.txrts then c.cancelled ++ [c.requests.length - 1] else c.cancelled } := by
  have hbit : ∀ x : Byte, (x &&& ~~~0x08).getLsbD 3 = false := by decide
  rw [Chip.store, if_neg (by decide), if_pos rfl, Chip.storeEcon1, hbit]
  rfl

theorem issue_request (h : w.chip.txrts = false) : (w.issue (.set econ1 0x08)).chip =
    ({ w.chip.set (regOf econ1) (w.chip.reg (regOf econ1) ||| 0x08) with
      requests := w.chip.requests ++ [w.chip.txerif] } : Chip).reach
        (w.chip.reached ++ [regOf econ1]) := by
  show (w.chip.bitSet (w.chip.target econ1) 0x08).reach (w.chip.reached ++ [w.chip.target econ1]) = _
  rw [target_shared (by decide), Chip.bitSet, if_neg (by decide), request_econ1 h]

theorem issue_cancel (w : World) : (w.issue (.clear econ1 0x08)).chip =
    ({ w.chip.set (regOf econ1) (w.chip.reg (regOf econ1) &&& ~~~0x08) with
      cancelled := if w.chip.txrts then w.chip.cancelled ++ [w.chip.requests.length - 1]
        else w.chip.cancelled } : Chip).reach (w.chip.reached ++ [regOf econ1]) := by
  show (w.chip.bitClear (w.chip.target econ1) 0x08).reach
    (w.chip.reached ++ [w.chip.target econ1]) = _
  rw [target_shared (by decide), Chip.bitClear, if_neg (by decide), cancel_econ1]

theorem fair_send {fuel : ℕ} (packet : List Byte) :
    Triple (Between fun w => w.chip.Fair) (enc28j60PacketSend fuel packet)
      (fun _ => Between fun w => w.chip.Fair) (Between fun w => w.chip.Fair) := by
  refine triple_send steady_fair (steady_fair.and steady_blamed) (fun w h hf => ⟨h, hf⟩)
    ?_ ?_ ?_ ?_ ?_
  · intro p hp w hw h
    have hne : ∀ a : Byte, argOf a < 0x1B → regOf a ≠ regOf econ1 ∧ regOf a ≠ regOf econ2 := by decide
    have hlow : ∀ a ∈ (sendWrites packet.length).map Prod.fst, argOf a < 0x1B :=
      show ∀ a ∈ [ewrptl, ewrpth, etxndl, etxndh], argOf a < 0x1B by decide
    obtain ⟨h₁, h₂⟩ := hne p.1 (hlow _ (List.mem_map_of_mem hp))
    have hpast : (w.issue (.write p.1 p.2)).chip.past = w.chip.past := by
      show (w.chip.store (w.chip.target p.1) p.2).past = _
      rw [target_eq hw.bsel, store_past h₁ h₂]
    exact h.past hpast
  · intro w b h
    refine h.past ?_
    show (w.chip.push b).past = _
    rw [Chip.push]
    split_ifs <;> rfl
  · intro w hw h htx
    have hchip := issue_request htx
    have herr : (w.issue (.set econ1 0x08)).chip.txerif = w.chip.txerif := by
      have heir : (w.chip.set (regOf econ1) (w.chip.reg (regOf econ1) ||| 0x08)).reg (regOf eir) =
          w.chip.reg (regOf eir) := Chip.set_reg_of_ne (by decide) ..
      rw [hchip]
      exact congrArg (fun x => BitVec.getLsbD x 1) heir
    have hclear : (w.issue (.set econ1 0x08)).chip.Clear → w.chip.Clear ∧ w.chip.txerif = false := by
      rw [hchip]
      exact fun hc => ⟨fun b hb => hc b (List.mem_append_left _ hb),
        hc _ (List.mem_append_right _ List.mem_cons_self)⟩
    refine ⟨fun hc n hn => ?_, fun hc hset => ?_⟩
    · rw [hchip] at hn ⊢
      exact h (hclear hc).1 n hn
    · rw [herr, (hclear hc).2] at hset
      exact absurd hset (by decide)
  · intro w hw h herr hc n hn
    have hchip := issue_cancel w
    rw [hchip] at hc hn ⊢
    have hn' : n ∈ (if w.chip.txrts then w.chip.cancelled ++ [w.chip.requests.length - 1]
      else w.chip.cancelled) := hn
    split_ifs at hn' with htx
    · rcases List.mem_append.mp hn' with hold | hnew
      · exact h.1 hc n hold
      · obtain rfl := List.mem_singleton.mp hnew
        exact h.2 hc herr
    · exact h.1 hc n hn'
  · exact fun w hw h => h.1

/-! ## Runs -/

/-- The call is one of `enc28j60PacketSend`. -/
def Call.IsSend (a : Call) : Prop := ∃ packet, a = .send packet

/-- Sends keep the invariants between calls; where one is still polling, it has cancelled nothing. -/
def NetCard.Sending (s : NetCard) : Prop :=
  s.world.chip.Fair ∧ (s.returned = true → Synced s.world)

theorem sending_step {s s' : NetCard} {a : Call × ℕ} (hs : s.Sending) (ha : a.1.IsSend)
    (hstep : netMachine.step s a = some s') : s'.Sending := by
  obtain ⟨packet, hpacket⟩ := ha
  have hstep' : s.step a = some s' := hstep
  rw [NetCard.step, hpacket] at hstep'
  split_ifs at hstep' with hret
  have htriple : Triple (Between fun w => w.chip.Fair) ((Call.send packet).run a.2)
      (fun _ => Between fun w => w.chip.Fair) (Between fun w => w.chip.Fair) :=
    (fair_send packet).bind fun _ => Triple.pure fun _ h => h
  split at hstep'
  · rename_i r w hrun
    have hw := htriple.returned ⟨hs.2 hret, hs.1⟩ hrun
    obtain rfl := Option.some.inj hstep'
    exact ⟨hw.2, fun _ => hw.1⟩
  · rename_i w hrun
    have hw := htriple.stopped ⟨hs.2 hret, hs.1⟩ hrun
    obtain rfl := Option.some.inj hstep'
    exact ⟨hw.2, fun _ => hw.1⟩

/-- The card after a first `enc28j60Init` that has come to its end. -/
theorem booted_init {s : NetCard} (hs : netMachine.init s) (hret : s.returned = true) :
    Booted s.world ∧ s.taken = [] := by
  obtain ⟨w, fuel, macaddr, hcold, hworld, hreturned, htaken⟩ := hs
  have htraced : Traced w := by rw [Traced, hcold.1, hcold.2]; rfl
  rcases hrun : (enc28j60Init fuel macaddr).exec w with ⟨_ | _, w'⟩ <;> rw [hrun] at hworld hreturned
  · rw [hret] at hreturned
    exact Bool.noConfusion hreturned
  · exact ⟨hworld ▸ (triple_init fuel macaddr).returned htraced hrun, htaken⟩

/-- In a run of `enc28j60PacketSend` calls after `enc28j60Init`, if `TXERIF` was clear at each transmit
request then every frame whose request was taken back had failed. -/
theorem send_cancels_failed {s₀ s : NetCard} {l : List (Call × ℕ)} (hinit : netMachine.init s₀)
    (hret : s₀.returned = true) (hs : netMachine.Steps (fun _ a => a.1.IsSend) s₀ l s)
    (hclear : s.world.chip.Clear) : ∀ n ∈ s.world.chip.cancelled, n ∈ s.world.chip.failed := by
  have hboot := (booted_init hinit hret).1
  have hstart : s₀.Sending := by
    refine ⟨fun _ n hn => ?_, fun _ => hboot.synced⟩
    have hpast := hboot.past
    simp only [Chip.past, Prod.mk.injEq] at hpast
    rw [hpast.2.2.2.2.1] at hn
    exact absurd hn List.not_mem_nil
  exact (hs.invariant (fun _ _ _ => sending_step) hstart).1 hclear

/-- Two frames are sent; the third is aborted, with `TXRTS` stuck, before the driver reads `EIR`. -/
def thirdAborted (n : ℕ) : List HwEvent :=
  if n < 195 then [.txEnd false false []] else if n = 195 then [.txEnd true true []] else []

theorem thirdAborted_run : (netMachine.run (promptStart thirdAborted)
    [(.send [1], 1), (.send [2], 1), (.send [3], 1)]).map (fun s =>
      (s.world.chip.requests, s.world.chip.sent, s.world.chip.failed, s.world.chip.cancelled)) =
    some ([false, false, false], [0, 1], [2], [2]) := by
  decide +kernel

theorem send_cancels_failed_three : ∃ s, netMachine.Steps (fun _ a => a.1.IsSend)
      (promptStart thirdAborted) [(.send [1], 1), (.send [2], 1), (.send [3], 1)] s ∧
      s.world.chip.requests = [false, false, false] ∧ s.world.chip.sent = [0, 1] ∧
      s.world.chip.cancelled = [2] ∧ ∀ n ∈ s.world.chip.cancelled, n ∈ s.world.chip.failed := by
  have hcheck := thirdAborted_run
  have hinit := promptStart_init thirdAborted
  generalize promptStart thirdAborted = s₀ at hcheck hinit ⊢
  obtain ⟨s, hrun, hs⟩ := Option.map_eq_some_iff.mp hcheck
  simp only [Prod.mk.injEq] at hs
  obtain ⟨hrequests, hsent, -, hcancelled⟩ := hs
  have hsends : ∀ a ∈ [(Call.send [1], 1), (Call.send [2], 1), (Call.send [3], 1)], a.1.IsSend := by
    intro a ha
    simp only [List.mem_cons, List.not_mem_nil, or_false] at ha
    rcases ha with rfl | rfl | rfl
    · exact ⟨[1], rfl⟩
    · exact ⟨[2], rfl⟩
    · exact ⟨[3], rfl⟩
  have hsteps : netMachine.Steps (fun _ a => a.1.IsSend) s₀
      [(Call.send [1], 1), (Call.send [2], 1), (Call.send [3], 1)] s :=
    .of_run (fun a ha _ => hsends a ha) hrun
  refine ⟨s, hsteps, hrequests, hsent, hcancelled,
    send_cancels_failed hinit (returned_of_run hrun) hsteps ?_⟩
  rw [Chip.Clear, hrequests]
  decide

/-- Frames are aborted, as soon as they are requested, up to the end of the first call. -/
def firstAborted (n : ℕ) : List HwEvent := if n < 161 then [.txEnd true false []] else []

/-- The two calls: what the first has come to, and what both have. -/
theorem firstAborted_run : ((netMachine.run (promptStart firstAborted) [(.send [1], 1)]).bind fun s =>
    (netMachine.run s [(.send [2], 1)]).map fun s' =>
      ((s.world.chip.requests, s.world.chip.failed),
        (s'.world.chip.requests, s'.world.chip.sent, s'.world.chip.failed, s'.world.chip.cancelled))) =
    some (([false], [0]), ([false, true], [], [0], [1])) := by
  decide +kernel

theorem firstAborted_steps : ∃ s s',
    netMachine.Steps (fun _ a => a.1.IsSend) (promptStart firstAborted) [(.send [1], 1)] s ∧
    netMachine.Steps (fun _ a => a.1.IsSend) s [(.send [2], 1)] s' ∧
    (promptStart firstAborted).returned = true ∧
    (s.world.chip.requests = [false] ∧ s.world.chip.failed = [0]) ∧
    s'.world.chip.requests = [false, true] ∧ s'.world.chip.sent = [] ∧
    s'.world.chip.failed = [0] ∧ s'.world.chip.cancelled = [1] := by
  have hcheck := firstAborted_run
  generalize promptStart firstAborted = s₀ at hcheck ⊢
  obtain ⟨s, hrun, hs⟩ := Option.bind_eq_some_iff.mp hcheck
  obtain ⟨s', hrun', hs'⟩ := Option.map_eq_some_iff.mp hs
  simp only [Prod.mk.injEq] at hs'
  refine ⟨s, s', .of_run ?_ hrun, .of_run ?_ hrun', returned_of_run hrun, hs'⟩
  · exact fun a ha _ => ⟨[1], by rw [List.mem_singleton.mp ha]⟩
  · exact fun a ha _ => ⟨[2], by rw [List.mem_singleton.mp ha]⟩

/-- The first frame is aborted; the second is cancelled while it is being sent, and has not failed. -/
theorem send_poisoned : netMachine.init (promptStart firstAborted) ∧
    (promptStart firstAborted).returned = true ∧
    ∃ s, netMachine.Steps (fun _ a => a.1.IsSend) (promptStart firstAborted)
      [(.send [1], 1), (.send [2], 1)] s ∧ s.world.chip.requests = [false, true] ∧
      s.world.chip.sent = [] ∧ s.world.chip.failed = [0] ∧ s.world.chip.cancelled = [1] := by
  obtain ⟨s, s', hsteps, hsteps', hret, -, hs'⟩ := firstAborted_steps
  exact ⟨promptStart_init _, hret, s', hsteps.append hsteps', hs'⟩

end LoraGateway.Enc28j60
