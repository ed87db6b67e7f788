import LoraGateway.Arp.EtharpStep
import LoraGateway.Lib.Machine

/-!
# Runs of the ARP table

Packets, messages from anybody, interfaces that go down, and ticks, in any order. Whatever happens, no assertion fails
but the one about packet queues, and no packet is lost (`arp_accounts`). A packet is only sent to the address that its
next hop has told last, not too long ago (`arp_heeds`): a call changes one entry and learns nothing (`Asked`), so the
stable entries are what was heard (`Etharp.Known`), message by message and tick by tick. A packet for an unknown one
waits and a request is sent (`arp_outputs`), a message sends the packet that waits for its sender (`arp_answers`), no
address is asked for longer than a tick (`arp_expires`), and a new one costs the entry that is missed the least
(`arp_recycles`).
-/

namespace LoraGateway.Arp

open Lib

/-- The table, and for each address what the last message from it has told, with the ticks since then. -/
structure ArpSys (β : Type) where
  etharp : Etharp β
  heard : IpAddr → Option (EthAddr × ℕ)

inductive ArpAct (β : Type)
  | output (netif : Netif) (q : β) (ipaddr : IpAddr) (room : Bool) (out : Outside)
  | query (netif : Netif) (ipaddr : IpAddr) (q : Option β) (out : Outside)
  | input (netif : Netif) (hdr : EtharpHdr)
  | tmr
  | cleanup (netif : Netif)

variable {β : Type}

def ArpAct.isTick : ArpAct β → Bool
  | .tmr => true
  | _ => false

namespace ArpSys

def start : ArpSys β := ⟨⟨List.replicate arpTableSize .free, 0, [], [], [], []⟩, fun _ => none⟩

/-- What is known after a message. -/
def hear (s : ArpSys β) (netif : Netif) (hdr : EtharpHdr) : IpAddr → Option (EthAddr × ℕ) :=
  if hdr.valid = true ∧ isunicast hdr.sipaddr netif = true then
    Function.update s.heard hdr.sipaddr (some (hdr.shwaddr, 0))
  else s.heard

/-- The assertion that fails is the one of a query for a packet. -/
def Stops [Packet β] (s : ArpSys β) : ArpAct β → Prop
  | .output netif q ipaddr room _ => pbufHeader room (pbufs q) = true ∧
    ∃ hop, HopOf netif ipaddr hop ∧ isunicast hop netif = true ∧ s.etharp.Stops hop q
  | .query netif ipaddr q _ => isunicast ipaddr netif = true ∧ ∃ p ∈ q, s.etharp.Stops ipaddr p
  | _ => False

/-- Where an IP packet of a step is to go: the packet of a call, to its next hop or to many hosts, and with a message
the packet that waits for its sender. -/
def Aims (s : ArpSys β) : ArpAct β → Option IpAddr → EthAddr → β → Prop
  | .output netif q ipaddr _ _ => OutputAims netif q ipaddr
  | .query _ ipaddr q _ => ForHop ipaddr q
  | .input _ hdr => fun hop _ p => hop = some hdr.sipaddr ∧ (p, hdr.sipaddr) ∈ s.etharp.waiting
  | .tmr | .cleanup _ => fun _ _ _ => False

def step [Packet β] (s : ArpSys β) : ArpAct β → Option (ArpSys β)
  | .output netif q ipaddr room out =>
    (s.etharp.etharpOutput netif q ipaddr room out).map fun r => { s with etharp := r.1 }
  | .query netif ipaddr q out => (s.etharp.etharpQuery netif ipaddr q out).map fun r => { s with etharp := r.1 }
  | .input netif hdr => (s.etharp.etharpArpInput netif hdr).map fun etharp => ⟨etharp, s.hear netif hdr⟩
  | .tmr => some ⟨s.etharp.etharpTmr, fun ipaddr => (s.heard ipaddr).map fun h => (h.1, h.2 + 1)⟩
  | .cleanup netif => some { s with etharp := s.etharp.etharpCleanupNetif netif }

end ArpSys

def arpMachine [Packet β] : Machine (ArpSys β) (ArpAct β) where
  init s := s = .start
  step := ArpSys.step

/-! ## The invariant -/

/-- The stable entries are what was heard last. -/
def Etharp.Known (s : Etharp β) (heard : IpAddr → Option (EthAddr × ℕ)) : Prop :=
  ∀ e ∈ s.table, e.state.isStable = true → heard e.ipaddr = some (e.ethaddr, e.ctime)

structure ArpSys.Good (s : ArpSys β) : Prop where
  ok : s.etharp.Ok
  balanced : s.etharp.Balanced
  known : s.etharp.Known s.heard

/-- Packets go where they are to go, and to a next hop where that has said. -/
def Heeds (aims : Option IpAddr → EthAddr → β → Prop) (heard : IpAddr → Option (EthAddr × ℕ))
    (frames : List (Frame β)) : Prop :=
  ∀ hop dest src p, .ip hop dest src p ∈ frames →
    aims hop dest p ∧ ∀ ipaddr ∈ hop, ∃ age < arpMaxage, heard ipaddr = some (dest, age)

variable {s s' : ArpSys β} {t t' : Etharp β} {a : ArpAct β} {e e' : EtharpEntry β} {frames : List (Frame β)} {i : ℕ}
  {netif : Netif} {ipaddr : IpAddr} {hdr : EtharpHdr} {heard : IpAddr → Option (EthAddr × ℕ)} {l : List (ArpAct β)}
  {aims : Option IpAddr → EthAddr → β → Prop}

/-- A step, whatever it is. -/
structure Stepped (aims : Option IpAddr → EthAddr → β → Prop) (s s' : ArpSys β) (frames : List (Frame β)) : Prop where
  good : s'.Good
  sent : s'.etharp.sent = s.etharp.sent ++ frames
  heeds : Heeds aims s'.heard frames

theorem stepped_of (hok : t.Ok) (hbalanced : t.Balanced) (hknown : t.Known heard)
    (hsent : t.sent = s.etharp.sent ++ frames) (hheeds : Heeds aims heard frames) : Stepped aims s ⟨t, heard⟩ frames :=
  ⟨⟨hok, hbalanced, hknown⟩, hsent, hheeds⟩

theorem good_start : (ArpSys.start : ArpSys β).Good := by
  have hfree : ∀ e ∈ (ArpSys.start : ArpSys β).etharp.table, e = .free := fun e he => List.eq_of_mem_replicate he
  refine ⟨⟨List.length_replicate, fun e he => hfree e he ▸ fine_free, ?_⟩, rfl, fun e he hst => ?_⟩
  · intro i j x y hx _ hused
    exact absurd (hfree x (List.mem_of_getElem? hx) ▸ hused) not_used_free
  · rw [hfree e he] at hst
    cases hst

theorem Asked.stepped (hs : s.Good) (h : Asked aims s.etharp t i e e' frames) :
    Stepped aims s { s with etharp := t } frames := by
  have hmem := List.mem_of_getElem? h.change.found
  refine ⟨⟨h.change.ok hs.ok h.fine h.others, h.change.balanced hs.balanced, fun x hx hst => ?_⟩, h.change.sent,
    fun hop dest src p hp => ?_⟩
  · rw [show ({ s with etharp := t } : ArpSys β).etharp.table = s.etharp.table.set i e' from h.change.table] at hx
    rcases List.mem_or_eq_of_mem_set hx with hx | rfl
    · exact hs.known x hx hst
    · obtain ⟨hst, hip, hethaddr, hctime⟩ := h.stable hst
      rw [hip, hethaddr, hctime]
      exact hs.known e hmem hst
  · obtain ⟨haims, hentry⟩ := h.goes hop dest src p hp
    refine ⟨haims, fun ipaddr hip => ?_⟩
    obtain ⟨hst, rfl, rfl⟩ := hentry ipaddr hip
    exact ⟨e.ctime, (hs.ok.fine e hmem).ctime, hs.known e hmem hst⟩

theorem heeds_of_noPacket (h : NoPacket frames) : Heeds aims heard frames :=
  fun _ _ _ _ hp => absurd hp (h _ _ _ _)

theorem mem_waiting {p : β} : (p, ipaddr) ∈ e.waiting ↔ e.q = some p ∧ e.ipaddr = ipaddr := by
  rw [EtharpEntry.waiting]
  cases e.q with
  | none => simp
  | some q => simp [eq_comm]

variable [Packet β]

theorem input_stepped (netif : Netif) (hdr : EtharpHdr) (hs : s.Good) :
    ∃ s' frames, s.step (.input netif hdr) = some s' ∧ Stepped (s.Aims (.input netif hdr)) s s' frames := by
  by_cases hregard : hdr.valid = true ∧ isunicast hdr.sipaddr netif = true
  · obtain ⟨t, reply, hrun, hno, hcases⟩ := etharpArpInput_spec hdr hs.ok hregard.1 hregard.2
    have hhear : s.hear netif hdr = Function.update s.heard hdr.sipaddr (some (hdr.shwaddr, 0)) := if_pos hregard
    refine ⟨⟨t, s.hear netif hdr⟩, ?_⟩
    rcases hcases with ⟨s₁, i, e, e₁, henter, hchange⟩ | ⟨habsent, rfl⟩
    · refine ⟨_, congrArg (Option.map _) hrun, ⟨hchange.ok hs.ok fine_told fun _ => henter.others hs.ok,
        hchange.balanced hs.balanced, fun x hx hst => ?_⟩, hchange.sent, fun hop dest src p hp => ?_⟩
      · obtain ⟨j, hj⟩ := List.mem_iff_getElem?.mp hx
        rw [show (⟨t, s.hear netif hdr⟩ : ArpSys β).etharp.table = _ from hchange.table] at hj
        show s.hear netif hdr x.ipaddr = _
        rw [hhear]
        rcases getElem?_set_cases hj with ⟨-, rfl⟩ | ⟨hij, hj⟩
        · exact Function.update_self ..
        · rw [Function.update_of_ne (henter.others hs.ok j x hj (Ne.symm hij) (used_of_stable hst))]
          exact hs.known x (List.mem_of_getElem? hj) hst
      · rcases List.mem_append.mp hp with hp | hp
        · obtain ⟨q, hq, heq⟩ := List.mem_map.mp hp
          cases heq
          refine ⟨⟨rfl, ?_⟩, fun ipaddr hip => ⟨0, Nat.zero_lt_succ _, ?_⟩⟩
          · refine List.mem_flatMap.mpr ⟨e, List.mem_of_getElem? hchange.found, mem_waiting.mpr ?_⟩
            rcases henter.kind with ⟨rfl, -⟩ | ⟨rfl, -⟩
            · exact ⟨Option.mem_toList.mp hq, henter.address⟩
            · exact absurd hq List.not_mem_nil
          · obtain rfl := Option.some.inj hip
            show s.hear netif hdr hdr.sipaddr = _
            rw [hhear]
            exact Function.update_self ..
        · exact absurd hp (hno _ _ _ _)
    · refine ⟨reply, congrArg (Option.map _) hrun, ⟨⟨hs.ok.length, hs.ok.fine, hs.ok.apart⟩, hs.balanced,
        fun x hx hst => ?_⟩, rfl, heeds_of_noPacket hno⟩
      show s.hear netif hdr x.ipaddr = _
      rw [hhear, Function.update_of_ne (habsent x hx (used_of_stable hst))]
      exact hs.known x hx hst
  · obtain ⟨reply, hrun, hno⟩ := etharpArpInput_other hdr s.etharp hregard
    have hhear : s.hear netif hdr = s.heard := if_neg hregard
    refine ⟨_, reply, congrArg (Option.map _) hrun, ⟨⟨hs.ok.length, hs.ok.fine, hs.ok.apart⟩, hs.balanced, ?_⟩, rfl,
      heeds_of_noPacket hno⟩
    show Etharp.Known _ (s.hear netif hdr)
    rw [hhear]
    exact hs.known

omit [Packet β] in
theorem ok_map {f : EtharpEntry β → EtharpEntry β} (h : t.Ok) (htable : t'.table = t.table.map f)
    (hfine : ∀ e ∈ t.table, (f e).Fine) (hused : ∀ e, (f e).Used → e.Used ∧ (f e).ipaddr = e.ipaddr) : t'.Ok := by
  refine ⟨?_, fun x hx => ?_, ?_⟩
  · rw [htable, List.length_map, h.length]
  · rw [htable] at hx
    obtain ⟨e, he, rfl⟩ := List.mem_map.mp hx
    exact hfine e he
  · rw [htable]
    exact h.apart.map hused

theorem tmr_stepped (hs : s.Good) : ∃ s' frames, s.step .tmr = some s' ∧ Stepped (s.Aims .tmr) s s' frames := by
  obtain ⟨htable, hsent, hbalanced⟩ := etharpTmr_spec hs.ok
  have hok : s.etharp.etharpTmr.Ok :=
    ok_map hs.ok htable (fun e he => fine_tick (hs.ok.fine e he)) fun e => used_tick
  refine ⟨_, [], rfl, stepped_of hok (hbalanced hs.balanced) (fun x hx hst => ?_) hsent
    (heeds_of_noPacket noPacket_nil)⟩
  rw [htable] at hx
  obtain ⟨e, he, rfl⟩ := List.mem_map.mp hx
  obtain ⟨hst, hip, hethaddr, hctime⟩ := stable_tick (hs.ok.fine e he) hst
  rw [hip, hs.known e he hst, hethaddr, hctime]
  rfl

theorem cleanup_stepped (netif : Netif) (hs : s.Good) :
    ∃ s' frames, s.step (.cleanup netif) = some s' ∧ Stepped (s.Aims (.cleanup netif)) s s' frames := by
  obtain ⟨htable, hsent, hbalanced⟩ := etharpCleanupNetif_spec netif hs.ok
  have hok : (s.etharp.etharpCleanupNetif netif).Ok := by
    refine ok_map hs.ok htable (fun e he => ?_) fun e hused => ?_
    · rcases cleanup_cases netif e with heq | heq <;> rw [heq]
      · exact fine_free
      · exact hs.ok.fine e he
    · rcases cleanup_cases netif e with heq | heq <;> rw [heq] at hused ⊢
      · exact absurd hused not_used_free
      · exact ⟨hused, rfl⟩
  refine ⟨_, [], rfl, stepped_of hok (hbalanced hs.balanced) (fun x hx hst => ?_) hsent
    (heeds_of_noPacket noPacket_nil)⟩
  rw [htable] at hx
  obtain ⟨e, he, rfl⟩ := List.mem_map.mp hx
  rcases cleanup_cases netif e with heq | heq <;> rw [heq] at hst ⊢
  · cases hst
  · exact hs.known e he hst

theorem good_step (hs : s.Good) (a : ArpAct β) :
    (∃ s' frames, s.step a = some s' ∧ Stepped (s.Aims a) s s' frames ∧ ¬ s.Stops a) ∨
      s.step a = none ∧ s.Stops a := by
  cases a with
  | output netif q ipaddr room out =>
    rcases etharpOutput_spec netif q ipaddr room out hs.ok with
      ⟨t, i, e, e', frames, r, hasked, hrun, hno⟩ | ⟨hrun, hroom, hstops⟩
    · exact .inl ⟨_, frames, congrArg (Option.map _) hrun, hasked.stepped hs,
        fun ⟨hroom, hop, hhop, hunicast, hstops⟩ => hno hroom hop hhop hunicast hstops⟩
    · exact .inr ⟨congrArg (Option.map _) hrun, hroom, hstops⟩
  | query netif ipaddr q out =>
    rcases etharpQuery_spec netif ipaddr q out hs.ok with
      ⟨t, i, e, e', frames, r, hasked, hrun, hno⟩ | ⟨hrun, hunicast, hstops⟩
    · exact .inl ⟨_, frames, congrArg (Option.map _) hrun, hasked.stepped hs,
        fun ⟨hunicast, p, hp, hstops⟩ => hno p hp hunicast hstops⟩
    · exact .inr ⟨congrArg (Option.map _) hrun, hunicast, hstops⟩
  | input netif hdr =>
    obtain ⟨s', frames, hrun, hstepped⟩ := input_stepped netif hdr hs
    exact .inl ⟨s', frames, hrun, hstepped, id⟩
  | tmr =>
    obtain ⟨s', frames, hrun, hstepped⟩ := tmr_stepped hs
    exact .inl ⟨s', frames, hrun, hstepped, id⟩
  | cleanup netif =>
    obtain ⟨s', frames, hrun, hstepped⟩ := cleanup_stepped netif hs
    exact .inl ⟨s', frames, hrun, hstepped, id⟩

theorem stepped_of_step (hs : s.Good) (hstep : s.step a = some s') : ∃ frames, Stepped (s.Aims a) s s' frames := by
  rcases good_step hs a with ⟨s'', frames, hrun, hstepped, -⟩ | ⟨hrun, -⟩
  · obtain rfl := Option.some.inj (hrun.symm.trans hstep)
    exact ⟨frames, hstepped⟩
  · exact absurd (hrun.symm.trans hstep) (by simp)

theorem reach_good (hs : arpMachine.Reach Machine.any s) : s.Good := by
  refine Machine.Reach.invariant ?_ ?_ hs
  · rintro _ rfl
    exact good_start
  · intro s a s' h _ hstep
    obtain ⟨frames, hstepped⟩ := stepped_of_step h hstep
    exact hstepped.good

theorem reach_of_start (hrun : arpMachine.run .start l = some s) : arpMachine.Reach Machine.any s :=
  .steps (.init rfl) (Machine.steps_of_run hrun)

/-! ## What holds in every run -/

/-- The interface 192.168.0.2 of a network with 254 hosts. -/
def lanNetif : Netif := ⟨0, 0xc0a80002, 0xffffff00, 0xc0a80001, 0x020000000002, true⟩

def allFine : Outside := ⟨some .ok, true, .ok⟩

/-- The answer of a host. -/
def answer (ipaddr : IpAddr) (ethaddr : EthAddr) : EtharpHdr :=
  ⟨42, 1, 0x800, 6, 4, 2, ethaddr, ipaddr, lanNetif.hwaddr, lanNetif.ipAddr⟩

/-- Packets that are just their pbufs. -/
instance : Packet (List Pbuf) := ⟨id⟩

/-- A packet in one pbuf. -/
def single (len : ℕ) : List Pbuf := [⟨.ram, len, len⟩]

/-- Whatever comes, in whatever order: no assertion fails but the one about packet queues, and that exactly if the chain
of a packet for an address without a stable entry goes on behind its last byte; each packet that was left to wait has
been sent or freed or waits, just once, packets wait at pending entries only, and no two entries are for one address. -/
theorem arp_accounts (hs : arpMachine.Reach Machine.any s) :
    (∀ a, (∃ s', s.step a = some s') ↔ ¬ s.Stops a) ∧
    (s.etharp.done ++ s.etharp.dropped ++ s.etharp.waiting).Perm s.etharp.queued ∧
    (∀ e ∈ s.etharp.table, e.q ≠ none → e.state = .pending) ∧
    ∀ (i j : ℕ) e e', s.etharp.table[i]? = some e → s.etharp.table[j]? = some e' → e.Used → e'.Used →
      e.ipaddr = e'.ipaddr → i = j := by
  have hgood := reach_good hs
  refine ⟨fun a => ?_, Multiset.coe_eq_coe.mp ?_, fun e he hq => ?_, hgood.ok.apart⟩
  · rcases good_step hgood a with ⟨s', -, hrun, -, hno⟩ | ⟨hrun, hstops⟩
    · exact iff_of_true ⟨s', hrun⟩ hno
    · exact iff_of_false (fun ⟨s', hstep⟩ => absurd (hrun.symm.trans hstep) (by simp)) (not_not.mpr hstops)
  · rw [← Multiset.coe_add, ← Multiset.coe_add]
    exact hgood.balanced.symm
  · have hfine := hgood.ok.fine e he
    have hused : e.Used := fun hempty => hq (by rw [hfine.free (not_not.mpr hempty)]; rfl)
    exact (EtharpState.pending_or_stable hused).resolve_right fun hst => hq (hfine.stable hst)

def sendTwo : List (ArpAct (List Pbuf)) :=
  [.output lanNetif (single 28) 0xc0a80005 true allFine, .output lanNetif (single 40) 0xc0a80005 true allFine]

/-- Two packets for a host that has not answered. A third one, whose second pbuf is empty, would end in the assertion,
as does the answer to an echo request that came in two fragments, the second without data. -/
theorem arp_accounts_two : ∃ s : ArpSys (List Pbuf), arpMachine.run .start sendTwo = some s ∧
    (s.etharp.done ++ s.etharp.dropped ++ s.etharp.waiting).Perm s.etharp.queued ∧
    s.etharp.dropped = [(single 28, 0xc0a80005)] ∧ s.etharp.waiting = [(single 40, 0xc0a80005)] ∧
    ¬ ∃ s', s.step (.output lanNetif [⟨.pool, 28, 28⟩, ⟨.pool, 0, 0⟩] 0xc0a80005 true allFine) = some s' := by
  have hreach := reach_of_start (l := sendTwo) (s := (arpMachine.run .start sendTwo).get rfl) (Option.some_get _).symm
  obtain ⟨hsteps, hperm, -⟩ := arp_accounts hreach
  refine ⟨_, (Option.some_get _).symm, hperm, rfl, rfl, fun hstep => (hsteps _).mp hstep ?_⟩
  refine ⟨rfl, 0xc0a80005, ⟨rfl, rfl, rfl⟩, rfl, fun x hx hserves => ?_, rfl⟩
  have hall : ∀ x ∈ ((arpMachine.run .start sendTwo).get rfl).etharp.table, x.state.isStable = false := by decide
  exact absurd (hserves.1.symm.trans (hall x hx)) (by decide)

/-- An IP packet of a call goes to its next hop, or to many hosts if its address says so; one that was left to wait goes
to the next hop that it has waited for. To a next hop means to the address that the last message from there has told,
and no more than 239 ticks later. -/
theorem arp_heeds (hs : arpMachine.Reach Machine.any s) (hstep : s.step a = some s') :
    ∃ frames, s'.etharp.sent = s.etharp.sent ++ frames ∧ ∀ hop dest src p, .ip hop dest src p ∈ frames →
      s.Aims a hop dest p ∧ ∀ ipaddr ∈ hop, ∃ age < arpMaxage, s'.heard ipaddr = some (dest, age) := by
  obtain ⟨frames, hstepped⟩ := stepped_of_step (reach_good hs) hstep
  exact ⟨frames, hstepped.sent, hstepped.heeds⟩

/-- Two hosts, the first of which has got another address since. -/
def moved : List (ArpAct (List Pbuf)) :=
  [.input lanNetif (answer 0xc0a80005 5), .input lanNetif (answer 0xc0a80006 7), .input lanNetif (answer 0xc0a80005 6)]

def movedSys : ArpSys (List Pbuf) := (arpMachine.run .start moved).get rfl

theorem arp_heeds_moved : ∃ s', arpMachine.run .start moved = some movedSys ∧
    movedSys.step (.output lanNetif (single 28) 0xc0a80005 true allFine) = some s' ∧
      ∀ dest src p, .ip (some 0xc0a80005) dest src p ∈ s'.etharp.sent → dest = 6 ∧ p = single 28 := by
  have hrun : arpMachine.run .start moved = some movedSys := (Option.some_get _).symm
  have hheard : (movedSys.step (.output lanNetif (single 28) 0xc0a80005 true allFine)).map
      (fun s => s.heard 0xc0a80005) = some (some (6, 0)) := rfl
  obtain ⟨s', hstep, hheard⟩ := Option.map_eq_some_iff.mp hheard
  obtain ⟨frames, hsent, hheeds⟩ := arp_heeds (reach_of_start hrun) hstep
  refine ⟨s', hrun, hstep, fun dest src p hp => ?_⟩
  rw [hsent] at hp
  obtain ⟨⟨-, rfl⟩, htold⟩ := hheeds _ dest src p hp
  obtain ⟨age, -, hlast⟩ := htold _ rfl
  exact ⟨(Prod.mk.inj (Option.some.inj (hlast.symm.trans hheard))).1, rfl⟩

/-! ## Packets that wait -/

omit [Packet β] in
theorem used_of_waiting {p : β} (h : t.Ok) (he : e ∈ t.table) (hp : (p, ipaddr) ∈ e.waiting) : e.Used := by
  intro hempty
  obtain rfl := (h.fine e he).free (not_not.mpr hempty)
  exact absurd hp List.not_mem_nil

/-- A packet for a next hop is sent at once if the address is known, and waits for the answer to a request if it is not,
as long as there is memory for that: it is the chain of one packet, and there is room for the Ethernet header. -/
theorem arp_outputs {hop : IpAddr} {room : Bool} (q : β) {out : Outside} (hs : arpMachine.Reach Machine.any s)
    (hroom : pbufHeader room (pbufs q) = true) (hwhole : Whole (pbufs q)) (hhop : HopOf netif ipaddr hop)
    (hunicast : isunicast hop netif = true) (hcopy : out.copy = true) (hrequest : out.request.isSome = true) :
    ∃ s' frames, s.step (.output netif q ipaddr room out) = some s' ∧ s'.etharp.sent = s.etharp.sent ++ frames ∧
      ((∃ e ∈ s.etharp.table, e.Serves hop ∧ .ip (some hop) e.ethaddr netif.hwaddr q ∈ frames) ∨
        (∀ e ∈ s.etharp.table, ¬ e.Serves hop) ∧ (q, hop) ∈ s'.etharp.waiting ∧ requestFor netif hop ∈ frames) := by
  have hok := (reach_good hs).ok
  rcases etharpOutput_hop q out hok hroom hhop with
    ⟨t, i, e, e', frames, r, hasked, hserves, hmem, hrun⟩ | ⟨hno, hrun⟩
  · refine ⟨{ s with etharp := t }, frames, congrArg (Option.map _) hrun, hasked.change.sent, .inl ⟨e, ?_, hserves, hmem⟩⟩
    exact List.mem_of_getElem? hasked.change.found
  · obtain ⟨t, i, e, e', frames, hasked, hq, hip, hmem, hquery⟩ :=
      etharpQuery_waits q hok hunicast hno (hwhole.keeps hroom hcopy) hrequest
    refine ⟨{ s with etharp := t }, frames, congrArg (Option.map _) (hrun.trans hquery), hasked.change.sent,
      .inr ⟨hno, List.mem_flatMap.mpr ⟨e', ?_, mem_waiting.mpr ⟨hq, hip⟩⟩, hmem⟩⟩
    exact List.mem_of_getElem? hasked.change.at_index

/-- A packet in two pbufs. -/
def segment : List Pbuf := [⟨.ram, 54, 1514⟩, ⟨.ref, 1460, 1460⟩]

/-- To a host elsewhere, by the gateway 192.168.0.1. -/
theorem arp_outputs_gateway : ∃ s' frames,
    (ArpSys.start : ArpSys (List Pbuf)).step (.output lanNetif segment 0x08080808 true allFine) = some s' ∧
      s'.etharp.sent = [] ++ frames ∧
      ((∃ e ∈ (ArpSys.start : ArpSys (List Pbuf)).etharp.table, e.Serves 0xc0a80001 ∧
          .ip (some 0xc0a80001) e.ethaddr lanNetif.hwaddr segment ∈ frames) ∨
        (∀ e ∈ (ArpSys.start : ArpSys (List Pbuf)).etharp.table, ¬ e.Serves 0xc0a80001) ∧
          (segment, 0xc0a80001) ∈ s'.etharp.waiting ∧ requestFor lanNetif 0xc0a80001 ∈ frames) := by
  have hwhole : Whole segment := by simp [segment, Whole]
  exact arp_outputs segment (.init rfl) rfl hwhole ⟨by decide, by decide, by decide⟩ (by decide) rfl rfl

/-- The packet that waits for an address is sent with the first valid message from there, and no other waits then. -/
theorem arp_answers (netif : Netif) (hdr : EtharpHdr) (hs : arpMachine.Reach Machine.any s) {p : β}
    (hp : (p, hdr.sipaddr) ∈ s.etharp.waiting) (hvalid : hdr.valid = true)
    (hunicast : isunicast hdr.sipaddr netif = true) :
    ∃ s' frames, s.step (.input netif hdr) = some s' ∧ s'.etharp.sent = s.etharp.sent ++ frames ∧
      .ip (some hdr.sipaddr) hdr.shwaddr netif.hwaddr p ∈ frames ∧ ∀ q, (q, hdr.sipaddr) ∉ s'.etharp.waiting := by
  have hok := (reach_good hs).ok
  obtain ⟨x, hx, hpx⟩ := List.mem_flatMap.mp hp
  have hused := used_of_waiting hok hx hpx
  obtain ⟨hq, hip⟩ := mem_waiting.mp hpx
  obtain ⟨t, reply, hrun, -, ⟨s₁, i, e, e₁, henter, hchange⟩ | ⟨habsent, -⟩⟩ :=
    etharpArpInput_spec hdr hok hvalid hunicast
  · have hothers := henter.others hok
    refine ⟨⟨t, s.hear netif hdr⟩, _, congrArg (Option.map _) hrun, hchange.sent, List.mem_append_left _ ?_,
      fun q hwait => ?_⟩
    · obtain ⟨j, hj⟩ := List.mem_iff_getElem?.mp hx
      have hji : j = i := not_not.mp fun hne => hothers j x hj hne hused hip
      obtain rfl : x = e := Option.some.inj (hj.symm.trans (hji ▸ hchange.found))
      rcases henter.kind with ⟨rfl, -⟩ | ⟨-, habsent, -⟩
      · rw [hq]
        exact List.mem_singleton_self _
      · exact absurd hip (habsent x hx hused)
    · obtain ⟨y, hy, hqy⟩ := List.mem_flatMap.mp hwait
      obtain ⟨j, hj⟩ := List.mem_iff_getElem?.mp hy
      have hj' : (s.etharp.table.set i (told netif hdr.sipaddr hdr.shwaddr))[j]? = some y := hchange.table ▸ hj
      rcases getElem?_set_cases hj' with ⟨-, rfl⟩ | ⟨hij, hold⟩
      · exact absurd hqy List.not_mem_nil
      · have hused := used_of_waiting hok (List.mem_of_getElem? hold) hqy
        exact hothers j y hold (Ne.symm hij) hused (mem_waiting.mp hqy).2
  · exact absurd hip (habsent x hx hused)

theorem arp_answers_one : ∃ s : ArpSys (List Pbuf),
    arpMachine.run .start [.output lanNetif (single 28) 0xc0a80005 true allFine] = some s ∧
      ∃ s' frames, s.step (.input lanNetif (answer 0xc0a80005 5)) = some s' ∧
        s'.etharp.sent = s.etharp.sent ++ frames ∧ .ip (some 0xc0a80005) 5 0x020000000002 (single 28) ∈ frames := by
  have hreach := reach_of_start (s := _) (l := [.output lanNetif (single 28) 0xc0a80005 true allFine]) rfl
  obtain ⟨s', frames, hstep, hsent, hmem, -⟩ :=
    arp_answers lanNetif (answer 0xc0a80005 5) (p := single 28) hreach (.head _) rfl rfl
  exact ⟨_, rfl, s', frames, hstep, hsent, hmem⟩

/-! ## Addresses that are asked for -/

/-- The address is asked for. -/
def ArpSys.Pending (s : ArpSys β) (ipaddr : IpAddr) : Prop :=
  ∃ e ∈ s.etharp.table, e.state = .pending ∧ e.ipaddr = ipaddr

omit [Packet β] in
theorem Asked.kept (h : Asked aims t t' i e e' frames) (hp : ∃ x ∈ t.table, x.state = .pending ∧ x.ipaddr = ipaddr)
    {y : EtharpEntry β} (hy : y ∈ t'.table) (hpending : y.state = .pending) (hip : y.ipaddr = ipaddr) :
    ∃ x ∈ t.table, x.state = .pending ∧ x.ipaddr = ipaddr ∧ y.ctime = x.ctime := by
  rw [h.change.table] at hy
  rcases List.mem_or_eq_of_mem_set hy with hy | rfl
  · exact ⟨y, hy, hpending, hip, rfl⟩
  · rcases h.pending hpending with ⟨hold, hip', hctime⟩ | habsent
    · exact ⟨e, List.mem_of_getElem? h.change.found, hold, hip'.symm.trans hip, hctime⟩
    · obtain ⟨x, hx, hstate, hipx⟩ := hp
      have hused : x.Used := fun hempty => by rw [hempty] at hstate; cases hstate
      exact absurd (hipx.trans hip.symm) (habsent x hx hused)

/-- A step keeps the age of an entry that is pending, and a tick makes it one older. -/
theorem pending_step (hs : s.Good) (hstep : s.step a = some s') (hp : s.Pending ipaddr) (he' : e' ∈ s'.etharp.table)
    (hpending : e'.state = .pending) (hip : e'.ipaddr = ipaddr) :
    ∃ e ∈ s.etharp.table, e.state = .pending ∧ e.ipaddr = ipaddr ∧
      e'.ctime = e.ctime + if a.isTick then 1 else 0 := by
  cases a with
  | output netif q dst room out =>
    rcases etharpOutput_spec netif q dst room out hs.ok with
      ⟨t, i, e, e₁, frames, r, hasked, hrun, -⟩ | ⟨hrun, -⟩
    · obtain rfl := Option.some.inj ((congrArg (Option.map _) hrun).symm.trans hstep)
      exact hasked.kept hp he' hpending hip
    · exact absurd ((congrArg (Option.map _) hrun).symm.trans hstep) (by simp)
  | query netif dst q out =>
    rcases etharpQuery_spec netif dst q out hs.ok with ⟨t, i, e, e₁, frames, r, hasked, hrun, -⟩ | ⟨hrun, -⟩
    · obtain rfl := Option.some.inj ((congrArg (Option.map _) hrun).symm.trans hstep)
      exact hasked.kept hp he' hpending hip
    · exact absurd ((congrArg (Option.map _) hrun).symm.trans hstep) (by simp)
  | input netif hdr =>
    by_cases hregard : hdr.valid = true ∧ isunicast hdr.sipaddr netif = true
    · obtain ⟨t, reply, hrun, -, hcases⟩ := etharpArpInput_spec hdr hs.ok hregard.1 hregard.2
      obtain rfl := Option.some.inj ((congrArg (Option.map _) hrun).symm.trans hstep)
      rcases hcases with ⟨s₁, i, e, e₁, henter, hchange⟩ | ⟨-, rfl⟩
      · have hmem : e' ∈ s.etharp.table.set i (told netif hdr.sipaddr hdr.shwaddr) := hchange.table ▸ he'
        rcases List.mem_or_eq_of_mem_set hmem with he' | rfl
        · exact ⟨e', he', hpending, hip, rfl⟩
        · cases hpending
      · exact ⟨e', he', hpending, hip, rfl⟩
    · obtain ⟨reply, hrun, -⟩ := etharpArpInput_other hdr s.etharp hregard
      obtain rfl := Option.some.inj ((congrArg (Option.map _) hrun).symm.trans hstep)
      exact ⟨e', he', hpending, hip, rfl⟩
  | tmr =>
    obtain rfl := Option.some.inj hstep
    obtain ⟨htable, -⟩ := etharpTmr_spec hs.ok
    have hmem : e' ∈ s.etharp.table.map EtharpEntry.tick := htable ▸ he'
    obtain ⟨e, he, rfl⟩ := List.mem_map.mp hmem
    obtain ⟨hold, hip', hctime⟩ := pending_tick (hs.ok.fine e he) hpending
    exact ⟨e, he, hold, hip'.symm.trans hip, hctime⟩
  | cleanup netif =>
    obtain rfl := Option.some.inj hstep
    obtain ⟨htable, -⟩ := etharpCleanupNetif_spec netif hs.ok
    have hmem : e' ∈ s.etharp.table.map (EtharpEntry.cleanup netif) := htable ▸ he'
    obtain ⟨e, he, rfl⟩ := List.mem_map.mp hmem
    rcases cleanup_cases netif e with heq | heq <;> rw [heq] at hpending hip ⊢
    · cases hpending
    · exact ⟨e, he, hpending, hip, rfl⟩

theorem pending_steps (hs : s.Good) (hsteps : arpMachine.Steps Machine.any s l s')
    (hpending : arpMachine.Always (ArpSys.Pending · ipaddr) s l) :
    ∃ e ∈ s.etharp.table, e.state = .pending ∧ e.ipaddr = ipaddr ∧
      e.ctime + l.countP ArpAct.isTick < arpMaxpending := by
  induction hsteps with
  | nil s =>
    obtain ⟨e, he, hstate, hip⟩ := hpending.now
    exact ⟨e, he, hstate, hip, ((hs.ok.fine e he).pending hstate).2⟩
  | cons _ hstep _ ih =>
    obtain ⟨frames, hstepped⟩ := stepped_of_step hs hstep
    obtain ⟨e', he', hstate', hip', hlt⟩ := ih hstepped.good (hpending.2 _ hstep)
    obtain ⟨e, he, hstate, hip, hctime⟩ := pending_step hs hstep hpending.now he' hstate' hip'
    refine ⟨e, he, hstate, hip, ?_⟩
    rw [List.countP_cons]
    omega

/-- No address is asked for longer than a tick without an answer, however many packets are sent to it. -/
theorem arp_expires (hs : arpMachine.Reach Machine.any s) (hsteps : arpMachine.Steps Machine.any s l s')
    (hpending : arpMachine.Always (ArpSys.Pending · ipaddr) s l) : l.countP ArpAct.isTick < arpMaxpending := by
  obtain ⟨e, -, -, -, hlt⟩ := pending_steps (reach_good hs) hsteps hpending
  omega

/-- The address stays for one tick. -/
theorem arp_expires_one : ∃ s s' : ArpSys (List Pbuf),
    arpMachine.run .start [.output lanNetif (single 28) 0xc0a80005 true allFine] = some s ∧
      arpMachine.run s [.tmr, .output lanNetif (single 40) 0xc0a80005 true allFine] = some s' ∧
      s'.etharp.waiting = [(single 40, 0xc0a80005)] ∧ 1 < arpMaxpending := by
  have hreach := reach_of_start (s := _) (l := [.output lanNetif (single 28) 0xc0a80005 true allFine]) rfl
  refine ⟨_, _, rfl, rfl, rfl, ?_⟩
  refine arp_expires hreach (Machine.steps_of_run rfl) (show arpMachine.Always (ArpSys.Pending · 0xc0a80005) _
    [.tmr, .output lanNetif (single 40) 0xc0a80005 true allFine] from ?_)
  refine .cons ?_ rfl (.cons ?_ rfl ?_) <;> exact ⟨_, .head _, rfl, rfl⟩

/-! ## Entries that are given up -/

/-- An address that there is no entry for gets one, and nothing else changes but an entry that may be given up. -/
theorem arp_recycles (hs : arpMachine.Reach Machine.any s)
    (habsent : ∀ x ∈ s.etharp.table, x.Used → x.ipaddr ≠ ipaddr) :
    ∃ t i e, s.etharp.etharpFindEntry ipaddr .tryHard = some (t, .ok i) ∧ s.etharp.table[i]? = some e ∧
      Spare s.etharp.table e ∧ t.table = s.etharp.table.set i (.fresh ipaddr) ∧ t.sent = s.etharp.sent := by
  rcases etharpFindEntry_spec ipaddr .tryHard (reach_good hs).ok with ⟨t, i, e, e', henter, hfind⟩ | ⟨hflags, -⟩
  · have hfound := henter.change.found
    rcases henter.kind with ⟨rfl, hused⟩ | ⟨rfl, -, hspare⟩
    · exact absurd henter.address (habsent e' (List.mem_of_getElem? hfound) hused)
    · exact ⟨t, i, e, hfind, hfound, hspare, henter.change.table, henter.change.sent.trans (List.append_nil _)⟩
  · cases hflags

/-- Three hosts answer before a tick and three after it, and four others are asked for: the table is full. -/
def crowd : List (ArpAct (List Pbuf)) :=
  [1, 2, 3].map (fun k => .input lanNetif (answer (0xc0a80010 + k) (k.setWidth 48))) ++ .tmr ::
    [4, 5, 6].map (fun k => .input lanNetif (answer (0xc0a80010 + k) (k.setWidth 48))) ++
      [7, 8, 9, 10].map fun k => .output lanNetif (single 28) (0xc0a80010 + k) true allFine

def crowdSys : ArpSys (List Pbuf) := (arpMachine.run .start crowd).get rfl

/-- One of the hosts that answered before the tick is given up, none of those that are asked for. -/
theorem arp_recycles_crowd : arpMachine.run .start crowd = some crowdSys ∧
    crowdSys.etharp.table.map (fun e => (e.state, e.ctime)) = List.replicate 3 (.stable, 1) ++
      List.replicate 3 (.stable, 0) ++ List.replicate 4 (.pending, 0) ∧
    ∃ t i e, crowdSys.etharp.etharpFindEntry 0xc0a80005 .tryHard = some (t, .ok i) ∧
      crowdSys.etharp.table[i]? = some e ∧ e.state = .stable ∧ e.ctime = 1 ∧
        t.table = crowdSys.etharp.table.set i (.fresh 0xc0a80005) := by
  have hrun : arpMachine.run .start crowd = some crowdSys := (Option.some_get _).symm
  have hfull : ∀ x ∈ crowdSys.etharp.table, x.state ≠ .empty ∧ x.state ≠ .stableRerequesting ∧ x.ctime ≤ 1 ∧
      x.ipaddr ≠ 0xc0a80005 := by
    decide
  have hold : ∃ x ∈ crowdSys.etharp.table, x.state = .stable ∧ x.ctime = 1 := by decide
  obtain ⟨t, i, e, hfind, hi, hspare, htable, -⟩ :=
    arp_recycles (reach_of_start hrun) fun x hx _ => (hfull x hx).2.2.2
  obtain ⟨hused, hrequested, hle, -⟩ := hfull e (List.mem_of_getElem? hi)
  obtain ⟨x, hx, hstable, hage⟩ := hold
  have hboth : e.state = .stable ∧ e.ctime = 1 := by
    rcases hspare with hfree | ⟨-, ⟨hst, hbest⟩ | ⟨hall, -⟩⟩
    · exact absurd hused hfree
    · have hle' := hbest x hx (by rw [hstable]; rfl)
      refine ⟨?_, by omega⟩
      cases hstate : e.state with
      | stable => rfl
      | stableRerequesting => exact absurd hstate hrequested
      | empty | pending =>
        rw [hstate] at hst
        cases hst
    · exact absurd (hstable.symm.trans (hall x hx)) (by decide)
  exact ⟨hrun, rfl, t, i, e, hfind, hi, hboth.1, hboth.2, htable⟩

end LoraGateway.Arp
