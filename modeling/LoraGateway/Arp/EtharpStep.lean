import LoraGateway.Arp.EtharpCalls

/-!
# Messages, packets and time

A message enters its sender (`told`), a packet asks for its next hop (`Asked`), and time goes over the whole table
(`sweep_spec`).

A call is followed from one `Change` to the next, all of the same entry. `Asked` adds what a query may do to it: it
learns nothing, and what goes out goes to the hop the entry serves (`Goes`). Every query comes to an entry in use
(`etharpQuery_eq`), and from there the packet is sent if the entry is stable (`queryEntry_sends`) and kept if it is
pending (`queryEntry_waits`). The chain matters in the latter only: one that is `Whole` passes the assertion
(`Whole.keeps`).
-/

namespace LoraGateway.Arp

open Lib

variable {β : Type} {e e' : EtharpEntry β} {s s' : Etharp β} {netif : Netif} {ipaddr : IpAddr} {ethaddr : EthAddr}
  {out : Outside} {i : ℕ} {frames : List (Frame β)} {aims : Option IpAddr → EthAddr → β → Prop}

/-- Requests and answers, but no packets. -/
def NoPacket (frames : List (Frame β)) : Prop := ∀ hop dest src p, .ip hop dest src p ∉ frames

theorem noPacket_nil : NoPacket ([] : List (Frame β)) := fun _ _ _ _ => List.not_mem_nil

theorem noPacket_arp (dest src : EthAddr) (hdr : EtharpHdr) : NoPacket ([.arp dest src hdr] : List (Frame β)) := by
  intro hop dest' src' p hp
  cases List.mem_singleton.mp hp

/-! ## Messages -/

/-- The entry that a message leaves. -/
def told (netif : Netif) (ipaddr : IpAddr) (ethaddr : EthAddr) : EtharpEntry β :=
  ⟨none, ipaddr, some netif.num, ethaddr, .stable, 0⟩

theorem fine_told : (told netif ipaddr ethaddr : EtharpEntry β).Fine := by
  constructor
  · intro h
    exact absurd (fun hempty => (by cases hempty)) h
  · intro h
    cases h
  · intro _
    rfl
  · exact Nat.zero_lt_succ _

/-- The packet that waits for the sender is sent to it. -/
theorem etharpUpdateArpEntry_spec (ethaddr : EthAddr) (flags : Flags) (h : s.Ok)
    (hunicast : isunicast ipaddr netif = true) :
    (∃ s₁ s' i e e₁, Entered s s₁ ipaddr i e e₁ ∧ Change s s' i e (told netif ipaddr ethaddr)
        (e₁.q.toList.map fun p => .ip (some ipaddr) ethaddr netif.hwaddr p) ∧
      s.etharpUpdateArpEntry netif ipaddr ethaddr flags = some (s', .ok)) ∨
    (∀ x ∈ s.table, x.Used → x.ipaddr ≠ ipaddr) ∧
      s.etharpUpdateArpEntry netif ipaddr ethaddr flags = some (s, .mem) := by
  rcases etharpFindEntry_spec ipaddr flags h with ⟨s₁, i, e, e₁, henter, hfind⟩ | ⟨-, habsent, hfind⟩
  · left
    have hi := henter.change.at_index
    obtain ⟨q, ip, netif', ethaddr', state, ctime⟩ := e₁
    obtain rfl : ip = ipaddr := henter.address
    cases q with
    | none =>
      refine ⟨s₁, s₁.set i (told netif ip ethaddr), i, e, _, henter,
        henter.change.trans ⟨hi, rfl, (List.append_nil _).symm, rfl⟩, ?_⟩
      simp only [Etharp.etharpUpdateArpEntry, hunicast, hfind, Option.bind_some, hi]
      rfl
    | some p =>
      refine ⟨s₁, { s₁.set i (told netif ip ethaddr) with
        sent := s₁.sent ++ [.ip (some ip) ethaddr netif.hwaddr p]
        done := s₁.done ++ [(p, ip)] }, i, e, _, henter, henter.change.trans ⟨hi, rfl, rfl, ?_⟩, ?_⟩
      · show (s₁.queued : Multiset (β × IpAddr)) + s₁.done + s₁.dropped + ([(p, ip)] : List (β × IpAddr)) =
          s₁.queued + ((s₁.done ++ [(p, ip)] : List (β × IpAddr)) : Multiset (β × IpAddr)) + s₁.dropped + 0
        rw [← Multiset.coe_add]
        abel
      · simp only [Etharp.etharpUpdateArpEntry, hunicast, hfind, Option.bind_some, hi]
        rfl
  · right
    refine ⟨habsent, ?_⟩
    simp only [Etharp.etharpUpdateArpEntry, hunicast, hfind, Option.bind_some]
    rfl

theorem etharpReply_spec (s : Etharp β) (netif : Netif) (hdr : EtharpHdr) :
    ∃ frames, NoPacket frames ∧ s.etharpReply netif hdr = { s with sent := s.sent ++ frames } := by
  rw [Etharp.etharpReply]
  split_ifs
  · exact ⟨_, noPacket_arp _ _ _, rfl⟩
  · refine ⟨[], noPacket_nil, ?_⟩
    rw [List.append_nil]

theorem etharpArpInput_spec (hdr : EtharpHdr) (h : s.Ok) (hvalid : hdr.valid = true)
    (hunicast : isunicast hdr.sipaddr netif = true) :
    ∃ s' reply, s.etharpArpInput netif hdr = some s' ∧ NoPacket reply ∧
      ((∃ s₁ i e e₁, Entered s s₁ hdr.sipaddr i e e₁ ∧ Change s s' i e (told netif hdr.sipaddr hdr.shwaddr)
          ((e₁.q.toList.map fun p => .ip (some hdr.sipaddr) hdr.shwaddr netif.hwaddr p) ++ reply)) ∨
        (∀ x ∈ s.table, x.Used → x.ipaddr ≠ hdr.sipaddr) ∧ s' = { s with sent := s.sent ++ reply }) := by
  rcases etharpUpdateArpEntry_spec hdr.shwaddr (if hdr.forUs netif then .tryHard else .findOnly) h hunicast with
    ⟨s₁, s₂, i, e, e₁, henter, hchange, hrun⟩ | ⟨habsent, hrun⟩
  · obtain ⟨reply, hno, hreply⟩ := etharpReply_spec s₂ netif hdr
    refine ⟨s₂.etharpReply netif hdr, reply, ?_, hno, .inl ⟨s₁, i, e, e₁, henter, ?_⟩⟩
    · rw [Etharp.etharpArpInput, hvalid, hrun]
      rfl
    · rw [hreply]
      exact hchange.trans ⟨hchange.at_index, (Change.refl hchange.at_index).table, rfl, rfl⟩
  · obtain ⟨reply, hno, hreply⟩ := etharpReply_spec s netif hdr
    refine ⟨s.etharpReply netif hdr, reply, ?_, hno, .inr ⟨habsent, hreply⟩⟩
    rw [Etharp.etharpArpInput, hvalid, hrun]
    rfl

theorem etharpArpInput_other (hdr : EtharpHdr) (s : Etharp β)
    (hother : ¬ (hdr.valid = true ∧ isunicast hdr.sipaddr netif = true)) :
    ∃ reply, s.etharpArpInput netif hdr = some { s with sent := s.sent ++ reply } ∧ NoPacket reply := by
  by_cases hvalid : hdr.valid = true
  · obtain ⟨reply, hno, hreply⟩ := etharpReply_spec s netif hdr
    have hunicast : isunicast hdr.sipaddr netif = false := Bool.eq_false_iff.mpr fun h => hother ⟨hvalid, h⟩
    refine ⟨reply, ?_, hno⟩
    rw [← hreply, Etharp.etharpArpInput, hvalid, Etharp.etharpUpdateArpEntry, hunicast]
    rfl
  · refine ⟨[], ?_, noPacket_nil⟩
    rw [List.append_nil, Etharp.etharpArpInput, Bool.eq_false_iff.mpr hvalid]
    rfl

/-! ## Packets -/

theorem used_of_stable (h : e.state.isStable = true) : e.Used := by
  intro hempty
  rw [hempty] at h
  cases h

/-- Packets go where they are to go, and to a next hop only by its entry, which is stable. -/
def Goes (aims : Option IpAddr → EthAddr → β → Prop) (e : EtharpEntry β) (frames : List (Frame β)) : Prop :=
  ∀ hop dest src p, .ip hop dest src p ∈ frames →
    aims hop dest p ∧ ∀ ipaddr ∈ hop, e.state.isStable = true ∧ ipaddr = e.ipaddr ∧ dest = e.ethaddr

theorem NoPacket.goes (h : NoPacket frames) : Goes aims e frames := fun _ _ _ _ hp => absurd hp (h _ _ _ _)

theorem Goes.append {frames' : List (Frame β)} (h : Goes aims e frames) (h' : Goes aims e frames') :
    Goes aims e (frames ++ frames') := by
  intro hop dest src p hp
  rcases List.mem_append.mp hp with hp | hp
  · exact h hop dest src p hp
  · exact h' hop dest src p hp

/-- The packet that a next hop was looked up for. -/
def ForHop (ipaddr : IpAddr) (q : Option β) (hop : Option IpAddr) (_ : EthAddr) (p : β) : Prop :=
  hop = some ipaddr ∧ q = some p

theorem goes_hop (src : EthAddr) (q : β) (h : e.Serves ipaddr) :
    Goes (ForHop ipaddr (some q)) e [.ip (some ipaddr) e.ethaddr src q] := by
  intro hop dest src' p hp
  cases List.mem_singleton.mp hp
  refine ⟨⟨rfl, rfl⟩, fun hop hhop => ?_⟩
  obtain rfl := Option.some.inj hhop
  exact ⟨h.1, h.2, rfl⟩

/-- A call that learns nothing: an entry that is stable then has been so before, and one that is pending is so for
longer or for an address that there was no entry for. -/
structure Asked (aims : Option IpAddr → EthAddr → β → Prop) (s s' : Etharp β) (i : ℕ) (e e' : EtharpEntry β)
    (frames : List (Frame β)) : Prop where
  change : Change s s' i e e' frames
  others : e'.Used → Others EtharpEntry.Used EtharpEntry.ipaddr s.table i e'.ipaddr
  fine : e'.Fine
  stable : e'.state.isStable = true →
    e.state.isStable = true ∧ e'.ipaddr = e.ipaddr ∧ e'.ethaddr = e.ethaddr ∧ e'.ctime = e.ctime
  pending : e'.state = .pending →
    e.state = .pending ∧ e'.ipaddr = e.ipaddr ∧ e'.ctime = e.ctime ∨ ∀ x ∈ s.table, x.Used → x.ipaddr ≠ e'.ipaddr
  goes : Goes aims e frames

theorem Asked.same (h : s.Ok) (hchange : Change s s' i e e frames) (hgoes : Goes aims e frames) :
    Asked aims s s' i e e frames :=
  ⟨hchange, fun hused => h.apart.others hchange.found hused, h.fine e (List.mem_of_getElem? hchange.found),
    fun hstable => ⟨hstable, rfl, rfl, rfl⟩, fun hpending => .inl ⟨hpending, rfl, rfl⟩, hgoes⟩

theorem Asked.idle (h : s.Ok) (hchange : Change s s' i e e []) : Asked aims s s' i e e [] :=
  .same h hchange noPacket_nil.goes

theorem asked_idle (s' : Etharp β) (frames : List (Frame β)) (h : s.Ok) (htable : s'.table = s.table)
    (hsent : s'.sent = s.sent ++ frames) (hpackets : s'.queued = s.queued ∧ s'.done = s.done ∧ s'.dropped = s.dropped)
    (hgoes : ∀ e, Goes aims e frames) : ∃ i e e', Asked aims s s' i e e' frames := by
  have hlt : 0 < s.table.length := by rw [h.length]; exact Nat.zero_lt_succ _
  have hi : s.table[0]? = some s.table[0] := List.getElem?_eq_getElem hlt
  obtain ⟨hqueued, hdone, hdropped⟩ := hpackets
  refine ⟨0, _, _, Asked.same h ⟨hi, ?_, hsent, ?_⟩ (hgoes _)⟩
  · rw [htable, List.set_getElem_self]
  · rw [hqueued, hdone, hdropped]

theorem Asked.sends {frames' : List (Frame β)} (h : Asked aims s s' i e e' frames) (hgoes : Goes aims e frames') :
    Asked aims s { s' with sent := s'.sent ++ frames' } i e e' (frames ++ frames') := by
  have hchange : Change s { s' with sent := s'.sent ++ frames' } i e e' (frames ++ frames') :=
    h.change.trans ⟨h.change.at_index, (Change.refl h.change.at_index).table, rfl, rfl⟩
  exact ⟨hchange, h.others, h.fine, h.stable, h.pending, h.goes.append hgoes⟩

theorem Asked.mono {aims' : Option IpAddr → EthAddr → β → Prop} (h : Asked aims s s' i e e' frames)
    (hle : ∀ hop dest p, aims hop dest p → aims' hop dest p) : Asked aims' s s' i e e' frames :=
  ⟨h.change, h.others, h.fine, h.stable, h.pending, fun hop dest src p hp =>
    ⟨hle hop dest p (h.goes hop dest src p hp).1, (h.goes hop dest src p hp).2⟩⟩

theorem etharpRequest_spec (s : Etharp β) (netif : Netif) (ipaddr : IpAddr) (out : Outside) :
    ∃ frames err, NoPacket frames ∧ (out.request.isSome = true → requestFor netif ipaddr ∈ frames) ∧
      s.etharpRequest netif ipaddr out = ({ s with sent := s.sent ++ frames }, err) := by
  rw [Etharp.etharpRequest]
  cases out.request with
  | none =>
    refine ⟨[], .mem, noPacket_nil, fun hsome => (by cases hsome), ?_⟩
    rw [List.append_nil]
  | some err => exact ⟨_, err, noPacket_arp _ _ _, fun _ => List.mem_singleton_self _, rfl⟩

theorem rerequesting_asked (h : s.Ok) (hi : s.table[i]? = some e) (hstable : e.state.isStable = true) :
    Asked aims s (s.set i { e with state := .stableRerequesting }) i e { e with state := .stableRerequesting } [] := by
  have hfine := h.fine e (List.mem_of_getElem? hi)
  have hothers := h.apart.others hi (used_of_stable hstable)
  exact ⟨⟨hi, rfl, (List.append_nil _).symm, rfl⟩, fun _ => hothers,
    ⟨fun hno => absurd (used_of_stable rfl) hno, fun hp => (by cases hp), fun _ => hfine.stable hstable, hfine.ctime⟩,
    fun _ => ⟨hstable, rfl, rfl, rfl⟩, fun hp => (by cases hp), noPacket_nil.goes⟩

theorem etharpOutputToArpIndex_spec (netif : Netif) (q : β) (out : Outside) (h : s.Ok) (hi : s.table[i]? = some e)
    (hserves : e.Serves ipaddr) : ∃ s' e' frames r, Asked (ForHop ipaddr (some q)) s s' i e e' frames ∧
      .ip (some ipaddr) e.ethaddr netif.hwaddr q ∈ frames ∧
      s.etharpOutputToArpIndex ipaddr netif q i out = some (s', r) := by
  obtain ⟨frames, err, hno, -, hrequest⟩ := etharpRequest_spec s netif e.ipaddr out
  have hstable := hserves.1
  have hgoes := goes_hop netif.hwaddr q hserves
  have hlast : ∀ frames, Frame.ip (some ipaddr) e.ethaddr netif.hwaddr q ∈
      frames ++ [.ip (some ipaddr) e.ethaddr netif.hwaddr q] := fun frames =>
    List.mem_append_right _ (List.mem_singleton_self _)
  have hsame : Asked (ForHop ipaddr (some q)) s s i e e [] := .idle h (.refl hi)
  by_cases hold : e.state = .stable ∧ arpAgeRerequestUsed ≤ e.ctime
  · by_cases herr : err = .ok
    · have hasked : Asked (ForHop ipaddr (some q)) s _ i e _ _ := (rerequesting_asked h hi hstable).sends hno.goes
      refine ⟨_, _, _, out.linkoutput, hasked.sends hgoes, hlast _, ?_⟩
      simp only [Etharp.etharpOutputToArpIndex, hi, hstable, if_pos hold, hrequest, if_pos herr]
      rfl
    · have hasked := hsame.sends hno.goes
      refine ⟨_, _, _, out.linkoutput, hasked.sends hgoes, hlast _, ?_⟩
      simp only [Etharp.etharpOutputToArpIndex, hi, hstable, if_pos hold, hrequest, if_neg herr]
      rfl
  · refine ⟨_, _, _, out.linkoutput, hsame.sends hgoes, hlast _, ?_⟩
    simp only [Etharp.etharpOutputToArpIndex, hi, hstable, if_neg hold]
    rfl

theorem etharpOutput_hit (netif : Netif) (q : β) (out : Outside) (h : s.Ok) (hi : s.table[i]? = some e)
    (hserves : e.Serves ipaddr) : ∃ s' e' frames r, Asked (ForHop ipaddr (some q)) s s' i e e' frames ∧
      .ip (some ipaddr) e.ethaddr netif.hwaddr q ∈ frames ∧
      { s with cachedEntry := i }.etharpOutputToArpIndex ipaddr netif q i out = some (s', r) := by
  obtain ⟨s', e', frames, r, hasked, hmem, hrun⟩ :=
    etharpOutputToArpIndex_spec (s := { s with cachedEntry := i }) netif q out ⟨h.length, h.fine, h.apart⟩ hi hserves
  obtain ⟨⟨hfound, htable, hsent, hbalance⟩, hothers, hfine, hstable, hpending, hgoes⟩ := hasked
  exact ⟨s', e', frames, r, ⟨⟨hfound, htable, hsent, hbalance⟩, hothers, hfine, hstable, hpending, hgoes⟩, hmem, hrun⟩

/-- The entry that `etharp_query` goes on with, which is pending if it has been made. -/
theorem Entered.asked {e₁ : EtharpEntry β} (h : Entered s s' ipaddr i e e₁) (hs : s.Ok) :
    ∃ e₂ : EtharpEntry β, e₂ = (if e₁.state = .empty then { e₁ with state := .pending } else e₁) ∧ e₂.Used ∧
      e₂.ipaddr = ipaddr ∧ (¬ e₂.state.isStable = true → ∀ x ∈ s.table, ¬ x.Serves ipaddr) ∧
      Asked aims s (s'.set i e₂) i e e₂ [] := by
  have hothers := h.others hs
  refine ⟨_, rfl, ?_⟩
  rcases h.kind with ⟨rfl, hused⟩ | ⟨rfl, habsent, -⟩
  · rw [if_neg hused]
    have hchange : Change s (s'.set i e₁) i e₁ e₁ [] :=
      h.change.trans ⟨h.change.at_index, rfl, (List.append_nil _).symm, rfl⟩
    refine ⟨hused, h.address, fun hunstable x hx hserves => ?_, .idle hs hchange⟩
    -- the entry that matches is the only one for the address
    obtain ⟨j, hj⟩ := List.mem_iff_getElem?.mp hx
    have hji : j = i := not_not.mp fun hne => hothers j x hj hne (used_of_stable hserves.1) hserves.2.symm
    obtain rfl : x = e₁ := Option.some.inj (hj.symm.trans (hji ▸ h.change.found))
    exact hunstable hserves.1
  · rw [if_pos (show (EtharpEntry.fresh ipaddr : EtharpEntry β).state = .empty from rfl)]
    have hchange : Change s (s'.set i { EtharpEntry.fresh ipaddr with state := .pending }) i e
        { EtharpEntry.fresh ipaddr with state := .pending } [] :=
      h.change.trans ⟨h.change.at_index, rfl, (List.append_nil _).symm, rfl⟩
    refine ⟨fun hempty => (by cases hempty), rfl,
      fun _ x hx hserves => habsent x hx (used_of_stable hserves.1) hserves.2.symm, hchange,
      fun _ => hothers, ⟨fun hno => absurd (fun hempty => (by cases hempty)) hno, fun _ => ⟨rfl, Nat.zero_lt_succ _⟩,
        fun hst => (by cases hst), Nat.zero_lt_succ _⟩, fun hst => (by cases hst), fun _ => .inr habsent,
      noPacket_nil.goes⟩

theorem queryEntry_request (s : Etharp β) (netif : Netif) (ipaddr : IpAddr) (e : EtharpEntry β) (q : Option β)
    (out : Outside) : ∃ frames r, NoPacket frames ∧
      (e.state = .pending → out.request.isSome = true → requestFor netif ipaddr ∈ frames) ∧
      (if e.state = .pending ∨ q.isNone then s.etharpRequest netif ipaddr out else (s, .mem)) =
        ({ s with sent := s.sent ++ frames }, r) := by
  split_ifs with hask
  · obtain ⟨frames, r, hno, hmem, hrequest⟩ := etharpRequest_spec s netif ipaddr out
    exact ⟨frames, r, hno, fun _ => hmem, hrequest⟩
  · refine ⟨[], .mem, noPacket_nil, fun hp => absurd (.inl hp) hask, ?_⟩
    rw [List.append_nil]

section Packet

variable [Packet β]

theorem queuePacket_spec {needed : Option ℕ} (q : β) (out : Outside) (hi : s.table[i]? = some e) (hfine : e.Fine)
    (hused : e.Used) (hunstable : ¬ e.state.isStable = true) (hneeded : copyNeeded (pbufs q) = some needed) :
    ∃ s' r e', s.queuePacket e.ipaddr i e q out = some (s', r) ∧ Change s s' i e e' [] ∧
      e'.Fine ∧ e'.ipaddr = e.ipaddr ∧ e'.state = e.state ∧ e'.ctime = e.ctime ∧
      ((needed.all fun size => out.copy && pbufCopy size (pbufs q)) = true → e'.q = some q ∧ r = .ok) := by
  rw [Etharp.queuePacket, hneeded, Option.map_some]
  by_cases hcopy : (needed.all fun size => out.copy && pbufCopy size (pbufs q)) = true
  · refine ⟨{ s.set i { e with q := some q } with
      dropped := s.dropped ++ e.waiting
      queued := s.queued ++ [(q, e.ipaddr)] }, .ok, { e with q := some q }, ?_, ⟨hi, rfl, (List.append_nil _).symm, ?_⟩,
      ⟨fun hno => absurd hused hno, hfine.pending, fun hst => absurd hst hunstable, hfine.ctime⟩, rfl, rfl, rfl,
      fun _ => ⟨rfl, rfl⟩⟩
    · rw [if_pos hcopy]
    · show ((s.queued ++ [(q, e.ipaddr)] : List (β × IpAddr)) : Multiset (β × IpAddr)) + s.done + s.dropped +
          e.waiting = s.queued + s.done + ((s.dropped ++ e.waiting : List (β × IpAddr)) : Multiset (β × IpAddr)) +
          ([(q, e.ipaddr)] : List (β × IpAddr))
      rw [← Multiset.coe_add, ← Multiset.coe_add]
      abel
  · refine ⟨s, .mem, e, ?_, .refl hi, hfine, rfl, rfl, rfl, fun hyes => absurd hyes hcopy⟩
    rw [if_neg hcopy]

/-- The packet can be kept until there is an answer, in a copy if need be. -/
def Keeps (q : β) (out : Outside) : Prop :=
  ∃ needed, copyNeeded (pbufs q) = some needed ∧
    (needed.all fun size => out.copy && pbufCopy size (pbufs q)) = true

theorem Asked.queue {needed : Option ℕ} (q : β) (out : Outside) (h : Asked aims s s' i e e' frames) (hused : e'.Used)
    (hunstable : ¬ e'.state.isStable = true) (hneeded : copyNeeded (pbufs q) = some needed) :
    ∃ s'' r e'', s'.queuePacket e'.ipaddr i e' q out = some (s'', r) ∧ Asked aims s s'' i e e'' frames ∧
      e''.ipaddr = e'.ipaddr ∧ (Keeps q out → e''.q = some q ∧ r = .ok) := by
  obtain ⟨s'', r, e'', hqueue, hchange, hfine, hip, hstate, hctime, hcopy⟩ :=
    queuePacket_spec q out h.change.at_index h.fine hused hunstable hneeded
  refine ⟨s'', r, e'', hqueue, ⟨List.append_nil frames ▸ h.change.trans hchange, fun _ => hip ▸ h.others hused, hfine,
    fun hst => absurd (hstate ▸ hst) hunstable, fun hp => ?_, h.goes⟩, hip, fun ⟨needed', hneeded', hkeeps⟩ => ?_⟩
  · rw [hip, hctime]
    exact h.pending (hstate ▸ hp)
  · obtain rfl := Option.some.inj (hneeded.symm.trans hneeded')
    exact hcopy hkeeps

theorem etharpQuery_eq (q : Option β) (out : Outside) (h : s.Ok) (hunicast : isunicast ipaddr netif = true) :
    ∃ s₁ i e e₁, Asked (ForHop ipaddr q) s s₁ i e e₁ [] ∧ e₁.Used ∧ e₁.ipaddr = ipaddr ∧
      (¬ e₁.state.isStable = true → ∀ x ∈ s.table, ¬ x.Serves ipaddr) ∧
      s.etharpQuery netif ipaddr q out = s₁.queryEntry netif ipaddr i e₁ q out := by
  obtain ⟨s₁, i, e, e₁, henter, hfind⟩ | ⟨hflags, -⟩ := etharpFindEntry_spec ipaddr .tryHard h
  · obtain ⟨e₂, he₂, hused, hip, hnone, hentered⟩ := henter.asked h
    refine ⟨s₁.set i e₂, i, e, e₂, hentered, hused, hip, hnone, ?_⟩
    simp only [Etharp.etharpQuery, hunicast, hfind, Option.bind_some, henter.change.at_index, ← he₂]
    rfl
  · cases hflags

theorem queryEntry_sends (netif : Netif) (q : β) (out : Outside) (h : Asked (ForHop ipaddr (some q)) s s' i e e' [])
    (hip : e'.ipaddr = ipaddr) (hstable : e'.state.isStable = true) : ∃ s'' r frames,
      s'.queryEntry netif ipaddr i e' (some q) out = some (s'', r) ∧
      Asked (ForHop ipaddr (some q)) s s'' i e e' frames := by
  obtain ⟨frames, r, hno, -, hrequest⟩ := queryEntry_request s' netif ipaddr e' (some q) out
  obtain ⟨hst, hip', hethaddr, -⟩ := h.stable hstable
  have hgoes : Goes (ForHop ipaddr (some q)) e [.ip (some ipaddr) e'.ethaddr netif.hwaddr q] := by
    rw [hethaddr]
    exact goes_hop netif.hwaddr q ⟨hst, hip.symm.trans hip'⟩
  obtain ⟨⟨hfound, htable, hsent, hbalance⟩, hothers, hfine, hstable', hpending, hgoes'⟩ :=
    (h.sends hno.goes).sends hgoes
  refine ⟨{ s' with sent := s'.sent ++ frames, cachedEntry := i }.etharpSendIp (some ipaddr) q netif.hwaddr e'.ethaddr,
    out.linkoutput, _, ?_, ⟨hfound, htable, hsent, hbalance⟩, hothers, hfine, hstable', hpending, hgoes'⟩
  simp only [Etharp.queryEntry, hrequest, if_pos hstable]

theorem queryEntry_waits {needed : Option ℕ} (netif : Netif) (q : β) (out : Outside) (h : Asked aims s s' i e e' [])
    (hused : e'.Used) (hip : e'.ipaddr = ipaddr) (hunstable : ¬ e'.state.isStable = true)
    (hneeded : copyNeeded (pbufs q) = some needed) :
    ∃ s'' r e'' frames, s'.queryEntry netif ipaddr i e' (some q) out = some (s'', r) ∧
      Asked aims s s'' i e e'' frames ∧ (Keeps q out → e''.q = some q ∧ e''.ipaddr = ipaddr ∧ r = .ok) ∧
      (out.request.isSome = true → requestFor netif ipaddr ∈ frames) := by
  obtain ⟨frames, r, hno, hmem, hrequest⟩ := queryEntry_request s' netif ipaddr e' (some q) out
  obtain ⟨s'', r', e'', hqueue, hasked, hip', hkeeps⟩ :=
    (h.sends hno.goes).queue q out hused hunstable hneeded
  have hpending := (EtharpState.pending_or_stable hused).resolve_right hunstable
  refine ⟨s'', r', e'', _, ?_, hasked, fun hyes => ⟨(hkeeps hyes).1, hip'.trans hip, (hkeeps hyes).2⟩, hmem hpending⟩
  subst hip
  simp only [Etharp.queryEntry, hrequest, if_neg hunstable]
  exact hqueue

/-- The one assertion that can fail: there is no stable entry for the packet, and its chain goes on behind its last
byte. -/
def Etharp.Stops (s : Etharp β) (ipaddr : IpAddr) (q : β) : Prop :=
  (∀ x ∈ s.table, ¬ x.Serves ipaddr) ∧ copyNeeded (pbufs q) = none

/-- No other assertion fails, whether there is a packet or not. -/
theorem etharpQuery_spec (netif : Netif) (ipaddr : IpAddr) (q : Option β) (out : Outside) (h : s.Ok) :
    (∃ s' i e e' frames r, Asked (ForHop ipaddr q) s s' i e e' frames ∧
      s.etharpQuery netif ipaddr q out = some (s', r) ∧
      ∀ p ∈ q, isunicast ipaddr netif = true → ¬ s.Stops ipaddr p) ∨
    s.etharpQuery netif ipaddr q out = none ∧ isunicast ipaddr netif = true ∧ ∃ p ∈ q, s.Stops ipaddr p := by
  by_cases hunicast : isunicast ipaddr netif = true
  · cases q with
    | none =>
      obtain ⟨s₁, i, e, e₁, hasked, -, -, -, hrun⟩ := etharpQuery_eq (none : Option β) out h hunicast
      obtain ⟨frames, r, hno, -, hrequest⟩ := queryEntry_request s₁ netif ipaddr e₁ none out
      refine .inl ⟨_, i, e, e₁, _, r, hasked.sends hno.goes, ?_, fun p hp => absurd hp (Option.not_mem_none p)⟩
      rw [hrun]
      simp only [Etharp.queryEntry, hrequest]
    | some q =>
      obtain ⟨s₁, i, e, e₁, hasked, hused, hip, hnone, hrun⟩ := etharpQuery_eq (some q) out h hunicast
      rw [hrun]
      by_cases hstable : e₁.state.isStable = true
      · obtain ⟨s', r, frames, hrun, hsends⟩ := queryEntry_sends netif q out hasked hip hstable
        refine .inl ⟨s', i, e, e₁, frames, r, hsends, hrun, fun p _ _ hstops => ?_⟩
        obtain ⟨hst, hip', -⟩ := hasked.stable hstable
        exact hstops.1 e (List.mem_of_getElem? hasked.change.found) ⟨hst, hip.symm.trans hip'⟩
      · cases hneeded : copyNeeded (pbufs q) with
        | some needed =>
          obtain ⟨s', r, e', frames, hrun, hwaits, -⟩ := queryEntry_waits netif q out hasked hused hip hstable hneeded
          refine .inl ⟨s', i, e, e', frames, r, hwaits, hrun, fun p hp _ hstops => ?_⟩
          obtain rfl := Option.some.inj hp
          exact absurd (hneeded.symm.trans hstops.2) (by simp)
        | none =>
          refine .inr ⟨?_, hunicast, q, rfl, hnone hstable, hneeded⟩
          obtain ⟨frames, r, -, -, hrequest⟩ := queryEntry_request s₁ netif ipaddr e₁ (some q) out
          simp only [Etharp.queryEntry, hrequest, if_neg hstable, Etharp.queuePacket, hneeded, Option.map_none]
  · obtain ⟨i, e, e', hidle⟩ := asked_idle s [] h rfl (List.append_nil _).symm ⟨rfl, rfl, rfl⟩ fun _ => noPacket_nil.goes
    refine .inl ⟨s, i, e, e', [], .arg, hidle, ?_, fun _ _ hyes => absurd hyes hunicast⟩
    simp only [Etharp.etharpQuery, hunicast]
    rfl

/-- The packets for this address go to the next hop. -/
structure HopOf (netif : Netif) (ipaddr hop : IpAddr) : Prop where
  broadcast : isbroadcast ipaddr netif = false
  multicast : ismulticast ipaddr = false
  next : nextHop netif ipaddr = some hop

/-- A packet for a next hop: either there is a stable entry for that, or it is queried. -/
theorem etharpOutput_hop {hop : IpAddr} {room : Bool} (q : β) (out : Outside) (h : s.Ok)
    (hroom : pbufHeader room (pbufs q) = true) (hhop : HopOf netif ipaddr hop) :
    (∃ s' i e e' frames r, Asked (ForHop hop (some q)) s s' i e e' frames ∧ e.Serves hop ∧
      .ip (some hop) e.ethaddr netif.hwaddr q ∈ frames ∧
      s.etharpOutput netif q ipaddr room out = some (s', r)) ∨
    (∀ x ∈ s.table, ¬ x.Serves hop) ∧
      s.etharpOutput netif q ipaddr room out = s.etharpQuery netif hop (some q) out := by
  simp only [Etharp.etharpOutput, hroom, hhop.broadcast, hhop.multicast, hhop.next, Bool.not_true, Bool.false_eq_true,
    if_false]
  by_cases hcached : ((s.table[s.cachedEntry]?).any fun e => e.Serves hop) = true
  · left
    rw [if_pos hcached]
    cases hi : s.table[s.cachedEntry]? with
    | none =>
      rw [hi] at hcached
      cases hcached
    | some e =>
      rw [hi] at hcached
      have hserves : e.Serves hop := of_decide_eq_true hcached
      obtain ⟨s', e', frames, r, hasked, hmem, hrun⟩ := etharpOutput_hit netif q out h hi hserves
      exact ⟨s', _, e, e', frames, r, hasked, hserves, hmem, hrun⟩
  · rw [if_neg hcached]
    cases hfind : s.table.findIdx? fun e => e.Serves hop with
    | some i =>
      left
      obtain ⟨hlt, hserves, -⟩ := List.findIdx?_eq_some_iff_getElem.mp hfind
      have hserves' : s.table[i].Serves hop := of_decide_eq_true hserves
      obtain ⟨s', e', frames, r, hasked, hmem, hrun⟩ :=
        etharpOutput_hit netif q out h (List.getElem?_eq_getElem hlt) hserves'
      exact ⟨s', i, _, e', frames, r, hasked, hserves', hmem, hrun⟩
    | none =>
      right
      refine ⟨fun x hx hserves => ?_, rfl⟩
      have hno := List.findIdx?_eq_none_iff.mp hfind x hx
      exact absurd hserves (of_decide_eq_false hno)

/-- Where a packet goes that is given to `etharp_output`: to the next hop, or to all or some of the hosts at once. -/
def OutputAims (netif : Netif) (q : β) (ipaddr : IpAddr) : Option IpAddr → EthAddr → β → Prop
  | some hop, _, p => HopOf netif ipaddr hop ∧ p = q
  | none, dest, p => p = q ∧
    (isbroadcast ipaddr netif = true ∧ dest = ethbroadcast ∨ ismulticast ipaddr = true ∧ dest = mcastaddr ipaddr)

theorem etharpOutput_spec (netif : Netif) (q : β) (ipaddr : IpAddr) (room : Bool) (out : Outside) (h : s.Ok) :
    (∃ s' i e e' frames r, Asked (OutputAims netif q ipaddr) s s' i e e' frames ∧
      s.etharpOutput netif q ipaddr room out = some (s', r) ∧
      (pbufHeader room (pbufs q) = true → ∀ hop, HopOf netif ipaddr hop → isunicast hop netif = true →
        ¬ s.Stops hop q)) ∨
    s.etharpOutput netif q ipaddr room out = none ∧ pbufHeader room (pbufs q) = true ∧
      ∃ hop, HopOf netif ipaddr hop ∧ isunicast hop netif = true ∧ s.Stops hop q := by
  have hidle : ∃ i e e', Asked (OutputAims netif q ipaddr) s s i e e' [] :=
    asked_idle s [] h rfl (List.append_nil _).symm ⟨rfl, rfl, rfl⟩ fun _ => noPacket_nil.goes
  have hmany : ∀ dest, (isbroadcast ipaddr netif = true ∧ dest = ethbroadcast ∨
      ismulticast ipaddr = true ∧ dest = mcastaddr ipaddr) →
      ∃ i e e', Asked (OutputAims netif q ipaddr) s (s.etharpSendIp none q netif.hwaddr dest) i e e'
        [.ip none dest netif.hwaddr q] := by
    intro dest hdest
    refine asked_idle (s.etharpSendIp none q netif.hwaddr dest) _ h rfl rfl ⟨rfl, rfl, rfl⟩ fun e hop dest' src p hp => ?_
    cases List.mem_singleton.mp hp
    exact ⟨⟨rfl, hdest⟩, fun _ hnone => absurd hnone (Option.not_mem_none _)⟩
  by_cases hroom : pbufHeader room (pbufs q) = true
  · by_cases hbroadcast : isbroadcast ipaddr netif = true
    · obtain ⟨i, e, e', hasked⟩ := hmany ethbroadcast (.inl ⟨hbroadcast, rfl⟩)
      refine .inl ⟨_, i, e, e', _, out.linkoutput, hasked, ?_, fun _ hop hhop => ?_⟩
      · simp only [Etharp.etharpOutput, hroom, hbroadcast, Bool.not_true, Bool.false_eq_true, if_false, if_true]
      · exact absurd (hbroadcast.symm.trans hhop.broadcast) (by decide)
    · have hbroadcast := Bool.eq_false_iff.mpr hbroadcast
      by_cases hmulticast : ismulticast ipaddr = true
      · obtain ⟨i, e, e', hasked⟩ := hmany (mcastaddr ipaddr) (.inr ⟨hmulticast, rfl⟩)
        refine .inl ⟨_, i, e, e', _, out.linkoutput, hasked, ?_, fun _ hop hhop => ?_⟩
        · simp only [Etharp.etharpOutput, hroom, hbroadcast, hmulticast, Bool.not_true, Bool.false_eq_true, if_false,
            if_true]
        · exact absurd (hmulticast.symm.trans hhop.multicast) (by decide)
      · have hmulticast := Bool.eq_false_iff.mpr hmulticast
        cases hnext : nextHop netif ipaddr with
        | none =>
          obtain ⟨i, e, e', hasked⟩ := hidle
          refine .inl ⟨s, i, e, e', [], .rte, hasked, ?_, fun _ hop hhop => ?_⟩
          · simp only [Etharp.etharpOutput, hroom, hbroadcast, hmulticast, hnext, Bool.not_true, Bool.false_eq_true,
              if_false]
          · exact absurd (hnext.symm.trans hhop.next) (by simp)
        | some hop =>
          have hhop : HopOf netif ipaddr hop := ⟨hbroadcast, hmulticast, hnext⟩
          have haims : ∀ hop' dest p, ForHop hop (some q) hop' dest p → OutputAims netif q ipaddr hop' dest p := by
            rintro hop' dest p ⟨rfl, hq⟩
            exact ⟨hhop, (Option.some.inj hq).symm⟩
          have honly : ∀ hop', HopOf netif ipaddr hop' → hop' = hop := fun hop' hhop' =>
            Option.some.inj (hhop'.next.symm.trans hnext)
          rcases etharpOutput_hop q out h hroom hhop with
            ⟨s', i, e, e', frames, r, hasked, hserves, -, hrun⟩ | ⟨-, hrun⟩
          · refine .inl ⟨s', i, e, e', frames, r, hasked.mono haims, hrun, fun _ hop' hhop' _ hstops => ?_⟩
            obtain rfl := honly hop' hhop'
            exact hstops.1 e (List.mem_of_getElem? hasked.change.found) hserves
          · rw [hrun]
            rcases etharpQuery_spec netif hop (some q) out h with
              ⟨s', i, e, e', frames, r, hasked, hquery, hno⟩ | ⟨hquery, hunicast, p, hp, hstops⟩
            · refine .inl ⟨s', i, e, e', frames, r, hasked.mono haims, hquery, fun _ hop' hhop' hunicast => ?_⟩
              obtain rfl := honly hop' hhop'
              exact hno q rfl hunicast
            · obtain rfl := Option.some.inj hp
              exact .inr ⟨hquery, hroom, hop, hhop, hunicast, hstops⟩
  · obtain ⟨i, e, e', hasked⟩ := hidle
    refine .inl ⟨s, i, e, e', [], .buf, hasked, ?_, fun hyes => absurd hyes hroom⟩
    simp only [Etharp.etharpOutput, Bool.eq_false_iff.mpr hroom, Bool.not_false, if_true]

theorem etharpQuery_waits {hop : IpAddr} (q : β) (h : s.Ok) (hunicast : isunicast hop netif = true)
    (hno : ∀ x ∈ s.table, ¬ x.Serves hop) (hkeeps : Keeps q out) (hrequest : out.request.isSome = true) :
    ∃ s' i e e' frames, Asked (ForHop hop (some q)) s s' i e e' frames ∧ e'.q = some q ∧ e'.ipaddr = hop ∧
      requestFor netif hop ∈ frames ∧ s.etharpQuery netif hop (some q) out = some (s', .ok) := by
  obtain ⟨s₁, i, e, e₁, hasked, hused, hip, -, hrun⟩ := etharpQuery_eq (some q) out h hunicast
  have hunstable : ¬ e₁.state.isStable = true := fun hstable => by
    obtain ⟨hst, hip', -, -⟩ := hasked.stable hstable
    exact hno e (List.mem_of_getElem? hasked.change.found) ⟨hst, hip.symm.trans hip'⟩
  obtain ⟨needed, hneeded, -⟩ := id hkeeps
  obtain ⟨s', r, e', frames, hrun', hwaits, hkept, hmem⟩ :=
    queryEntry_waits netif q out hasked hused hip hunstable hneeded
  obtain ⟨hq, hip', rfl⟩ := hkept hkeeps
  exact ⟨s', i, e, e', frames, hwaits, hq, hip', hmem hrequest, hrun.trans hrun'⟩

/-! ### Chains of one packet -/

/-- Each pbuf counts the bytes from it on, and there are some behind each but the last. -/
def Whole : List Pbuf → Prop
  | [] => False
  | [p] => p.len = p.totLen
  | p :: r :: chain => p.totLen = p.len + r.totLen ∧ 0 < r.totLen ∧ Whole (r :: chain)

theorem Whole.ends {p : Pbuf} {chain : List Pbuf} (h : Whole (p :: chain)) (heq : p.len = p.totLen) : chain = [] := by
  cases chain with
  | nil => rfl
  | cons r chain =>
    obtain ⟨htot, hpos, -⟩ := h
    omega

theorem Whole.copied {size offset : ℕ} {p : Pbuf} {chain : List Pbuf} (h : Whole (p :: chain))
    (hsize : offset + p.totLen = size) : copyLoop size offset (p :: chain) = true := by
  induction chain generalizing p offset with
  | nil =>
    have hlen : p.len = p.totLen := h
    rw [copyLoop, if_neg (by simp; omega), if_neg (by simp), copyLoop]
  | cons r chain ih =>
    obtain ⟨htot, hpos, hrest⟩ := h
    have hroom : ¬ (size < offset + p.len ∨ offset + p.len = size ∧ r :: chain ≠ []) := by omega
    have hone : ¬ (((r :: chain).head?.any fun r => r.len = r.totLen) = true ∧ (r :: chain).tail ≠ []) := by
      rintro ⟨heq, hne⟩
      exact hne (hrest.ends (of_decide_eq_true heq))
    rw [copyLoop, if_neg hroom, if_neg hone]
    exact ih hrest (by omega)

/-- A packet that `etharp_output` has room for can be kept if there is a pbuf for the copy. -/
theorem Whole.keeps {room : Bool} {q : β} (h : Whole (pbufs q)) (hroom : pbufHeader room (pbufs q) = true)
    (hcopy : out.copy = true) : Keeps q out := by
  cases hchain : pbufs q with
  | nil =>
    rw [hchain] at h
    exact absurd h id
  | cons p chain =>
    rw [hchain] at h hroom
    have htype : p.type ≠ .rom := by
      rintro hrom
      simp [pbufHeader, hrom] at hroom
    have hone : ¬ (p.len = p.totLen ∧ chain ≠ []) := fun hboth => hboth.2 (h.ends hboth.1)
    refine ⟨some p.totLen, ?_, ?_⟩
    · rw [hchain, copyNeeded, if_neg hone, if_neg htype]
    · simp [hchain, hcopy, pbufCopy, h.copied (Nat.zero_add _)]

end Packet

/-! ## Time -/

/-- What a tick does to an entry. -/
def EtharpEntry.tick (e : EtharpEntry β) : EtharpEntry β :=
  if e.state = .empty then e
  else if arpMaxage ≤ (e.ctime + 1) % 256 ∨ e.state = .pending ∧ arpMaxpending ≤ (e.ctime + 1) % 256 then .free
  else if e.state = .stableRerequesting then { e with state := .stable, ctime := (e.ctime + 1) % 256 }
  else { e with ctime := (e.ctime + 1) % 256 }

/-- What becomes of an entry when its interface goes down. -/
def EtharpEntry.cleanup (netif : Netif) (e : EtharpEntry β) : EtharpEntry β :=
  if e.state ≠ .empty ∧ e.netif = some netif.num then .free else e

theorem tmrEntry_change (hi : s.table[i]? = some e) : Change s (s.tmrEntry i) i e e.tick [] := by
  have hset : ∀ e' : EtharpEntry β, e'.waiting = e.waiting → Change s (s.set i e') i e e' [] := fun e' hwaiting =>
    ⟨hi, rfl, (List.append_nil _).symm, by rw [hwaiting]; rfl⟩
  simp only [Etharp.tmrEntry, hi, EtharpEntry.tick]
  split_ifs
  · exact .refl hi
  · have hold := hset { e with ctime := (e.ctime + 1) % 256 } rfl
    exact hold.trans (etharpFreeEntry_change hold.at_index)
  · exact hset _ rfl
  · exact hset _ rfl

theorem sweep_spec {g : Etharp β → ℕ → Etharp β} {f : EtharpEntry β → EtharpEntry β}
    (hg : ∀ s i e, s.table[i]? = some e → Change s (g s i) i e (f e) []) (s : Etharp β) {n : ℕ}
    (hn : n ≤ s.table.length) :
    (∀ j, ((List.range n).foldl g s).table[j]? = if j < n then s.table[j]?.map f else s.table[j]?) ∧
      ((List.range n).foldl g s).sent = s.sent ∧ (s.Balanced → ((List.range n).foldl g s).Balanced) := by
  induction n with
  | zero => exact ⟨fun j => rfl, rfl, id⟩
  | succ n ih =>
    obtain ⟨htable, hsent, hbalanced⟩ := ih (Nat.le_of_succ_le hn)
    have hi : ((List.range n).foldl g s).table[n]? = some s.table[n] := by
      rw [htable, if_neg (Nat.lt_irrefl n), List.getElem?_eq_getElem hn]
    have hchange := hg _ n _ hi
    rw [List.range_succ, List.foldl_append, List.foldl_cons, List.foldl_nil]
    refine ⟨fun j => ?_, ?_, fun h => hchange.balanced (hbalanced h)⟩
    · rw [hchange.table, List.getElem?_set]
      by_cases hj : n = j
      · subst hj
        have hlt := (List.getElem?_eq_some_iff.mp hi).1
        rw [if_pos rfl, if_pos hlt, if_pos (Nat.lt_succ_self n), List.getElem?_eq_getElem hn]
        rfl
      · have hiff : j < n + 1 ↔ j < n := by omega
        rw [if_neg hj, htable]
        simp only [hiff]
    · rw [hchange.sent, List.append_nil, hsent]

theorem sweep_table {g : Etharp β → ℕ → Etharp β} {f : EtharpEntry β → EtharpEntry β}
    (hg : ∀ s i e, s.table[i]? = some e → Change s (g s i) i e (f e) []) (h : s.Ok) :
    ((List.range arpTableSize).foldl g s).table = s.table.map f := by
  obtain ⟨htable, -⟩ := sweep_spec hg s (Nat.le_of_eq h.length.symm)
  refine List.ext_getElem? fun j => ?_
  rw [htable, List.getElem?_map]
  split_ifs with hj
  · rfl
  · rw [← h.length] at hj
    rw [List.getElem?_eq_none (Nat.le_of_not_lt hj)]
    rfl

theorem fine_tick (h : e.Fine) : e.tick.Fine := by
  unfold EtharpEntry.tick
  split_ifs with hempty hold hstable
  · exact h
  · exact fine_free
  · refine ⟨fun hno => absurd (used_of_stable rfl) hno, fun hp => (by cases hp), fun _ => ?_, ?_⟩
    · exact h.stable (by rw [hstable]; rfl)
    · exact Nat.lt_of_not_le fun hle => hold (.inl hle)
  · refine ⟨fun hno => absurd hempty hno, fun hp => ⟨(h.pending hp).1, ?_⟩, h.stable, ?_⟩
    · exact Nat.lt_of_not_le fun hle => hold (.inr ⟨hp, hle⟩)
    · exact Nat.lt_of_not_le fun hle => hold (.inl hle)

theorem used_tick (h : e.tick.Used) : e.Used ∧ e.tick.ipaddr = e.ipaddr := by
  unfold EtharpEntry.tick at h ⊢
  split_ifs at h ⊢ with hempty hold hstable
  · exact ⟨h, rfl⟩
  · exact absurd h not_used_free
  · exact ⟨hempty, rfl⟩
  · exact ⟨hempty, rfl⟩

theorem pending_tick (hfine : e.Fine) (h : e.tick.state = .pending) :
    e.state = .pending ∧ e.tick.ipaddr = e.ipaddr ∧ e.tick.ctime = e.ctime + 1 := by
  have hctime := hfine.ctime
  have hmod : (e.ctime + 1) % 256 = e.ctime + 1 := by
    unfold arpMaxage at hctime
    omega
  unfold EtharpEntry.tick at h ⊢
  split_ifs at h ⊢ with hempty hold hstable
  · rw [hempty] at h
    cases h
  · cases h
  · exact ⟨h, rfl, hmod⟩

theorem stable_tick (hfine : e.Fine) (h : e.tick.state.isStable = true) : e.state.isStable = true ∧
    e.tick.ipaddr = e.ipaddr ∧ e.tick.ethaddr = e.ethaddr ∧ e.tick.ctime = e.ctime + 1 := by
  have hctime := hfine.ctime
  have hmod : (e.ctime + 1) % 256 = e.ctime + 1 := by
    unfold arpMaxage at hctime
    omega
  unfold EtharpEntry.tick at h ⊢
  split_ifs at h ⊢ with hempty hold hstable
  · rw [hempty] at h
    cases h
  · cases h
  · rw [hstable]
    exact ⟨rfl, rfl, rfl, hmod⟩
  · exact ⟨h, rfl, rfl, hmod⟩

theorem cleanupEntry_change (hi : s.table[i]? = some e) :
    Change s (s.cleanupEntry netif i) i e (e.cleanup netif) [] := by
  simp only [Etharp.cleanupEntry, hi, EtharpEntry.cleanup]
  split_ifs
  · exact etharpFreeEntry_change hi
  · exact .refl hi

theorem cleanup_cases (netif : Netif) (e : EtharpEntry β) : e.cleanup netif = .free ∨ e.cleanup netif = e := by
  unfold EtharpEntry.cleanup
  split_ifs
  · exact .inl rfl
  · exact .inr rfl

theorem etharpTmr_spec (h : s.Ok) : s.etharpTmr.table = s.table.map EtharpEntry.tick ∧
    s.etharpTmr.sent = s.sent ++ [] ∧ (s.Balanced → s.etharpTmr.Balanced) := by
  have hchange : ∀ (s : Etharp β) i e, s.table[i]? = some e → Change s (s.tmrEntry i) i e e.tick [] :=
    fun s i e hi => tmrEntry_change hi
  obtain ⟨-, hsent, hbalanced⟩ := sweep_spec hchange s (Nat.le_of_eq h.length.symm)
  rw [List.append_nil]
  exact ⟨sweep_table hchange h, hsent, hbalanced⟩

theorem etharpCleanupNetif_spec (netif : Netif) (h : s.Ok) :
    (s.etharpCleanupNetif netif).table = s.table.map (EtharpEntry.cleanup netif) ∧
    (s.etharpCleanupNetif netif).sent = s.sent ++ [] ∧ (s.Balanced → (s.etharpCleanupNetif netif).Balanced) := by
  have hchange : ∀ (s : Etharp β) i e, s.table[i]? = some e →
      Change s (s.cleanupEntry netif i) i e (e.cleanup netif) [] := fun s i e hi => cleanupEntry_change hi
  obtain ⟨-, hsent, hbalanced⟩ := sweep_spec hchange s (Nat.le_of_eq h.length.symm)
  rw [List.append_nil]
  exact ⟨sweep_table hchange h, hsent, hbalanced⟩

end LoraGateway.Arp
