import LoraGateway.Netif.Loopback

/-!
# From a chain to the transmit buffer

A call of `low_level_output` from end to end. A chain whose segments add up to its `tot_len` and fit
`MySendbuf` is in the transmit buffer afterwards, behind a control byte of 0, with `ETXST` and `ETXND`
around it and room for the transmit status; the call changes no byte of the receive buffer. Any other chain
is refused before the chip is accessed, as long as its copies stay in `MySendbuf`; the call does what it is
to do exactly for the chains whose copies do (`transmits_iff`).
-/

namespace LoraGateway.Netif

open Lib Lib.Prog Enc28j60

variable {p : Pbuf} {rest : List Pbuf} {seen : List RxFrame} {w : World}

/-! ## The chains that are sent -/

theorem copyChain_templen {totLen : ℕ} {buf : ℕ → Byte} {templen : ℕ} {l : List Pbuf} {n : ℕ}
    (h : (copyChain totLen buf templen l).2 = some n) : n = templen + (chainBytes l).length := by
  induction l generalizing buf templen with
  | nil => exact (Option.some.inj h).symm
  | cons q rest ih =>
    simp only [copyChain] at h
    split_ifs at h
    rw [ih h, chainBytes_cons, List.length_append, Pbuf.len, Nat.add_assoc]

theorem packetSend_refused (mySendbuf : ℕ → Byte)
    (h : (chainBytes (p :: rest)).length ≠ p.totLen ∨ sendbufSize < (chainBytes (p :: rest)).length) :
    (packetSend mySendbuf p rest).err = .buf ∧ (packetSend mySendbuf p rest).frame = none := by
  unfold packetSend
  split
  · exact ⟨rfl, rfl⟩
  · rename_i buf templen heq
    have htemplen : templen = (chainBytes (p :: rest)).length := by
      have hsome : (copyChain p.totLen mySendbuf 0 (p :: rest)).2 = some templen := by rw [heq]
      rw [copyChain_templen hsome, Nat.zero_add]
    split_ifs with htot
    · -- the lengths agree, so the chain is too long, and a check has failed
      have hlong : sendbufSize < (chainBytes (p :: rest)).length :=
        h.resolve_left fun hne => hne (htemplen.symm.trans htot)
      have hnone := copyChain_none p.totLen mySendbuf 0 (p :: rest) (by omega) (Nat.zero_le _)
      rw [heq] at hnone
      exact nomatch hnone
    · exact ⟨rfl, rfl⟩

/-! ## The transmit buffer -/

/-- What a call leaves for the transmit logic: the control byte, the bytes behind it, and the pointers, with
the 7 bytes of the transmit status below the end of the memory. -/
structure TxLoaded (c : Chip) (packet : List Byte) : Prop where
  control : c.mem txstartInit = 0
  bytes : readBytes c.mem (txstartInit + 1) packet.length = packet
  etxst : c.etxst = txstartInit
  etxnd : c.etxnd = txstartInit + packet.length
  below : txstartInit + packet.length + 7 < 0x2000

theorem txLoaded_of_loading {packet : List Byte} (h : Loading seen packet.length (0 :: packet) w)
    (hle : packet.length ≤ sendbufSize) : TxLoaded w.chip packet := by
  obtain ⟨⟨hring, -, -⟩, hload⟩ := h
  have hall := hload.bytes
  rw [List.length_cons, Nat.add_comm, readBytes_add] at hall
  have hparts := List.append_inj (hall.trans (List.singleton_append (x := (0 : Byte)) (l := packet)).symm)
    (by simp)
  have hsize : sendbufSize = 1500 := rfl
  have hstart : txstartInit = 6655 := rfl
  refine ⟨?_, hparts.2, hring.etxst, hload.etxnd, by omega⟩
  simpa [readBytes] using hparts.1

/-- A chain that fits is loaded, and if no frame arrives meanwhile the receive buffer is as it was. -/
theorem lowLevelOutput_returned {fuel : ℕ} {mySendbuf : ℕ → Byte} {r : SendResult} {w' : World}
    (hwf : p.totLen = (chainBytes (p :: rest)).length) (hle : p.totLen ≤ sendbufSize)
    (hw : Between (Waiting seen) w) (hexec : (lowLevelOutput fuel mySendbuf p rest).exec w = (some r, w')) :
    r.err = .ok ∧ TxLoaded w'.chip (chainBytes (p :: rest)) ∧
      (w'.chip.stored = w.chip.stored → ∀ a < rxSize, w'.chip.mem a = w.chip.mem a) := by
  have hlen : (chainBytes (p :: rest)).length ≤ 1500 := hwf ▸ hle
  have hboth : Triple (Between fun w' => Waiting seen w' ∧ w'.chip.Untouched w.chip.mem w.chip.stored.length)
      (lowLevelOutput fuel mySendbuf p rest)
      (fun r w' => r.err = .ok ∧ Loading seen (chainBytes (p :: rest)).length (0 :: chainBytes (p :: rest)) w' ∧
        w'.chip.Untouched w.chip.mem w.chip.stored.length) (fun _ => True) := by
    rw [lowLevelOutput_eq _ _ hwf hle]
    refine (waiting_send_beside (beside_untouched _ _) hlen).bind fun _ => Triple.pure fun _ h => ?_
    exact ⟨((packetSend_spec mySendbuf hwf).mpr hle).1, h.2⟩
  obtain ⟨herr, hload, huntouched⟩ := hboth.returned ⟨hw.1, hw.2, untouched_self _⟩ hexec
  exact ⟨herr, txLoaded_of_loading hload hlen, fun hstored => huntouched.2 (by rw [hstored])⟩

/-! ## The call on the array -/

/-- `low_level_output`, with the array `MySendbuf` as it is: `none` where a `memcpy` ends behind it. -/
def lowLevelOutputIn (fuel : ℕ) (mySendbuf : ℕ → Byte) (p : Pbuf) (rest : List Pbuf) : Option (Drv SendResult) :=
  (packetSendIn mySendbuf p rest).map fun r =>
    match r.frame with
    | some packet => do
      enc28j60PacketSend fuel packet
      pure r
    | none => pure r

theorem lowLevelOutputIn_eq (fuel : ℕ) (mySendbuf : ℕ → Byte) (p : Pbuf) (rest : List Pbuf) :
    lowLevelOutputIn fuel mySendbuf p rest =
      if ∀ c ∈ chainCopies p.totLen 0 (p :: rest), c.1 + c.2.length ≤ sendbufSize
      then some (lowLevelOutput fuel mySendbuf p rest) else none := by
  rw [lowLevelOutputIn, packetSendIn_eq]
  split_ifs <;> rfl

/-- What a call is to do: a chain whose segments add up to its `tot_len` of at most 1500 bytes is in the
transmit buffer once it returns, with `ERR_OK`, and it does return while nothing is being sent; the receive
buffer has not changed if no frame has arrived. For any other chain it returns `ERR_BUF` and does nothing to
the chip. -/
structure Transmits (w : World) (mySendbuf : ℕ → Byte) (p : Pbuf) (rest : List Pbuf) : Prop where
  loads : (chainBytes (p :: rest)).length = p.totLen → p.totLen ≤ 1500 → ∀ fuel,
    ∃ call, lowLevelOutputIn fuel mySendbuf p rest = some call ∧
      ∀ r w', call.exec w = (some r, w') → r.err = .ok ∧ TxLoaded w'.chip (chainBytes (p :: rest)) ∧
        (w'.chip.stored = w.chip.stored → ∀ a < rxSize, w'.chip.mem a = w.chip.mem a)
  returns : (chainBytes (p :: rest)).length = p.totLen → p.totLen ≤ 1500 → w.chip.txrts = false → ∀ fuel,
    ∃ call r w', lowLevelOutputIn (fuel + 1) mySendbuf p rest = some call ∧ call.exec w = (some r, w')
  refuses : (chainBytes (p :: rest)).length ≠ p.totLen ∨ 1500 < (chainBytes (p :: rest)).length → ∀ fuel,
    ∃ call r, lowLevelOutputIn fuel mySendbuf p rest = some call ∧ call.exec w = (some r, w) ∧ r.err = .buf

theorem Transmits.fit {mySendbuf : ℕ → Byte} (h : Transmits w mySendbuf p rest) :
    ∀ c ∈ chainCopies p.totLen 0 (p :: rest), c.1 + c.2.length ≤ sendbufSize := by
  have hsome : ∃ call, lowLevelOutputIn 0 mySendbuf p rest = some call := by
    by_cases hgood : (chainBytes (p :: rest)).length = p.totLen ∧ p.totLen ≤ 1500
    · obtain ⟨call, hcall, -⟩ := h.loads hgood.1 hgood.2 0
      exact ⟨call, hcall⟩
    · obtain ⟨call, -, hcall, -⟩ := h.refuses (by omega) 0
      exact ⟨call, hcall⟩
  obtain ⟨call, hcall⟩ := hsome
  rw [lowLevelOutputIn_eq] at hcall
  by_contra hno
  rw [if_neg hno] at hcall
  exact Option.some_ne_none _ hcall.symm

/-- After any packets received and sent, a call of `low_level_output` does what it is to do exactly if the
chain fits `MySendbuf`, or some of its first segments fit and are longer than its `tot_len` together. -/
theorem transmits_iff {s₀ s : NetCard} {l : List (Enc28j60.Call × ℕ)} (hinit : netMachine.init s₀)
    (hret : s₀.returned = true) (hs : netMachine.Steps (fun _ a => a.1.IsTraffic) s₀ l s)
    (hreturned : s.returned = true) (mySendbuf : ℕ → Byte) (p : Pbuf) (rest : List Pbuf) :
    Transmits s.world mySendbuf p rest ↔
      (chainBytes (p :: rest)).length ≤ 1500 ∨ ∃ pre, pre <+: p :: rest ∧
        p.totLen < (chainBytes pre).length ∧ (chainBytes pre).length ≤ 1500 := by
  have hfit := chainCopies_fit (p :: rest) (Nat.zero_le (min sendbufSize p.totLen))
  simp only [Nat.zero_add] at hfit
  refine ⟨fun h => hfit.mp h.fit, fun h => ?_⟩
  have hcall (fuel : ℕ) : lowLevelOutputIn fuel mySendbuf p rest =
      some (lowLevelOutput fuel mySendbuf p rest) := by
    rw [lowLevelOutputIn_eq, if_pos (hfit.mpr h)]
  obtain ⟨seen, hseen⟩ := traffic_follows hinit hret hs hreturned
  refine ⟨fun hwf hle fuel => ⟨_, hcall fuel, fun r w hexec => ?_⟩, fun hwf hle htx fuel => ?_, fun hno fuel => ?_⟩
  · exact lowLevelOutput_returned hwf.symm hle hseen.waiting hexec
  · obtain ⟨r, w, hexec⟩ := lowLevelOutput_idle fuel mySendbuf hwf.symm hle hseen.waiting htx
    exact ⟨_, r, w, hcall (fuel + 1), hexec⟩
  · obtain ⟨herr, hframe⟩ := packetSend_refused mySendbuf hno
    refine ⟨_, packetSend mySendbuf p rest, hcall fuel, ?_, herr⟩
    rw [lowLevelOutput, hframe]
    rfl

/-- A frame arrives once the card has been started, and every transmission ends at once. -/
def trafficScript (n : ℕ) : List HwEvent :=
  if n = 150 then [.frame ⟨[1, 2, 0xA, 0xB, 0xC, 0xD], 0x80, [], by decide, by decide⟩] else [.txEnd false false []]

theorem traffic_run : (netMachine.run (promptStart trafficScript) [(.send [1, 2], 1), (.receive 1500, 0)]).map
    (fun s => (s.returned, s.taken.map fun r => r.received.packet, s.world.chip.sent, s.world.chip.txrts)) =
    some (true, [[1, 2, 0]], [0], false) := by
  decide +kernel

/-- After a packet sent and one received: three bytes in three segments, one of them empty, a chain with a
wrong `tot_len`, and one whose first segment is longer than its `tot_len`. -/
theorem transmits_iff_run : ∃ s r w r', netMachine.Steps (fun _ a => a.1.IsTraffic) (promptStart trafficScript)
      [(.send [1, 2], 1), (.receive 1500, 0)] s ∧ s.world.chip.sent = [0] ∧ s.taken.length = 1 ∧
    (∃ call, lowLevelOutputIn 1 (fun _ => 0) ⟨[1, 2], 3⟩ [⟨[], 1⟩, ⟨[3], 1⟩] = some call ∧
      call.exec s.world = (some r, w)) ∧ r.err = .ok ∧ TxLoaded w.chip [1, 2, 3] ∧
    (∃ call, lowLevelOutputIn 1 (fun _ => 0) ⟨[1, 2], 4⟩ [⟨[3], 1⟩] = some call ∧
      call.exec s.world = (some r', s.world)) ∧ r'.err = .buf ∧
    Transmits s.world (fun _ => 0) ⟨[1, 2], 1⟩ [⟨List.replicate 1500 0, 0⟩] ∧
    ¬ Transmits s.world (fun _ => 0) ⟨[1, 2], 1502⟩ [⟨List.replicate 1500 0, 1500⟩] := by
  have hcheck := traffic_run
  have hinit := promptStart_init trafficScript
  generalize promptStart trafficScript = s₀ at hcheck hinit ⊢
  obtain ⟨s, hrun, hs⟩ := Option.map_eq_some_iff.mp hcheck
  simp only [Prod.mk.injEq] at hs
  obtain ⟨hreturned, htaken, hsent, htx⟩ := hs
  have htraffic : ∀ a ∈ [(Enc28j60.Call.send [1, 2], 1), (Enc28j60.Call.receive 1500, 0)], a.1.IsTraffic := by
    intro a ha
    simp only [List.mem_cons, List.not_mem_nil, or_false] at ha
    rcases ha with rfl | rfl
    · exact .inr ⟨[1, 2], rfl, by decide⟩
    · exact .inl ⟨1500, rfl⟩
  have hsteps : netMachine.Steps (fun _ a => a.1.IsTraffic) s₀
      [(Enc28j60.Call.send [1, 2], 1), (Enc28j60.Call.receive 1500, 0)] s :=
    .of_run (fun a ha _ => htraffic a ha) hrun
  have hiff := transmits_iff hinit (returned_of_run hrun) hsteps hreturned (fun _ => 0)
  have hgood := (hiff ⟨[1, 2], 3⟩ [⟨[], 1⟩, ⟨[3], 1⟩]).mpr (.inl (by decide))
  obtain ⟨call, r, w, hcall, hexec⟩ := hgood.returns rfl (by decide) htx 0
  obtain ⟨call', hcall', hloads⟩ := hgood.loads rfl (by decide) 1
  obtain rfl : call' = call := Option.some.inj (hcall'.symm.trans hcall)
  obtain ⟨herr, hloaded, -⟩ := hloads r w hexec
  obtain ⟨call'', r', hcall'', hexec', herr'⟩ :=
    ((hiff ⟨[1, 2], 4⟩ [⟨[3], 1⟩]).mpr (.inl (by decide))).refuses (.inl (by decide)) 1
  refine ⟨s, r, w, r', hsteps, hsent, ?_, ⟨call', hcall, hexec⟩, herr, hloaded,
    ⟨call'', hcall'', hexec'⟩, herr', ?_, fun h => ?_⟩
  · simpa using congrArg List.length htaken
  · exact (hiff _ _).mpr (.inr ⟨[⟨[1, 2], 1⟩], ⟨_, rfl⟩, by decide, by decide⟩)
  · have hlong : (chainBytes [⟨[1, 2], 1502⟩, ⟨List.replicate 1500 0, 1500⟩]).length = 1502 := by
      simp only [chainBytes_cons, chainBytes_nil, List.length_append, List.length_cons, List.length_nil,
        List.length_replicate]
    rcases (hiff _ _).mp h with hle | ⟨pre, hpre, hlt, hle⟩
    · omega
    · have hbound : (chainBytes pre).length ≤ 1502 := hlong ▸ (hpre.flatMap Pbuf.payload).length_le
      exact absurd hlt (Nat.not_lt.mpr hbound)

/-- The headers and the data of a full TCP segment: the data is copied past the end of `MySendbuf`. -/
theorem transmits_overrun : ∃ s₀, netMachine.init s₀ ∧ s₀.returned = true ∧
    1500 < (chainBytes (fullSegment.1 :: fullSegment.2)).length ∧
    ¬ Transmits s₀.world (fun _ => 0) fullSegment.1 fullSegment.2 := by
  have hlens : (chainCopies fullSegment.1.totLen 0 (fullSegment.1 :: fullSegment.2)).map
      (fun c => c.1 + c.2.length) = [54, 1514] := by decide +kernel
  refine ⟨promptStart fun _ => [], promptStart_init _, prompt_returned, by decide +kernel, fun h => ?_⟩
  have hmem : 1514 ∈ (chainCopies fullSegment.1.totLen 0 (fullSegment.1 :: fullSegment.2)).map
      fun c => c.1 + c.2.length := by
    rw [hlens]
    decide
  obtain ⟨c, hc, heq⟩ := List.mem_map.mp hmem
  exact absurd (h.fit c hc) (by rw [heq, sendbufSize]; decide)

end LoraGateway.Netif
