import LoraGateway.Enc28j60.Send
import LoraGateway.Netif.PacketSend

/-!
# From one chain to another

`low_level_output` and `PacketReceive` of `ethernetif.c` on the driver. `PacketReceive` copies what the
driver has put into `MyRecvbuf` into the segments of a chain from `pbuf_alloc`, one after another, until
all of it has been copied (`scatter_spec`). A chain that is sent, put on the wire and stored by the chip as
a good frame comes back in the segments of the other chain (`loopback`).
-/

namespace LoraGateway.Netif

open Lib Lib.Prog Enc28j60

/-! ## Sending -/

/-- `PacketSend` of the chain `p :: rest`, with the driver behind it. -/
def lowLevelOutput (fuel : ℕ) (mySendbuf : ℕ → Byte) (p : Pbuf) (rest : List Pbuf) : Drv SendResult :=
  let r := packetSend mySendbuf p rest
  match r.frame with
  | some packet => do
    enc28j60PacketSend fuel packet
    pure r
  | none => pure r

/-! ## `pbuf_alloc` -/

/-- Each `tot_len` counts the bytes of its segment and of those behind it. -/
def WellFormed : List Pbuf → Prop
  | [] => True
  | q :: rest => q.totLen = (chainBytes (q :: rest)).length ∧ WellFormed rest

/-- The loop that allocates the tail of a chain for `remLen` bytes, from the free buffers of the pool with
what they hold. -/
def poolTail {bufsize : ℕ} : List (Vector Byte bufsize) → ℕ → Option (List Pbuf)
  | _, 0 => some []
  | [], _ + 1 => none
  | b :: pool, remLen + 1 =>
    let len := min (remLen + 1) bufsize
    (poolTail pool (remLen + 1 - len)).map fun rest => ⟨b.toList.take len, remLen + 1⟩ :: rest

/-- `pbuf_alloc(PBUF_RAW, length, PBUF_POOL)`. -/
def pbufAlloc {bufsize : ℕ} : List (Vector Byte bufsize) → ℕ → Option (List Pbuf)
  | [], _ => none
  | b :: pool, length =>
    let len := min length bufsize
    (poolTail pool (length - len)).map fun rest => ⟨b.toList.take len, length⟩ :: rest

theorem poolTail_wellFormed {bufsize : ℕ} {pool : List (Vector Byte bufsize)} {remLen : ℕ}
    {chain : List Pbuf} (h : poolTail pool remLen = some chain) :
    WellFormed chain ∧ (chainBytes chain).length = remLen := by
  induction pool generalizing remLen chain with
  | nil =>
    cases remLen with
    | zero =>
      obtain rfl := Option.some.inj h
      exact ⟨trivial, rfl⟩
    | succ remLen => exact nomatch h
  | cons b pool ih =>
    cases remLen with
    | zero =>
      obtain rfl := Option.some.inj h
      exact ⟨trivial, rfl⟩
    | succ remLen =>
      obtain ⟨rest, hrest, rfl⟩ := Option.map_eq_some_iff.mp h
      obtain ⟨hwf, hlen⟩ := ih hrest
      have hbytes : (chainBytes (⟨b.toList.take (min (remLen + 1) bufsize), remLen + 1⟩ :: rest)).length =
          remLen + 1 := by
        rw [chainBytes_cons, List.length_append, hlen, List.length_take, Vector.length_toList]
        omega
      exact ⟨⟨hbytes.symm, hwf⟩, hbytes⟩

theorem pbufAlloc_wellFormed {bufsize : ℕ} {pool : List (Vector Byte bufsize)} {length : ℕ}
    {chain : List Pbuf} (h : pbufAlloc pool length = some chain) :
    WellFormed chain ∧ (chainBytes chain).length = length := by
  cases pool with
  | nil => exact nomatch h
  | cons b pool =>
    obtain ⟨rest, hrest, rfl⟩ := Option.map_eq_some_iff.mp h
    obtain ⟨hwf, hlen⟩ := poolTail_wellFormed hrest
    have hbytes : (chainBytes (⟨b.toList.take (min length bufsize), length⟩ :: rest)).length = length := by
      rw [chainBytes_cons, List.length_append, hlen, List.length_take, Vector.length_toList]
      omega
    exact ⟨⟨hbytes.symm, hwf⟩, hbytes⟩

/-! ## Receiving -/

/-- The copy loop of `PacketReceive` from index `i` of `MyRecvbuf`: the chain it leaves, and the index and
the length of each `memcpy`. -/
def scatter (myRecvbuf : ℕ → Byte) (recvlen : ℕ) : ℕ → List Pbuf → List Pbuf × List (ℕ × ℕ)
  | _, [] => ([], [])
  | i, q :: rest =>
    let filled : Pbuf := { q with payload := readBytes myRecvbuf i q.len }
    if recvlen ≤ i + q.len then (filled :: rest, [(i, q.len)])
    else
      let more := scatter myRecvbuf recvlen (i + q.len) rest
      (filled :: more.1, (i, q.len) :: more.2)

/-- What a call of `PacketReceive` leaves: the chain it returns, the buffer, and what it has read of it. -/
structure ReceiveResult where
  chain : Option (List Pbuf)
  myRecvbuf : ℕ → Byte
  reads : List (ℕ × ℕ)

/-- `PacketReceive`, with the chain that `pbuf_alloc` gives for a length. -/
def packetReceive (alloc : ℕ → Option (List Pbuf)) (myRecvbuf : ℕ → Byte) : Drv ReceiveResult := do
  let r ← enc28j60PacketReceive 1500
  let myRecvbuf := memcpy myRecvbuf 0 r.packet
  let recvlen := r.len.toNat
  if recvlen = 0 then pure ⟨none, myRecvbuf, []⟩
  else
    match alloc recvlen with
    | none => pure ⟨none, myRecvbuf, []⟩
    | some chain =>
      let copied := scatter myRecvbuf recvlen 0 chain
      pure ⟨some copied.1, myRecvbuf, copied.2⟩

/-- The copies fill the segments of the chain one after another, each of them completely. -/
def Fills (reads : List (ℕ × ℕ)) (chain : List Pbuf) : Prop :=
  reads.map Prod.snd = (chain.map Pbuf.len).take reads.length ∧
    ∀ q ∈ chain.drop reads.length, q.len = 0

theorem len_eq_zero {chain : List Pbuf} (h : (chainBytes chain).length = 0) : ∀ q ∈ chain, q.len = 0 := by
  intro q hq
  have hsub : q.payload ⊆ chainBytes chain := fun b hb => List.mem_flatMap.mpr ⟨q, hq, hb⟩
  rw [List.length_eq_zero_iff] at h
  rw [h, List.subset_nil] at hsub
  rw [Pbuf.len, hsub, List.length_nil]

/-- A chain with room for what is left of the packet: the loop copies it, reads nothing behind the
packet, and fills every segment. -/
theorem scatter_spec (buf : ℕ → Byte) {recvlen i : ℕ} {chain : List Pbuf}
    (h : i + (chainBytes chain).length = recvlen) :
    chainBytes (scatter buf recvlen i chain).1 = readBytes buf i (chainBytes chain).length ∧
      (scatter buf recvlen i chain).1.map Pbuf.len = chain.map Pbuf.len ∧
      (scatter buf recvlen i chain).1.map Pbuf.totLen = chain.map Pbuf.totLen ∧
      (∀ r ∈ (scatter buf recvlen i chain).2, r.1 + r.2 ≤ recvlen) ∧
      Fills (scatter buf recvlen i chain).2 chain := by
  induction chain generalizing i with
  | nil => simp [scatter, Fills]
  | cons q rest ih =>
    rw [chainBytes_cons, List.length_append] at h
    have hfilled : (⟨readBytes buf i q.len, q.totLen⟩ : Pbuf).len = q.len := length_readBytes
    simp only [scatter, chainBytes_cons, List.length_append, readBytes_add]
    split_ifs with hlast
    · -- the packet ends with this segment, so the others are empty
      rw [Pbuf.len] at hlast
      have hrest : (chainBytes rest).length = 0 := by omega
      refine ⟨?_, ?_, rfl, ?_, ?_⟩
      · rw [chainBytes_cons, List.length_eq_zero_iff.mp hrest, List.length_nil, readBytes_zero]
        rfl
      · rw [List.map_cons, List.map_cons, hfilled]
      · intro r hr
        obtain rfl := List.mem_singleton.mp hr
        rw [Pbuf.len]
        omega
      · exact ⟨rfl, len_eq_zero hrest⟩
    · obtain ⟨hbytes, hlens, htots, hreads, hfills⟩ := ih (i := i + q.len) (by rw [Pbuf.len]; omega)
      refine ⟨?_, ?_, ?_, ?_, ?_⟩
      · rw [chainBytes_cons, hbytes]
        rfl
      · rw [List.map_cons, List.map_cons, hfilled, hlens]
      · rw [List.map_cons, List.map_cons, htots]
      · intro r hr
        rcases List.mem_cons.mp hr with rfl | hr
        · rw [Pbuf.len]
          omega
        · exact hreads r hr
      · refine ⟨?_, hfills.2⟩
        rw [List.map_cons, List.map_cons, List.length_cons, List.take_succ_cons, hfills.1]

/-! ## There and back -/

variable {p : Pbuf} {rest chain : List Pbuf} {seen : List RxFrame}

theorem lowLevelOutput_eq (fuel : ℕ) (mySendbuf : ℕ → Byte) (hwf : p.totLen = (chainBytes (p :: rest)).length)
    (hle : p.totLen ≤ sendbufSize) : lowLevelOutput fuel mySendbuf p rest = (do
      enc28j60PacketSend fuel (chainBytes (p :: rest))
      pure (packetSend mySendbuf p rest)) := by
  rw [lowLevelOutput, ((packetSend_spec mySendbuf hwf).mpr hle).2]

theorem lowLevelOutput_loads (fuel : ℕ) (mySendbuf : ℕ → Byte) (hwf : p.totLen = (chainBytes (p :: rest)).length)
    (hle : p.totLen ≤ sendbufSize) :
    Triple (Between (Waiting seen)) (lowLevelOutput fuel mySendbuf p rest)
      (fun r w => r.err = .ok ∧ w.chip.outgoing = chainBytes (p :: rest) ∧ Between (Waiting seen) w)
      (fun _ => True) := by
  rw [lowLevelOutput_eq _ _ hwf hle]
  refine (waiting_send (hwf ▸ hle)).bind fun _ => Triple.pure fun w h => ?_
  exact ⟨((packetSend_spec mySendbuf hwf).mpr hle).1, outgoing_loaded h.2.1.1 h.2.2, h.1, h.2.1⟩

theorem lowLevelOutput_idle (fuel : ℕ) (mySendbuf : ℕ → Byte) (hwf : p.totLen = (chainBytes (p :: rest)).length)
    (hle : p.totLen ≤ sendbufSize) {w : World} (hw : Between (Waiting seen) w)
    (htx : w.chip.txrts = false) :
    ∃ r w', (lowLevelOutput (fuel + 1) mySendbuf p rest).exec w = (some r, w') := by
  rw [lowLevelOutput_eq _ _ hwf hle]
  obtain ⟨_, w', hexec, -⟩ :=
    (waiting_send_idle (R := fun _ => False) (hwf ▸ hle)).total ⟨hw.1, hw.2, htx⟩
  exact ⟨_, w', exec_bind_some hexec⟩

/-- What `PacketReceive` does with a good frame of `bytes` and a CRC, up to 1499 bytes, if the chain from
`pbuf_alloc` has room for them. -/
theorem packetReceive_spec {f : RxFrame} {bytes crc : List Byte} (hdata : f.data = bytes ++ crc)
    (hcrc : crc.length = 4) (hstatus : f.status.getLsbD 7 = true) (hpos : 1 ≤ bytes.length)
    (hle : bytes.length ≤ 1499) {alloc : ℕ → Option (List Pbuf)} (halloc : alloc bytes.length = some chain)
    (hchain : (chainBytes chain).length = bytes.length) (myRecvbuf : ℕ → Byte) {w : World}
    (hw : Between (Taking seen f (BitVec.ofNat 32 (framesSize seen % rxSize))) w) :
    ∃ r w', (packetReceive alloc myRecvbuf).exec w = (some r, w') ∧ ∃ filled, r.chain = some filled ∧
      chainBytes filled = bytes ∧ filled.map Pbuf.len = chain.map Pbuf.len ∧
      filled.map Pbuf.totLen = chain.map Pbuf.totLen ∧
      (∀ x ∈ r.reads, x.1 + x.2 ≤ bytes.length) ∧ Fills r.reads chain := by
  obtain ⟨r, w', hexec, -, hr, -⟩ := (triple_take (R := fun _ => False) seen f 1500).total hw
  have hreceived : f.received 1500 = (BitVec.ofNat 32 bytes.length, bytes ++ [0]) := by
    have hmin : min (f.data.length - 4) (1500 - 1 : BitVec 32).toNat = bytes.length := by
      rw [hdata, List.length_append, hcrc, show (1500 - 1 : BitVec 32).toNat = 1499 from rfl]
      omega
    simp only [RxFrame.received, if_pos hstatus, hmin]
    rw [hdata, List.take_left]
  rw [hreceived, Prod.mk.injEq] at hr
  have hlen : r.len.toNat = bytes.length := by
    rw [hr.1, BitVec.toNat_ofNat, Nat.mod_eq_of_lt (by omega)]
  have hbuf : readBytes (memcpy myRecvbuf 0 r.packet) 0 bytes.length = bytes := by
    have hall : readBytes (memcpy myRecvbuf 0 (bytes ++ [0])) 0 (bytes ++ [0]).length = bytes ++ [0] :=
      readBytes_memcpy
    rw [List.length_append, readBytes_add] at hall
    rw [hr.2]
    exact (List.append_inj hall (by simp)).1
  obtain ⟨hbytes, hlens, htots, hreads, hfills⟩ :=
    scatter_spec (memcpy myRecvbuf 0 r.packet) (i := 0) ((Nat.zero_add _).trans hchain)
  refine ⟨⟨some (scatter (memcpy myRecvbuf 0 r.packet) bytes.length 0 chain).1,
    memcpy myRecvbuf 0 r.packet, _⟩, w', ?_, _, rfl, ?_, hlens, htots, hreads, hfills⟩
  · rw [packetReceive, exec_bind_some hexec, hlen, if_neg (by omega), halloc]
    rfl
  · rw [hbytes, hchain, hbuf]

theorem WellFormed.head {chain : List Pbuf} (h : WellFormed chain) (hpos : 1 ≤ (chainBytes chain).length) :
    (chain.map Pbuf.totLen).head? = some (chainBytes chain).length := by
  cases chain with
  | nil => exact absurd hpos (by simp)
  | cons q rest => rw [List.map_cons, List.head?_cons, h.1]

/-- A chain of 1 to 1499 bytes, sent after any packets received and sent before, is put on the wire as it
is. Whenever afterwards a good frame of these bytes and a CRC is the next to be taken, `PacketReceive`
returns them in the segments that `pbuf_alloc` gives, whatever they are: it reads no byte of `MyRecvbuf`
behind them and fills each segment. -/
theorem loopback {s₀ s s' : NetCard} {l l' : List (Call × ℕ)} (hinit : netMachine.init s₀)
    (hret : s₀.returned = true) (hs : netMachine.Steps (fun _ a => a.1.IsTraffic) s₀ l s)
    (hreturned : s.returned = true) {fuel : ℕ} {mySendbuf : ℕ → Byte} (hwf : p.totLen = (chainBytes (p :: rest)).length)
    (hpos : 1 ≤ p.totLen) (hle : p.totLen ≤ 1499) {r : SendResult} {w : World}
    (hsend : (lowLevelOutput fuel mySendbuf p rest).exec s.world = (some r, w))
    (hs' : netMachine.Steps (fun _ a => a.1.IsTraffic) ⟨w, true, s.taken⟩ l' s')
    (hreturned' : s'.returned = true) {f : RxFrame} (hf : s'.unread.head? = some f) {crc : List Byte}
    (hdata : f.data = w.chip.outgoing ++ crc) (hcrc : crc.length = 4)
    (hstatus : f.status.getLsbD 7 = true) {alloc : ℕ → Option (List Pbuf)}
    (halloc : alloc p.totLen = some chain) (hchain : WellFormed chain)
    (hlength : (chainBytes chain).length = p.totLen) (myRecvbuf : ℕ → Byte) :
    r.err = .ok ∧ w.chip.outgoing = chainBytes (p :: rest) ∧
      ∃ r' w', (packetReceive alloc myRecvbuf).exec s'.world = (some r', w') ∧
        ∃ filled, r'.chain = some filled ∧ (filled.map Pbuf.totLen).head? = some p.totLen ∧
          chainBytes filled = chainBytes (p :: rest) ∧
          filled.map Pbuf.len = chain.map Pbuf.len ∧
          (∀ x ∈ r'.reads, x.1 + x.2 ≤ p.totLen) ∧ Fills r'.reads chain := by
  obtain ⟨seen, hseen⟩ := traffic_follows hinit hret hs hreturned
  obtain ⟨herr, hwire, hw⟩ := (lowLevelOutput_loads fuel mySendbuf hwf
    (hle.trans (by decide))).returned hseen.waiting hsend
  have hsent : (⟨w, true, s.taken⟩ : NetCard).Follows seen := ⟨rfl, hw, hseen.taken⟩
  obtain ⟨seen', hseen'⟩ := hs'.invariant (fun _ _ _ => traffic_step) (fun _ => ⟨seen, hsent⟩) hreturned'
  rw [hwire] at hdata
  refine ⟨herr, hwire, ?_⟩
  obtain ⟨r', w', hexec, filled, hfilled, hbytes, hlens, htots, hreads, hfills⟩ :=
    packetReceive_spec hdata hcrc hstatus (hwf ▸ hpos) (hwf ▸ hle) (hwf ▸ halloc)
      (by rw [← hwf, hlength]) myRecvbuf (hseen'.taking hf)
  refine ⟨r', w', hexec, filled, hfilled, ?_, hbytes, hlens, by rwa [hwf], hfills⟩
  rw [htots, hchain.head (hlength ▸ hpos), hlength]

/-- The frame comes back at the end of the first call. -/
def comesBack (n : ℕ) : List HwEvent := if n = 162 then [.frame sampleFrame] else []

theorem comesBack_run :
    ((promptStart comesBack).returned,
      ((lowLevelOutput 1 (fun _ => 0) ⟨[1, 2], 3⟩ [⟨[3], 1⟩]).exec (promptStart comesBack).world).1.isSome,
      ((lowLevelOutput 1 (fun _ => 0) ⟨[1, 2], 3⟩ [⟨[3], 1⟩]).exec
        (promptStart comesBack).world).2.chip.outgoing,
      ((lowLevelOutput 1 (fun _ => 0) ⟨[1, 2], 3⟩ [⟨[3], 1⟩]).exec
        (promptStart comesBack).world).2.chip.stored.head?.map fun f => (f.data, f.status)) =
    (true, true, [1, 2, 3], some ([1, 2, 3, 0xA, 0xB, 0xC, 0xD], 0x0080)) := by
  decide +kernel

theorem loopback_three : ∃ s₀ r w r' w', netMachine.init s₀ ∧
    (lowLevelOutput 1 (fun _ => 0) ⟨[1, 2], 3⟩ [⟨[3], 1⟩]).exec s₀.world = (some r, w) ∧
    (packetReceive (pbufAlloc [#v[0, 0], #v[0, 0]]) fun _ => 0).exec w = (some r', w') ∧
    r'.chain.map chainBytes = some [1, 2, 3] ∧ ∀ x ∈ r'.reads, x.1 + x.2 ≤ 3 := by
  have hrun := comesBack_run
  have hinit := promptStart_init comesBack
  have htaken : (promptStart comesBack).taken = [] := rfl
  generalize promptStart comesBack = s₀ at hrun hinit htaken
  simp only [Prod.mk.injEq] at hrun
  obtain ⟨hret, hsome, hwire, hstored⟩ := hrun
  rcases hexec : (lowLevelOutput 1 (fun _ => 0) ⟨[1, 2], 3⟩ [⟨[3], 1⟩]).exec s₀.world with ⟨_ | r, w⟩ <;>
    rw [hexec] at hsome hwire hstored
  · exact Bool.noConfusion hsome
  · obtain ⟨f, hf, hframe⟩ := Option.map_eq_some_iff.mp hstored
    simp only [Prod.mk.injEq] at hframe
    have hunread : (⟨w, true, s₀.taken⟩ : NetCard).unread.head? = some f := by rw [htaken]; exact hf
    have hdata : f.data = w.chip.outgoing ++ [0xA, 0xB, 0xC, 0xD] := by rw [hframe.1, hwire]; rfl
    have halloc : pbufAlloc [#v[0, 0], #v[0, 0]] 3 = some [⟨[0, 0], 3⟩, ⟨[0], 1⟩] := rfl
    obtain ⟨-, -, r', w', hexec', filled, hfilled, -, hbytes, -, hreads, -⟩ :=
      loopback hinit hret (.nil s₀) hret rfl (by decide) (by decide) hexec (.nil _) rfl hunread hdata rfl
        (by rw [hframe.2]; rfl) halloc (pbufAlloc_wellFormed halloc).1 (pbufAlloc_wellFormed halloc).2
        fun _ => 0
    exact ⟨s₀, r, w, r', w', hinit, hexec, hexec', by rw [hfilled, Option.map_some, hbytes]; rfl, hreads⟩

end LoraGateway.Netif
