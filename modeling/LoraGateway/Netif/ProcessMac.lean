import LoraGateway.Enc28j60.Ahead
import LoraGateway.Netif.Input
import LoraGateway.Netif.Loopback

/-!
# Polling the chip

`process_mac` and `ethernetif_input` of `ethernetif.c`, on the driver. `ethernetif_input` returns 0 when
`PacketReceive` has no chain for it, and `process_mac` stops there: when the chip has no packet, and also
when a packet is dropped because its status is bad or `pbuf_alloc` has failed. So the packets behind a
dropped one stay in the chip (`process_mac_drains_iff`).

Proof: while no frame arrives, the packets behind those taken are a list that gets shorter, and the packet counter of
the chip is its length (`Polling.count`). One turn of the loop takes its first element or finds it empty
(`polling_input`, `polling_input_none`), and `polling_loop` is the induction.
-/

namespace LoraGateway.Netif

open Lib Lib.Prog Enc28j60

/-- What `process_mac` depends on, by the number of the call of `ethernetif_input`: what `pbuf_alloc` gives
for a length, what `netif->input` returns, and what the buffer of the first pbuf holds behind its `len`
bytes. -/
structure MacEnv where
  alloc : ℕ → ℕ → Option (List Pbuf)
  input : ℕ → List Pbuf → InputErr
  stale : ℕ → ℕ → Byte

/-- `ethhdr->type`, as it is in memory. -/
def ethhdrType (stale : ℕ → Byte) (chain : List Pbuf) : BitVec 16 :=
  let payload := memcpy stale 0 ((chain.head?.map Pbuf.payload).getD [])
  halfword (payload 12) (payload 13)

/-- What a call of `ethernetif_input` leaves: its value, the buffer, the chain that it gave to
`netif->input`, and the chain that it freed. -/
structure InputResult where
  ret : ℕ
  myRecvbuf : ℕ → Byte
  handed : Option (List Pbuf)
  freed : Option (List Pbuf)

def ethernetifInput (env : MacEnv) (i : ℕ) (myRecvbuf : ℕ → Byte) : Drv InputResult := do
  let r ← packetReceive (env.alloc i) myRecvbuf
  match r.chain with
  | none => pure ⟨0, r.myRecvbuf, none, none⟩
  | some p =>
    if accepts (ethhdrType (env.stale i) p) then
      pure ⟨1, r.myRecvbuf, some p, if env.input i p = .ok then none else some p⟩
    else pure ⟨1, r.myRecvbuf, none, some p⟩

/-- `process_mac` from call `i` of `ethernetif_input` on, looked at for `fuel` rounds. -/
def processMac (env : MacEnv) : ℕ → ℕ → (ℕ → Byte) → Drv (List InputResult)
  | 0, _, _ => failure
  | fuel + 1, i, myRecvbuf => do
    let r ← ethernetifInput env i myRecvbuf
    if r.ret = 0 then pure [r]
    else do
      let l ← processMac env fuel (i + 1) r.myRecvbuf
      pure (r :: l)

/-! ## One packet -/

variable {seen l : List RxFrame} {f : RxFrame} {R : World → Prop}

/-- `PacketReceive` makes a chain of the frame: its status is good, there is something besides the CRC, and
`pbuf_alloc` gives a chain for it. -/
def Becomes (alloc : ℕ → Option (List Pbuf)) (f : RxFrame) : Prop :=
  f.status.getLsbD 7 = true ∧ 4 < f.data.length ∧ (alloc (min (f.data.length - 4) 1499)).isSome

theorem received_length (f : RxFrame) : (f.received 1500).1.toNat =
    if f.status.getLsbD 7 then min (f.data.length - 4) 1499 else 0 := by
  rw [RxFrame.received]
  split_ifs
  · show (BitVec.ofNat 32 (min (f.data.length - 4) (1500 - 1 : BitVec 32).toNat)).toNat = _
    rw [show (1500 - 1 : BitVec 32).toNat = 1499 from rfl, BitVec.toNat_ofNat, Nat.mod_eq_of_lt (by omega)]
  · rfl

theorem packetReceive_taking (alloc : ℕ → Option (List Pbuf)) (myRecvbuf : ℕ → Byte) :
    Triple (Between (Taking seen f (BitVec.ofNat 32 (framesSize seen % rxSize)))) (packetReceive alloc myRecvbuf)
      (fun r w => (r.chain.isSome ↔ Becomes alloc f) ∧ Between (Waiting (seen ++ [f])) w) R := by
  refine (triple_take seen f 1500).bind fun r => ?_
  refine Triple.pre (P := fun w => r.len = (f.received 1500).1 ∧ Between (Waiting (seen ++ [f])) w) ?_
    fun w h => ⟨congrArg Prod.fst h.2.1, h.2.2⟩
  refine Triple.assume fun hlen => ?_
  have hreceived : r.len.toNat = if f.status.getLsbD 7 then min (f.data.length - 4) 1499 else 0 := by
    rw [hlen, received_length]
  have hbecomes : Becomes alloc f ↔ r.len.toNat ≠ 0 ∧ (alloc r.len.toNat).isSome := by
    rw [Becomes, hreceived]
    split_ifs with hstatus
    · simp only [hstatus, true_and]
      refine and_congr_left fun _ => ?_
      omega
    · exact ⟨fun h => absurd h.1 hstatus, fun h => absurd rfl h.1⟩
  dsimp only
  split_ifs with hzero
  · refine Triple.pure fun w h => ⟨?_, h⟩
    simp [hbecomes, hzero]
  · split
    · rename_i halloc
      refine Triple.pure fun w h => ⟨?_, h⟩
      simp [hbecomes, halloc]
    · rename_i chain halloc
      refine Triple.pure fun w h => ⟨?_, h⟩
      simp [hbecomes, halloc, hzero]

/-! ## While nothing arrives -/

/-- No frame is to come. -/
def Quiet (w : World) : Prop := ∀ n, ∀ e ∈ w.script n, ∀ f, e ≠ .frame f

theorem quiet_of_later {script : ℕ → List HwEvent} {w : World} (hlater : Later script w)
    (hscript : ∀ k, w.script 0 = script k → ∀ n, ∀ e ∈ script (n + k), ∀ f, e ≠ .frame f) : Quiet w := by
  obtain ⟨k, hk⟩ := hlater
  intro n e he
  rw [hk n] at he
  exact hscript k ((hk 0).trans (by rw [Nat.zero_add])) n e he

/-- The frames stored are `l`, and will be. -/
def Settled (l : List RxFrame) (w : World) : Prop := w.chip.stored = l ∧ Quiet w

theorem event_settled (c : Chip) {e : HwEvent} (he : ∀ f, e ≠ .frame f) : (c.event e).stored = c.stored := by
  cases e with
  | frame f => exact absurd rfl (he f)
  | txEnd aborted stuck status =>
    simp only [Chip.event, Chip.endTx]
    split_ifs <;> rfl
  | status r v =>
    simp only [Chip.event]
    split_ifs <;> rfl
  | interrupt v => rfl

theorem steady_settled (l : List RxFrame) : Steady (Settled l) where
  hear w h := by
    refine ⟨?_, fun n => h.2 (n + 1)⟩
    have hevents : ∀ (events : List HwEvent) (c : Chip), (∀ e ∈ events, ∀ f, e ≠ .frame f) →
        (events.foldl Chip.event c).stored = c.stored := by
      intro events
      induction events with
      | nil => exact fun _ _ => rfl
      | cons e events ih =>
        intro c hquiet
        rw [List.foldl_cons, ih _ fun e' he' => hquiet e' (List.mem_cons_of_mem _ he')]
        exact event_settled c (hquiet e List.mem_cons_self)
    exact (hevents (w.script 0) w.chip (h.2 0)).trans h.1
  rebank _ _ _ _ _ _ _ h := h

theorem settled_receive (maxlen : BitVec 32) :
    Triple (Between (Settled l)) (enc28j60PacketReceive maxlen) (fun _ => Between (Settled l)) R := by
  refine keeps_receive (steady_settled l) (fun a _ x w hw h => ⟨(issue_write_stored hw).trans h.1, h.2⟩)
    (fun _ _ h => h) (fun w _ h => ⟨(fetch_stored w.chip).trans h.1, h.2⟩) (fun w _ h => ⟨?_, h.2⟩) maxlen
  have hset : (w.issue (.set econ2 0x40)).chip.stored = w.chip.stored := by
    show (w.chip.bitSet (w.chip.target econ2) 0x40).stored = _
    rw [target_shared (by decide), Chip.bitSet, if_neg (by decide)]
    exact store_stored ..
  exact hset.trans h.1

/-- The packets stored are `l`, of which `seen` have been taken. -/
def Polling (l seen : List RxFrame) (w : World) : Prop := Between (Waiting seen) w ∧ Between (Settled l) w

theorem Polling.count {w : World} {t : List RxFrame} (h : Polling (seen ++ t) seen w) :
    (w.chip.get epktcnt).toNat = t.length := by
  have hcount := h.1.2.1.count
  rw [h.2.2.1, List.length_append] at hcount
  omega

theorem polling_none (alloc : ℕ → Option (List Pbuf)) (myRecvbuf : ℕ → Byte) :
    Triple (Polling seen seen) (packetReceive alloc myRecvbuf)
      (fun r w => r.chain = none ∧ Polling seen seen w) R := by
  refine ((triple_receive seen 1500).and (settled_receive 1500)).bind fun r => ?_
  refine Triple.pre (P := fun w => r.len = 0 ∧ Polling seen seen w) ?_ fun w h => ?_
  · refine Triple.assume fun hlen => ?_
    have hzero : r.len.toNat = 0 := by rw [hlen]; rfl
    dsimp only
    rw [if_pos hzero]
    exact Triple.pure fun w h => ⟨rfl, h⟩
  · rcases h.1 with ⟨hr, hw⟩ | ⟨-, f, -, hw⟩
    · exact ⟨by rw [hr], hw, h.2⟩
    · -- one more would have been taken than there are
      have hle := hw.2.2.1.length_le
      rw [h.2.2.1, List.length_append, List.length_singleton] at hle
      omega

theorem settled_packetReceive (alloc : ℕ → Option (List Pbuf)) (myRecvbuf : ℕ → Byte) :
    Triple (Between (Settled l)) (packetReceive alloc myRecvbuf) (fun _ => Between (Settled l)) R := by
  refine (settled_receive 1500).bind fun r => ?_
  dsimp only
  split_ifs
  · exact Triple.pure fun _ h => h
  · split <;> exact Triple.pure fun _ h => h

theorem polling_next {t : List RxFrame} (alloc : ℕ → Option (List Pbuf)) (myRecvbuf : ℕ → Byte) :
    Triple (Polling (seen ++ f :: t) seen) (packetReceive alloc myRecvbuf)
      (fun r w => (r.chain.isSome ↔ Becomes alloc f) ∧ Polling (seen ++ f :: t) (seen ++ [f]) w) R := by
  refine ((packetReceive_taking alloc myRecvbuf).and (settled_packetReceive alloc myRecvbuf)).conseq
    (fun w h => ⟨⟨h.1.1, h.1.2.1, ?_, h.1.2.2.2⟩, h.2⟩) (fun r w h => ⟨h.1.1, h.1.2, h.2⟩) fun _ h => h
  rw [h.2.2.1]
  exact ⟨t, List.append_assoc ..⟩

/-! ## The loop -/

variable {env : MacEnv}

theorem polling_input_none (i : ℕ) (myRecvbuf : ℕ → Byte) :
    Triple (Polling seen seen) (ethernetifInput env i myRecvbuf)
      (fun r w => r.ret = 0 ∧ Polling seen seen w) R := by
  refine (polling_none (env.alloc i) myRecvbuf).bind fun r => Triple.assume fun hchain => ?_
  rw [hchain]
  exact Triple.pure fun _ h => ⟨rfl, h⟩

/-- One that takes a packet returns 0 all the same, unless a chain was made of it. -/
theorem polling_input {t : List RxFrame} (i : ℕ) (myRecvbuf : ℕ → Byte) :
    Triple (Polling (seen ++ f :: t) seen) (ethernetifInput env i myRecvbuf)
      (fun r w => (r.ret ≠ 0 ↔ Becomes (env.alloc i) f) ∧ Polling (seen ++ f :: t) (seen ++ [f]) w) R := by
  refine (polling_next (env.alloc i) myRecvbuf).bind fun r => Triple.assume fun hchain => ?_
  rw [← hchain]
  split
  · rename_i heq
    exact Triple.pure fun _ h => ⟨by simp [heq], h⟩
  · rename_i heq
    split_ifs <;> exact Triple.pure fun _ h => ⟨by simp [heq], h⟩

/-- `PacketReceive` makes a chain of every packet but perhaps the last, from call `i` on. -/
def OnlyLastDropped (env : MacEnv) (i : ℕ) (l : List RxFrame) : Prop :=
  ∀ k f, l[k]? = some f → k + 1 < l.length → Becomes (env.alloc (i + k)) f

theorem onlyLastDropped_cons {i : ℕ} {t : List RxFrame} : OnlyLastDropped env i (f :: t) ↔
    (t ≠ [] → Becomes (env.alloc i) f) ∧ OnlyLastDropped env (i + 1) t := by
  constructor
  · intro h
    refine ⟨fun hne => h 0 f rfl ?_, fun k g hg hk => ?_⟩
    · rw [List.length_cons]
      have hpos := List.length_pos_of_ne_nil hne
      omega
    · rw [Nat.add_assoc, Nat.add_comm 1]
      exact h (k + 1) g hg (Nat.succ_lt_succ hk)
  · rintro ⟨hhead, htail⟩ k g hg hk
    cases k with
    | zero =>
      obtain rfl := Option.some.inj hg
      refine hhead fun hnil => ?_
      rw [hnil, List.length_singleton] at hk
      omega
    | succ k =>
      rw [Nat.add_comm k, ← Nat.add_assoc]
      exact htail k g hg (Nat.lt_of_succ_lt_succ hk)

theorem Polling.drained {w : World} {t : List RxFrame} (h : Polling (seen ++ t) seen w) :
    w.chip.get epktcnt = 0 ↔ t = [] := by
  rw [← List.length_eq_zero_iff, ← h.count]
  exact ⟨fun hzero => by rw [hzero]; rfl, fun hzero => BitVec.eq_of_toNat_eq hzero⟩

/-- The loop ends, with the packet counter at 0 if it was not a dropped packet that ended it. -/
theorem polling_loop {t : List RxFrame} {fuel : ℕ} (hfuel : t.length < fuel) (i : ℕ) (myRecvbuf : ℕ → Byte) :
    Triple (Polling (seen ++ t) seen) (processMac env fuel i myRecvbuf)
      (fun _ w => w.chip.get epktcnt = 0 ↔ OnlyLastDropped env i t) R := by
  induction t generalizing seen fuel i myRecvbuf with
  | nil =>
    obtain ⟨fuel, rfl⟩ := Nat.exists_eq_add_one.mpr (Nat.zero_lt_of_lt hfuel)
    refine Triple.bind (Q := fun r w => r.ret = 0 ∧ Polling (seen ++ []) seen w) ?_ fun r =>
      Triple.assume fun hret => ?_
    · rw [List.append_nil]
      exact polling_input_none i myRecvbuf
    · rw [if_pos hret]
      refine Triple.pure fun w h => ?_
      exact iff_of_true (h.drained.mpr rfl) fun k f hf => nomatch hf
  | cons f t ih =>
    obtain ⟨fuel, rfl⟩ := Nat.exists_eq_add_one.mpr (Nat.zero_lt_of_lt hfuel)
    rw [List.length_cons] at hfuel
    refine (polling_input i myRecvbuf).bind fun r => Triple.assume fun hret => ?_
    rw [List.append_cons]
    split_ifs with hstop
    · -- the packet was dropped
      refine Triple.pure fun w h => ?_
      have hno : ¬ Becomes (env.alloc i) f := fun hb => hret.mpr hb hstop
      rw [h.drained, onlyLastDropped_cons]
      refine ⟨fun hnil => ⟨fun hne => absurd hnil hne, fun k g hg => ?_⟩, fun h => ?_⟩
      · rw [hnil] at hg
        exact nomatch hg
      · exact not_not.mp fun hne => hno (h.1 hne)
    · have hrest : Triple (Polling (seen ++ [f] ++ t) (seen ++ [f])) (processMac env fuel (i + 1) r.myRecvbuf)
          (fun _ w => w.chip.get epktcnt = 0 ↔ OnlyLastDropped env (i + 1) t) R :=
        ih (by omega) (i + 1) r.myRecvbuf
      refine hrest.bind fun rs => Triple.pure fun w h => ?_
      rw [h, onlyLastDropped_cons]
      exact ⟨fun h => ⟨fun _ => hret.mp hstop, h⟩, fun h => h.2⟩

theorem polling_run {s₀ s : NetCard} {l : List (Enc28j60.Call × ℕ)} (hinit : netMachine.init s₀)
    (hret : s₀.returned = true) (hs : netMachine.Steps (fun _ a => a.1.IsTraffic) s₀ l s)
    (hreturned : s.returned = true) (hquiet : Quiet s.world) :
    ∃ seen, Polling (seen ++ s.unread) seen s.world := by
  obtain ⟨seen, hseen⟩ := traffic_follows hinit hret hs hreturned
  obtain ⟨t, ht⟩ := hseen.waiting.2.2.1
  have hunread : s.unread = t := by rw [NetCard.unread, ← ht, hseen.length, List.drop_left]
  exact ⟨seen, hseen.waiting, hseen.waiting.1, by rw [hunread, ht], hquiet⟩

/-- After any packets received and sent, `process_mac` returns if no more frames arrive. Then the packet
counter is at 0 exactly if, of the packets in the chip, `PacketReceive` has made a chain of every one
before the last. -/
theorem process_mac_drains_iff {s₀ s : NetCard} {l : List (Enc28j60.Call × ℕ)} (hinit : netMachine.init s₀)
    (hret : s₀.returned = true) (hs : netMachine.Steps (fun _ a => a.1.IsTraffic) s₀ l s)
    (hreturned : s.returned = true) (hquiet : Quiet s.world) (env : MacEnv) (myRecvbuf : ℕ → Byte) {fuel : ℕ}
    (hfuel : s.unread.length < fuel) :
    ∃ r w, (processMac env fuel 0 myRecvbuf).exec s.world = (some r, w) ∧
      (w.chip.get epktcnt = 0 ↔
        ∀ k f, s.unread[k]? = some f → k + 1 < s.unread.length → Becomes (env.alloc k) f) := by
  obtain ⟨seen, hpolling⟩ := polling_run hinit hret hs hreturned hquiet
  obtain ⟨r, w, hexec, hdrained⟩ := (polling_loop (R := fun _ => False) hfuel 0 myRecvbuf).total hpolling
  refine ⟨r, w, hexec, hdrained.trans ?_⟩
  simp only [OnlyLastDropped, Nat.zero_add]

/-- A good and a bad frame arrive at the end of the first call, and the link changes from then on. -/
def twoFrames (n : ℕ) : List HwEvent :=
  if n < 162 then []
  else if n = 162 then [.frame sampleFrame, .frame ⟨[4, 0xA, 0xB, 0xC, 0xD], 0, [0], by decide, by decide⟩]
  else [.interrupt 0]

/-- The pool has two buffers, or at the first call none. -/
def twoBuffers (first : Bool) : MacEnv where
  alloc i := if i = 0 ∧ first = false then fun _ => none else pbufAlloc [#v[0, 0], #v[0, 0]]
  input _ _ := .ok
  stale _ _ := 0

theorem twoFrames_run : ((netMachine.run (promptStart twoFrames) [(.send [1, 2, 3], 1)]).map fun s =>
      (s.returned, (s.world.script 0).length, s.unread.map fun f => (f.data.length, f.status))) =
    some (true, 3, [(7, 0x0080), (5, 0)]) := by
  decide +kernel

theorem later_promptStart (script : ℕ → List HwEvent) :
    Later (promptWorld script).script (promptStart script).world := by
  have hinit := ahead_init (ahead_later _) 1 (fun _ => 0) (promptWorld script) (later_self _)
  rw [promptStart]
  split at hinit <;> rename_i heq <;> rw [heq] <;> exact hinit

/-- The card after that call, with both frames pending; no other is to come. -/
theorem two_pending : ∃ s₀ s, netMachine.init s₀ ∧ s₀.returned = true ∧
    netMachine.Steps (fun _ a => a.1.IsTraffic) s₀ [(.send [1, 2, 3], 1)] s ∧ s.returned = true ∧
    Quiet s.world ∧ ∃ f g, s.unread = [f, g] ∧ (f.data.length = 7 ∧ f.status = 0x0080) ∧ g.status = 0 := by
  have hstart := later_promptStart twoFrames
  have hscript : ∀ n, (promptWorld twoFrames).script n =
      twoFrames n ++ [.status (regOf estat) 0x01, .status (regOf mistat) 0x00] := fun _ => by rw [promptWorld]
  have hrun := twoFrames_run
  have hinit := promptStart_init twoFrames
  generalize promptStart twoFrames = s₀ at hrun hinit hstart
  obtain ⟨s, hrun', hs⟩ := Option.map_eq_some_iff.mp hrun
  simp only [Prod.mk.injEq] at hs
  obtain ⟨hreturned, hlen, hunread⟩ := hs
  have hsteps : netMachine.Steps (fun _ a => a.1.IsTraffic) s₀ [(.send [1, 2, 3], 1)] s := by
    refine .of_run (fun a ha _ => .inr ⟨[1, 2, 3], ?_, by decide⟩) hrun'
    rw [List.mem_singleton.mp ha]
  refine ⟨s₀, s, hinit, returned_of_run hrun', hsteps, hreturned, ?_, ?_⟩
  · refine quiet_of_later (later_run hsteps hstart) fun k hk n e he => ?_
    rw [hk, hscript, List.length_append, twoFrames] at hlen
    -- the script is past the frames, since there is an event besides those of `promptWorld`
    have hpast : 162 < k := by
      split_ifs at hlen with h₁ h₂
      · exact absurd hlen (by simp)
      · exact absurd hlen (by simp)
      · omega
    rw [hscript, twoFrames, if_neg (by omega), if_neg (by omega)] at he
    simp only [List.mem_append, List.mem_cons, List.not_mem_nil, or_false] at he
    rintro f rfl
    simp at he
  · obtain ⟨f, t, hf, hf', ht⟩ := List.map_eq_cons_iff.mp hunread
    obtain ⟨g, t', hg, hg', ht'⟩ := List.map_eq_cons_iff.mp ht
    simp only [Prod.mk.injEq] at hf' hg'
    refine ⟨f, g, ?_, hf', hg'.2⟩
    rw [hf, hg, List.map_eq_nil_iff.mp ht']

/-- The good frame is taken, and the bad one ends the loop as the last. -/
theorem process_mac_drains_two : ∃ s₀ s r w, netMachine.init s₀ ∧ s.unread.length = 2 ∧
    netMachine.Steps (fun _ a => a.1.IsTraffic) s₀ [(.send [1, 2, 3], 1)] s ∧
    (processMac (twoBuffers true) 3 0 fun _ => 0).exec s.world = (some r, w) ∧ w.chip.get epktcnt = 0 := by
  obtain ⟨s₀, s, hinit, hret, hsteps, hreturned, hquiet, f, g, hunread, hf, -⟩ := two_pending
  have hfuel : s.unread.length < 3 := by rw [hunread]; exact Nat.lt_succ_self 2
  obtain ⟨r, w, hexec, hdrained⟩ := process_mac_drains_iff hinit hret hsteps hreturned hquiet (twoBuffers true)
    (fun _ => 0) hfuel
  refine ⟨s₀, s, r, w, hinit, by rw [hunread]; rfl, hsteps, hexec, hdrained.mpr fun k f' hget hk => ?_⟩
  rw [hunread, List.length_cons, List.length_singleton] at hk
  obtain rfl : k = 0 := by omega
  rw [hunread] at hget
  obtain rfl := Option.some.inj hget
  rw [Becomes, hf.1, hf.2]
  decide

/-- There is no buffer for the good frame, so the loop ends with the bad one still in the chip. -/
theorem process_mac_stops : ∃ s₀ s r w, netMachine.init s₀ ∧ s₀.returned = true ∧
    netMachine.Steps (fun _ a => a.1.IsTraffic) s₀ [(.send [1, 2, 3], 1)] s ∧ s.returned = true ∧
    Quiet s.world ∧ (processMac (twoBuffers false) 3 0 fun _ => 0).exec s.world = (some r, w) ∧
    w.chip.get epktcnt ≠ 0 := by
  obtain ⟨s₀, s, hinit, hret, hsteps, hreturned, hquiet, f, g, hunread, -, -⟩ := two_pending
  obtain ⟨seen, hpolling⟩ := polling_run hinit hret hsteps hreturned hquiet
  have hfuel : s.unread.length < 3 := by rw [hunread]; exact Nat.lt_succ_self 2
  have hloop : Triple (Polling (seen ++ s.unread) seen) (processMac (twoBuffers false) 3 0 fun _ => 0)
      (fun _ w => w.chip.get epktcnt = 0 ↔ OnlyLastDropped (twoBuffers false) 0 s.unread) fun _ => False :=
    polling_loop hfuel 0 fun _ => 0
  obtain ⟨r, w, hexec, hdrained⟩ := hloop.total hpolling
  refine ⟨s₀, s, r, w, hinit, hret, hsteps, hreturned, hquiet, hexec, fun hzero => ?_⟩
  have hbecomes := hdrained.mp hzero 0 f (by rw [hunread]; rfl) (by rw [hunread]; exact Nat.lt_succ_self 1)
  exact Bool.noConfusion hbecomes.2.2

end LoraGateway.Netif
