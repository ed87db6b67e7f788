import LoraGateway.Core.IpReassRun
import LoraGateway.Lib.Spans

/-!
# What is handed up

A datagram that is handed up is put together from fragments that came, from the first one to the last, one behind the
other (`reass_whole`). But there may be a hole in it, in front of the fragment that came last, if that is neither
the first nor the last of the datagram. The length in the header counts the bytes of the hole, and the data do not
have them.
-/

namespace LoraGateway.Core

open Lib

variable {β : Type} {s s' : ReassSys β} {a : ReassAct β} {p q : Packet β} {before after : List (Helper β)}
  {came : List (Packet β)} {d : ReassData β}

/-- The bytes that are missing in front of the fragment. -/
def hole (before : List (Helper β)) (p : Packet β) : ℕ :=
  p.hdr.start - (before.getLast?.map Helper.stop).getD p.hdr.start

/-- A fragment that came, with its helper. -/
structure Helper.Of (h : Helper β) (came : List (Packet β)) (q : Packet β) : Prop where
  self : h = h.pbuf.helper
  came : h.pbuf ∈ came
  key : h.pbuf.hdr.key = q.hdr.key
  hl : h.pbuf.hdr.hl * 4 = ipHlen

/-- The datagram `q` is put together from these fragments. -/
structure Assembled (came : List (Packet β)) (q : Packet β) (before : List (Helper β)) (p : Packet β)
    (after : List (Helper β)) : Prop where
  of : ∀ h ∈ before ++ p.helper :: after, h.Of came q
  data : (∀ h ∈ before ++ p.helper :: after, ipHlen ≤ h.pbuf.hdr.len.toNat) →
    q.data = (before ++ p.helper :: after).flatMap fun h => h.pbuf.data
  bufs : q.bufs = (before ++ p.helper :: after).flatMap fun h => h.pbuf.bufs
  first : ∀ h ∈ (before ++ p.helper :: after).head?, h.start = 0 ∧
    q.hdr = ({ h.pbuf.hdr with len := q.hdr.len, offset := 0 } : IpHdr).withChksum
  chains : before.IsChain Touches ∧ (p.helper :: after).IsChain Touches
  behind : ∀ h ∈ before.getLast?, h.stop ≤ p.hdr.start
  last : after = [] → hole before p = 0
  len : q.hdr.len = BitVec.ofNat 16 ((after.getLast?.getD p.helper).stop + ipHlen)

/-- A packet is as long as its header says. -/
def Packet.Trimmed (p : Packet β) : Prop := p.hdr.len.toNat = ipHlen + p.data.length

theorem dataLen_eq (hlen : p.Trimmed) (hhl : p.hdr.hl * 4 = ipHlen) : p.hdr.dataLen = p.data.length := by
  unfold Packet.Trimmed ipHlen at hlen
  have hlt := p.hdr.len.isLt
  rw [IpHdr.dataLen, hhl, ipHlen, BitVec.toNat_sub, BitVec.toNat_ofNat]
  omega

theorem Helper.Of.stop {h : Helper β} (hof : h.Of came q) (hlen : h.pbuf.Trimmed) :
    h.start + h.pbuf.data.length ≡ h.stop [MOD 65536] := by
  have hstop : h.stop = (h.start + h.pbuf.hdr.dataLen) % 65536 := by rw [hof.self]; rfl
  rw [hstop, dataLen_eq hlen hof.hl]
  exact (Nat.mod_modEq _ _).symm

theorem Assembled.length (h : Assembled came q before p after)
    (hlen : ∀ h ∈ before ++ p.helper :: after, h.pbuf.Trimmed) :
    q.hdr.len = BitVec.ofNat 16 (ipHlen + (q.data.length + hole before p)) := by
  have hspan : ∀ h ∈ before ++ p.helper :: after, h.start + h.pbuf.data.length ≡ h.stop [MOD 65536] :=
    fun a ha => (h.of a ha).stop (hlen a ha)
  have hbehind := span_sum (fun a ha => hspan a (List.mem_append_right _ ha)) h.chains.2
  have hbefore : (before.map fun h => h.pbuf.data.length).sum + hole before p ≡ p.hdr.start [MOD 65536] := by
    cases hb : before with
    | nil =>
      have hstart := (h.first p.helper (by rw [hb]; rfl)).1
      rw [hole, List.getLast?_nil, Option.map_none, Option.getD_none, Nat.sub_self]
      rw [show p.hdr.start = 0 from hstart]
      rfl
    | cons first rest =>
      have hstart := (h.first first (by rw [hb]; rfl)).1
      have hchain := h.chains.1
      rw [hb] at hchain
      have hsum := span_sum (fun a ha => hspan a (by rw [hb]; exact List.mem_append_left _ ha)) hchain
      rw [hstart, Nat.zero_add] at hsum
      have hle := h.behind (rest.getLast?.getD first) (by rw [hb, List.getLast?_cons]; rfl)
      rw [hole, List.getLast?_cons, Option.map_some, Option.getD_some]
      refine (hsum.add_right _).trans ?_
      rw [Nat.add_sub_cancel' hle]
  have hdata : q.data.length = (before.map fun h => h.pbuf.data.length).sum +
      ((p.helper :: after).map fun h => h.pbuf.data.length).sum := by
    have hlong : ∀ h ∈ before ++ p.helper :: after, ipHlen ≤ h.pbuf.hdr.len.toNat := fun a ha => by
      have htrimmed := hlen a ha
      unfold Packet.Trimmed at htrimmed
      omega
    rw [h.data hlong, List.length_flatMap, List.map_append, List.sum_append]
  rw [h.len]
  apply BitVec.eq_of_toNat_eq
  rw [BitVec.toNat_ofNat, BitVec.toNat_ofNat, Nat.add_comm]
  apply Nat.ModEq.add_left
  refine hbehind.symm.trans ?_
  rw [hdata, Nat.add_right_comm]
  exact (hbefore.symm.add_right _)

theorem catPbufs_eq [PbufAddr β] {l : List (Helper β)} (hlong : ∀ h ∈ l, ipHlen ≤ h.pbuf.hdr.len.toNat) :
    catPbufs l = l.flatMap fun h => h.pbuf.data := by
  induction l with
  | nil => rfl
  | cons r next ih =>
    rw [catPbufs, Helper.shown, if_pos (hlong r List.mem_cons_self), ih fun a ha => hlong a (List.mem_cons_of_mem r ha),
      List.flatMap_cons]

theorem datagram_data [PbufAddr β] (hlong : ∀ h ∈ d.p, ipHlen ≤ h.pbuf.hdr.len.toNat) :
    d.datagram.data = d.p.flatMap fun h => h.pbuf.data := by
  rw [ReassData.datagram]
  cases hp : d.p with
  | nil => rfl
  | cons p r =>
    rw [hp] at hlong
    have hzero : ipHlen - p.pbuf.hdr.len.toNat = 0 := Nat.sub_eq_zero_of_le (hlong p List.mem_cons_self)
    simp only [hzero, List.drop_zero, catPbufs_eq fun a ha => hlong a (List.mem_cons_of_mem p ha), List.flatMap_cons]

/-! ## Runs -/

/-- Where everything comes from that is held and has been handed up. -/
structure ReassSys.Known (s : ReassSys β) : Prop extends s.Accounted where
  assembled : ∀ q ∈ s.handed, ∃ before p after, Assembled s.came q before p after

theorem Assembled.mono (h : Assembled came q before p after) (came' : List (Packet β)) :
    Assembled (came ++ came') q before p after :=
  { h with of := fun a ha => { h.of a ha with came := List.mem_append_left _ (h.of a ha).came } }

theorem Whole.assembled [PbufAddr β] {r : Reass β} (h : Whole r p q d before after)
    (hcame : ∀ a ∈ before ++ p.helper :: after, a.pbuf ∈ came ∧ a.pbuf.hdr.hl * 4 = ipHlen) :
    Assembled came q before p after := by
  rw [h.datagram]
  constructor
  · intro a ha
    obtain ⟨hself, hkey, -⟩ := h.fine.helper a ha
    exact ⟨hself, (hcame a ha).1, hkey, (hcame a ha).2⟩
  · exact fun hlong => datagram_data hlong
  · rfl
  · intro a ha
    have hstart := h.complete.first a ha
    refine ⟨hstart, ?_⟩
    rw [← h.fine.first a ha (.inl hstart)]
    rfl
  · exact ⟨h.complete.passed.1, h.complete.behind⟩
  · intro a ha
    exact (h.fits.passed a (List.mem_of_getLast? ha)).2
  · intro hnil
    have hchain := h.complete.passed.2 hnil
    rw [isChain_concat] at hchain
    rw [hole]
    cases hlast : before.getLast? with
    | none => exact Nat.sub_self _
    | some a =>
      have htouch := hchain.2 a hlast
      rw [Option.map_some, Option.getD_some, htouch]
      exact Nat.sub_self _
  · show BitVec.ofNat 16 ((d.datagramLen + ipHlen) % 65536) = _
    rw [h.endsRight.2]
    apply BitVec.eq_of_toNat_eq
    rw [BitVec.toNat_ofNat, BitVec.toNat_ofNat, Nat.mod_mod]

theorem known_step [PbufAddr β] (h : s.Known) (ha : s.ok a) (hstep : s.step a = some s') : s'.Known := by
  have haccounted := accounted_step h.toAccounted ha hstep
  cases a with
  | input p =>
    obtain ⟨⟨reass, r⟩, hrun, rfl⟩ := Option.map_eq_some_iff.mp hstep
    have hleaves := ipReass_ok h.ok ha hrun
    refine ⟨haccounted, fun q hq => ?_⟩
    rcases List.mem_append.mp hq with hq | hq
    · obtain ⟨before, p', after, hassembled⟩ := h.assembled q hq
      exact ⟨before, p', after, hassembled.mono [p]⟩
    · have hr := Option.mem_toList.mp hq
      obtain ⟨d, before, after, hwhole⟩ := hleaves.whole q hr
      have hhl : p.hdr.hl * 4 = ipHlen := by
        by_contra hhl
        rw [Reass.ipReass, if_pos hhl] at hrun
        obtain ⟨rfl, rfl⟩ := Prod.mk.inj (Option.some.inj hrun)
        exact absurd hr (Option.not_mem_none q)
      refine ⟨before, p, after, hwhole.assembled fun a ha => ?_⟩
      have hnew : p ∈ s.came ++ [p] := by simp
      have hother : a ∈ before ++ after ∨ a = p.helper := by
        rcases List.mem_append.mp ha with ha | ha
        · exact .inl (List.mem_append_left _ ha)
        · rcases List.mem_cons.mp ha with rfl | ha
          · exact .inr rfl
          · exact .inl (List.mem_append_right _ ha)
      rcases hother with ha | rfl
      · rcases hwhole.helper a ha with ⟨d, hd, had⟩ | rfl
        · obtain ⟨hcame, hhl⟩ := h.held d hd a had
          exact ⟨List.mem_append_left _ hcame, hhl⟩
        · exact ⟨hnew, hhl⟩
      · exact ⟨hnew, hhl⟩
  | tmr =>
    obtain ⟨reass, -, rfl⟩ := Option.map_eq_some_iff.mp hstep
    exact ⟨haccounted, h.assembled⟩

theorem reach_known [PbufAddr β] (hs : reassMachine.Reach ReassSys.ok s) : s.Known := by
  refine Machine.Reach.invariant ?_ ?_ hs
  · rintro _ rfl
    exact ⟨accounted_start, fun q hq => absurd hq List.not_mem_nil⟩
  · intro s a s' h ha hstep
    exact known_step h ha hstep

/-- Whatever comes in whatever order, what is handed up is put together from fragments of one datagram that came, with
the header of the first one, and has their data if none of them is shorter than its header. If these are as long as
their headers say, then the length in the header is that of the data and of the hole, if there is one. -/
theorem reass_whole [PbufAddr β] (hs : reassMachine.Reach ReassSys.ok s) (hq : q ∈ s.handed) :
    ∃ before p after, Assembled s.came q before p after ∧
      ((∀ h ∈ before ++ p.helper :: after, h.pbuf.Trimmed) →
        q.hdr.len = BitVec.ofNat 16 (ipHlen + (q.data.length + hole before p))) := by
  obtain ⟨before, p, after, hassembled⟩ := (reach_known hs).assembled q hq
  exact ⟨before, p, after, hassembled, hassembled.length⟩

/-- The second of four fragments has not come, and the datagram is handed up without its 8 bytes. -/
theorem reass_whole_three : ∃ (s : ReassSys (BitVec 16 × ℕ)) (q : Packet (BitVec 16 × ℕ)), reassMachine.run .start
      [.input (shortFragment 7 0x2000 1), .input (shortFragment 7 3 1), .input (shortFragment 7 0x2002 1)] = some s ∧
    q ∈ s.handed ∧ q.data.length = 24 ∧ q.hdr.len = 52 ∧ ∃ before p after, Assembled s.came q before p after := by
  obtain ⟨s, q, hrun, hq, hdata, hlen⟩ : ∃ (s : ReassSys (BitVec 16 × ℕ)) (q : Packet (BitVec 16 × ℕ)), reassMachine.run .start
      [.input (shortFragment 7 0x2000 1), .input (shortFragment 7 3 1), .input (shortFragment 7 0x2002 1)] = some s ∧
      q ∈ s.handed ∧ q.data.length = 24 ∧ q.hdr.len = 52 := ⟨_, _, rfl, List.mem_cons_self, rfl, rfl⟩
  have hreach := reach_of_run (by simp [ReassSys.ok, counted_short]) hrun
  obtain ⟨before, p, after, hassembled, -⟩ := reass_whole hreach hq
  exact ⟨s, q, hrun, hq, hdata, hlen, before, p, after, hassembled⟩

/-- The second of two fragments has a length of 12, and its helper goes to the data with 4 bytes of its header. -/
example : (reassMachine.run .start [.input (shortFragment 7 0x2000 1),
      .input ⟨⟨0x45, 0, 12, 7, 1, 64, 17, 0, 1, 2⟩, [], [(7, 1)]⟩]).map (fun s => s.handed.map Packet.data) =
    some [List.replicate 8 0 ++ [0, 0, 0, 0, 8, 0, 0, 0] ++ [64, 17, 0, 0]] := rfl

end LoraGateway.Core
