import LoraGateway.Core.IpReassStep
import LoraGateway.Lib.Machine

/-!
# Runs of the reassembly

Fragments from anybody in any order, and ticks. The pbufs are counted right and bounded, whatever comes
(`reass_accounts`), the oldest datagrams make room for others (`reass_evicts`), and none is kept for more than three
ticks, even if fragments of it keep coming (`reass_expires`).

The search for the oldest datagram takes the one in front of the last one of the list for its predecessor, which is
wrong where the fragment belongs to the last one. Then the assertion about `prev` fails, and the stack is at an end.
-/

namespace LoraGateway.Core

open Lib

/-- The reassembly, the packets that came, and the datagrams that have been handed up. -/
structure ReassSys (β : Type) where
  reass : Reass β
  came : List (Packet β)
  handed : List (Packet β)

inductive ReassAct (β : Type)
  | input (p : Packet β)
  | tmr

variable {β : Type}

def ReassAct.isTick : ReassAct β → Bool
  | .input _ => false
  | .tmr => true

namespace ReassSys

def start : ReassSys β := ⟨⟨[], 0, [], []⟩, [], []⟩

def step [PbufAddr β] (s : ReassSys β) : ReassAct β → Option (ReassSys β)
  | .input p => (s.reass.ipReass p).map fun (reass, r) => ⟨reass, s.came ++ [p], s.handed ++ r.toList⟩
  | .tmr => s.reass.ipReassTmr.map fun reass => { s with reass := reass }

/-- A packet has a pbuf, and no more than the pool. -/
def ok (_ : ReassSys β) : ReassAct β → Prop
  | .input p => p.Counted
  | .tmr => True

end ReassSys

def reassMachine [PbufAddr β] : Machine (ReassSys β) (ReassAct β) where
  init s := s = .start
  step := ReassSys.step

/-- The pbufs that are freed, held or handed up are those that came, each as often as it came, and the fragments that are
held or quoted are of those packets. -/
structure ReassSys.Accounted (s : ReassSys β) : Prop where
  ok : s.reass.Ok
  held : ∀ d ∈ s.reass.reassdatagrams, ∀ h ∈ d.p, h.pbuf ∈ s.came ∧ h.pbuf.hdr.hl * 4 = ipHlen
  quoted : ∀ hdr ∈ s.reass.exceeded, hdr.start = 0 ∧ ∃ p ∈ s.came, p.hdr = hdr
  all : (s.reass.all ++ s.handed.flatMap Packet.bufs).Perm (s.came.flatMap Packet.bufs)

variable {s s' : ReassSys β} {a : ReassAct β} {p : Packet β} {l : List (ReassAct β)}

theorem accounted_start : (ReassSys.start : ReassSys β).Accounted := by
  refine ⟨⟨⟨.nil, .nil, ?_, Nat.zero_le _, rfl, Nat.zero_le _, ?_⟩, ?_, ?_⟩, ?_, ?_, .nil⟩ <;>
    intro x hx <;> exact absurd hx List.not_mem_nil

theorem flatMap_toList (r : Option (Packet β)) : r.toList.flatMap Packet.bufs = handedUp r := by
  cases r with
  | none => rfl
  | some q => exact List.flatMap_singleton Packet.bufs q

theorem ReassSys.Accounted.quoted_step (h : s.Accounted) {reass : Reass β} (hquoted : Quoted s.reass reass)
    {came : List (Packet β)} (hcame : ∀ p ∈ s.came, p ∈ came) :
    ∀ hdr ∈ reass.exceeded, hdr.start = 0 ∧ ∃ p ∈ came, p.hdr = hdr := by
  intro hdr hhdr
  rcases hquoted hdr hhdr with hold | ⟨hstart, d, hd, a, ha, rfl⟩
  · obtain ⟨hstart, p, hp, hph⟩ := h.quoted hdr hold
    exact ⟨hstart, p, hcame p hp, hph⟩
  · exact ⟨hstart, a.pbuf, hcame a.pbuf (h.held d hd a ha).1, rfl⟩

theorem ReassSys.Accounted.held_step [PbufAddr β] (h : s.Accounted) {reass : Reass β} {r : Option (Packet β)}
    (hrun : s.reass.ipReass p = some (reass, r)) (hgrown : Grown s.reass reass p) :
    ∀ d ∈ reass.reassdatagrams, ∀ a ∈ d.p, a.pbuf ∈ s.came ++ [p] ∧ a.pbuf.hdr.hl * 4 = ipHlen := by
  have hold : ∀ d ∈ s.reass.reassdatagrams, ∀ a ∈ d.p, a.pbuf ∈ s.came ++ [p] ∧ a.pbuf.hdr.hl * 4 = ipHlen := by
    intro d hd a ha
    obtain ⟨hcame, hhl⟩ := h.held d hd a ha
    exact ⟨List.mem_append_left _ hcame, hhl⟩
  by_cases hhl : p.hdr.hl * 4 = ipHlen
  · have hnew : p ∈ s.came ++ [p] := by simp
    intro d' hd' a ha
    rcases hgrown d' hd' with ⟨d, hd, hgrows⟩ | ⟨-, -, hp⟩
    · rcases hgrows.helper a ha with ha | rfl
      · exact hold d hd a ha
      · exact ⟨hnew, hhl⟩
    · rw [hp a ha]
      exact ⟨hnew, hhl⟩
  · rw [Reass.ipReass, if_pos hhl] at hrun
    obtain ⟨rfl, rfl⟩ := Prod.mk.inj (Option.some.inj hrun)
    exact hold

theorem accounted_step [PbufAddr β] (h : s.Accounted) (ha : s.ok a) (hstep : s.step a = some s') : s'.Accounted := by
  cases a with
  | input p =>
    obtain ⟨⟨reass, r⟩, hrun, rfl⟩ := Option.map_eq_some_iff.mp hstep
    have hleaves := ipReass_ok h.ok ha hrun
    refine ⟨hleaves.ok, h.held_step hrun hleaves.grown, h.quoted_step hleaves.quoted fun q hq => List.mem_append_left _ hq,
      ?_⟩
    show (reass.all ++ (s.handed ++ r.toList).flatMap Packet.bufs).Perm ((s.came ++ [p]).flatMap Packet.bufs)
    rw [List.flatMap_append, List.flatMap_append, List.flatMap_singleton, flatMap_toList]
    have hswap : (reass.all ++ (s.handed.flatMap Packet.bufs ++ handedUp r)).Perm
        (reass.all ++ handedUp r ++ s.handed.flatMap Packet.bufs) := by
      rw [List.append_assoc]
      exact List.perm_append_comm.append_left _
    refine hswap.trans ((hleaves.all.append_right _).trans (.trans ?_ (h.all.append_right _)))
    rw [List.append_assoc, List.append_assoc]
    exact List.perm_append_comm.append_left _
  | tmr =>
    obtain ⟨reass, hrun, rfl⟩ := Option.map_eq_some_iff.mp hstep
    obtain ⟨reass', hrun', hl, hok, hall, hquoted⟩ := ipReassTmr_spec h.ok
    obtain rfl := Option.some.inj (hrun'.symm.trans hrun)
    refine ⟨hok, fun d' hd' a ha => ?_, h.quoted_step hquoted fun q hq => hq, (hall.append_right _).trans h.all⟩
    rw [hl] at hd'
    obtain ⟨d, hd, rfl⟩ := List.mem_map.mp hd'
    exact h.held d (List.mem_of_mem_filter hd) a ha

theorem reach_accounted [PbufAddr β] (hs : reassMachine.Reach ReassSys.ok s) : s.Accounted := by
  refine Machine.Reach.invariant ?_ ?_ hs
  · rintro _ rfl
    exact accounted_start
  · intro s a s' h ha hstep
    exact accounted_step h ha hstep

/-! ## What is held -/

/-- The pbufs of the datagrams under reassembly. -/
def Reass.held (s : Reass β) : List β := s.reassdatagrams.flatMap ReassData.bufs

theorem length_held {l : List (ReassData β)} (h : ∀ d ∈ l, d.Fine) :
    (l.flatMap ReassData.bufs).length = (l.map ReassData.clen).sum := by
  induction l with
  | nil => rfl
  | cons d l ih =>
    rw [List.flatMap_cons, List.length_append, List.map_cons, List.sum_cons,
      ih fun x hx => h x (List.mem_cons_of_mem d hx), (h d List.mem_cons_self).clen]

/-- Whatever comes, in whatever order: every pbuf that came is freed, held or handed up, just once, those that are held
are counted and at most 10, in at most 5 datagrams that differ in address or number, and an exceeded time is
reported for datagrams whose first fragment has come. -/
theorem reass_accounts [PbufAddr β] (hs : reassMachine.Reach ReassSys.ok s) :
    (s.reass.freed ++ s.reass.held ++ s.handed.flatMap Packet.bufs).Perm (s.came.flatMap Packet.bufs) ∧
    s.reass.pbufcount = s.reass.held.length ∧ s.reass.held.length ≤ ipReassMaxPbufs ∧
    s.reass.reassdatagrams.length ≤ memNumReassdata ∧
    (s.reass.reassdatagrams.map fun d => d.iphdr.key).Nodup ∧
    (∀ d ∈ s.reass.reassdatagrams, d.p ≠ [] ∧ ∀ h ∈ d.p, h.pbuf.hdr.key = d.iphdr.key) ∧
    ∀ hdr ∈ s.reass.exceeded, hdr.start = 0 ∧ ∃ p ∈ s.came, p.hdr = hdr := by
  obtain ⟨hok, -, hquoted, hall⟩ := reach_accounted hs
  have hlength : s.reass.pbufcount = s.reass.held.length := by
    rw [Reass.held, length_held hok.datagram]
    exact hok.count
  refine ⟨hall, hlength, hlength ▸ hok.count_le, hok.length, List.pairwise_map.mpr hok.keys, fun d hd => ?_, hquoted⟩
  exact ⟨hok.nonempty d hd, fun h hh => ((hok.datagram d hd).helper h hh).2.1⟩

instance : PbufAddr (BitVec 16 × ℕ) where
  addr b := b.1.setWidth 32 * 0x100 + BitVec.ofNat 32 b.2

/-- The fragment of 8 bytes at `8 * offset` of the datagram with that number, in `n` pbufs. -/
def shortFragment (id offset : BitVec 16) (n : ℕ) : Packet (BitVec 16 × ℕ) where
  hdr := ⟨0x45, 0, 28, id, offset, 64, 17, 0, 1, 2⟩
  data := List.replicate 8 0
  bufs := (List.range n).map fun i => (id, offset.toNat * n + i)

theorem counted_short (id offset : BitVec 16) {n : ℕ} (hpos : 0 < n) (hlt : n < 256) : (shortFragment id offset n).Counted := by
  constructor <;> rw [shortFragment, List.length_map, List.length_range]
  · exact hpos
  · exact hlt

theorem reach_of_run [PbufAddr β] (hl : ∀ a ∈ l, ∀ s : ReassSys β, s.ok a) (hrun : reassMachine.run .start l = some s) :
    reassMachine.Reach ReassSys.ok s := .steps (.init rfl) (.of_run hl hrun)

theorem reass_accounts_two : ∃ s : ReassSys (BitVec 16 × ℕ),
    reassMachine.run .start [.input (shortFragment 7 1 1), .tmr, .input (shortFragment 8 0x2000 2)] = some s ∧
      (s.reass.freed ++ s.reass.held ++ s.handed.flatMap Packet.bufs).Perm (s.came.flatMap Packet.bufs) ∧
      s.reass.pbufcount = 3 := by
  have hreach := reach_of_run
    (l := [.input (shortFragment 7 1 1), .tmr, .input (shortFragment 8 0x2000 2)]) (s := _) ?_ rfl
  · exact ⟨_, rfl, (reass_accounts hreach).1, rfl⟩
  · simp [ReassSys.ok, counted_short]

/-! ## What goes to make room -/

/-- Where a fragment is too much: the oldest of the other datagrams go, no more than are needed, and the fragment goes
itself if that is not enough. But if the datagram of the fragment is not the youngest, and those older than it are not
enough, then the assertion about `prev` fails. -/
theorem reass_evicts [PbufAddr β] (hs : reassMachine.Reach ReassSys.ok s) (hp : p.Counted) (hhl : p.hdr.hl * 4 = ipHlen)
    (hfull : ipReassMaxPbufs < s.reass.pbufcount + p.clen) :
    (s.reass.removeOldestDatagram p.hdr p.clen = none ↔ Stuck p.hdr p.clen s.reass.reassdatagrams) ∧
    (Stuck p.hdr p.clen s.reass.reassdatagrams → s.reass.ipReass p = none) ∧
    (¬ Stuck p.hdr p.clen s.reass.reassdatagrams → ∃ s' freed kept gone,
      s.reass.removeOldestDatagram p.hdr p.clen = some (s', freed) ∧
        MadeRoom p.hdr p.clen s.reass s' freed kept gone ∧
        (freed = 0 ∨ ipReassMaxPbufs < s'.pbufcount + p.clen → s.reass.ipReass p = some (s'.nullReturn p))) := by
  have hok := (reach_accounted hs).ok
  have hpos : 0 < p.clen := by
    rw [hp.clen]
    exact hp.1
  rcases removeOldest_spec hok p.hdr hpos with ⟨hstuck, hnone⟩ | ⟨s', freed, kept, gone, hrun, hmade⟩
  · refine ⟨iff_of_true hnone hstuck, fun _ => ?_, fun hno => absurd hstuck hno⟩
    rw [Reass.ipReass, if_neg (not_not.mpr hhl), Reass.makeRoom, if_pos hfull, hnone]
    rfl
  · have hno := hmade.not_stuck hok
    refine ⟨iff_of_false (by rw [hrun]; exact Option.some_ne_none _) hno, fun hstuck => absurd hstuck hno, fun _ => ?_⟩
    refine ⟨s', freed, kept, gone, hrun, hmade, fun hroom => ?_⟩
    have hdecide : decide (freed ≠ 0 ∧ s'.pbufcount + p.clen ≤ ipReassMaxPbufs) = false := by
      apply decide_eq_false
      omega
    rw [Reass.ipReass, if_neg (not_not.mpr hhl), Reass.makeRoom, if_pos hfull, hrun]
    simp only [Option.map_some, Option.bind_some, hdecide]
    rfl

/-- The second fragment of the older of two datagrams is one too many. -/
theorem reass_evicts_stuck : ∃ s : ReassSys (BitVec 16 × ℕ),
    reassMachine.run .start [.input (shortFragment 7 0x2000 5), .input (shortFragment 8 0x2000 5)] = some s ∧
      s.reass.ipReass (shortFragment 7 1 1) = none := by
  have hreach := reach_of_run
    (l := [.input (shortFragment 7 0x2000 5), .input (shortFragment 8 0x2000 5)]) (s := _) ?_ rfl
  · have hcounted := counted_short 7 1 (n := 1) (by omega) (by omega)
    refine ⟨_, rfl, (reass_evicts hreach hcounted rfl (by decide)).2.1 ?_⟩
    exact ⟨[_], _, [], rfl, List.cons_ne_nil _ _, fun hother => hother rfl, by decide⟩
  · simp [ReassSys.ok, counted_short]

/-! ## What takes too long -/

/-- A datagram with that key is under reassembly. -/
def ReassSys.Held (s : ReassSys β) (key : BitVec 32 × BitVec 32 × BitVec 16) : Prop :=
  ∃ d ∈ s.reass.reassdatagrams, d.iphdr.key = key

variable {key : BitVec 32 × BitVec 32 × BitVec 16}

/-- A step keeps the timer of a datagram, and a tick takes one from it. -/
theorem timer_step [PbufAddr β] (h : s.Accounted) (ha : s.ok a) (hstep : s.step a = some s') (hheld : s.Held key) {d' : ReassData β}
    (hd' : d' ∈ s'.reass.reassdatagrams) (hkey : d'.iphdr.key = key) :
    ∃ d ∈ s.reass.reassdatagrams, d.iphdr.key = key ∧ d.timer = d'.timer + if a.isTick then 1 else 0 := by
  cases a with
  | input p =>
    obtain ⟨⟨reass, r⟩, hrun, rfl⟩ := Option.map_eq_some_iff.mp hstep
    rcases (ipReass_ok h.ok ha hrun).grown d' hd' with ⟨d, hd, hgrows⟩ | ⟨hnew, hnone, -⟩
    · exact ⟨d, hd, hgrows.key.trans hkey, hgrows.timer⟩
    · obtain ⟨d, hd, hold⟩ := hheld
      exact absurd (hold.trans (hkey.symm.trans hnew)) (hnone d hd)
  | tmr =>
    obtain ⟨reass, hrun, rfl⟩ := Option.map_eq_some_iff.mp hstep
    obtain ⟨reass', hrun', hl, -⟩ := ipReassTmr_spec h.ok
    obtain rfl := Option.some.inj (hrun'.symm.trans hrun)
    rw [hl] at hd'
    obtain ⟨d, hd, rfl⟩ := List.mem_map.mp hd'
    refine ⟨d, List.mem_of_mem_filter hd, hkey, ?_⟩
    have hpos := of_decide_eq_true (List.mem_filter.mp hd).2
    exact (Nat.sub_add_cancel hpos).symm

theorem timer_steps [PbufAddr β] (h : s.Accounted) (hsteps : reassMachine.Steps ReassSys.ok s l s')
    (hheld : reassMachine.Always (ReassSys.Held · key) s l) :
    ∃ d ∈ s.reass.reassdatagrams, d.iphdr.key = key ∧ l.countP ReassAct.isTick ≤ d.timer := by
  induction hsteps with
  | nil s =>
    obtain ⟨d, hd, hkey⟩ := hheld.now
    exact ⟨d, hd, hkey, Nat.zero_le _⟩
  | cons ha hstep _ ih =>
    obtain ⟨d', hd', hkey', hle⟩ := ih (accounted_step h ha hstep) (hheld.2 _ hstep)
    obtain ⟨d, hd, hkey, htimer⟩ := timer_step h ha hstep hheld.now hd' hkey'
    refine ⟨d, hd, hkey, ?_⟩
    rw [List.countP_cons, htimer]
    omega

/-- No datagram stays under reassembly for more than three ticks, however many fragments of it come. -/
theorem reass_expires [PbufAddr β] (hs : reassMachine.Reach ReassSys.ok s) (hsteps : reassMachine.Steps ReassSys.ok s l s')
    (hheld : reassMachine.Always (ReassSys.Held · key) s l) : l.countP ReassAct.isTick ≤ ipReassMaxage := by
  have haccounted := reach_accounted hs
  obtain ⟨d, hd, -, hle⟩ := timer_steps haccounted hsteps hheld
  exact hle.trans (haccounted.ok.maxage d hd)

/-- Three ticks it does stay. -/
theorem reass_expires_three : ∃ s s' : ReassSys (BitVec 16 × ℕ),
    reassMachine.run .start [.input (shortFragment 7 1 1)] = some s ∧
      reassMachine.run s [.tmr, .tmr, .input (shortFragment 7 3 1), .tmr] = some s' ∧
      s'.reass.held.length = 2 ∧ 3 ≤ ipReassMaxage := by
  have hreach := reach_of_run (l := [.input (shortFragment 7 1 1)]) (s := _) ?_ rfl
  · refine ⟨_, _, rfl, rfl, rfl, ?_⟩
    refine reass_expires hreach (.of_run ?_ rfl) (show reassMachine.Always (ReassSys.Held · (1, 2, 7)) _
      [.tmr, .tmr, .input (shortFragment 7 3 1), .tmr] from ?_)
    · simp [ReassSys.ok, counted_short]
    · refine .cons ?_ rfl (.cons ?_ rfl (.cons ?_ rfl (.cons ?_ rfl ?_))) <;> exact ⟨_, .head _, rfl⟩
  · simp [ReassSys.ok, counted_short]

end LoraGateway.Core
