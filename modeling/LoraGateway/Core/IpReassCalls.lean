import LoraGateway.Core.IpReass
import Mathlib.Data.List.Chain

/-!
# What the calls of the reassembly do

Where a fragment goes (`findPlace_spec`), when a datagram counts as complete (`chainFrag_spec`), and which
datagrams go to make room (`removeLoop_spec`).

The loop that looks for the place checks for holes as it passes, but not the hole that it leaves between the
fragment it stops behind and the new one. So a datagram counts as complete that has a hole there.
-/

namespace LoraGateway.Core

open Lib

variable {β : Type} {d : ReassData β} {p : Packet β} {iphdr fraghdr : IpHdr} {s : Reass β}

/-! ## Places -/

/-- No hole between two fragments. -/
def Touches (a b : Helper β) : Prop := a.stop = b.start

instance (a b : Helper β) : Decidable (Touches a b) := inferInstanceAs (Decidable (_ = _))

/-- The two fragments have a byte in common, or start at the same one. -/
def Clashes (a b : Helper β) : Prop :=
  a.start = b.start ∨ a.start < b.start ∧ b.start < a.stop ∨ b.start < a.start ∧ a.start < b.stop

/-- The fragments are in order. -/
def Ordered (l : List (Helper β)) : Prop := l.Pairwise fun a b => a.start < b.start

/-- The place behind `before` and in front of `after`. -/
structure Fits (iprh : Helper β) (before after : List (Helper β)) : Prop where
  passed : ∀ h ∈ before, h.start < iprh.start ∧ h.stop ≤ iprh.start
  ahead : ∀ h ∈ after, iprh.start < h.start
  next : before ≠ [] → ∀ h ∈ after.head?, iprh.stop ≤ h.start

/-- The holes that the loop has looked at on its way to that place. -/
def Passed (iprh : Helper β) (before after : List (Helper β)) : Prop :=
  before.IsChain Touches ∧ (after = [] → (before ++ [iprh]).IsChain Touches)

section place

variable {iprh q : Helper β} {before after l : List (Helper β)} {valid : Bool}

theorem isChain_concat : (before ++ [q]).IsChain Touches ↔
    before.IsChain Touches ∧ ∀ h ∈ before.getLast?, h.stop = q.start := by
  rw [List.isChain_append]
  simp [Touches]

theorem getLast_passed (hpassed : ∀ h ∈ before, h.start < iprh.start ∧ h.stop ≤ iprh.start)
    (hlast : before.getLast? = some q) : q.stop ≤ iprh.start := (hpassed q (List.mem_of_getLast? hlast)).2

theorem valid_passed (hvalid : valid = decide (before.IsChain Touches)) (q : Helper β) :
    (match before.getLast? with
      | some iprhPrev => valid && iprhPrev.stop == q.start
      | none => valid) = decide ((before ++ [q]).IsChain Touches) := by
  rw [Bool.eq_iff_iff, decide_eq_true_iff, isChain_concat, hvalid]
  cases hlast : before.getLast? with
  | none => simp
  | some prev => simp

/-- The place of a fragment in a chain that is in order: none exactly if there is a clash, as far as the loop sees. -/
theorem findPlace_spec (hordered : Ordered (before ++ l))
    (hpassed : ∀ h ∈ before, h.start < iprh.start ∧ h.stop ≤ iprh.start)
    (hvalid : valid = decide (before.IsChain Touches)) :
    (findPlace iprh before valid l = some .freepbuf ∧ (∃ h ∈ l, Clashes h iprh) ∧
      ∃ h ∈ before ++ l, h.start ≤ iprh.start) ∨
    ∃ mid after valid', l = mid ++ after ∧ findPlace iprh before valid l = some (.chained valid' (before ++ mid) after) ∧
      Fits iprh (before ++ mid) after ∧ (valid' = true ↔ Passed iprh (before ++ mid) after) := by
  induction l generalizing before valid with
  | nil =>
    right
    refine ⟨[], [], decide ((before ++ [iprh]).IsChain Touches), rfl, ?_, ?_, ?_⟩
    · rw [findPlace, List.append_nil, ← valid_passed hvalid]
      cases hlast : before.getLast? with
      | none => rfl
      | some prev => exact if_pos (getLast_passed hpassed hlast)
    · rw [List.append_nil]
      exact ⟨hpassed, by simp, by simp⟩
    · rw [List.append_nil, decide_eq_true_iff, Passed]
      constructor
      · intro hchain
        exact ⟨(isChain_concat.mp hchain).1, fun _ => hchain⟩
      · intro h
        exact h.2 rfl
  | cons q next ih =>
    have hafter : iprh.start < q.start → ∀ h ∈ q :: next, iprh.start < h.start := by
      intro hlt h hh
      rcases List.mem_cons.mp hh with rfl | hh
      · exact hlt
      · have hq := List.rel_of_pairwise_cons (List.pairwise_append.mp hordered).2.1 hh
        omega
    have hplace : iprh.start < q.start → (before ≠ [] → iprh.stop ≤ q.start) →
        Fits iprh (before ++ []) (q :: next) ∧ (valid = true ↔ Passed iprh (before ++ []) (q :: next)) := by
      intro hlt hnext
      rw [List.append_nil]
      refine ⟨⟨hpassed, hafter hlt, fun hne h hh => ?_⟩, ?_⟩
      · obtain rfl := Option.some.inj hh
        exact hnext hne
      · rw [hvalid, decide_eq_true_iff, Passed]
        simp
    rw [findPlace]
    split_ifs with hlt heq hstop
    · cases hlast : before.getLast? with
      | none =>
        right
        have hnil := List.getLast?_eq_none_iff.mp hlast
        exact ⟨[], q :: next, valid, rfl, by rw [List.append_nil], hplace hlt fun hne => absurd hnil hne⟩
      | some prev =>
        have hprev := getLast_passed hpassed hlast
        by_cases hclash : q.start < iprh.stop
        · left
          refine ⟨if_pos (.inr hclash), ⟨q, List.mem_cons_self, .inr (.inr ⟨hlt, hclash⟩)⟩, prev, ?_, ?_⟩
          · exact List.mem_append_left _ (List.mem_of_getLast? hlast)
          · exact Nat.le_of_lt (hpassed prev (List.mem_of_getLast? hlast)).1
        · right
          refine ⟨[], q :: next, valid, rfl, ?_, hplace hlt fun _ => by omega⟩
          rw [List.append_nil]
          exact if_neg (by omega)
    · left
      exact ⟨rfl, ⟨q, List.mem_cons_self, .inl heq.symm⟩, q, by simp, Nat.le_of_eq heq.symm⟩
    · left
      exact ⟨rfl, ⟨q, List.mem_cons_self, .inr (.inl ⟨by omega, hstop⟩)⟩, q, by simp, by omega⟩
    · have hpassed' : ∀ h ∈ before ++ [q], h.start < iprh.start ∧ h.stop ≤ iprh.start := by
        intro h hh
        rcases List.mem_append.mp hh with hh | hh
        · exact hpassed h hh
        · rw [List.mem_singleton.mp hh]
          omega
      rw [List.append_cons] at hordered
      rcases ih hordered hpassed' (valid_passed hvalid q) with
        ⟨hfree, ⟨h, hh, hclash⟩, hlow⟩ | ⟨mid, after, valid', rfl, hplaced, hfits, hiff⟩
      · left
        rw [← List.append_cons] at hlow
        exact ⟨hfree, ⟨h, List.mem_cons_of_mem q hh, hclash⟩, hlow⟩
      · right
        rw [← List.append_cons] at hplaced hfits hiff
        exact ⟨q :: mid, after, valid', rfl, hplaced, hfits, hiff⟩

theorem noHoles_iff : noHoles iprh l = true ↔ (iprh :: l).IsChain Touches := by
  induction l generalizing iprh with
  | nil => simp [noHoles]
  | cons q next ih =>
    rw [noHoles, List.isChain_cons_cons, ← ih, Touches]
    split_ifs with hhole
    · exact iff_of_false not_false fun h => hhole h.1
    · exact (and_iff_right (not_not.mp hhole)).symm

end place

/-! ## Complete datagrams -/

/-- The datagram with a fragment chained in. -/
def ReassData.chain (d : ReassData β) (before : List (Helper β)) (iprh : Helper β) (after : List (Helper β)) :
    ReassData β := { d with p := before ++ iprh :: after }

/-- When a datagram counts as complete that a fragment has been chained into: the last fragment has been received and
the first one is there, and there is no hole where the loops have looked. -/
structure Complete (d : ReassData β) (before : List (Helper β)) (iprh : Helper β) (after : List (Helper β)) : Prop where
  lastFrag : d.lastFrag = true
  passed : Passed iprh before after
  first : ∀ h ∈ (before ++ iprh :: after).head?, h.start = 0
  behind : (iprh :: after).IsChain Touches

/-- The assertions about a datagram that counts as complete. -/
def EndsRight (d : ReassData β) (before : List (Helper β)) (iprh : Helper β) (after : List (Helper β)) : Prop :=
  before ++ after ≠ [] ∧ (after.getLast?.getD iprh).stop = d.datagramLen

theorem chainFrag_spec (hordered : Ordered d.p) :
    (d.chainFrag p = some .freepbuf ∧ (∃ h ∈ d.p, Clashes h p.helper) ∧ ∃ h ∈ d.p, h.start ≤ p.hdr.start) ∨
    ∃ before after, d.p = before ++ after ∧ Fits p.helper before after ∧
      (¬ Complete d before p.helper after → d.chainFrag p = some (.held (d.chain before p.helper after) false)) ∧
      (Complete d before p.helper after → EndsRight d before p.helper after →
        d.chainFrag p = some (.held (d.chain before p.helper after) true)) ∧
      (Complete d before p.helper after → ¬ EndsRight d before p.helper after → d.chainFrag p = none) := by
  have hnone : true = decide (([] : List (Helper β)).IsChain Touches) := by simp
  rcases findPlace_spec (show Ordered ([] ++ d.p) from hordered) (by simp) hnone with
    ⟨hfree, hclash⟩ | ⟨before, after, valid, hp, hplaced, hfits, hvalid⟩
  · left
    refine ⟨?_, hclash⟩
    rw [ReassData.chainFrag, hfree]
    rfl
  · right
    rw [List.nil_append] at hplaced hfits hvalid
    refine ⟨before, after, hp, hfits, ?_⟩
    have hcomplete : (d.lastFrag && valid && ((before ++ p.helper :: after).head?.any fun h => h.start == 0) &&
        noHoles p.helper after) = true ↔ Complete d before p.helper after := by
      have hfirst : ((before ++ p.helper :: after).head?.any fun h => h.start == 0) = true ↔
          ∀ h ∈ (before ++ p.helper :: after).head?, h.start = 0 := by
        cases before with
        | nil => simp
        | cons h before => simp
      rw [Bool.and_eq_true, Bool.and_eq_true, Bool.and_eq_true, hfirst, noHoles_iff, hvalid]
      constructor
      · rintro ⟨⟨⟨hlast, hpassed⟩, hzero⟩, hbehind⟩
        exact ⟨hlast, hpassed, hzero, hbehind⟩
      · intro h
        exact ⟨⟨⟨h.lastFrag, h.passed⟩, h.first⟩, h.behind⟩
    have hends : ((before ++ p.helper :: after).length = 1 ∨ (after.getLast?.getD p.helper).stop ≠ d.datagramLen) ↔
        ¬ EndsRight d before p.helper after := by
      rw [EndsRight, List.length_append, List.length_cons, ← List.length_pos_iff, List.length_append, not_and_or]
      exact or_congr_left (by omega)
    simp only [ReassData.chainFrag, hplaced, Option.bind_some]
    refine ⟨fun hno => ?_, fun hyes hends' => ?_, fun hyes hends' => ?_⟩
    · exact if_neg (hcomplete.not.mpr hno)
    · exact (if_pos (hcomplete.mpr hyes)).trans (if_neg (hends.not.mpr (not_not.mpr hends')))
    · exact (if_pos (hcomplete.mpr hyes)).trans (if_pos (hends.mpr hends'))

/-! ## The invariant -/

/-- A packet that has pbufs, and not more than `pbuf_clen` can count. -/
def Packet.Counted (p : Packet β) : Prop := 0 < p.bufs.length ∧ p.bufs.length < 256

/-- The fragments of a datagram are in order, all belong to it, and the header kept is that of the first one as soon as
that is there. -/
structure ReassData.Fine (d : ReassData β) : Prop where
  ordered : Ordered d.p
  helper : ∀ h ∈ d.p, h = h.pbuf.helper ∧ h.pbuf.hdr.key = d.iphdr.key ∧ h.pbuf.Counted
  first : ∀ h ∈ d.p.head?, h.start = 0 ∨ d.iphdr.start = 0 → d.iphdr = h.pbuf.hdr

/-- No two datagrams match the same fragments, the younger ones are in front, and the number of pbufs is right and
within the bound. -/
structure Reass.Shape (s : Reass β) : Prop where
  keys : s.reassdatagrams.Pairwise fun d d' => d.iphdr.key ≠ d'.iphdr.key
  timers : s.reassdatagrams.Pairwise fun d d' => d'.timer ≤ d.timer
  maxage : ∀ d ∈ s.reassdatagrams, d.timer ≤ ipReassMaxage
  length : s.reassdatagrams.length ≤ memNumReassdata
  count : s.pbufcount = (s.reassdatagrams.map ReassData.clen).sum
  count_le : s.pbufcount ≤ ipReassMaxPbufs
  exceeded : ∀ hdr ∈ s.exceeded, hdr.start = 0

/-- And every datagram is as it should be and has a fragment. -/
structure Reass.Ok (s : Reass β) : Prop extends s.Shape where
  datagram : ∀ d ∈ s.reassdatagrams, d.Fine
  nonempty : ∀ d ∈ s.reassdatagrams, d.p ≠ []

theorem Packet.Counted.clen (h : p.Counted) : p.clen = p.bufs.length := Nat.mod_eq_of_lt h.2

theorem length_flatMap_bufs {l : List (Helper β)} (h : ∀ a ∈ l, a.pbuf.Counted) :
    (l.flatMap fun a => a.pbuf.bufs).length = (l.map fun a => a.pbuf.clen).sum := by
  induction l with
  | nil => rfl
  | cons a l ih =>
    rw [List.flatMap_cons, List.length_append, List.map_cons, List.sum_cons,
      ih fun b hb => h b (List.mem_cons_of_mem a hb), (h a List.mem_cons_self).clen]

theorem ReassData.Fine.clen (h : d.Fine) : d.clen = d.bufs.length :=
  (length_flatMap_bufs fun a ha => (h.helper a ha).2.2).symm

/-! ## Making room -/

section remove

variable {kept gone l : List (ReassData β)} {needed freed fuel r : ℕ} {o : Oldest}

/-- The datagrams that are not the one a fragment belongs to. -/
def Other (fraghdr : IpHdr) (d : ReassData β) : Prop := d.iphdr.key ≠ fraghdr.key

instance (fraghdr : IpHdr) (d : ReassData β) : Decidable (Other fraghdr d) := inferInstanceAs (Decidable (_ ≠ _))

theorem findOldest_prev : (findOldest fraghdr l r o).prev =
    if l.length ≤ 1 then o.prev else some (r + l.length - 2) := by
  induction l generalizing r o with
  | nil => rfl
  | cons d next ih =>
    rw [findOldest, ih]
    cases next with
    | nil => rfl
    | cons d' next =>
      simp only [Oldest.visit, List.length_cons]
      cases next with
      | nil => rfl
      | cons d'' next =>
        have hlen : (d'' :: next).length = next.length + 1 := rfl
        rw [if_neg (by omega), if_neg (by omega)]
        exact congrArg some (by omega)

theorem findOldest_others : (findOldest fraghdr l r o).otherDatagrams =
    o.otherDatagrams + l.countP (fun d => d.iphdr.key ≠ fraghdr.key) := by
  induction l generalizing r o with
  | nil => rfl
  | cons d next ih =>
    rw [findOldest, ih, List.countP_cons]
    by_cases hother : d.iphdr.key ≠ fraghdr.key
    · simp only [Oldest.visit, hother, ne_eq, not_false_eq_true, if_true, decide_true]
      omega
    · simp [Oldest.visit, hother]

theorem findOldest_same (h : ∀ d ∈ l, ¬ Other fraghdr d) : (findOldest fraghdr l r o).oldest = o.oldest := by
  induction l generalizing r o with
  | nil => rfl
  | cons d next ih =>
    rw [findOldest, ih fun d' hd' => h d' (List.mem_cons_of_mem d hd')]
    exact if_neg (h d List.mem_cons_self)

theorem visit_oldest (ho : ∀ x ∈ o.oldest, d.timer ≤ x.2) (hd : Other fraghdr d) (hasNext : Bool) :
    (o.visit fraghdr d r hasNext).oldest = some (r, d.timer) := by
  rw [Oldest.visit]
  simp only [if_pos (show d.iphdr.key ≠ fraghdr.key from hd)]
  cases hold : o.oldest with
  | none => rfl
  | some x => exact if_pos (ho x hold)

theorem findOldest_last (hd : Other fraghdr d) (hgone : ∀ d' ∈ gone, ¬ Other fraghdr d')
    (hkept : ∀ d' ∈ kept, d.timer ≤ d'.timer) (ho : ∀ x ∈ o.oldest, d.timer ≤ x.2) :
    (findOldest fraghdr (kept ++ d :: gone) r o).oldest = some (r + kept.length, d.timer) := by
  induction kept generalizing r o with
  | nil =>
    rw [List.nil_append, findOldest, findOldest_same hgone]
    exact visit_oldest ho hd _
  | cons d' kept ih =>
    have hd' := hkept d' List.mem_cons_self
    rw [List.cons_append, findOldest, List.length_cons, ← Nat.add_assoc, Nat.add_right_comm]
    apply ih fun d'' hd'' => hkept d'' (List.mem_cons_of_mem d' hd'')
    intro x hx
    rw [Oldest.visit] at hx
    simp only at hx
    split_ifs at hx
    · cases hold : o.oldest with
      | none =>
        rw [hold] at hx
        rwa [← Option.some.inj hx]
      | some y =>
        rw [hold] at hx
        simp only at hx
        split_ifs at hx
        · rwa [← Option.some.inj hx]
        · rw [← Option.some.inj hx]
          exact ho y hold
    · exact ho x hx

/-- The headers that are quoted anew are of first fragments that were held. -/
def Quoted (s s' : Reass β) : Prop :=
  ∀ hdr ∈ s'.exceeded, hdr ∈ s.exceeded ∨ hdr.start = 0 ∧ ∃ d ∈ s.reassdatagrams, ∃ h ∈ d.p, h.pbuf.hdr = hdr

theorem Quoted.of_eq {s' : Reass β} (h : s'.exceeded = s.exceeded) : Quoted s s' := fun _ hhdr => .inl (h ▸ hhdr)

theorem Quoted.trans {s' s'' : Reass β} (h : Quoted s s') (h' : Quoted s' s'')
    (hheld : ∀ d ∈ s'.reassdatagrams, ∃ d₀ ∈ s.reassdatagrams, d.p = d₀.p) : Quoted s s'' := by
  intro hdr hhdr
  rcases h' hdr hhdr with hold | ⟨hstart, d, hd, a, ha, hquoted⟩
  · exact h hdr hold
  · obtain ⟨d₀, hd₀, hp⟩ := hheld d hd
    exact .inr ⟨hstart, d₀, hd₀, a, hp ▸ ha, hquoted⟩

/-- The state without the datagrams `gone`, which were behind the datagrams `kept`. -/
structure Removed (s s' : Reass β) (kept gone : List (ReassData β)) : Prop where
  before : s.reassdatagrams = kept ++ gone
  datagrams : s'.reassdatagrams = kept
  count : s'.pbufcount + (gone.map ReassData.clen).sum = s.pbufcount
  freed : s'.freed.Perm (s.freed ++ gone.flatMap ReassData.bufs)
  quoted : Quoted s s'

theorem freeComplete_eq {iprh : Helper β} {tail : List (Helper β)} (hs : s.reassdatagrams = kept ++ d :: gone)
    (hp : d.p = iprh :: tail) (hle : d.clen ≤ s.pbufcount) (hmax : s.pbufcount ≤ ipReassMaxPbufs) :
    s.freeCompleteDatagram kept.length (if kept = [] then none else some (kept.length - 1)) =
      some (⟨kept ++ gone, s.pbufcount - d.clen, s.freed ++ d.bufs,
        if iprh.start = 0 then s.exceeded ++ [d.iphdr] else s.exceeded⟩, d.clen) := by
  unfold ipReassMaxPbufs at hmax
  have hprev : ¬ ((if kept = [] then none else some (kept.length - 1)) = some kept.length ∨
      ∃ j ∈ (if kept = [] then none else some (kept.length - 1)), j + 1 ≠ kept.length) := by
    rintro (hself | ⟨j, hj, hne⟩)
    · split_ifs at hself with hnil
      have hpos := List.length_pos_of_ne_nil hnil
      have heq := Option.some.inj hself
      omega
    · split_ifs at hj with hnil
      · exact absurd hj (Option.not_mem_none j)
      · have hpos := List.length_pos_of_ne_nil hnil
        have heq := Option.some.inj hj
        omega
  have hget : s.reassdatagrams[kept.length]? = some d := by
    rw [hs, List.getElem?_append_right (Nat.le_refl _), Nat.sub_self]
    rfl
  have hdequeue : dequeueDatagram s.reassdatagrams kept.length (if kept = [] then none else some (kept.length - 1)) =
      some (kept ++ gone) := by
    rw [dequeueDatagram, hs]
    by_cases hnil : kept = []
    · rw [hnil]
      rfl
    · have hpos := List.length_pos_of_ne_nil hnil
      rw [if_neg (by omega), if_neg hnil, Option.map_some, Nat.sub_add_cancel hpos, List.take_left,
        List.drop_length_add_append, List.drop_one, List.tail_cons]
  rw [Reass.freeCompleteDatagram, if_neg hprev, hget]
  simp only [hp, hdequeue, Option.bind_some]
  rw [if_neg (by omega), if_neg (by omega)]

theorem quoted_first {iprh : Helper β} {tail : List (Helper β)} (hd : d.Fine) (hp : d.p = iprh :: tail) {hdr : IpHdr}
    (hhdr : hdr ∈ if iprh.start = 0 then s.exceeded ++ [d.iphdr] else s.exceeded) :
    hdr ∈ s.exceeded ∨ hdr.start = 0 ∧ ∃ h ∈ d.p, h.pbuf.hdr = hdr := by
  split_ifs at hhdr with hstart
  · rcases List.mem_append.mp hhdr with hold | hnew
    · exact .inl hold
    · right
      have hhead : iprh ∈ d.p.head? := by rw [hp]; rfl
      obtain ⟨hself, -⟩ := hd.helper iprh (List.mem_of_mem_head? hhead)
      have hhdr := hd.first iprh hhead (.inl hstart)
      rw [List.mem_singleton.mp hnew, hhdr]
      rw [hself] at hstart
      exact ⟨hstart, iprh, List.mem_of_mem_head? hhead, rfl⟩
  · exact .inl hhdr

theorem freeComplete_last (h : s.Ok) (hs : s.reassdatagrams = kept ++ [d]) :
    ∃ s', s.freeCompleteDatagram kept.length (if kept = [] then none else some (kept.length - 1)) = some (s', d.clen) ∧
      Removed s s' kept [d] := by
  have hd : d ∈ s.reassdatagrams := by
    rw [hs]
    exact List.mem_append_right _ List.mem_cons_self
  have hcount := h.count
  rw [hs, List.map_append, List.sum_append, List.map_singleton, List.sum_singleton] at hcount
  obtain ⟨iprh, tail, hp⟩ := List.exists_cons_of_ne_nil (h.nonempty d hd)
  refine ⟨_, freeComplete_eq hs hp (by omega) h.count_le, hs, List.append_nil kept, ?_, ?_, ?_⟩
  · rw [List.map_singleton, List.sum_singleton]
    exact Nat.sub_add_cancel (by omega)
  · rw [List.flatMap_singleton]
  · intro hdr hhdr
    exact (quoted_first (h.datagram d hd) hp hhdr).imp_right fun ⟨hstart, hheld⟩ => ⟨hstart, d, hd, hheld⟩

variable {s' s'' : Reass β} {kept' gone' : List (ReassData β)}

theorem Removed.ok (hr : Removed s s' kept gone) (h : s.Ok) : s'.Ok := by
  have hsub : ∀ d ∈ kept, d ∈ s.reassdatagrams := fun d hd => by
    rw [hr.before]
    exact List.mem_append_left _ hd
  have hcount := h.count
  have hgone := hr.count
  have hlength := h.length
  have hle := h.count_le
  rw [hr.before, List.map_append, List.sum_append] at hcount
  rw [hr.before, List.length_append] at hlength
  have hexceeded : ∀ hdr ∈ s'.exceeded, hdr.start = 0 := fun hdr hhdr => by
    rcases hr.quoted hdr hhdr with hold | ⟨hzero, -⟩
    · exact h.exceeded hdr hold
    · exact hzero
  refine ⟨⟨?_, ?_, ?_, ?_, ?_, by omega, hexceeded⟩, ?_, ?_⟩ <;> rw [hr.datagrams]
  · exact (List.pairwise_append.mp (hr.before ▸ h.keys)).1
  · exact (List.pairwise_append.mp (hr.before ▸ h.timers)).1
  · exact fun d hd => h.maxage d (hsub d hd)
  · omega
  · omega
  · exact fun d hd => h.datagram d (hsub d hd)
  · exact fun d hd => h.nonempty d (hsub d hd)

theorem Removed.refl (s : Reass β) : Removed s s s.reassdatagrams [] :=
  ⟨(List.append_nil _).symm, rfl, rfl, by simp, .of_eq rfl⟩

theorem Removed.trans (h : Removed s s' kept gone) (h' : Removed s' s'' kept' gone') :
    Removed s s'' kept' (gone' ++ gone) := by
  have hcount := h.count
  have hcount' := h'.count
  refine ⟨?_, h'.datagrams, ?_, ?_, h.quoted.trans h'.quoted fun d hd => ⟨d, ?_, rfl⟩⟩
  · rw [h.before, ← h.datagrams, h'.before, List.append_assoc]
  · rw [List.map_append, List.sum_append]
    omega
  · rw [List.flatMap_append]
    refine h'.freed.trans ((h.freed.append_right _).trans ?_)
    rw [List.append_assoc]
    exact List.perm_append_comm.append_left _
  · rw [h.before, ← h.datagrams]
    exact List.mem_append_left _ hd

theorem other_of_same (h : s.Ok) (hs : s.reassdatagrams = kept ++ d :: gone) (hd : ¬ Other fraghdr d) :
    ∀ d' ∈ kept, Other fraghdr d' := by
  have hkeys := h.keys
  rw [hs, List.pairwise_append] at hkeys
  intro d' hd' heq
  exact hd fun hsame => hkeys.2.2 d' hd' d List.mem_cons_self (heq.trans hsame.symm)

/-- The assertion about `prev` is about to fail: the datagrams behind the one that the fragment belongs to do not make
enough room, and there is one in front of it. -/
def Stuck (fraghdr : IpHdr) (needed : ℕ) (l : List (ReassData β)) : Prop :=
  ∃ kept d gone, l = kept ++ d :: gone ∧ kept ≠ [] ∧ ¬ Other fraghdr d ∧ (gone.map ReassData.clen).sum < needed

/-- What is removed is the oldest of the other datagrams, until there is enough room or there are no more, and none
without need. -/
structure MadeRoom (fraghdr : IpHdr) (needed : ℕ) (s s' : Reass β) (freed : ℕ) (kept gone : List (ReassData β)) :
    Prop where
  removed : Removed s s' kept gone
  other : ∀ d ∈ gone, Other fraghdr d
  total : freed = (gone.map ReassData.clen).sum
  enough : needed ≤ freed ∨ ∀ d ∈ kept, ¬ Other fraghdr d
  wanted : ∀ d rest, gone = d :: rest → (rest.map ReassData.clen).sum < needed

theorem findOldest_prev_last (kept : List (ReassData β)) (d : ReassData β) :
    (findOldest fraghdr (kept ++ [d]) 0 ⟨none, none, 0⟩).prev =
      if kept = [] then none else some (kept.length - 1) := by
  rw [findOldest_prev, List.length_append, List.length_singleton]
  by_cases hnil : kept = []
  · rw [if_pos hnil, hnil]
    rfl
  · have hpos := List.length_pos_of_ne_nil hnil
    rw [if_neg hnil, if_neg (by omega)]
    exact congrArg some (by omega)

theorem removeLoop_round (h : s.Ok) (hs : s.reassdatagrams = kept ++ [d]) (hd : Other fraghdr d) :
    ∃ s', Removed s s' kept [d] ∧
      (freed + d.clen < needed → (∃ d' ∈ kept, Other fraghdr d') →
        s.removeLoop fraghdr needed (fuel + 1) freed = s'.removeLoop fraghdr needed fuel (freed + d.clen)) ∧
      (needed ≤ freed + d.clen ∨ (∀ d' ∈ kept, ¬ Other fraghdr d') →
        s.removeLoop fraghdr needed (fuel + 1) freed = some (s', freed + d.clen)) := by
  obtain ⟨s', hfree, hremoved⟩ := freeComplete_last h hs
  have htimers := h.timers
  rw [hs, List.pairwise_append] at htimers
  have hold : (findOldest fraghdr (kept ++ [d]) 0 ⟨none, none, 0⟩).oldest = some (kept.length, d.timer) := by
    rw [findOldest_last hd (by simp) (fun d' hd' => htimers.2.2 d' hd' d List.mem_cons_self) (by simp), Nat.zero_add]
  have hothers : 1 < (findOldest fraghdr (kept ++ [d]) 0 ⟨none, none, 0⟩).otherDatagrams ↔
      ∃ d' ∈ kept, Other fraghdr d' := by
    have hone : decide (d.iphdr.key ≠ fraghdr.key) = true := decide_eq_true hd
    rw [findOldest_others, List.countP_append, List.countP_singleton, if_pos hone]
    have hpos := List.countP_pos_iff (l := kept) (p := fun d => decide (d.iphdr.key ≠ fraghdr.key))
    simp only [decide_eq_true_iff] at hpos
    rw [← show _ ↔ ∃ d' ∈ kept, Other fraghdr d' from hpos]
    show 1 < 0 + (_ + 1) ↔ _
    omega
  have hround : s.removeLoop fraghdr needed (fuel + 1) freed =
      if freed + d.clen < needed ∧ 1 < (findOldest fraghdr (kept ++ [d]) 0 ⟨none, none, 0⟩).otherDatagrams then
        s'.removeLoop fraghdr needed fuel (freed + d.clen)
      else some (s', freed + d.clen) := by
    rw [Reass.removeLoop, hs, hold, findOldest_prev_last]
    simp only [hfree, Option.bind_some]
  refine ⟨s', hremoved, fun hless hmore => ?_, fun henough => ?_⟩
  · rw [hround, if_pos ⟨hless, hothers.mpr hmore⟩]
  · rw [hround, if_neg]
    rintro ⟨hless, hmore⟩
    obtain ⟨d', hd', hother⟩ := hothers.mp hmore
    rcases henough with hle | hnone
    · omega
    · exact hnone d' hd' hother

theorem removeLoop_same (h : s.Ok) (hs : s.reassdatagrams = kept ++ [d]) (hd : ¬ Other fraghdr d) :
    s.removeLoop fraghdr needed (fuel + 1) freed = if kept = [] then some (s, freed) else none := by
  have hkept := other_of_same h hs hd
  rw [Reass.removeLoop, hs]
  rcases List.eq_nil_or_concat kept with hnil | ⟨front, d', hconcat⟩
  · rw [if_pos hnil, hnil, List.nil_append, findOldest_same (by simpa using hd), findOldest_others]
    simp [Other] at hd
    simp [hd]
  · have hne : kept ≠ [] := by rw [hconcat]; simp
    have htimers := h.timers
    rw [hs, List.pairwise_append] at htimers
    rw [hconcat] at htimers hkept
    have hd' : Other fraghdr d' := hkept d' (by simp)
    have hold : (findOldest fraghdr (kept ++ [d]) 0 ⟨none, none, 0⟩).oldest = some (front.length, d'.timer) := by
      rw [hconcat, List.concat_append, findOldest_last hd' (by simpa using hd) ?_ (by simp), Nat.zero_add]
      intro d'' hd''
      have hpair := htimers.1
      rw [List.concat_eq_append, List.pairwise_append] at hpair
      exact hpair.2.2 d'' hd'' d' List.mem_cons_self
    have hlength : kept.length - 1 = front.length := by rw [hconcat]; simp
    rw [hold, findOldest_prev_last, if_neg hne, hlength, if_neg hne]
    simp only [Reass.freeCompleteDatagram, true_or, if_true, Option.bind_none]

/-- `ip_reass_remove_oldest_datagram` makes room, unless it is stuck. -/
theorem removeLoop_spec (h : s.Ok) (hfuel : s.reassdatagrams.length < fuel) (hfreed : freed < needed) :
    (Stuck fraghdr (needed - freed) s.reassdatagrams ∧ s.removeLoop fraghdr needed fuel freed = none) ∨
    ∃ s' total kept gone, s.removeLoop fraghdr needed fuel freed = some (s', freed + total) ∧
      MadeRoom fraghdr (needed - freed) s s' total kept gone := by
  induction fuel generalizing s freed with
  | zero => omega
  | succ fuel ih =>
    rcases List.eq_nil_or_concat s.reassdatagrams with hnil | ⟨kept, d, hconcat⟩
    · right
      refine ⟨s, 0, s.reassdatagrams, [], ?_, .refl s, by simp, rfl, ?_, by simp⟩
      · rw [Reass.removeLoop, hnil]
        simp [findOldest]
      · rw [hnil]
        simp
    · rw [List.concat_eq_append] at hconcat
      by_cases hd : Other fraghdr d
      · obtain ⟨s', hremoved, hmore, hdone⟩ := removeLoop_round h hconcat hd
        have hok' := hremoved.ok h
        have hone : ([d].map ReassData.clen).sum = d.clen := List.sum_singleton
        by_cases hagain : freed + d.clen < needed ∧ ∃ d' ∈ kept, Other fraghdr d'
        · obtain ⟨hless, hothers⟩ := hagain
          rw [hmore hless hothers]
          have hlength : s'.reassdatagrams.length < fuel := by
            rw [hconcat, List.length_append, List.length_singleton] at hfuel
            rw [hremoved.datagrams]
            omega
          rcases ih hok' hlength hless with ⟨⟨kept', d', gone', hs', hne, hsame, hsum⟩, hnone⟩ | ⟨s'', total, kept', gone', hrun, hroom⟩
          · left
            refine ⟨⟨kept', d', gone' ++ [d], ?_, hne, hsame, ?_⟩, hnone⟩
            · rw [hremoved.before, ← hremoved.datagrams, hs', List.append_assoc, List.cons_append]
            · rw [List.map_append, List.sum_append, hone]
              omega
          · right
            have htotal := hroom.total
            refine ⟨s'', d.clen + total, kept', gone' ++ [d], ?_, hremoved.trans hroom.removed, ?_, ?_, ?_, ?_⟩
            · rw [hrun, Nat.add_assoc]
            · intro d' hd'
              rcases List.mem_append.mp hd' with hd' | hd'
              · exact hroom.other d' hd'
              · rwa [List.mem_singleton.mp hd']
            · rw [List.map_append, List.sum_append, hone]
              omega
            · rcases hroom.enough with hle | hnone
              · exact .inl (by omega)
              · exact .inr hnone
            · intro g rest hgone
              cases gone' with
              | nil =>
                obtain ⟨-, rfl⟩ := List.cons.inj hgone
                show 0 < needed - freed
                omega
              | cons g' rest' =>
                have hwanted := hroom.wanted g' rest' rfl
                obtain ⟨-, rfl⟩ := List.cons.inj hgone
                show ((rest' ++ [d]).map ReassData.clen).sum < needed - freed
                rw [List.map_append, List.sum_append, hone]
                omega
        · right
          have henough : needed ≤ freed + d.clen ∨ ∀ d' ∈ kept, ¬ Other fraghdr d' := by
            by_contra hcon
            obtain ⟨hless, hothers⟩ := not_or.mp hcon
            push Not at hothers
            exact hagain ⟨by omega, hothers⟩
          refine ⟨s', d.clen, kept, [d], hdone henough, hremoved, by simpa using hd, hone.symm, ?_, fun g rest hgone => ?_⟩
          · rcases henough with hle | hnone
            · exact .inl (by omega)
            · exact .inr hnone
          · obtain ⟨-, rfl⟩ := List.cons.inj hgone
            show 0 < needed - freed
            omega
      · rw [removeLoop_same h hconcat hd]
        by_cases hnil : kept = []
        · right
          rw [if_pos hnil]
          refine ⟨s, 0, s.reassdatagrams, [], rfl, .refl s, by simp, rfl, .inr ?_, by simp⟩
          rw [hconcat, hnil]
          simpa using hd
        · left
          refine ⟨⟨kept, d, [], hconcat, hnil, hd, ?_⟩, if_neg hnil⟩
          show 0 < needed - freed
          omega

end remove

theorem removeOldest_spec (h : s.Ok) (fraghdr : IpHdr) {needed : ℕ} (hneeded : 0 < needed) :
    (Stuck fraghdr needed s.reassdatagrams ∧ s.removeOldestDatagram fraghdr needed = none) ∨
    ∃ s' freed kept gone, s.removeOldestDatagram fraghdr needed = some (s', freed) ∧
      MadeRoom fraghdr needed s s' freed kept gone := by
  rcases removeLoop_spec h (Nat.lt_succ_self _) hneeded with hstuck | ⟨s', freed, kept, gone, hrun, hroom⟩
  · exact .inl hstuck
  · rw [Nat.zero_add] at hrun
    exact .inr ⟨s', freed, kept, gone, hrun, hroom⟩

/-- The others behind the datagram of the fragment are not enough exactly if it is stuck. -/
theorem MadeRoom.not_stuck {s' : Reass β} {needed freed : ℕ} {kept gone : List (ReassData β)} (h : s.Ok)
    (hroom : MadeRoom fraghdr needed s s' freed kept gone) : ¬ Stuck fraghdr needed s.reassdatagrams := by
  rintro ⟨front, d, behind, hs, hne, hsame, hless⟩
  have hothers := other_of_same h hs hsame
  have heq := hroom.removed.before.symm.trans hs
  rw [List.append_eq_append_iff] at heq
  rcases heq with ⟨between, hfront, hgone⟩ | ⟨between, hkept, hgone⟩
  · have hd : d ∈ gone := by rw [hgone]; simp
    exact hsame (hroom.other d hd)
  · cases between with
    | nil =>
      have hd : d ∈ gone := by rw [← List.nil_append gone, ← hgone]; simp
      exact hsame (hroom.other d hd)
    | cons d' between =>
      obtain ⟨rfl, hbehind⟩ := List.cons.inj hgone
      rcases hroom.enough with hle | hnone
      · rw [hroom.total] at hle
        rw [show behind = between ++ gone from hbehind, List.map_append, List.sum_append] at hless
        omega
      · obtain ⟨d', hd'⟩ := List.exists_mem_of_ne_nil front hne
        refine hnone d' ?_ (hothers d' hd')
        rw [hkept]
        exact List.mem_append_left _ hd'

end LoraGateway.Core
