import LoraGateway.Core.IpReassCalls

/-!
# Calls as a whole

`ip_reass` makes room, looks for the datagram of the fragment, and chains the fragment into it; `ip_reass_tmr` counts
down. Each keeps the invariant, and no pbuf is lost or freed twice: those that were there and those that came are
freed, held, or handed up (`ipReass_ok`, `ipReassTmr_spec`).

The datagram in question is in the middle of the list, `pre ++ d :: post` (`Located`). What is done to the list is to
replace it, to take it out or to put a new one in front, and the invariant is shown for each of these once
(`Reass.Shape.replace`, `Reass.Shape.erase`, `Reass.Shape.enqueue`). Pbufs are compared up to order.
-/

namespace LoraGateway.Core

open Lib

variable {β : Type} {d : ReassData β} {p : Packet β} {s s' : Reass β} {before after : List (Helper β)}
  {kept gone pre post : List (ReassData β)}

/-- The pbufs that have been freed and those that are held. -/
def Reass.all (s : Reass β) : List β := s.freed ++ s.reassdatagrams.flatMap ReassData.bufs

theorem Removed.all (h : Removed s s' kept gone) : s'.all.Perm s.all := by
  rw [Reass.all, Reass.all, h.before, h.datagrams, List.flatMap_append]
  refine (h.freed.append_right _).trans ?_
  rw [List.append_assoc]
  exact List.perm_append_comm.append_left _

/-! ## Chaining a fragment into its datagram -/

/-- The datagram is the one of the fragment, and has its header if that is the first one so far. -/
structure ReassData.Ready (d : ReassData β) (p : Packet β) : Prop where
  ordered : Ordered d.p
  helper : ∀ h ∈ d.p, h = h.pbuf.helper ∧ h.pbuf.hdr.key = d.iphdr.key ∧ h.pbuf.Counted
  key : d.iphdr.key = p.hdr.key
  first : ∀ h ∈ d.p.head?, h.start = 0 → d.iphdr = h.pbuf.hdr
  new : (∀ h ∈ d.p.head?, h.start ≠ 0) → p.hdr.start = 0 → d.iphdr = p.hdr
  later : (∀ h ∈ d.p.head?, h.start ≠ 0) → p.hdr.start ≠ 0 → d.iphdr.start ≠ 0

theorem ReassData.Fine.bufs (h : d.Fine) : d.bufs.length = d.clen := h.clen.symm

theorem bufs_chain : (d.chain before p.helper after).bufs.Perm ((before ++ after).flatMap (fun h => h.pbuf.bufs) ++ p.bufs) := by
  rw [ReassData.bufs, ReassData.chain, List.flatMap_append, List.flatMap_cons, List.flatMap_append, List.append_assoc]
  have hswap : ∀ l, (p.bufs ++ l).Perm (l ++ p.bufs) := fun l => List.perm_append_comm
  exact (hswap _).append_left _

theorem clen_chain (hp : d.p = before ++ after) : (d.chain before p.helper after).clen = d.clen + p.clen := by
  rw [ReassData.clen, ReassData.clen, ReassData.chain, hp, List.map_append, List.map_cons, List.sum_append, List.sum_cons,
    List.map_append, List.sum_append]
  show _ + (p.clen + _) = _
  omega

theorem ReassData.Ready.head_ne (hp : d.p = before ++ after) (hfits : Fits p.helper before after) (hnil : before = []) :
    ∀ h ∈ d.p.head?, h.start ≠ 0 := by
  intro h hh
  rw [hp, hnil, List.nil_append] at hh
  have hlt := hfits.ahead h (List.mem_of_mem_head? hh)
  omega

theorem ReassData.Ready.chain (h : d.Ready p) (hc : p.Counted) (hp : d.p = before ++ after)
    (hfits : Fits p.helper before after) : (d.chain before p.helper after).Fine := by
  have hordered := h.ordered
  rw [hp, Ordered, List.pairwise_append] at hordered
  refine ⟨?_, fun a ha => ?_, fun a ha hzero => ?_⟩
  · refine List.pairwise_append.mpr ⟨hordered.1, List.pairwise_cons.mpr ⟨hfits.ahead, hordered.2.1⟩, ?_⟩
    intro a ha b hb
    rcases List.mem_cons.mp hb with rfl | hb
    · exact (hfits.passed a ha).1
    · exact hordered.2.2 a ha b hb
  · rcases List.mem_append.mp ha with ha | ha
    · exact h.helper a (by rw [hp]; exact List.mem_append_left _ ha)
    · rcases List.mem_cons.mp ha with rfl | ha
      · exact ⟨rfl, h.key.symm, hc⟩
      · exact h.helper a (by rw [hp]; exact List.mem_append_right _ ha)
  · cases before with
    | nil =>
      obtain rfl := Option.some.inj ha
      have hne := ReassData.Ready.head_ne hp hfits rfl
      by_cases hstart : p.hdr.start = 0
      · exact h.new hne hstart
      · rcases hzero with hzero | hzero
        · exact absurd hzero hstart
        · exact absurd hzero (h.later hne hstart)
    | cons b before =>
      obtain rfl := Option.some.inj ha
      have hhead : b ∈ d.p.head? := by rw [hp]; rfl
      by_cases hstart : b.start = 0
      · exact h.first b hhead hstart
      · have hlt := (hfits.passed b List.mem_cons_self).1
        have hne : ∀ a ∈ d.p.head?, a.start ≠ 0 := fun a ha => by rwa [Option.mem_unique ha hhead]
        have hlater := h.later hne (show p.hdr.start ≠ 0 from fun heq => by
          have hlt' : b.start < p.hdr.start := hlt
          omega)
        rcases hzero with hzero | hzero
        · exact absurd hzero hstart
        · exact absurd hzero hlater

theorem ReassData.Ready.fine (h : d.Ready p) (hlow : ∃ a ∈ d.p, a.start ≤ p.hdr.start) : d.Fine := by
  refine ⟨h.ordered, h.helper, fun a ha hzero => ?_⟩
  by_cases hstart : a.start = 0
  · exact h.first a ha hstart
  · have hne : ∀ b ∈ d.p.head?, b.start ≠ 0 := fun b hb => by rwa [Option.mem_unique hb ha]
    have hordered := h.ordered
    obtain ⟨b, hb, hle⟩ := hlow
    have hab : a.start ≤ b.start := by
      cases hp : d.p with
      | nil => rw [hp] at hb; simp at hb
      | cons c rest =>
        rw [hp] at ha hb hordered
        obtain rfl := Option.some.inj ha
        rcases List.mem_cons.mp hb with rfl | hb
        · exact Nat.le_refl _
        · exact Nat.le_of_lt (List.rel_of_pairwise_cons hordered hb)
    rcases hzero with hzero | hzero
    · exact absurd hzero hstart
    · exact absurd hzero (h.later hne (by omega))

@[simp] theorem update_p : (d.update p).p = d.p := by
  unfold ReassData.update
  split_ifs <;> rfl

@[simp] theorem update_iphdr : (d.update p).iphdr = d.iphdr := by
  unfold ReassData.update
  split_ifs <;> rfl

@[simp] theorem update_timer : (d.update p).timer = d.timer := by
  unfold ReassData.update
  split_ifs <;> rfl

theorem ReassData.Ready.update (h : d.Ready p) : (d.update p).Ready p := by
  constructor <;> simp only [update_p, update_iphdr]
  · exact h.ordered
  · exact h.helper
  · exact h.key
  · exact h.first
  · exact h.new
  · exact h.later

theorem set_middle (d' : ReassData β) : (pre ++ d :: post).set pre.length d' = pre ++ d' :: post := by
  rw [List.set_append_right _ _ (Nat.le_refl _), Nat.sub_self, List.set_cons_zero]

theorem getElem_middle : (pre ++ d :: post)[pre.length]? = some d := by
  rw [List.getElem?_append_right (Nat.le_refl _), Nat.sub_self]
  rfl

/-- The state with a datagram in the middle of the list, and that many pbufs. -/
def Reass.with (s : Reass β) (l : List (ReassData β)) (pbufcount : ℕ) : Reass β :=
  { s with reassdatagrams := l, pbufcount := pbufcount }

theorem chainInto_cases [PbufAddr β] (hs : s.reassdatagrams = pre ++ d :: post) (hready : d.Ready p)
    (hcount : s.pbufcount + p.clen ≤ ipReassMaxPbufs) :
    (s.chainInto p pre.length =
        some ({ s with reassdatagrams := pre ++ d.update p :: post, freed := s.freed ++ p.bufs }, none) ∧
      (∃ h ∈ d.p, Clashes h p.helper) ∧ ∃ h ∈ d.p, h.start ≤ p.hdr.start) ∨
    ∃ before after, d.p = before ++ after ∧ Fits p.helper before after ∧
      (¬ Complete (d.update p) before p.helper after → s.chainInto p pre.length =
        some (s.with (pre ++ (d.update p).chain before p.helper after :: post) (s.pbufcount + p.clen), none)) ∧
      (Complete (d.update p) before p.helper after → EndsRight (d.update p) before p.helper after →
        s.chainInto p pre.length =
          (s.with (pre ++ (d.update p).chain before p.helper after :: post) (s.pbufcount + p.clen)).complete pre.length
            ((d.update p).chain before p.helper after)) ∧
      (Complete (d.update p) before p.helper after → ¬ EndsRight (d.update p) before p.helper after →
        s.chainInto p pre.length = none) := by
  unfold ipReassMaxPbufs at hcount
  have hadd : (s.pbufcount + p.clen) % 65536 = s.pbufcount + p.clen := Nat.mod_eq_of_lt (by omega)
  have hsub : (s.pbufcount + p.clen + 65536 - p.clen) % 65536 = s.pbufcount := by omega
  have hget : s.reassdatagrams[pre.length]? = some d := by rw [hs, getElem_middle]
  have hset : ∀ d', s.reassdatagrams.set pre.length d' = pre ++ d' :: post := fun d' => by rw [hs, set_middle]
  simp only [Reass.chainInto, hget, hadd, hsub, hset]
  rcases chainFrag_spec (d := d.update p) (p := p) hready.update.ordered with
    ⟨hfree, hclash⟩ | ⟨before, after, hp, hfits, hno, hyes, hstop⟩
  · left
    rw [update_p] at hclash
    exact ⟨by rw [hfree]; rfl, hclash⟩
  · right
    rw [update_p] at hp
    refine ⟨before, after, hp, hfits, fun hcomplete => ?_, fun hcomplete hends => ?_, fun hcomplete hends => ?_⟩
    · rw [hno hcomplete]
      rfl
    · rw [hyes hcomplete hends]
      rfl
    · rw [hstop hcomplete hends]
      rfl

theorem complete_eq [PbufAddr β] (hs : s.reassdatagrams = pre ++ d :: post) (hd : d.Fine) (hle : d.clen ≤ s.pbufcount)
    (hcount : s.pbufcount ≤ ipReassMaxPbufs) : s.complete pre.length d =
      some (s.with (pre ++ post) (s.pbufcount - d.clen), some d.datagram) := by
  have hdequeue : dequeueDatagram s.reassdatagrams pre.length
      (if pre.length = 0 then none else some (pre.length - 1)) = some (pre ++ post) := by
    rw [dequeueDatagram, hs]
    by_cases hzero : pre.length = 0
    · rw [if_pos hzero, List.eq_nil_of_length_eq_zero hzero]
      rfl
    · rw [if_neg hzero, if_neg hzero, Option.map_some, Nat.sub_add_cancel (Nat.pos_of_ne_zero hzero), List.take_left,
        List.drop_length_add_append, List.drop_one, List.tail_cons]
  have hclen : d.datagram.clen = d.clen := by
    unfold ipReassMaxPbufs at hcount
    rw [Packet.clen, show d.datagram.bufs = d.bufs from rfl, hd.bufs]
    exact Nat.mod_eq_of_lt (by omega)
  have hsub : (s.pbufcount + 65536 - d.clen) % 65536 = s.pbufcount - d.clen := by
    unfold ipReassMaxPbufs at hcount
    omega
  simp only [Reass.complete, hdequeue, hclen, hsub, Option.map_some]
  rfl

/-! ## The list of datagrams -/

section list

variable {d' : ReassData β} {n : ℕ}

theorem pairwise_replace {R : ReassData β → ReassData β → Prop} (hleft : ∀ x, R x d → R x d')
    (hright : ∀ x, R d x → R d' x) (h : (pre ++ d :: post).Pairwise R) : (pre ++ d' :: post).Pairwise R := by
  rw [List.pairwise_append, List.pairwise_cons] at h ⊢
  obtain ⟨hpre, ⟨hd, hpost⟩, hcross⟩ := h
  refine ⟨hpre, ⟨fun x hx => hright x (hd x hx), hpost⟩, fun x hx y hy => ?_⟩
  rcases List.mem_cons.mp hy with rfl | hy
  · exact hleft x (hcross x hx d List.mem_cons_self)
  · exact hcross x hx y (List.mem_cons_of_mem d hy)

theorem pairwise_erase {R : ReassData β → ReassData β → Prop} (h : (pre ++ d :: post).Pairwise R) :
    (pre ++ post).Pairwise R := h.sublist (List.sublist_append_right [d] post |>.append_left pre)

theorem sum_middle : ((pre ++ d :: post).map ReassData.clen).sum = ((pre ++ post).map ReassData.clen).sum + d.clen := by
  simp only [List.map_append, List.map_cons, List.sum_append, List.sum_cons]
  omega

theorem Reass.Shape.congr (h : s.Shape) (hl : s'.reassdatagrams = s.reassdatagrams) (hcount : s'.pbufcount = s.pbufcount)
    (hexceeded : s'.exceeded = s.exceeded) : s'.Shape := by
  obtain ⟨l, pbufcount, freed, exceeded⟩ := s
  obtain ⟨l', pbufcount', freed', exceeded'⟩ := s'
  simp only at hl hcount hexceeded
  subst hl hcount hexceeded
  exact ⟨h.keys, h.timers, h.maxage, h.length, h.count, h.count_le, h.exceeded⟩

theorem Reass.Shape.replace (h : s.Shape) (hs : s.reassdatagrams = pre ++ d :: post) (hkey : d'.iphdr.key = d.iphdr.key)
    (htimer : d'.timer = d.timer) (hn : n + d.clen = s.pbufcount + d'.clen) (hle : n ≤ ipReassMaxPbufs) :
    (s.with (pre ++ d' :: post) n).Shape := by
  obtain ⟨hkeys, htimers, hmaxage, hlength, hcount, -, hexceeded⟩ := h
  rw [hs] at hkeys htimers hmaxage hlength hcount
  rw [sum_middle] at hcount
  refine ⟨?_, ?_, fun x hx => ?_, ?_, ?_, hle, hexceeded⟩
  · exact pairwise_replace (fun x hx => by rwa [hkey]) (fun x hx => by rwa [hkey]) hkeys
  · exact pairwise_replace (fun x hx => by rwa [htimer]) (fun x hx => by rwa [htimer]) htimers
  · rcases List.mem_append.mp hx with hx | hx
    · exact hmaxage x (List.mem_append_left _ hx)
    · rcases List.mem_cons.mp hx with rfl | hx
      · rw [htimer]
        exact hmaxage d (by simp)
      · exact hmaxage x (List.mem_append_right _ (List.mem_cons_of_mem d hx))
  · show (pre ++ d' :: post).length ≤ _
    rw [List.length_append] at hlength ⊢
    exact hlength
  · show n = ((pre ++ d' :: post).map ReassData.clen).sum
    rw [sum_middle]
    omega

theorem Reass.Shape.erase (h : s.Shape) (hs : s.reassdatagrams = pre ++ d :: post) (hn : n + d.clen = s.pbufcount) :
    (s.with (pre ++ post) n).Shape := by
  obtain ⟨hkeys, htimers, hmaxage, hlength, hcount, hle, hexceeded⟩ := h
  rw [hs] at hkeys htimers hmaxage hlength hcount
  rw [sum_middle] at hcount
  refine ⟨pairwise_erase hkeys, pairwise_erase htimers, fun x hx => ?_, ?_, ?_, ?_, hexceeded⟩
  · rcases List.mem_append.mp hx with hx | hx
    · exact hmaxage x (List.mem_append_left _ hx)
    · exact hmaxage x (List.mem_append_right _ (List.mem_cons_of_mem d hx))
  · show (pre ++ post).length ≤ _
    rw [List.length_append, List.length_cons] at hlength
    rw [List.length_append]
    omega
  · show n = ((pre ++ post).map ReassData.clen).sum
    omega
  · show n ≤ _
    omega

theorem Reass.Shape.enqueue (h : s.Shape) (hd : d.clen = 0) (hkey : ∀ d' ∈ s.reassdatagrams, d.iphdr.key ≠ d'.iphdr.key)
    (htimer : d.timer = ipReassMaxage) (hlength : s.reassdatagrams.length < memNumReassdata) :
    (s.with (d :: s.reassdatagrams) s.pbufcount).Shape := by
  refine ⟨List.pairwise_cons.mpr ⟨hkey, h.keys⟩, List.pairwise_cons.mpr ⟨fun x hx => ?_, h.timers⟩, fun x hx => ?_,
    hlength, ?_, h.count_le, h.exceeded⟩
  · rw [htimer]
    exact h.maxage x hx
  · rcases List.mem_cons.mp hx with rfl | hx
    · exact Nat.le_of_eq htimer
    · exact h.maxage x hx
  · show s.pbufcount = ((d :: s.reassdatagrams).map ReassData.clen).sum
    rw [List.map_cons, List.sum_cons, hd, Nat.zero_add]
    exact h.count

end list

/-! ## Looking for the datagram -/

/-- The same datagram later: the timer is as it was, and there may be one more fragment. -/
structure ReassData.Grows (d : ReassData β) (p : Packet β) (d' : ReassData β) : Prop where
  key : d.iphdr.key = d'.iphdr.key
  timer : d.timer = d'.timer
  helper : ∀ h ∈ d'.p, h ∈ d.p ∨ h = p.helper

theorem ReassData.Grows.refl (d : ReassData β) (p : Packet β) : d.Grows p d := ⟨rfl, rfl, fun _ hh => .inl hh⟩

theorem ReassData.Grows.trans {d₁ d₂ d₃ : ReassData β} (h : d₁.Grows p d₂) (h' : d₂.Grows p d₃) : d₁.Grows p d₃ := by
  refine ⟨h.key.trans h'.key, h.timer.trans h'.timer, fun a ha => ?_⟩
  rcases h'.helper a ha with ha | ha
  · exact h.helper a ha
  · exact .inr ha

/-- A datagram was there before, or is the new one of the fragment. -/
def Grown (s s' : Reass β) (p : Packet β) : Prop :=
  ∀ d' ∈ s'.reassdatagrams, (∃ d ∈ s.reassdatagrams, d.Grows p d') ∨
    d'.iphdr.key = p.hdr.key ∧ (∀ d ∈ s.reassdatagrams, d.iphdr.key ≠ p.hdr.key) ∧ ∀ h ∈ d'.p, h = p.helper

/-- The datagram of the fragment is in the middle of the list. -/
structure Located (s : Reass β) (p : Packet β) (pre : List (ReassData β)) (d : ReassData β) (post : List (ReassData β)) :
    Prop extends s.Shape where
  split : s.reassdatagrams = pre ++ d :: post
  ready : d.Ready p
  datagram : ∀ d' ∈ pre ++ post, d'.Fine
  nonempty : ∀ d' ∈ pre ++ post, d'.p ≠ []

theorem findIdx_split {q : ReassData β → Bool} {l : List (ReassData β)} :
    (l.findIdx? q = none ∧ ∀ d ∈ l, q d = false) ∨
    ∃ pre d post, l = pre ++ d :: post ∧ q d = true ∧ l.findIdx? q = some pre.length := by
  induction l with
  | nil => exact .inl ⟨rfl, by simp⟩
  | cons d l ih =>
    rw [List.findIdx?_cons]
    cases hq : q d with
    | true => exact .inr ⟨[], d, l, rfl, hq, rfl⟩
    | false =>
      rcases ih with ⟨hnone, hall⟩ | ⟨pre, d', post, rfl, hq', hsome⟩
      · left
        refine ⟨by rw [hnone]; rfl, fun d' hd' => ?_⟩
        rcases List.mem_cons.mp hd' with rfl | hd'
        · exact hq
        · exact hall d' hd'
      · right
        exact ⟨d :: pre, d', post, rfl, hq', by rw [hsome]; rfl⟩

theorem modify_middle (f : ReassData β → ReassData β) :
    (pre ++ d :: post).modify pre.length f = pre ++ f d :: post := by
  induction pre with
  | nil => rfl
  | cons x pre ih => rw [List.cons_append, List.length_cons, List.modify_succ_cons, ih, List.cons_append]

/-- A datagram that has no fragment yet. -/
def freshData (fraghdr : IpHdr) : ReassData β := ⟨[], fraghdr, 0, false, ipReassMaxage⟩

theorem enqueue_eq (fraghdr : IpHdr) : s.enqueue fraghdr =
    if s.reassdatagrams.length < memNumReassdata then
      (s.with (freshData fraghdr :: s.reassdatagrams) s.pbufcount, true)
    else (s, false) := rfl

theorem ready_fresh (p : Packet β) : (freshData p.hdr : ReassData β).Ready p := by
  constructor
  · exact List.Pairwise.nil
  · intro h hh
    exact absurd hh List.not_mem_nil
  · rfl
  · intro h hh
    exact absurd hh (Option.not_mem_none h)
  · intro _ _
    rfl
  · intro _ hstart
    exact hstart

/-- The datagram that is found, with its header replaced if need be. -/
def ReassData.withHeader (d : ReassData β) (p : Packet β) : ReassData β :=
  if p.hdr.start = 0 ∧ d.iphdr.start ≠ 0 then { d with iphdr := p.hdr } else d

@[simp] theorem withHeader_p : (d.withHeader p).p = d.p := by
  unfold ReassData.withHeader
  split_ifs <;> rfl

@[simp] theorem withHeader_timer : (d.withHeader p).timer = d.timer := by
  unfold ReassData.withHeader
  split_ifs <;> rfl

theorem ReassData.Fine.ready (h : d.Fine) (hne : d.p ≠ []) (hkey : d.iphdr.key = p.hdr.key) : (d.withHeader p).Ready p := by
  obtain ⟨a, rest, hp⟩ := List.exists_cons_of_ne_nil hne
  have hhead : a ∈ d.p.head? := by rw [hp]; rfl
  have hself := (h.helper a (List.mem_of_mem_head? hhead)).1
  have hstart : a.pbuf.hdr.start = a.start := congrArg Helper.start hself.symm
  -- the header is that of the first fragment exactly if that is there
  have hiff : d.iphdr.start = 0 ↔ a.start = 0 := by
    constructor <;> intro hzero
    · rw [← hstart, ← h.first a hhead (.inr hzero)]
      exact hzero
    · rw [h.first a hhead (.inl hzero), hstart]
      exact hzero
  unfold ReassData.withHeader
  split_ifs with hnew
  · refine ⟨h.ordered, fun b hb => ?_, rfl, fun b hb hzero => ?_, fun _ _ => rfl, fun _ hlater => absurd hnew.1 hlater⟩
    · obtain ⟨hb₁, hb₂, hb₃⟩ := h.helper b hb
      exact ⟨hb₁, hb₂.trans hkey, hb₃⟩
    · obtain rfl := Option.mem_unique hb hhead
      exact absurd (hiff.mpr hzero) hnew.2
  · refine ⟨h.ordered, h.helper, hkey, fun b hb hzero => h.first b hb (.inl hzero), fun hfirst hzero => ?_,
      fun hfirst _ => hiff.not.mpr (hfirst a hhead)⟩
    exact absurd ⟨hzero, hiff.not.mpr (hfirst a hhead)⟩ hnew

theorem Removed.grown (hr : Removed s s' kept gone) (p : Packet β) : Grown s s' p := by
  intro d hd
  rw [hr.datagrams] at hd
  exact .inl ⟨d, by rw [hr.before]; exact List.mem_append_left _ hd, .refl d p⟩

theorem enqueueNew_spec (h : s.Ok) (hc : p.Counted) (hnew : ∀ d ∈ s.reassdatagrams, Other p.hdr d) :
    ∃ s₁ kept gone, Removed s s₁ kept gone ∧
      (s.enqueueNewDatagram p.hdr p.clen = some (s₁, false) ∨
        s₁.reassdatagrams.length < memNumReassdata ∧ s.enqueueNewDatagram p.hdr p.clen =
          some (s₁.with (freshData p.hdr :: s₁.reassdatagrams) s₁.pbufcount, true)) := by
  unfold Reass.enqueueNewDatagram
  split_ifs with hroom
  · refine ⟨s, _, _, .refl s, .inr ⟨hroom, ?_⟩⟩
    rw [enqueue_eq, if_pos hroom]
  · have hpos : 0 < p.clen := by
      rw [hc.clen]
      exact hc.1
    have hspec := removeOldest_spec h p.hdr hpos
    obtain ⟨⟨front, d, behind, hs, -, hsame, -⟩, -⟩ | ⟨s₁, freed, kept, gone, hrun, hmade⟩ := hspec
    · exact absurd (hnew d (by rw [hs]; simp)) hsame
    · refine ⟨s₁, kept, gone, hmade.removed, ?_⟩
      simp only [hrun, Option.map_some, enqueue_eq]
      split_ifs with henough hlength
      · exact .inr ⟨hlength, rfl⟩
      · exact .inl rfl
      · exact .inl rfl

theorem located_fresh (h : s.Ok) (hnew : ∀ d ∈ s.reassdatagrams, Other p.hdr d)
    (hlength : s.reassdatagrams.length < memNumReassdata) :
    Located (s.with (freshData p.hdr :: s.reassdatagrams) s.pbufcount) p [] (freshData p.hdr) s.reassdatagrams := by
  refine ⟨h.toShape.enqueue rfl (fun d hd => (hnew d hd).symm) rfl hlength, rfl, ready_fresh p, ?_, ?_⟩
  · exact h.datagram
  · exact h.nonempty

theorem located_old (h : s.Ok) (hs : s.reassdatagrams = pre ++ d :: post) (hkey : d.iphdr.key = p.hdr.key) :
    Located (s.with (pre ++ d.withHeader p :: post) s.pbufcount) p pre (d.withHeader p) post := by
  have hd : d ∈ s.reassdatagrams := by rw [hs]; simp
  have hothers : ∀ d' ∈ pre ++ post, d' ∈ s.reassdatagrams := fun d' hd' => by
    rw [hs]
    rcases List.mem_append.mp hd' with hd' | hd'
    · exact List.mem_append_left _ hd'
    · exact List.mem_append_right _ (List.mem_cons_of_mem d hd')
  have hready := (h.datagram d hd).ready (h.nonempty d hd) hkey
  have hclen : (d.withHeader p).clen = d.clen := by rw [ReassData.clen, ReassData.clen, withHeader_p]
  refine ⟨h.toShape.replace hs (hready.key.trans hkey.symm) withHeader_timer (by rw [hclen]) h.count_le, rfl, hready, ?_, ?_⟩
  · intro d' hd'
    exact h.datagram d' (hothers d' hd')
  · intro d' hd'
    exact h.nonempty d' (hothers d' hd')

theorem locate_old (hs : s.reassdatagrams = pre ++ d :: post)
    (hsome : s.reassdatagrams.findIdx? (fun d => d.iphdr.key = p.hdr.key) = some pre.length) :
    s.locate p = some (s.with (pre ++ d.withHeader p :: post) s.pbufcount, some pre.length) := by
  rw [Reass.locate, hsome]
  simp only [hs, modify_middle]
  rfl

theorem locate_spec (h : s.Ok) (hc : p.Counted) :
    ∃ s', s'.all.Perm s.all ∧ s'.pbufcount ≤ s.pbufcount ∧ Grown s s' p ∧ Quoted s s' ∧
      (s.locate p = some (s', none) ∧ s'.Ok ∨
        ∃ pre d post, s.locate p = some (s', some pre.length) ∧ Located s' p pre d post) := by
  rcases findIdx_split (q := fun d => decide (d.iphdr.key = p.hdr.key)) (l := s.reassdatagrams) with
    ⟨hnone, hnew⟩ | ⟨pre, d, post, hs, hkey, hsome⟩
  · have hothers : ∀ d ∈ s.reassdatagrams, Other p.hdr d := fun d hd => of_decide_eq_false (hnew d hd)
    obtain ⟨s₁, kept, gone, hremoved, hcases⟩ := enqueueNew_spec h hc hothers
    have hok₁ := hremoved.ok h
    have hle : s₁.pbufcount ≤ s.pbufcount := by
      have hcount := hremoved.count
      omega
    rcases hcases with hrun | ⟨hlength, hrun⟩
    · refine ⟨s₁, hremoved.all, hle, hremoved.grown p, hremoved.quoted, .inl ⟨?_, hok₁⟩⟩
      simp [Reass.locate, hnone, hrun]
    · have hothers₁ : ∀ d ∈ s₁.reassdatagrams, Other p.hdr d := fun d hd => by
        apply hothers d
        rw [hremoved.before, ← hremoved.datagrams]
        exact List.mem_append_left _ hd
      refine ⟨s₁.with (freshData p.hdr :: s₁.reassdatagrams) s₁.pbufcount, ?_, hle, ?_, hremoved.quoted,
        .inr ⟨[], freshData p.hdr, s₁.reassdatagrams, ?_, located_fresh hok₁ hothers₁ hlength⟩⟩
      · exact hremoved.all
      · intro d' hd'
        rcases List.mem_cons.mp hd' with rfl | hd'
        · refine .inr ⟨rfl, hothers, fun h hh => ?_⟩
          exact absurd hh List.not_mem_nil
        · exact hremoved.grown p d' hd'
      · simp [Reass.locate, hnone, hrun]
  · have hlocated := located_old h hs (of_decide_eq_true hkey)
    have hbufs : (d.withHeader p).bufs = d.bufs := by rw [ReassData.bufs, ReassData.bufs, withHeader_p]
    refine ⟨s.with (pre ++ d.withHeader p :: post) s.pbufcount, ?_, Nat.le_refl _, fun d' hd' => ?_, .of_eq rfl,
      .inr ⟨pre, d.withHeader p, post, locate_old hs hsome, hlocated⟩⟩
    · show (s.freed ++ (pre ++ d.withHeader p :: post).flatMap ReassData.bufs).Perm
        (s.freed ++ s.reassdatagrams.flatMap ReassData.bufs)
      rw [hs, List.flatMap_append, List.flatMap_append, List.flatMap_cons, List.flatMap_cons, hbufs]
    · left
      have hgrows : d.Grows p (d.withHeader p) := by
        refine ⟨(of_decide_eq_true hkey).trans hlocated.ready.key.symm, withHeader_timer.symm, fun h hh => .inl ?_⟩
        rwa [withHeader_p] at hh
      rw [hs]
      rcases List.mem_append.mp hd' with hd' | hd'
      · exact ⟨d', List.mem_append_left _ hd', .refl d' p⟩
      · rcases List.mem_cons.mp hd' with rfl | hd'
        · exact ⟨d, by simp, hgrows⟩
        · exact ⟨d', List.mem_append_right _ (List.mem_cons_of_mem d hd'), .refl d' p⟩

/-! ## A call of `ip_reass` -/

/-- The pbufs that are handed up. -/
def handedUp (r : Option (Packet β)) : List β := (r.map Packet.bufs).getD []

/-- What is handed up with the fragment `p`: a datagram with that fragment, which counts as complete. -/
structure Whole [PbufAddr β] (s : Reass β) (p q : Packet β) (d : ReassData β) (before after : List (Helper β)) : Prop where
  datagram : q = (d.chain before p.helper after).datagram
  fine : (d.chain before p.helper after).Fine
  fits : Fits p.helper before after
  complete : Complete d before p.helper after
  endsRight : EndsRight d before p.helper after
  helper : ∀ h ∈ before ++ after, (∃ d ∈ s.reassdatagrams, h ∈ d.p) ∨ h = p.helper

/-- What a call leaves: the invariant, and every pbuf accounted for. -/
structure Leaves [PbufAddr β] (s : Reass β) (p : Packet β) (s' : Reass β) (r : Option (Packet β)) : Prop where
  ok : s'.Ok
  all : (s'.all ++ handedUp r).Perm (s.all ++ p.bufs)
  grown : Grown s s' p
  quoted : Quoted s s'
  whole : ∀ q ∈ r, ∃ d before after, Whole s p q d before after

theorem leaves_null [PbufAddr β] (h : s'.Ok) (hall : s'.all.Perm s.all) (hgrown : Grown s s' p) (hquoted : Quoted s s') :
    Leaves s p (s'.nullReturn p).1 none := by
  refine ⟨⟨h.toShape.congr rfl rfl rfl, h.datagram, h.nonempty⟩, ?_, hgrown, hquoted, fun q hq => absurd hq (Option.not_mem_none q)⟩
  show ((s'.freed ++ p.bufs ++ s'.reassdatagrams.flatMap ReassData.bufs) ++ []).Perm (s.all ++ p.bufs)
  rw [List.append_nil, List.append_assoc]
  refine .trans ?_ (hall.append_right p.bufs)
  rw [Reass.all, List.append_assoc]
  exact List.perm_append_comm.append_left _

theorem grows_replace {d' : ReassData β} {l : List (ReassData β)} (hs : s.reassdatagrams = pre ++ d :: post)
    (hl : ∀ x ∈ l, x ∈ pre ++ d' :: post) (hd' : d.Grows p d') : ∀ x ∈ l, ∃ y ∈ s.reassdatagrams, y.Grows p x := by
  intro x hx
  rw [hs]
  rcases List.mem_append.mp (hl x hx) with hx | hx
  · exact ⟨x, List.mem_append_left _ hx, .refl x p⟩
  · rcases List.mem_cons.mp hx with rfl | hx
    · exact ⟨d, by simp, hd'⟩
    · exact ⟨x, List.mem_append_right _ (List.mem_cons_of_mem d hx), .refl x p⟩

theorem Grown.trans {s₁ : Reass β} (h : Grown s s₁ p)
    (h' : ∀ x ∈ s'.reassdatagrams, ∃ y ∈ s₁.reassdatagrams, y.Grows p x) : Grown s s' p := by
  intro x hx
  obtain ⟨y, hy, hyx⟩ := h' x hx
  rcases h y hy with ⟨z, hz, hzy⟩ | ⟨hnew, hnone, hp⟩
  · exact .inl ⟨z, hz, hzy.trans hyx⟩
  · refine .inr ⟨hyx.key.symm.trans hnew, hnone, fun a ha => ?_⟩
    rcases hyx.helper a ha with ha | ha
    · exact hp a ha
    · exact ha

theorem Located.ok (h : Located s p pre d post) {d' : ReassData β} (hshape : s'.Shape)
    (hs' : s'.reassdatagrams = pre ++ d' :: post) (hd' : d'.Fine) (hne : d'.p ≠ []) : s'.Ok := by
  refine ⟨hshape, fun x hx => ?_, fun x hx => ?_⟩ <;> rw [hs'] at hx <;> rcases List.mem_append.mp hx with hx | hx
  · exact h.datagram x (List.mem_append_left _ hx)
  · rcases List.mem_cons.mp hx with rfl | hx
    · exact hd'
    · exact h.datagram x (List.mem_append_right _ hx)
  · exact h.nonempty x (List.mem_append_left _ hx)
  · rcases List.mem_cons.mp hx with rfl | hx
    · exact hne
    · exact h.nonempty x (List.mem_append_right _ hx)

theorem all_middle {l : List β} {d' : ReassData β} (hs : s.reassdatagrams = pre ++ d :: post)
    (hd : d'.bufs.Perm (d.bufs ++ l)) (n : ℕ) : (s.with (pre ++ d' :: post) n).all.Perm (s.all ++ l) := by
  show (s.freed ++ (pre ++ d' :: post).flatMap ReassData.bufs).Perm _
  rw [Reass.all, hs]
  simp only [List.flatMap_append, List.flatMap_cons, List.append_assoc]
  refine ((hd.append_right _).trans ?_).append_left _ |>.append_left _
  rw [List.append_assoc]
  exact List.perm_append_comm.append_left _

theorem chainInto_ok [PbufAddr β] (h : Located s p pre d post) (hc : p.Counted) (hcount : s.pbufcount + p.clen ≤ ipReassMaxPbufs)
    {r : Option (Packet β)} (hrun : s.chainInto p pre.length = some (s', r)) :
    s'.Ok ∧ (s'.all ++ handedUp r).Perm (s.all ++ p.bufs) ∧
      (∀ x ∈ s'.reassdatagrams, ∃ y ∈ s.reassdatagrams, y.Grows p x) ∧ s'.exceeded = s.exceeded ∧
      ∀ q ∈ r, ∃ d before after, Whole s p q d before after := by
  have hs := h.split
  rcases chainInto_cases hs h.ready hcount with ⟨hfree, -, a, ha, hle⟩ | ⟨before, after, hp, hfits, hno, hyes, hstop⟩
  · obtain ⟨rfl, rfl⟩ := Prod.mk.inj (Option.some.inj (hrun.symm.trans hfree))
    have hbufs : (d.update p).bufs = d.bufs := by rw [ReassData.bufs, ReassData.bufs, update_p]
    have hclen : (d.update p).clen = d.clen := by rw [ReassData.clen, ReassData.clen, update_p]
    refine ⟨h.ok ?_ rfl (h.ready.update.fine ⟨a, by rwa [update_p], hle⟩) ?_, ?_,
      grows_replace hs (fun x hx => hx) ⟨by rw [update_iphdr], update_timer.symm, fun a ha => .inl (by rwa [update_p] at ha)⟩,
      rfl, fun q hq => absurd hq (Option.not_mem_none q)⟩
    · exact (h.toShape.replace hs (congrArg IpHdr.key update_iphdr) update_timer (by rw [hclen]) h.count_le).congr
        rfl rfl rfl
    · rw [update_p]
      exact List.ne_nil_of_mem ha
    · show ((s.freed ++ p.bufs ++ (pre ++ d.update p :: post).flatMap ReassData.bufs) ++ []).Perm (s.all ++ p.bufs)
      rw [Reass.all, hs, List.flatMap_append, List.flatMap_append, List.flatMap_cons, List.flatMap_cons, hbufs,
        List.append_nil, List.append_assoc, List.append_assoc]
      exact List.perm_append_comm.append_left _
  · have hp' : (d.update p).p = before ++ after := by rw [update_p, hp]
    have hfine := h.ready.update.chain hc hp' hfits
    have hbufs : ((d.update p).chain before p.helper after).bufs.Perm (d.bufs ++ p.bufs) := by
      have hold : d.bufs = (before ++ after).flatMap fun h => h.pbuf.bufs := by rw [ReassData.bufs, hp]
      rw [hold]
      exact bufs_chain
    have hclen : ((d.update p).chain before p.helper after).clen = d.clen + p.clen := by
      rw [clen_chain hp', ReassData.clen, update_p, ← ReassData.clen]
    have hkey : ((d.update p).chain before p.helper after).iphdr.key = d.iphdr.key := congrArg IpHdr.key update_iphdr
    have htimer : ((d.update p).chain before p.helper after).timer = d.timer := update_timer
    have hgrows : d.Grows p ((d.update p).chain before p.helper after) := by
      refine ⟨hkey.symm, htimer.symm, fun a ha => ?_⟩
      rw [hp]
      rcases List.mem_append.mp ha with ha | ha
      · exact .inl (List.mem_append_left _ ha)
      · rcases List.mem_cons.mp ha with rfl | ha
        · exact .inr rfl
        · exact .inl (List.mem_append_right _ ha)
    generalize hd' : (d.update p).chain before p.helper after = d' at *
    have hne : d'.p ≠ [] := by
      rw [← hd']
      simp [ReassData.chain]
    have hshape := h.toShape.replace (n := s.pbufcount + p.clen) hs hkey htimer (by omega) hcount
    have hall := all_middle hs hbufs (s.pbufcount + p.clen)
    by_cases hcomplete : Complete (d.update p) before p.helper after
    · by_cases hends : EndsRight (d.update p) before p.helper after
      · have hle : d'.clen ≤ s.pbufcount + p.clen := by
          have hsum := h.count
          rw [hs, sum_middle] at hsum
          omega
        rw [hyes hcomplete hends, complete_eq rfl hfine hle hcount] at hrun
        obtain ⟨rfl, rfl⟩ := Prod.mk.inj (Option.some.inj hrun)
        refine ⟨⟨hshape.erase rfl (Nat.sub_add_cancel hle), h.datagram, h.nonempty⟩, ?_, ?_, rfl, fun q hq => ?_⟩
        · refine .trans ?_ hall
          show ((s.freed ++ (pre ++ post).flatMap ReassData.bufs) ++ d'.bufs).Perm
            (s.freed ++ (pre ++ d' :: post).flatMap ReassData.bufs)
          rw [List.flatMap_append, List.flatMap_append, List.flatMap_cons, List.append_assoc, List.append_assoc]
          exact (List.perm_append_comm.append_left _).append_left _
        · refine grows_replace hs (fun x hx => ?_) hgrows
          rcases List.mem_append.mp hx with hx | hx
          · exact List.mem_append_left _ hx
          · exact List.mem_append_right _ (List.mem_cons_of_mem d' hx)
        · obtain rfl := Option.some.inj hq
          rw [← hd'] at hfine ⊢
          refine ⟨d.update p, before, after, rfl, hfine, hfits, hcomplete, hends, fun a ha => ?_⟩
          exact .inl ⟨d, by rw [hs]; simp, by rwa [hp]⟩
      · cases hrun.symm.trans (hstop hcomplete hends)
    · obtain ⟨rfl, rfl⟩ := Prod.mk.inj (Option.some.inj (hrun.symm.trans (hno hcomplete)))
      refine ⟨h.ok hshape rfl hfine hne, ?_, grows_replace hs (fun x hx => hx) hgrows, rfl,
        fun q hq => absurd hq (Option.not_mem_none q)⟩
      show (_ ++ []).Perm _
      rw [List.append_nil]
      exact hall

/-- The assertion about `prev` fails exactly if there is too little room and it is stuck. -/
theorem makeRoom_spec (h : s.Ok) (hc : p.Counted) :
    (ipReassMaxPbufs < s.pbufcount + p.clen ∧ Stuck p.hdr p.clen s.reassdatagrams ∧ s.makeRoom p = none) ∨
    ∃ s₁ kept gone room, s.makeRoom p = some (s₁, room) ∧ Removed s s₁ kept gone ∧
      (∀ d ∈ gone, Other p.hdr d) ∧ (room = true → s₁.pbufcount + p.clen ≤ ipReassMaxPbufs) ∧
      ¬ (ipReassMaxPbufs < s.pbufcount + p.clen ∧ Stuck p.hdr p.clen s.reassdatagrams) := by
  unfold Reass.makeRoom
  split_ifs with hfull
  · have hpos : 0 < p.clen := by
      rw [hc.clen]
      exact hc.1
    rcases removeOldest_spec h p.hdr hpos with ⟨hstuck, hnone⟩ | ⟨s₁, freed, kept, gone, hrun, hmade⟩
    · left
      exact ⟨hfull, hstuck, by rw [hnone]; rfl⟩
    · right
      refine ⟨s₁, kept, gone, _, by rw [hrun]; rfl, hmade.removed, hmade.other, fun hroom => ?_, fun hstuck => ?_⟩
      · exact (of_decide_eq_true hroom).2
      · exact hmade.not_stuck h hstuck.2
  · right
    exact ⟨s, _, [], true, rfl, .refl s, by simp, fun _ => by omega, fun hstuck => hfull hstuck.1⟩

/-- Every call keeps the invariant and accounts for every pbuf. -/
theorem ipReass_ok [PbufAddr β] (h : s.Ok) (hc : p.Counted) {r : Option (Packet β)} (hrun : s.ipReass p = some (s', r)) :
    Leaves s p s' r := by
  have hself : Grown s s p := fun d hd => .inl ⟨d, hd, .refl d p⟩
  unfold Reass.ipReass at hrun
  split_ifs at hrun with hhl
  · obtain ⟨rfl, rfl⟩ := Prod.mk.inj (Option.some.inj hrun)
    exact leaves_null h (.refl _) hself (.of_eq rfl)
  · rcases makeRoom_spec h hc with ⟨-, -, hnone⟩ | ⟨s₁, kept, gone, room, hmake, hremoved, hother, hroom, -⟩
    · rw [hnone] at hrun
      cases hrun
    · have hok₁ := hremoved.ok h
      have hgrown₁ := hremoved.grown p
      simp only [hmake, Option.bind_some] at hrun
      cases hr : room with
      | false =>
        rw [hr] at hrun
        obtain ⟨rfl, rfl⟩ := Prod.mk.inj (Option.some.inj hrun)
        exact leaves_null hok₁ hremoved.all hgrown₁ hremoved.quoted
      | true =>
        rw [hr] at hrun
        simp only [Bool.not_true, Bool.false_eq_true, if_false] at hrun
        obtain ⟨s₂, hall, hle, hgrown₂, hquoted₂, hcases⟩ := locate_spec hok₁ hc
        have hquoted : Quoted s s₂ := by
          refine hremoved.quoted.trans hquoted₂ fun d hd => ⟨d, ?_, rfl⟩
          rw [hremoved.before, ← hremoved.datagrams]
          exact List.mem_append_left _ hd
        have hgrown : Grown s s₂ p := by
          intro x hx
          rcases hgrown₂ x hx with ⟨y, hy, hyx⟩ | ⟨hnew, hnone, hp⟩
          · rw [hremoved.datagrams] at hy
            exact .inl ⟨y, by rw [hremoved.before]; exact List.mem_append_left _ hy, hyx⟩
          · refine .inr ⟨hnew, fun d hd => ?_, hp⟩
            rw [hremoved.before] at hd
            rcases List.mem_append.mp hd with hd | hd
            · exact hnone d (by rwa [hremoved.datagrams])
            · exact hother d hd
        rcases hcases with ⟨hlocate, hok₂⟩ | ⟨pre, d, post, hlocate, hlocated⟩
        · simp only [hlocate, Option.bind_some] at hrun
          obtain ⟨rfl, rfl⟩ := Prod.mk.inj (Option.some.inj hrun)
          exact leaves_null hok₂ (hall.trans hremoved.all) hgrown hquoted
        · simp only [hlocate, Option.bind_some] at hrun
          have hcount := hroom hr
          obtain ⟨hok, hall', hgrows, hexceeded, hwhole⟩ := chainInto_ok hlocated hc (by omega) hrun
          have hquoted' : Quoted s s' := by rwa [Quoted, hexceeded]
          refine ⟨hok, hall'.trans ((hall.trans hremoved.all).append_right _), hgrown.trans hgrows, hquoted', fun q hq => ?_⟩
          obtain ⟨d, before, after, hmade⟩ := hwhole q hq
          refine ⟨d, before, after, { hmade with helper := fun a ha => ?_ }⟩
          rcases hmade.helper a ha with ⟨y, hy, hay⟩ | heq
          · rcases hgrown y hy with ⟨z, hz, hzy⟩ | ⟨-, -, hp⟩
            · rcases hzy.helper a hay with haz | heq
              · exact .inl ⟨z, hz, haz⟩
              · exact .inr heq
            · exact .inr (hp a hay)
          · exact .inr heq

/-! ## A tick -/

/-- One tick less. -/
def ReassData.tick (d : ReassData β) : ReassData β := { d with timer := d.timer - 1 }

/-- What a tick leaves of the datagrams. -/
def ticked (l : List (ReassData β)) : List (ReassData β) := (l.filter fun d => 0 < d.timer).map ReassData.tick

/-- What the loop of `ip_reass_tmr` relies on and keeps, when it has come past the datagrams `passed`. -/
structure Ticking (s : Reass β) : Prop where
  datagram : ∀ d ∈ s.reassdatagrams, d.Fine
  nonempty : ∀ d ∈ s.reassdatagrams, d.p ≠ []
  count : s.pbufcount = (s.reassdatagrams.map ReassData.clen).sum
  count_le : s.pbufcount ≤ ipReassMaxPbufs
  exceeded : ∀ hdr ∈ s.exceeded, hdr.start = 0

theorem mem_replace {d' x : ReassData β} (hx : x ∈ pre ++ d' :: post) : x = d' ∨ x ∈ pre ++ d :: post := by
  rcases List.mem_append.mp hx with hx | hx
  · exact .inr (List.mem_append_left _ hx)
  · rcases List.mem_cons.mp hx with rfl | hx
    · exact .inl rfl
    · exact .inr (List.mem_append_right _ (List.mem_cons_of_mem d hx))

theorem mem_erase {x : ReassData β} (hx : x ∈ pre ++ post) : x ∈ pre ++ d :: post := by
  rcases List.mem_append.mp hx with hx | hx
  · exact List.mem_append_left _ hx
  · exact List.mem_append_right _ (List.mem_cons_of_mem d hx)

theorem Ticking.tick (h : Ticking s) (hs : s.reassdatagrams = pre ++ d :: post) :
    Ticking (s.with (pre ++ d.tick :: post) s.pbufcount) := by
  obtain ⟨hfine, hne, hcount, hle, hexceeded⟩ := h
  rw [hs] at hfine hne hcount
  have hd : d ∈ pre ++ d :: post := by simp
  refine ⟨fun x hx => ?_, fun x hx => ?_, ?_, hle, hexceeded⟩
  · rcases mem_replace (d := d) hx with rfl | hx
    · have h' := hfine d hd
      exact ⟨h'.ordered, h'.helper, h'.first⟩
    · exact hfine x hx
  · rcases mem_replace (d := d) hx with rfl | hx
    · exact hne d hd
    · exact hne x hx
  · show s.pbufcount = ((pre ++ d.tick :: post).map ReassData.clen).sum
    rw [hcount, sum_middle, sum_middle]
    rfl

theorem Ticking.expire (h : Ticking s) (hs : s.reassdatagrams = pre ++ d :: post) :
    ∃ s', s.freeCompleteDatagram pre.length (if pre = [] then none else some (pre.length - 1)) = some (s', d.clen) ∧
      s'.reassdatagrams = pre ++ post ∧ Ticking s' ∧ s'.all.Perm s.all ∧ Quoted s s' := by
  obtain ⟨hfine, hne, hcount, hle, hexceeded⟩ := h
  rw [hs] at hfine hne hcount
  have hd : d ∈ pre ++ d :: post := by simp
  obtain ⟨iprh, tail, hp⟩ := List.exists_cons_of_ne_nil (hne d hd)
  rw [sum_middle] at hcount
  refine ⟨_, freeComplete_eq hs hp (by omega) hle, rfl, ⟨fun x hx => hfine x (mem_erase hx),
    fun x hx => hne x (mem_erase hx), ?_, ?_, fun hdr hhdr => ?_⟩, ?_, fun hdr hhdr => ?_⟩
  · exact Nat.sub_eq_of_eq_add hcount
  · exact (Nat.sub_le _ _).trans hle
  · rcases quoted_first (hfine d hd) hp hhdr with hold | ⟨hzero, -⟩
    · exact hexceeded hdr hold
    · exact hzero
  · show ((s.freed ++ d.bufs) ++ (pre ++ post).flatMap ReassData.bufs).Perm (s.freed ++ s.reassdatagrams.flatMap ReassData.bufs)
    rw [hs, List.flatMap_append, List.flatMap_append, List.flatMap_cons, List.append_assoc, ← List.append_assoc d.bufs,
      ← List.append_assoc _ d.bufs]
    exact (List.perm_append_comm.append_right _).append_left _
  · exact (quoted_first (hfine d hd) hp hhdr).imp_right fun ⟨hstart, hheld⟩ => ⟨hstart, d, by rw [hs]; exact hd, hheld⟩

theorem tmrLoop_spec {passed todo : List (ReassData β)} {fuel : ℕ} (h : Ticking s)
    (hs : s.reassdatagrams = passed ++ todo) (hfuel : todo.length ≤ fuel) :
    ∃ s', s.tmrLoop fuel passed.length (if passed = [] then none else some (passed.length - 1)) = some s' ∧
      s'.reassdatagrams = passed ++ ticked todo ∧ Ticking s' ∧ s'.all.Perm s.all ∧ Quoted s s' := by
  induction fuel generalizing s passed todo with
  | zero =>
    have hnil := List.eq_nil_of_length_eq_zero (Nat.eq_zero_of_le_zero hfuel)
    rw [hnil] at hs ⊢
    exact ⟨s, rfl, hs, h, .refl _, .of_eq rfl⟩
  | succ fuel ih =>
    cases todo with
    | nil =>
      refine ⟨s, ?_, hs, h, .refl _, .of_eq rfl⟩
      rw [Reass.tmrLoop, hs, List.append_nil, List.getElem?_eq_none (Nat.le_refl _)]
    | cons d rest =>
      have hget : s.reassdatagrams[passed.length]? = some d := by rw [hs, getElem_middle]
      rw [Reass.tmrLoop, hget]
      by_cases htimer : 0 < d.timer
      · have hnext := ih (h.tick hs) (List.append_cons passed d.tick rest) (Nat.le_of_succ_le_succ hfuel)
        rw [if_neg (by simp), List.length_append, List.length_singleton, Nat.add_sub_cancel] at hnext
        obtain ⟨s', hrun, hl, hticking, hall, hquoted⟩ := hnext
        have hsame : Quoted s (s.with (passed ++ d.tick :: rest) s.pbufcount) := .of_eq rfl
        refine ⟨s', ?_, ?_, hticking, hall.trans ?_, hsame.trans hquoted fun x hx => ?_⟩
        · simp only [if_pos htimer]
          rw [← hrun, hs, set_middle]
          rfl
        · rw [hl, ticked, ticked, List.filter_cons_of_pos (by simpa using htimer), List.map_cons, List.append_assoc]
          rfl
        · show (s.freed ++ (passed ++ d.tick :: rest).flatMap ReassData.bufs).Perm
            (s.freed ++ s.reassdatagrams.flatMap ReassData.bufs)
          rw [hs, List.flatMap_append, List.flatMap_append, List.flatMap_cons, List.flatMap_cons]
          rfl
        · rw [hs]
          rcases mem_replace (d := d) hx with rfl | hx
          · exact ⟨d, by simp, rfl⟩
          · exact ⟨x, hx, rfl⟩
      · obtain ⟨s₁, hfree, hl₁, hticking₁, hall₁, hquoted₁⟩ := h.expire hs
        obtain ⟨s', hrun, hl, hticking, hall, hquoted⟩ := ih hticking₁ hl₁ (Nat.le_of_succ_le_succ hfuel)
        refine ⟨s', ?_, ?_, hticking, hall.trans hall₁, hquoted₁.trans hquoted fun x hx => ⟨x, ?_, rfl⟩⟩
        · simp only [if_neg htimer, hfree, Option.bind_some]
          exact hrun
        · rw [hl, ticked, ticked, List.filter_cons_of_neg (by simpa using htimer)]
        · rw [hl₁] at hx
          rw [hs]
          exact mem_erase hx

/-- A tick never fails: it takes one from every timer, and drops the datagrams that had none left. -/
theorem ipReassTmr_spec (h : s.Ok) : ∃ s', s.ipReassTmr = some s' ∧ s'.reassdatagrams = ticked s.reassdatagrams ∧
    s'.Ok ∧ s'.all.Perm s.all ∧ Quoted s s' := by
  obtain ⟨s', hrun, hl, hticking, hall, hquoted⟩ := tmrLoop_spec (s := s)
    ⟨h.datagram, h.nonempty, h.count, h.count_le, h.exceeded⟩ (List.nil_append _).symm (Nat.le_refl _)
  rw [List.nil_append] at hl
  have hpairwise : ∀ {R : ReassData β → ReassData β → Prop}, s.reassdatagrams.Pairwise R →
      (∀ d d', R d d' → R d.tick d'.tick) → (ticked s.reassdatagrams).Pairwise R := by
    intro R hR htick
    exact List.pairwise_map.mpr ((hR.sublist List.filter_sublist).imp fun {d d'} => htick d d')
  refine ⟨s', hrun, hl, ⟨⟨?_, ?_, fun d hd => ?_, ?_, hticking.count, hticking.count_le, hticking.exceeded⟩,
    hticking.datagram, hticking.nonempty⟩, hall, hquoted⟩
  · rw [hl]
    exact hpairwise h.keys fun d d' hne => hne
  · rw [hl]
    exact hpairwise h.timers fun d d' hle => Nat.sub_le_sub_right hle 1
  · rw [hl] at hd
    obtain ⟨d₀, hd₀, rfl⟩ := List.mem_map.mp hd
    exact (Nat.sub_le _ 1).trans (h.maxage d₀ (List.mem_of_mem_filter hd₀))
  · rw [hl, ticked, List.length_map]
    exact (List.length_filter_le _ _).trans h.length

end LoraGateway.Core
