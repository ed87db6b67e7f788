import LoraGateway.Arp.Etharp
import LoraGateway.Lib.Table

/-!
# What the calls do to the table

A call changes one entry, the one of the address it is about (`Change`), and `etharp_tmr` and `etharp_cleanup_netif`
sweep over all of them. Which entry is given up for a new address is said by `Spare`. No assertion fails in a
table that is as it should be (`Etharp.Ok`).

The loop of `etharp_find_entry` is followed entry by entry: each candidate is the best one of its kind among the
entries seen (`Scanned`), so the one that is given up when all have been seen is `Spare` (`recycle_spec`). Changes of
one entry compose (`Change.trans`), and each keeps the addresses of the entries apart (`Change.ok`) and every packet
accounted for (`Change.balanced`).
-/

namespace LoraGateway.Arp

open Lib

variable {β : Type} {e e' : EtharpEntry β} {s s' : Etharp β} {ipaddr : IpAddr} {l seen : List (EtharpEntry β)} {i : ℕ}

/-! ## The invariant -/

def EtharpEntry.Used (e : EtharpEntry β) : Prop := e.state ≠ .empty

/-- Packets wait at pending entries only, and no entry gets older than it may. -/
structure EtharpEntry.Fine (e : EtharpEntry β) : Prop where
  free : ¬ e.Used → e = .free
  pending : e.state = .pending → e.netif = none ∧ e.ctime < arpMaxpending
  stable : e.state.isStable = true → e.q = none
  ctime : e.ctime < arpMaxage

/-- Two entries are never for the same address. -/
structure Etharp.Ok (s : Etharp β) : Prop where
  length : s.table.length = arpTableSize
  fine : ∀ e ∈ s.table, e.Fine
  apart : Distinct EtharpEntry.Used EtharpEntry.ipaddr s.table

theorem EtharpState.pending_or_stable {state : EtharpState} (h : state ≠ .empty) :
    state = .pending ∨ state.isStable = true := by
  cases state with
  | empty => exact absurd rfl h
  | pending => exact .inl rfl
  | stable => exact .inr rfl
  | stableRerequesting => exact .inr rfl

theorem fine_free : (EtharpEntry.free : EtharpEntry β).Fine := by
  constructor
  · intro _
    rfl
  · intro h
    cases h
  · intro _
    rfl
  · exact Nat.zero_lt_succ _

theorem not_used_free : ¬ (EtharpEntry.free : EtharpEntry β).Used := fun h => h rfl

/-! ## Finding an entry -/

/-- An entry that may be given up: a free one, or the oldest of the stable ones, if there are any, or else of those that
no packet waits at, or else of all. -/
def Spare (l : List (EtharpEntry β)) (e : EtharpEntry β) : Prop :=
  ¬ e.Used ∨ (∀ x ∈ l, x.Used) ∧
    (e.state.isStable = true ∧ (∀ x ∈ l, x.state.isStable = true → x.ctime ≤ e.ctime) ∨
      (∀ x ∈ l, x.state = .pending) ∧
        (e.q = none ∧ (∀ x ∈ l, x.q = none → x.ctime ≤ e.ctime) ∨
          (∀ x ∈ l, x.q ≠ none) ∧ ∀ x ∈ l, x.ctime ≤ e.ctime))

def IsQueue (e : EtharpEntry β) : Prop := e.state = .pending ∧ e.q ≠ none

def IsPending (e : EtharpEntry β) : Prop := e.state = .pending ∧ e.q = none

def IsStable (e : EtharpEntry β) : Prop := e.state.isStable = true

/-- What the loop knows of the entries it has seen, none of which matches. -/
structure Scanned (seen : List (EtharpEntry β)) (c : Candidates) : Prop where
  full : c.empty = none → ∀ e ∈ seen, e.Used
  free : ∀ i ∈ c.empty, ∃ e, seen[i]? = some e ∧ ¬ e.Used
  queue : Best EtharpEntry.ctime IsQueue seen c.oldQueue c.ageQueue
  pending : Best EtharpEntry.ctime IsPending seen c.oldPending c.agePending
  stable : Best EtharpEntry.ctime IsStable seen c.oldStable c.ageStable

variable {c : Candidates}

theorem scanned_nil : Scanned ([] : List (EtharpEntry β)) ⟨none, none, 0, none, 0, none, 0⟩ := by
  refine ⟨fun _ e he => absurd he List.not_mem_nil, fun i hi => absurd hi (Option.not_mem_none i), ?_, ?_, ?_⟩ <;>
    exact best_nil

theorem Scanned.skip (h : Scanned seen c) (he : ¬ e.Used) :
    Scanned (seen ++ [e]) (if c.empty = none then { c with empty := some seen.length } else c) := by
  have hstate : e.state = .empty := not_not.mp he
  have hqueue : ¬ IsQueue e := fun hq => by
    rw [IsQueue, hstate] at hq
    exact absurd hq.1 (by decide)
  have hpending : ¬ IsPending e := fun hp => by
    rw [IsPending, hstate] at hp
    exact absurd hp.1 (by decide)
  have hstable : ¬ IsStable e := fun hs => by
    rw [IsStable, hstate] at hs
    exact absurd hs (by decide)
  split_ifs with hnone
  · refine ⟨fun hno => ?_, fun i hi => ?_, h.queue.skip hqueue, h.pending.skip hpending, h.stable.skip hstable⟩
    · cases hno
    · obtain rfl := Option.some.inj hi
      refine ⟨e, ?_, he⟩
      rw [List.getElem?_append_right (Nat.le_refl _), Nat.sub_self]
      simp
  · refine ⟨fun hno => absurd hno hnone, fun i hi => ?_, h.queue.skip hqueue, h.pending.skip hpending,
      h.stable.skip hstable⟩
    obtain ⟨x, hx, hfree⟩ := h.free i hi
    exact ⟨x, Best.getElem_concat hx, hfree⟩

theorem Scanned.visit (h : Scanned seen c) (he : e.Used) : Scanned (seen ++ [e]) (c.visit e seen.length) := by
  have hnone : c.empty = none → ∀ x ∈ seen ++ [e], x.Used := by
    intro hc x hx
    rcases List.mem_append.mp hx with hx | hx
    · exact h.full hc x hx
    · rwa [List.mem_singleton.mp hx]
  have hempty : ∀ i ∈ c.empty, ∃ x, (seen ++ [e])[i]? = some x ∧ ¬ x.Used := by
    intro i hi
    obtain ⟨x, hx, hfree⟩ := h.free i hi
    exact ⟨x, Best.getElem_concat hx, hfree⟩
  unfold Candidates.visit
  split_ifs with hstate hq hage hage hage
  · have hpending : ¬ IsPending e := fun hp => by rw [hp.2] at hq; cases hq
    have hstable : ¬ IsStable e := fun hs => by rw [IsStable, hstate] at hs; cases hs
    have hqueue : IsQueue e := ⟨hstate, Option.isSome_iff_ne_none.mp hq⟩
    exact ⟨hnone, hempty, h.queue.take hqueue hage, h.pending.skip hpending, h.stable.skip hstable⟩
  · have hpending : ¬ IsPending e := fun hp => by rw [hp.2] at hq; cases hq
    have hstable : ¬ IsStable e := fun hs => by rw [IsStable, hstate] at hs; cases hs
    exact ⟨hnone, hempty, h.queue.keep (Nat.lt_of_not_le hage), h.pending.skip hpending, h.stable.skip hstable⟩
  · have hqueue : ¬ IsQueue e := fun hn => hq (Option.isSome_iff_ne_none.mpr hn.2)
    have hstable : ¬ IsStable e := fun hs => by rw [IsStable, hstate] at hs; cases hs
    have hpending : IsPending e := ⟨hstate, by simpa using hq⟩
    exact ⟨hnone, hempty, h.queue.skip hqueue, h.pending.take hpending hage, h.stable.skip hstable⟩
  · have hqueue : ¬ IsQueue e := fun hn => hq (Option.isSome_iff_ne_none.mpr hn.2)
    have hstable : ¬ IsStable e := fun hs => by rw [IsStable, hstate] at hs; cases hs
    exact ⟨hnone, hempty, h.queue.skip hqueue, h.pending.keep (Nat.lt_of_not_le hage), h.stable.skip hstable⟩
  · have hqueue : ¬ IsQueue e := fun hn => hstate hn.1
    have hpending : ¬ IsPending e := fun hn => hstate hn.1
    have hstable : IsStable e := (EtharpState.pending_or_stable he).resolve_left hstate
    exact ⟨hnone, hempty, h.queue.skip hqueue, h.pending.skip hpending, h.stable.take hstable hage⟩
  · have hqueue : ¬ IsQueue e := fun hn => hstate hn.1
    have hpending : ¬ IsPending e := fun hn => hstate hn.1
    exact ⟨hnone, hempty, h.queue.skip hqueue, h.pending.skip hpending, h.stable.keep (Nat.lt_of_not_le hage)⟩

theorem findLoop_spec (ipaddr : IpAddr) (l : List (EtharpEntry β)) (h : Scanned seen c) :
    (∃ i e, l[i]? = some e ∧ e.Used ∧ e.ipaddr = ipaddr ∧
      findLoop ipaddr l seen.length c = .inl (seen.length + i)) ∨
    (∀ e ∈ l, e.Used → e.ipaddr ≠ ipaddr) ∧
      ∃ c', Scanned (seen ++ l) c' ∧ findLoop ipaddr l seen.length c = .inr c' := by
  induction l generalizing seen c with
  | nil =>
    right
    refine ⟨fun e he => absurd he List.not_mem_nil, c, ?_, rfl⟩
    rwa [List.append_nil]
  | cons e l ih =>
    have hnext : ∀ c', Scanned (seen ++ [e]) c' → ¬ (e.Used ∧ e.ipaddr = ipaddr) →
        findLoop ipaddr (e :: l) seen.length c = findLoop ipaddr l (seen.length + 1) c' →
        (∃ i x, (e :: l)[i]? = some x ∧ x.Used ∧ x.ipaddr = ipaddr ∧
          findLoop ipaddr (e :: l) seen.length c = .inl (seen.length + i)) ∨
        (∀ x ∈ e :: l, x.Used → x.ipaddr ≠ ipaddr) ∧
          ∃ c'', Scanned (seen ++ e :: l) c'' ∧ findLoop ipaddr (e :: l) seen.length c = .inr c'' := by
      intro c' hc' hno hrun
      have hlength : (seen ++ [e]).length = seen.length + 1 := by rw [List.length_append, List.length_singleton]
      rw [hrun, ← hlength]
      rcases ih hc' with ⟨i, x, hx, hused, hip, hfound⟩ | ⟨hall, c'', hc'', hnone⟩
      · left
        refine ⟨i + 1, x, hx, hused, hip, ?_⟩
        rw [hfound, hlength, Nat.add_assoc, Nat.add_comm 1 i]
      · right
        rw [List.append_assoc, List.singleton_append] at hc''
        refine ⟨fun x hx hused heq => ?_, c'', hc'', hnone⟩
        rcases List.mem_cons.mp hx with rfl | hx
        · exact hno ⟨hused, heq⟩
        · exact hall x hx hused heq
    by_cases hused : e.Used
    · by_cases hip : ipaddr = e.ipaddr
      · left
        refine ⟨0, e, rfl, hused, hip.symm, ?_⟩
        rw [findLoop, if_neg hused, if_pos hip]
        rfl
      · refine hnext _ (h.visit hused) (fun hboth => hip hboth.2.symm) ?_
        rw [findLoop, if_neg hused, if_neg hip]
    · refine hnext _ (h.skip hused) (fun hboth => hused hboth.1) ?_
      rw [findLoop, if_pos (not_not.mp hused)]

/-! ## What a call changes -/

/-- What the entries have waiting. -/
def Etharp.waiting (s : Etharp β) : List (β × IpAddr) := s.table.flatMap EtharpEntry.waiting

/-- Each packet that was left to wait has been sent or freed, or waits. -/
def Etharp.Balanced (s : Etharp β) : Prop :=
  (s.queued : Multiset (β × IpAddr)) = s.done + s.dropped + s.waiting

/-- The entry `i` becomes `e'`, the frames are sent, and no packet is lost. -/
structure Change (s s' : Etharp β) (i : ℕ) (e e' : EtharpEntry β) (frames : List (Frame β)) : Prop where
  found : s.table[i]? = some e
  table : s'.table = s.table.set i e'
  sent : s'.sent = s.sent ++ frames
  balance : (s'.queued : Multiset (β × IpAddr)) + s.done + s.dropped + e.waiting =
    s.queued + s'.done + s'.dropped + e'.waiting

namespace Change

variable {e'' : EtharpEntry β} {s'' : Etharp β} {frames frames' : List (Frame β)}

theorem refl (hi : s.table[i]? = some e) : Change s s i e e [] := by
  refine ⟨hi, ?_, (List.append_nil _).symm, rfl⟩
  obtain ⟨hlt, rfl⟩ := List.getElem?_eq_some_iff.mp hi
  exact (List.set_getElem_self hlt).symm

theorem at_index (h : Change s s' i e e' frames) : s'.table[i]? = some e' := by
  rw [h.table]
  exact List.getElem?_set_self (List.getElem?_eq_some_iff.mp h.found).1

theorem trans (h : Change s s' i e e' frames) (h' : Change s' s'' i e' e'' frames') :
    Change s s'' i e e'' (frames ++ frames') := by
  refine ⟨h.found, ?_, ?_, ?_⟩
  · rw [h'.table, h.table, List.set_set]
  · rw [h'.sent, h.sent, List.append_assoc]
  · classical
    ext p
    have hcount := congrArg (Multiset.count p) h.balance
    have hcount' := congrArg (Multiset.count p) h'.balance
    simp only [Multiset.count_add] at hcount hcount' ⊢
    omega

theorem balanced (h : Change s s' i e e' frames) (hs : s.Balanced) : s'.Balanced := by
  have hwaiting : (s'.waiting : Multiset (β × IpAddr)) + e.waiting = s.waiting + e'.waiting := by
    rw [Etharp.waiting, h.table]
    exact flatMap_set h.found
  classical
  ext p
  have hcount := congrArg (Multiset.count p) h.balance
  have hsum := congrArg (Multiset.count p) hs
  have hcount' := congrArg (Multiset.count p) hwaiting
  simp only [Multiset.count_add] at hcount hsum hcount' ⊢
  omega

theorem ok (h : Change s s' i e e' frames) (hs : s.Ok) (hfine : e'.Fine)
    (hothers : e'.Used → Others EtharpEntry.Used EtharpEntry.ipaddr s.table i e'.ipaddr) : s'.Ok := by
  refine ⟨?_, fun x hx => ?_, ?_⟩
  · rw [h.table, List.length_set, hs.length]
  · rw [h.table] at hx
    rcases List.mem_or_eq_of_mem_set hx with hx | rfl
    · exact hs.fine x hx
    · exact hfine
  · rw [h.table]
    exact hs.apart.set hothers

end Change

/-! ## The entry of an address -/

/-- An entry that has been made for an address. -/
def EtharpEntry.fresh (ipaddr : IpAddr) : EtharpEntry β := { EtharpEntry.free with ipaddr := ipaddr }

/-- `etharp_find_entry` comes to the entry that matches, or to one that it has made. -/
structure Entered (s s' : Etharp β) (ipaddr : IpAddr) (i : ℕ) (e e' : EtharpEntry β) : Prop where
  change : Change s s' i e e' []
  address : e'.ipaddr = ipaddr
  kind : e' = e ∧ e.Used ∨ e' = .fresh ipaddr ∧ (∀ x ∈ s.table, x.Used → x.ipaddr ≠ ipaddr) ∧ Spare s.table e

theorem Entered.others (h : Entered s s' ipaddr i e e') (hs : s.Ok) :
    Others EtharpEntry.Used EtharpEntry.ipaddr s.table i ipaddr := by
  rcases h.kind with ⟨heq, hused⟩ | ⟨-, habsent, -⟩
  · rw [← h.address, heq]
    exact hs.apart.others h.change.found hused
  · intro j x hx _ hused
    exact habsent x (List.mem_of_getElem? hx) hused

theorem etharpFreeEntry_change (hi : s.table[i]? = some e) : Change s (s.etharpFreeEntry i) i e .free [] := by
  rw [Etharp.etharpFreeEntry, hi]
  refine ⟨hi, rfl, (List.append_nil _).symm, ?_⟩
  show (s.queued : Multiset (β × IpAddr)) + s.done + s.dropped + e.waiting =
    s.queued + s.done + ((s.dropped ++ e.waiting : List (β × IpAddr)) : Multiset (β × IpAddr)) + 0
  rw [← Multiset.coe_add, add_zero, add_assoc _ (s.dropped : Multiset (β × IpAddr))]

theorem newEntry_change (ipaddr : IpAddr) (hi : s.table[i]? = some .free) :
    ∃ s', s.newEntry i ipaddr = some (s', .ok i) ∧ Change s s' i .free (.fresh ipaddr) [] := by
  refine ⟨s.set i (.fresh ipaddr), ?_, hi, rfl, (List.append_nil _).symm, rfl⟩
  rw [Etharp.newEntry, hi]
  rfl

theorem recycle_spec (h : s.Ok) (hscan : Scanned s.table c) (hfull : ∀ e ∈ s.table, e.Used) :
    ∃ i e, s.table[i]? = some e ∧ Spare s.table e ∧ s.recycle c = some (.ok i) := by
  cases hstable : c.oldStable with
  | some i =>
    obtain ⟨e, hi, he, hkey, hbest⟩ := hscan.stable.found i hstable
    have hq : e.q = none := (h.fine e (List.mem_of_getElem? hi)).stable he
    refine ⟨i, e, hi, .inr ⟨hfull, .inl ⟨he, fun x hx hxs => hkey ▸ hbest x hx hxs⟩⟩, ?_⟩
    simp [Etharp.recycle, hstable, hi, hq]
  | none =>
    have hall : ∀ x ∈ s.table, x.state = .pending := fun x hx =>
      (EtharpState.pending_or_stable (hfull x hx)).resolve_right ((hscan.stable.missing hstable).2 x hx)
    cases hpending : c.oldPending with
    | some i =>
      obtain ⟨e, hi, he, hkey, hbest⟩ := hscan.pending.found i hpending
      refine ⟨i, e, hi, .inr ⟨hfull, .inr ⟨hall, .inl ⟨he.2, fun x hx hxq => ?_⟩⟩⟩, ?_⟩
      · exact hkey ▸ hbest x hx ⟨hall x hx, hxq⟩
      · rw [Etharp.recycle, hstable, hpending]
    | none =>
      have hqueued : ∀ x ∈ s.table, x.q ≠ none := fun x hx hxq =>
        (hscan.pending.missing hpending).2 x hx ⟨hall x hx, hxq⟩
      cases hqueue : c.oldQueue with
      | some i =>
        obtain ⟨e, hi, -, hkey, hbest⟩ := hscan.queue.found i hqueue
        refine ⟨i, e, hi, .inr ⟨hfull, .inr ⟨hall, .inr ⟨hqueued, fun x hx => ?_⟩⟩⟩, ?_⟩
        · exact hkey ▸ hbest x hx ⟨hall x hx, hqueued x hx⟩
        · rw [Etharp.recycle, hstable, hpending, hqueue]
      | none =>
        obtain ⟨x, hx⟩ := List.exists_mem_of_length_pos (l := s.table) (by rw [h.length]; decide)
        exact absurd ⟨hall x hx, hqueued x hx⟩ ((hscan.queue.missing hqueue).2 x hx)

/-- `etharp_find_entry` fails only if it may not make an entry. -/
theorem etharpFindEntry_spec (ipaddr : IpAddr) (flags : Flags) (h : s.Ok) :
    (∃ s' i e e', Entered s s' ipaddr i e e' ∧ s.etharpFindEntry ipaddr flags = some (s', .ok i)) ∨
    flags = .findOnly ∧ (∀ x ∈ s.table, x.Used → x.ipaddr ≠ ipaddr) ∧
      s.etharpFindEntry ipaddr flags = some (s, .error .mem) := by
  rcases findLoop_spec ipaddr s.table scanned_nil with ⟨i, e, hi, hused, hip, hfound⟩ | ⟨habsent, c, hscan, hnone⟩
  · left
    rw [List.length_nil, Nat.zero_add] at hfound
    refine ⟨s, i, e, e, ⟨.refl hi, hip, .inl ⟨rfl, hused⟩⟩, ?_⟩
    rw [Etharp.etharpFindEntry, hfound]
  · rw [List.length_nil] at hnone
    rw [List.nil_append] at hscan
    cases flags with
    | findOnly =>
      right
      refine ⟨rfl, habsent, ?_⟩
      rw [Etharp.etharpFindEntry, hnone]
      rfl
    | tryHard =>
      left
      cases hempty : c.empty with
      | some i =>
        obtain ⟨e, hi, hfree⟩ := hscan.free i hempty
        obtain rfl := (h.fine e (List.mem_of_getElem? hi)).free hfree
        obtain ⟨s', hnew, hchange⟩ := newEntry_change ipaddr hi
        refine ⟨s', i, .free, .fresh ipaddr, ⟨hchange, rfl, .inr ⟨rfl, habsent, .inl hfree⟩⟩, ?_⟩
        rw [Etharp.etharpFindEntry, hnone, ← hnew]
        simp [hempty]
      | none =>
        obtain ⟨i, e, hi, hspare, hrecycle⟩ := recycle_spec h hscan (hscan.full hempty)
        have hfree := etharpFreeEntry_change hi
        obtain ⟨s', hnew, hchange⟩ := newEntry_change ipaddr hfree.at_index
        refine ⟨s', i, e, .fresh ipaddr, ⟨hfree.trans hchange, rfl, .inr ⟨rfl, habsent, hspare⟩⟩, ?_⟩
        rw [Etharp.etharpFindEntry, hnone, ← hnew]
        simp [hempty, hrecycle]

end LoraGateway.Arp
