import LoraGateway.Core.IpReassWhole
import Mathlib.Algebra.Order.BigOperators.Group.List
import Mathlib.Algebra.Order.Ring.Nat
import Mathlib.Data.List.Sort

/-!
# The order of the fragments

What happens to the fragments of one datagram, sent as `ip_frag` does, when they come in any order (`reass_order`). They
are put together when the last of them comes, unless one comes `Early`: the fragments behind it have all come
then, and those in front of it only up to a hole that it is next to. With that one the datagram is handed up
as it is.

Proof: the fragments that have come are numbers, in increasing order in the chain. A hole between two of them is a
number that is missing (`isChain_iff`), so the condition for a complete datagram is one on numbers (`Gapless`), and
holds when all have come or the new one is early (`gapless_iff`). `Gathering` is what holds until then, and one more
fragment keeps it (`Gathering.step`).
-/

namespace LoraGateway.Core

open Lib

variable {β : Type} {p : ℕ → Packet β} {n f i j : ℕ} {l m m₁ m₂ : List ℕ} {s s₀ s₁ : Reass β} {d : ReassData β}
  {before after : List (Helper β)}

/-- The calls of `ip_reass` for these packets, and what they hand up. -/
def Reass.receive [PbufAddr β] (s : Reass β) : List (Packet β) → Option (Reass β × List (Packet β))
  | [] => some (s, [])
  | p :: l => (s.ipReass p).bind fun (s, r) => (s.receive l).map fun (s, handed) => (s, r.toList ++ handed)

theorem receive_append [PbufAddr β] {l l' : List (Packet β)} {handed handed' : List (Packet β)} (hrun : s.receive l = some (s₁, handed))
    (hrun' : s₁.receive l' = some (s₀, handed')) : s.receive (l ++ l') = some (s₀, handed ++ handed') := by
  induction l generalizing s handed with
  | nil =>
    obtain ⟨rfl, rfl⟩ := Prod.mk.inj (Option.some.inj hrun)
    exact hrun'
  | cons p l ih =>
    obtain ⟨⟨s₂, r⟩, hstep, hrest⟩ := Option.bind_eq_some_iff.mp hrun
    obtain ⟨⟨s₃, handed₃⟩, hthen, heq⟩ := Option.map_eq_some_iff.mp hrest
    obtain ⟨rfl, rfl⟩ := Prod.mk.inj heq
    rw [List.cons_append, Reass.receive, hstep, Option.bind_some]
    simp only [ih hthen, Option.map_some, List.append_assoc]

theorem receive_one [PbufAddr β] {q : Packet β} {r : Option (Packet β)} (hrun : s.ipReass q = some (s₁, r)) :
    s.receive [q] = some (s₁, r.toList) := by
  rw [Reass.receive, hrun]
  simp [Reass.receive]

/-! ## The fragments of one datagram -/

/-- The fragments `p 0` to `p (n - 1)` of a datagram. -/
structure Split (p : ℕ → Packet β) (n : ℕ) : Prop where
  two : 2 ≤ n
  hl : ∀ i < n, (p i).hdr.hl * 4 = ipHlen
  key : ∀ i < n, (p i).hdr.key = (p 0).hdr.key
  first : (p 0).hdr.start = 0
  next : ∀ i, i + 1 < n → (p (i + 1)).hdr.start = (p i).hdr.start + (p i).data.length
  mf : ∀ i < n, (p i).hdr.mf = true ↔ i + 1 < n
  trimmed : ∀ i < n, (p i).Trimmed
  nonempty : ∀ i < n, (p i).data ≠ []
  max : (p (n - 1)).hdr.start + (p (n - 1)).data.length + ipHlen < 65536
  counted : ∀ i < n, (p i).Counted

/-- How many bytes are in front of the fragment `i`. -/
def offsetOf (p : ℕ → Packet β) (i : ℕ) : ℕ := ((List.range i).map fun j => (p j).data.length).sum

theorem offsetOf_succ (p : ℕ → Packet β) (i : ℕ) : offsetOf p (i + 1) = offsetOf p i + (p i).data.length := by
  rw [offsetOf, List.range_succ, List.map_append, List.sum_append, List.map_singleton, List.sum_singleton]
  rfl

theorem offsetOf_le (p : ℕ → Packet β) (hij : i ≤ j) : offsetOf p i ≤ offsetOf p j := by
  induction j with
  | zero =>
    rw [Nat.le_zero.mp hij]
  | succ j ih =>
    rw [offsetOf_succ]
    rcases Nat.lt_or_ge j i with hlt | hle
    · rw [show i = j + 1 by omega, offsetOf_succ]
    · have hle' := ih hle
      omega

namespace Split

variable (h : Split p n)

include h

theorem start (hi : i < n) : (p i).hdr.start = offsetOf p i := by
  induction i with
  | zero => exact h.first
  | succ i ih => rw [h.next i hi, ih (by omega), offsetOf_succ]

theorem offsetOf_lt (hij : i < j) (hj : j ≤ n) : offsetOf p i < offsetOf p j := by
  have hpos := List.length_pos_of_ne_nil (h.nonempty i (by omega))
  have hle := offsetOf_le p (show i + 1 ≤ j by omega)
  rw [offsetOf_succ] at hle
  omega

theorem total : offsetOf p n + ipHlen < 65536 := by
  have htwo := h.two
  have hmax := h.max
  rw [h.start (by omega), ← offsetOf_succ, Nat.sub_add_cancel (by omega)] at hmax
  exact hmax

theorem stop (hi : i < n) : (p i).helper.stop = offsetOf p (i + 1) := by
  have hle := offsetOf_le p (show i + 1 ≤ n by omega)
  have htotal := h.total
  show ((p i).hdr.start + (p i).hdr.dataLen) % 65536 = _
  rw [h.start hi, dataLen_eq (h.trimmed i hi) (h.hl i hi), ← offsetOf_succ]
  exact Nat.mod_eq_of_lt (by omega)

theorem start_lt (hi : i < n) (hj : j < n) : (p i).helper.start < (p j).helper.start ↔ i < j := by
  show (p i).hdr.start < (p j).hdr.start ↔ i < j
  rw [h.start hi, h.start hj]
  constructor
  · intro hlt
    by_contra hle
    have hle' := offsetOf_le p (Nat.le_of_not_lt hle)
    omega
  · intro hij
    exact h.offsetOf_lt hij (by omega)

theorem touches_iff (hi : i < n) (hj : j < n) : Touches (p i).helper (p j).helper ↔ i + 1 = j := by
  show (p i).helper.stop = (p j).hdr.start ↔ i + 1 = j
  rw [h.stop hi, h.start hj]
  constructor
  · intro heq
    rcases Nat.lt_trichotomy (i + 1) j with hlt | rfl | hlt
    · have hne := h.offsetOf_lt hlt (by omega)
      omega
    · rfl
    · have hne := h.offsetOf_lt hlt (by omega)
      omega
  · intro heq
    rw [heq]

theorem not_clashes (hi : i < n) (hj : j < n) (hij : i ≠ j) : ¬ Clashes (p i).helper (p j).helper := by
  have hstart : ∀ k < n, (p k).helper.start = offsetOf p k := fun k hk => h.start hk
  rintro (heq | ⟨hlt, hless⟩ | ⟨hlt, hless⟩)
  · rw [hstart i hi, hstart j hj] at heq
    rcases Nat.lt_or_gt_of_ne hij with hlt | hlt
    · have hne := h.offsetOf_lt hlt (by omega)
      omega
    · have hne := h.offsetOf_lt hlt (by omega)
      omega
  · have hlt' := (h.start_lt hi hj).mp hlt
    rw [h.stop hi, hstart j hj] at hless
    have hle := offsetOf_le p (show i + 1 ≤ j from hlt')
    omega
  · have hlt' := (h.start_lt hj hi).mp hlt
    rw [h.stop hj, hstart i hi] at hless
    have hle := offsetOf_le p (show j + 1 ≤ i from hlt')
    omega

theorem isChain_iff (hm : ∀ x ∈ m, x < n) :
    (m.map fun i => (p i).helper).IsChain Touches ↔ m.IsChain fun x y => x + 1 = y := by
  rw [List.isChain_map]
  induction m with
  | nil => simp
  | cons a m ih =>
    cases m with
    | nil => simp
    | cons b m =>
      rw [List.isChain_cons_cons, List.isChain_cons_cons, ih fun x hx => hm x (List.mem_cons_of_mem a hx),
        h.touches_iff (hm a (by simp)) (hm b (by simp))]

end Split

/-! ## When the datagram counts as complete -/

/-- With the fragment `f`, after those in `l`, all have come. -/
def AllCame (n : ℕ) (l : List ℕ) (f : ℕ) : Prop := ∀ x < n, x ∈ l ∨ x = f

/-- With the fragment `f`, after those in `l`, all have come but some just in front of it, and it is not the last one. -/
def Early (n : ℕ) (l : List ℕ) (f : ℕ) : Prop :=
  f + 1 < n ∧ ∃ k, 0 < k ∧ k < f ∧ ∀ x < n, x ∈ l ↔ x < k ∨ f < x

/-- The numbers of the fragments held, with that of the new one in its place. -/
structure Sides (n : ℕ) (m₁ : List ℕ) (f : ℕ) (m₂ : List ℕ) : Prop where
  sorted : (m₁ ++ f :: m₂).Pairwise (· < ·)
  lt : ∀ x ∈ m₁ ++ f :: m₂, x < n

/-- What `Complete` says about the numbers. -/
structure Gapless (n : ℕ) (m₁ : List ℕ) (f : ℕ) (m₂ : List ℕ) : Prop where
  last : n - 1 ∈ m₁ ++ f :: m₂
  first : 0 ∈ m₁ ++ f :: m₂
  before : m₁.IsChain fun x y => x + 1 = y
  inFront : m₂ = [] → (m₁ ++ [f]).IsChain fun x y => x + 1 = y
  behind : (f :: m₂).IsChain fun x y => x + 1 = y

theorem mem_around {x : ℕ} : x ∈ m₁ ++ f :: m₂ ↔ x ∈ m₁ ++ m₂ ∨ x = f := by
  simp only [List.mem_append, List.mem_cons]
  tauto

namespace Sides

variable (h : Sides n m₁ f m₂) {x : ℕ}

include h

theorem mem_left : x ∈ m₁ ↔ x ∈ m₁ ++ f :: m₂ ∧ x < f := by
  obtain ⟨-, hright, hcross⟩ := List.pairwise_append.mp h.sorted
  constructor
  · intro hx
    exact ⟨List.mem_append_left _ hx, hcross x hx f List.mem_cons_self⟩
  · rintro ⟨hx, hlt⟩
    rcases List.mem_append.mp hx with hx | hx
    · exact hx
    · rcases List.mem_cons.mp hx with rfl | hx
      · omega
      · have hgt := List.rel_of_pairwise_cons hright hx
        omega

theorem mem_right : x ∈ f :: m₂ ↔ x ∈ m₁ ++ f :: m₂ ∧ f ≤ x := by
  obtain ⟨-, hright, hcross⟩ := List.pairwise_append.mp h.sorted
  constructor
  · intro hx
    refine ⟨List.mem_append_right _ hx, ?_⟩
    rcases List.mem_cons.mp hx with rfl | hx
    · exact Nat.le_refl x
    · exact Nat.le_of_lt (List.rel_of_pairwise_cons hright hx)
  · rintro ⟨hx, hle⟩
    rcases List.mem_append.mp hx with hx | hx
    · have hlt := hcross x hx f List.mem_cons_self
      omega
    · exact hx

theorem mem_behind : x ∈ m₂ ↔ x ∈ m₁ ++ f :: m₂ ∧ f < x := by
  obtain ⟨-, hright, -⟩ := List.pairwise_append.mp h.sorted
  constructor
  · intro hx
    exact ⟨by simp [hx], List.rel_of_pairwise_cons hright hx⟩
  · rintro ⟨hx, hlt⟩
    rcases List.mem_cons.mp (h.mem_right.mpr ⟨hx, Nat.le_of_lt hlt⟩) with rfl | hx
    · omega
    · exact hx

theorem left_sorted : m₁.Pairwise (· < ·) := (List.pairwise_append.mp h.sorted).1

theorem right_sorted : (f :: m₂).Pairwise (· < ·) := (List.pairwise_append.mp h.sorted).2.1

theorem front_sorted : (m₁ ++ [f]).Pairwise (· < ·) := by
  have hsub : (m₁ ++ [f]).Sublist (m₁ ++ f :: m₂) := by
    apply List.Sublist.append_left
    exact (List.nil_sublist m₂).cons_cons f
  exact h.sorted.sublist hsub

/-- Those that have come are all, or all but some just in front of the new one. -/
theorem cases_of_gapless (hgapless : Gapless n m₁ f m₂) : AllCame n (m₁ ++ m₂) f ∨ Early n (m₁ ++ m₂) f := by
  have hf := h.lt f (by simp)
  have hleft := (isChain_succ_iff h.left_sorted).mp hgapless.before
  -- all from `f` on have come
  have hright : ∀ x, f ≤ x → x < n → x ∈ f :: m₂ := by
    intro x hfx hx
    have hlast := h.mem_right.mpr ⟨hgapless.last, by omega⟩
    exact (isChain_succ_iff h.right_sorted).mp hgapless.behind f (by simp) (n - 1) hlast x hfx (by omega)
  by_cases hall : ∀ x < f, x ∈ m₁
  · left
    intro x hx
    rw [← mem_around]
    rcases Nat.lt_or_ge x f with hlt | hle
    · exact (h.mem_left.mp (hall x hlt)).1
    · exact (h.mem_right.mp (hright x hle hx)).1
  · right
    have hmissing : ∃ k, k < f ∧ k ∉ m₁ := by
      push Not at hall
      exact hall
    classical
    obtain ⟨hkf, hk⟩ := Nat.find_spec hmissing
    have hleast : ∀ x < Nat.find hmissing, x ∈ m₁ := by
      intro x hx
      by_contra hcon
      exact Nat.find_min hmissing hx ⟨by omega, hcon⟩
    generalize Nat.find hmissing = k at hkf hk hleast
    have hzero : 0 ∈ m₁ := h.mem_left.mpr ⟨hgapless.first, by omega⟩
    have hkpos : 0 < k := by
      apply Nat.pos_of_ne_zero
      rintro rfl
      exact hk hzero
    have hbelow : ∀ x ∈ m₁, x < k := by
      intro x hx
      by_contra hle
      exact hk (hleft 0 hzero x hx k (Nat.zero_le k) (by omega))
    refine ⟨?_, k, hkpos, hkf, fun x hx => ?_⟩
    · by_contra hlast
      have hnil : m₂ = [] := by
        apply List.eq_nil_iff_forall_not_mem.mpr
        intro x hx
        obtain ⟨hmem, hlt⟩ := h.mem_behind.mp hx
        have hxn := h.lt x hmem
        omega
      have hchain := (isChain_succ_iff h.front_sorted).mp (hgapless.inFront hnil)
      have hmem := hchain 0 (by simp [hzero]) f (by simp) k (Nat.zero_le k) (by omega)
      rcases List.mem_append.mp hmem with hmem | hmem
      · exact hk hmem
      · rw [List.mem_singleton] at hmem
        omega
    · rw [List.mem_append]
      constructor
      · rintro (hmem | hmem)
        · exact .inl (hbelow x hmem)
        · exact .inr (h.mem_behind.mp hmem).2
      · rintro (hlt | hlt)
        · exact .inl (hleast x hlt)
        · exact .inr (h.mem_behind.mpr ⟨(h.mem_right.mp (hright x (by omega) hx)).1, hlt⟩)

theorem gapless_iff : Gapless n m₁ f m₂ ↔ AllCame n (m₁ ++ m₂) f ∨ Early n (m₁ ++ m₂) f := by
  refine ⟨h.cases_of_gapless, fun hcases => ?_⟩
  have hf := h.lt f (by simp)
  -- all but a stretch between `k` and `f`
  obtain ⟨k, hkf, hk, hlast, hall⟩ : ∃ k ≤ f, (k = 0 → f = 0) ∧ (f + 1 = n → k = f) ∧
      ∀ x < n, x ∈ m₁ ++ f :: m₂ ↔ x < k ∨ f ≤ x := by
    rcases hcases with hall | ⟨hlast, k, hpos, hkf, hall⟩
    · refine ⟨f, Nat.le_refl f, fun hk => hk, fun _ => rfl, fun x hx => iff_of_true ?_ (Nat.lt_or_ge x f)⟩
      exact mem_around.mpr (hall x hx)
    · refine ⟨k, by omega, fun hzero => by omega, fun heq => by omega, fun x hx => ?_⟩
      rw [mem_around, hall x hx]
      omega
  constructor
  · rw [hall (n - 1) (by omega)]
    omega
  · rw [hall 0 (by omega)]
    omega
  · refine (isChain_succ_iff h.left_sorted).mpr fun x hx y hy z hxz hzy => ?_
    obtain ⟨hymem, hyf⟩ := h.mem_left.mp hy
    have hyk := (hall y (h.lt y hymem)).mp hymem
    exact h.mem_left.mpr ⟨(hall z (by omega)).mpr (by omega), by omega⟩
  · intro hnil
    refine (isChain_succ_iff h.front_sorted).mpr fun x hx y hy z hxz hzy => ?_
    have heq : f + 1 = n := by
      by_contra hne
      have hmem := (hall (f + 1) (by omega)).mpr (by omega)
      have hbehind := h.mem_behind.mpr ⟨hmem, Nat.lt_succ_self f⟩
      rw [hnil] at hbehind
      exact absurd hbehind List.not_mem_nil
    have hkeq := hlast heq
    have hyn := h.lt y (by rw [hnil]; exact hy)
    have hzmem := (hall z (by omega)).mpr (by omega)
    rwa [hnil] at hzmem
  · refine (isChain_succ_iff h.right_sorted).mpr fun x hx y hy z hxz hzy => ?_
    have hxf := (h.mem_right.mp hx).2
    have hyn := h.lt y (h.mem_right.mp hy).1
    exact h.mem_right.mpr ⟨(hall z (by omega)).mpr (by omega), by omega⟩

theorem last_eq (hlast : n - 1 ∈ m₁ ++ f :: m₂) : m₂.getLast?.getD f = n - 1 := by
  have hf := h.lt f (by simp)
  have hmem := h.mem_right.mpr ⟨hlast, by omega⟩
  have hright := h.right_sorted
  rcases List.eq_nil_or_concat m₂ with hnil | ⟨m, x, hconcat⟩
  · rw [hnil] at hmem ⊢
    exact (List.mem_singleton.mp hmem).symm
  · have hx := h.lt x (by rw [hconcat]; simp)
    rw [hconcat, List.concat_eq_append] at hmem hright ⊢
    rw [← List.cons_append, List.pairwise_append] at hright
    rw [List.getLast?_append, List.getLast?_singleton, Option.some_or, Option.getD_some]
    rcases List.mem_append.mp (show n - 1 ∈ f :: m ++ [x] from hmem) with hmem | hmem
    · have hlt := hright.2.2 (n - 1) hmem x (by simp)
      omega
    · exact (List.mem_singleton.mp hmem).symm

end Sides

theorem head_zero (hm : m.Pairwise (· < ·)) (hne : m ≠ []) : (∀ x ∈ m.head?, x = 0) ↔ 0 ∈ m := by
  obtain ⟨a, m, rfl⟩ := List.exists_cons_of_ne_nil hne
  constructor
  · intro hzero
    rw [hzero a rfl]
    exact List.mem_cons_self
  · intro hmem x hx
    obtain rfl := Option.some.inj hx
    rcases List.mem_cons.mp hmem with heq | hmem
    · exact heq.symm
    · exact absurd (List.rel_of_pairwise_cons hm hmem) (Nat.not_lt_zero a)

/-! ## One more fragment -/

/-- The fragments that are held of the datagram are those with the numbers in `m`. -/
structure Holds (p : ℕ → Packet β) (n : ℕ) (d : ReassData β) (m : List ℕ) : Prop where
  held : d.p = m.map fun i => (p i).helper
  sorted : m.Pairwise (· < ·)
  lt : ∀ x ∈ m, x < n
  lastFrag : d.lastFrag = true ↔ n - 1 ∈ m
  datagramLen : n - 1 ∈ m → d.datagramLen = offsetOf p n

/-- What is handed up, put together from the fragments with these numbers. -/
def together (p : ℕ → Packet β) (n : ℕ) (m : List ℕ) : Packet β :=
  ⟨({ (p 0).hdr with len := BitVec.ofNat 16 (offsetOf p n + ipHlen), offset := 0 } : IpHdr).withChksum,
    m.flatMap fun i => (p i).data, m.flatMap fun i => (p i).bufs⟩

/-- The datagram with the fragment `f` chained in. -/
def ReassData.insert (d : ReassData β) (p : ℕ → Packet β) (m₁ : List ℕ) (f : ℕ) (m₂ : List ℕ) : ReassData β :=
  (d.update (p f)).chain (m₁.map fun i => (p i).helper) (p f).helper (m₂.map fun i => (p i).helper)

theorem Holds.insert (hp : Split p n) (hd : Holds p n d (m₁ ++ m₂)) (hm : Sides n m₁ f m₂) :
    Holds p n (d.insert p m₁ f m₂) (m₁ ++ f :: m₂) := by
  have hf := hm.lt f (by simp)
  have hmf := hp.mf f hf
  have hmap : (d.insert p m₁ f m₂).p = (m₁ ++ f :: m₂).map fun i => (p i).helper := by
    rw [List.map_append, List.map_cons]
    rfl
  by_cases hlast : f + 1 < n
  · have hsame : d.update (p f) = d := if_pos (hmf.mpr hlast)
    have hmem : n - 1 ∈ m₁ ++ f :: m₂ ↔ n - 1 ∈ m₁ ++ m₂ := by
      rw [mem_around]
      exact or_iff_left (by omega)
    refine ⟨hmap, hm.sorted, hm.lt, ?_, ?_⟩ <;> rw [hmem, ReassData.insert, hsame]
    · exact hd.lastFrag
    · exact hd.datagramLen
  · have heq : f = n - 1 := by omega
    have hnew : d.update (p f) = { d with lastFrag := true, datagramLen := (p f).helper.stop } :=
      if_neg (mt hmf.mp hlast)
    refine ⟨hmap, hm.sorted, hm.lt, ?_, fun _ => ?_⟩ <;> rw [ReassData.insert, hnew]
    · exact iff_of_true rfl (by rw [heq]; simp)
    · show (p f).helper.stop = _
      rw [hp.stop hf, heq, Nat.sub_add_cancel (by omega)]

theorem complete_iff (hp : Split p n) (hm : Sides n m₁ f m₂) (hlast : d.lastFrag = true ↔ n - 1 ∈ m₁ ++ f :: m₂) :
    Complete d (m₁.map fun i => (p i).helper) (p f).helper (m₂.map fun i => (p i).helper) ↔ Gapless n m₁ f m₂ := by
  have hlt : ∀ x ∈ m₁, x < n := fun x hx => hm.lt x (List.mem_append_left _ hx)
  have hlt' : ∀ x ∈ f :: m₂, x < n := fun x hx => hm.lt x (List.mem_append_right _ hx)
  have hlt'' : ∀ x ∈ m₁ ++ [f], x < n := by
    intro x hx
    rcases List.mem_append.mp hx with hx | hx
    · exact hlt x hx
    · rw [List.mem_singleton.mp hx]
      exact hlt' f List.mem_cons_self
  have hfirst : (∀ h ∈ ((m₁.map fun i => (p i).helper) ++ (p f).helper :: m₂.map fun i => (p i).helper).head?, h.start = 0) ↔
      0 ∈ m₁ ++ f :: m₂ := by
    rw [← head_zero hm.sorted (by simp), ← List.map_cons (f := fun i => (p i).helper), ← List.map_append, List.head?_map]
    cases hhead : (m₁ ++ f :: m₂).head? with
    | none => simp
    | some x =>
      have hx := hm.lt x (List.mem_of_mem_head? hhead)
      have hstart : (p x).helper.start = offsetOf p x := hp.start hx
      simp only [Option.map_some, Option.mem_some_iff, forall_eq']
      rw [hstart]
      constructor
      · intro hzero
        by_contra hpos
        have hlt := hp.offsetOf_lt (Nat.pos_of_ne_zero hpos) (Nat.le_of_lt hx)
        omega
      · intro hzero
        rw [hzero]
        rfl
  have hnil : (m₂.map fun i => (p i).helper) = [] ↔ m₂ = [] := List.map_eq_nil_iff
  have hfront := hp.isChain_iff hlt''
  have hbehind := hp.isChain_iff hlt'
  rw [List.map_append, List.map_singleton] at hfront
  rw [List.map_cons] at hbehind
  constructor
  · intro h
    exact ⟨hlast.mp h.lastFrag, hfirst.mp h.first, (hp.isChain_iff hlt).mp h.passed.1,
      fun hm₂ => hfront.mp (h.passed.2 (hnil.mpr hm₂)), hbehind.mp h.behind⟩
  · intro h
    exact ⟨hlast.mpr h.last, ⟨(hp.isChain_iff hlt).mpr h.before, fun hm₂ => hfront.mpr (h.inFront (hnil.mp hm₂))⟩,
      hfirst.mpr h.first, hbehind.mpr h.behind⟩

theorem endsRight (hp : Split p n) (hd : Holds p n (d.insert p m₁ f m₂) (m₁ ++ f :: m₂)) (hm : Sides n m₁ f m₂)
    (hgapless : Gapless n m₁ f m₂) :
    EndsRight (d.update (p f)) (m₁.map fun i => (p i).helper) (p f).helper (m₂.map fun i => (p i).helper) := by
  have htwo := hp.two
  constructor
  · intro hnil
    have hnil' := (List.append_eq_nil_iff.mp hnil)
    have hm₁ := List.map_eq_nil_iff.mp hnil'.1
    have hm₂ := List.map_eq_nil_iff.mp hnil'.2
    have hfirst := hgapless.first
    have hlast := hgapless.last
    rw [hm₁, hm₂, List.nil_append, List.mem_singleton] at hfirst hlast
    omega
  · have hlen : (d.update (p f)).datagramLen = offsetOf p n := hd.datagramLen hgapless.last
    rw [hlen, List.getLast?_map, Option.getD_map (fun i => (p i).helper), hm.last_eq hgapless.last, hp.stop (by omega),
      Nat.sub_add_cancel (by omega)]

theorem datagram_insert [PbufAddr β] (hp : Split p n) (hd : Holds p n (d.insert p m₁ f m₂) (m₁ ++ f :: m₂))
    (hfine : (d.insert p m₁ f m₂).Fine) (hgapless : Gapless n m₁ f m₂) :
    (d.insert p m₁ f m₂).datagram = together p n (m₁ ++ f :: m₂) := by
  have htotal := hp.total
  have hhdr : (d.insert p m₁ f m₂).iphdr = (p 0).hdr := by
    have hhead : (m₁ ++ f :: m₂).head? = some 0 := by
      have hzero := (head_zero hd.sorted (by simp)).mpr hgapless.first
      cases hh : (m₁ ++ f :: m₂).head? with
      | none => simp at hh
      | some x => rw [hzero x hh]
    have hself : (p 0).helper ∈ (d.insert p m₁ f m₂).p.head? := by
      rw [hd.held, List.head?_map, hhead]
      rfl
    exact hfine.first _ hself (.inl hp.first)
  have hlen : ((d.insert p m₁ f m₂).datagramLen + ipHlen) % 65536 = offsetOf p n + ipHlen := by
    rw [hd.datagramLen hgapless.last]
    exact Nat.mod_eq_of_lt htotal
  have hdata : (d.insert p m₁ f m₂).datagram.data = (m₁ ++ f :: m₂).flatMap fun i => (p i).data := by
    rw [datagram_data, hd.held, List.flatMap_map]
    · rfl
    · intro h hh
      rw [hd.held] at hh
      obtain ⟨i, hi, rfl⟩ := List.mem_map.mp hh
      have htrimmed := hp.trimmed i (hd.lt i hi)
      unfold Packet.Trimmed at htrimmed
      show ipHlen ≤ (p i).hdr.len.toNat
      omega
  have hbufs : (d.insert p m₁ f m₂).bufs = (m₁ ++ f :: m₂).flatMap fun i => (p i).bufs := by
    rw [ReassData.bufs, hd.held, List.flatMap_map]
    rfl
  have hsplit : (d.insert p m₁ f m₂).datagram = ⟨(d.insert p m₁ f m₂).datagram.hdr, (d.insert p m₁ f m₂).datagram.data,
    (d.insert p m₁ f m₂).bufs⟩ := rfl
  rw [hsplit, hdata, hbufs, ReassData.datagram, together]
  simp only [hhdr, hlen]

/-- A fragment that has not come yet finds its place, and if all have come with it, or it is early, then the datagram is
handed up. -/
theorem chainInto_holds [PbufAddr β] {post : List (ReassData β)} (hp : Split p n) (hd : Holds p n d m)
    (hs : Located s (p f) [] d post) (hf : f < n) (hfm : f ∉ m) (hcount : s.pbufcount + (p f).clen ≤ ipReassMaxPbufs) :
    ∃ m₁ m₂, m = m₁ ++ m₂ ∧ Sides n m₁ f m₂ ∧ Holds p n (d.insert p m₁ f m₂) (m₁ ++ f :: m₂) ∧
      (¬ (AllCame n m f ∨ Early n m f) → s.chainInto (p f) 0 =
        some (s.with (d.insert p m₁ f m₂ :: post) (s.pbufcount + (p f).clen), none)) ∧
      (AllCame n m f ∨ Early n m f → ∃ count, s.chainInto (p f) 0 =
        some (s.with post count, some (together p n (m₁ ++ f :: m₂)))) := by
  rcases chainInto_cases hs.split hs.ready hcount with ⟨-, ⟨h, hh, hclash⟩, -⟩ | ⟨before, after, hdp, hfits, hno, hyes, -⟩
  · rw [hd.held] at hh
    obtain ⟨i, hi, rfl⟩ := List.mem_map.mp hh
    have hne : i ≠ f := by
      rintro rfl
      exact hfm hi
    exact absurd hclash (hp.not_clashes (hd.lt i hi) hf hne)
  · obtain ⟨m₁, m₂, rfl, rfl, rfl⟩ := List.map_eq_append_iff.mp (hd.held.symm.trans hdp)
    have hsorted := List.pairwise_append.mp hd.sorted
    have hlt₁ : ∀ x ∈ m₁, x < f := by
      intro x hx
      have hpassed := (hfits.passed _ (List.mem_map_of_mem hx)).1
      exact (hp.start_lt (hd.lt x (List.mem_append_left _ hx)) hf).mp hpassed
    have hlt₂ : ∀ x ∈ m₂, f < x := by
      intro x hx
      have hahead := hfits.ahead _ (List.mem_map_of_mem hx)
      exact (hp.start_lt hf (hd.lt x (List.mem_append_right _ hx))).mp hahead
    have hm : Sides n m₁ f m₂ := by
      constructor
      · refine List.pairwise_append.mpr ⟨hsorted.1, List.pairwise_cons.mpr ⟨hlt₂, hsorted.2.1⟩, fun x hx y hy => ?_⟩
        rcases List.mem_cons.mp hy with rfl | hy
        · exact hlt₁ x hx
        · exact hsorted.2.2 x hx y hy
      · intro x hx
        rcases mem_around.mp hx with hx | rfl
        · exact hd.lt x hx
        · exact hf
    have hinsert := hd.insert hp hm
    have hcomplete : Complete (d.update (p f)) (m₁.map fun i => (p i).helper) (p f).helper (m₂.map fun i => (p i).helper) ↔
        AllCame n (m₁ ++ m₂) f ∨ Early n (m₁ ++ m₂) f :=
      (complete_iff (d := d.update (p f)) hp hm hinsert.lastFrag).trans hm.gapless_iff
    refine ⟨m₁, m₂, rfl, hm, hinsert, fun hnot => hno (mt hcomplete.mp hnot), fun hall => ?_⟩
    have hgapless := hm.gapless_iff.mpr hall
    have hp' : (d.update (p f)).p = (m₁.map fun i => (p i).helper) ++ m₂.map fun i => (p i).helper := by
      rw [update_p, hdp]
    have hfine : (d.insert p m₁ f m₂).Fine := hs.ready.update.chain (hp.counted f hf) hp' hfits
    have hclen : (d.insert p m₁ f m₂).clen = d.clen + (p f).clen := by
      rw [ReassData.insert, clen_chain hp', ReassData.clen, update_p, ← ReassData.clen]
    have hle : (d.insert p m₁ f m₂).clen ≤ s.pbufcount + (p f).clen := by
      have hsum := hs.count
      rw [hs.split, sum_middle] at hsum
      omega
    have hsplit : (s.with ([] ++ d.insert p m₁ f m₂ :: post) (s.pbufcount + (p f).clen)).reassdatagrams =
        [] ++ d.insert p m₁ f m₂ :: post := rfl
    have hrun := (hyes (hcomplete.mpr hall) (endsRight hp hinsert hm hgapless)).trans
      (complete_eq hsplit hfine hle hcount)
    refine ⟨s.pbufcount + (p f).clen - (d.insert p m₁ f m₂).clen, hrun.trans ?_⟩
    have hdatagram := datagram_insert hp hinsert hfine hgapless
    rw [ReassData.insert] at hdatagram
    rw [hdatagram]
    rfl

/-! ## All of them -/

/-- There is room for the fragments, and no datagram that could be taken for theirs. -/
structure Room (s : Reass β) (p : ℕ → Packet β) (n : ℕ) : Prop where
  count : s.pbufcount + ((List.range n).map fun i => (p i).clen).sum ≤ ipReassMaxPbufs
  length : s.reassdatagrams.length < memNumReassdata
  new : ∀ d ∈ s.reassdatagrams, d.iphdr.key ≠ (p 0).hdr.key

/-- The fragments with the numbers in `l` have come since the state `s₀`. -/
structure Gathering (p : ℕ → Packet β) (n : ℕ) (s₀ : Reass β) (l : List ℕ) (s : Reass β) : Prop where
  ok : s.Ok
  freed : s.freed = s₀.freed
  exceeded : s.exceeded = s₀.exceeded
  datagrams : l = [] ∧ s.reassdatagrams = s₀.reassdatagrams ∨
    ∃ d m, s.reassdatagrams = d :: s₀.reassdatagrams ∧ Holds p n d m ∧ ∀ x, x ∈ m ↔ x ∈ l

theorem eq_of_ok (h : s.Ok) (h₀ : s₀.Ok) (hl : s.reassdatagrams = s₀.reassdatagrams) (hfreed : s.freed = s₀.freed)
    (hexceeded : s.exceeded = s₀.exceeded) : s = s₀ := by
  have hcount := h.count
  have hcount₀ := h₀.count
  obtain ⟨l, pbufcount, freed, exceeded⟩ := s
  obtain ⟨l₀, pbufcount₀, freed₀, exceeded₀⟩ := s₀
  simp only at hl hfreed hexceeded hcount hcount₀
  subst hl hfreed hexceeded
  rw [hcount, hcount₀]

theorem sum_le_range {g : ℕ → ℕ} (hm : m.Pairwise (· < ·)) (hlt : ∀ x ∈ m, x < n) (hf : f < n) (hfm : f ∉ m) :
    (m.map g).sum + g f ≤ ((List.range n).map g).sum := by
  have hnodup : (f :: m).Nodup := List.nodup_cons.mpr ⟨hfm, hm.imp fun hlt => Nat.ne_of_lt hlt⟩
  have hsubset : f :: m ⊆ List.range n := by
    intro x hx
    rw [List.mem_range]
    rcases List.mem_cons.mp hx with rfl | hx
    · exact hf
    · exact hlt x hx
  obtain ⟨l, hperm, hsub⟩ := List.subperm_of_subset hnodup hsubset
  have hsum := (hperm.map g).sum_eq
  have hle := (hsub.map g).sum_le_sum fun x _ => Nat.zero_le x
  rw [List.map_cons, List.sum_cons] at hsum
  omega

theorem clen_held (hd : Holds p n d m) : d.clen = (m.map fun i => (p i).clen).sum := by
  rw [ReassData.clen, hd.held, List.map_map]
  rfl

theorem Gathering.locate [PbufAddr β] (hp : Split p n) (hok₀ : s₀.Ok) (hroom : Room s₀ p n) (h : Gathering p n s₀ l s) (hf : f < n)
    (hfl : f ∉ l) : ∃ d m, (∀ x, x ∈ m ↔ x ∈ l) ∧ Holds p n d m ∧
      Located (s.with (d :: s₀.reassdatagrams) s.pbufcount) (p f) [] d s₀.reassdatagrams ∧
      s.pbufcount + (p f).clen ≤ ipReassMaxPbufs ∧
      s.ipReass (p f) = (s.with (d :: s₀.reassdatagrams) s.pbufcount).chainInto (p f) 0 := by
  have hkey := hp.key f hf
  have hrun : ∀ s₁, s.pbufcount + (p f).clen ≤ ipReassMaxPbufs → s.locate (p f) = some (s₁, some 0) →
      s.ipReass (p f) = s₁.chainInto (p f) 0 := by
    intro s₁ hcount hlocate
    rw [Reass.ipReass, if_neg (not_not.mpr (hp.hl f hf)), Reass.makeRoom, if_neg (by omega)]
    simp only [Option.bind_some, hlocate]
    rfl
  have hsum := hok₀.count
  have hcount := h.ok.count
  have hmax := hroom.count
  rcases h.datagrams with ⟨rfl, hl⟩ | ⟨d, m, hl, hd, hmem⟩
  · have hnew : ∀ d ∈ s.reassdatagrams, Other (p f).hdr d := by
      intro d hd hsame
      rw [hl] at hd
      exact hroom.new d hd (hsame.trans hkey)
    have hlength : s.reassdatagrams.length < memNumReassdata := by
      rw [hl]
      exact hroom.length
    have hnone : s.reassdatagrams.findIdx? (fun d => d.iphdr.key = (p f).hdr.key) = none :=
      List.findIdx?_eq_none_iff.mpr fun d hd => decide_eq_false (hnew d hd)
    have hle := sum_le_range (g := fun i => (p i).clen) (m := []) .nil (by simp) hf (by simp)
    rw [hl, ← hsum] at hcount
    have hless : s.pbufcount + (p f).clen ≤ ipReassMaxPbufs := by
      simp only [List.map_nil, List.sum_nil] at hle
      omega
    refine ⟨freshData (p f).hdr, [], by simp, ⟨rfl, .nil, by simp, by simp [freshData], by simp⟩, ?_, hless, hrun _ hless ?_⟩
    · rw [← hl]
      exact located_fresh h.ok hnew hlength
    · simp only [Reass.locate, hnone, Reass.enqueueNewDatagram, if_pos hlength, enqueue_eq]
      rw [← hl]
      rfl
  · have hfm : f ∉ m := fun hfm => hfl ((hmem f).mp hfm)
    have hsame : d.iphdr.key = (p f).hdr.key := by
      obtain ⟨a, rest, hcons⟩ := List.exists_cons_of_ne_nil (h.ok.nonempty d (by rw [hl]; simp))
      have ha : a ∈ d.p := by rw [hcons]; exact List.mem_cons_self
      obtain ⟨-, hakey, -⟩ := (h.ok.datagram d (by rw [hl]; simp)).helper a ha
      rw [hd.held] at ha
      obtain ⟨i, hi, rfl⟩ := List.mem_map.mp ha
      rw [← hakey]
      exact (hp.key i (hd.lt i hi)).trans hkey.symm
    have hsome : s.reassdatagrams.findIdx? (fun d => d.iphdr.key = (p f).hdr.key) = some 0 := by
      rw [hl, List.findIdx?_cons, if_pos (decide_eq_true hsame)]
    have hle := sum_le_range (g := fun i => (p i).clen) hd.sorted hd.lt hf hfm
    have hless : s.pbufcount + (p f).clen ≤ ipReassMaxPbufs := by
      rw [hl, List.map_cons, List.sum_cons, clen_held hd, ← hsum] at hcount
      omega
    have hheld : Holds p n (d.withHeader (p f)) m := by
      refine ⟨by rw [withHeader_p]; exact hd.held, hd.sorted, hd.lt, ?_, ?_⟩ <;> unfold ReassData.withHeader <;> split_ifs
      · exact hd.lastFrag
      · exact hd.lastFrag
      · exact hd.datagramLen
      · exact hd.datagramLen
    have hsplit : s.reassdatagrams = [] ++ d :: s₀.reassdatagrams := hl
    exact ⟨d.withHeader (p f), m, hmem, hheld, located_old h.ok hsplit hsame, hless, hrun _ hless (locate_old hsplit hsome)⟩

theorem Gathering.step [PbufAddr β] (hp : Split p n) (hok₀ : s₀.Ok) (hroom : Room s₀ p n) (h : Gathering p n s₀ l s) (hf : f < n)
    (hfl : f ∉ l) :
    (¬ (AllCame n l f ∨ Early n l f) → ∃ s', s.ipReass (p f) = some (s', none) ∧ Gathering p n s₀ (l ++ [f]) s') ∧
    (AllCame n l f ∨ Early n l f →
      s.ipReass (p f) = some (s₀, some (together p n ((List.range n).filter (· ∈ l ++ [f]))))) := by
  obtain ⟨d, m, hmem, hd, hlocated, hcount, hrun⟩ := h.locate hp hok₀ hroom hf hfl
  have hfm : f ∉ m := fun hfm => hfl ((hmem f).mp hfm)
  obtain ⟨m₁, m₂, rfl, hm, hinsert, hno, hyes⟩ := chainInto_holds hp hd hlocated hf hfm hcount
  have hiff : AllCame n (m₁ ++ m₂) f ∨ Early n (m₁ ++ m₂) f ↔ AllCame n l f ∨ Early n l f := by
    simp only [AllCame, Early, hmem]
  have hmem' : ∀ x, x ∈ m₁ ++ f :: m₂ ↔ x ∈ l ++ [f] := by
    intro x
    rw [mem_around, hmem, List.mem_append, List.mem_singleton]
  rw [← hiff]
  constructor
  · intro hnot
    have hheld := hrun.trans (hno hnot)
    refine ⟨_, hheld, (ipReass_ok h.ok (hp.counted f hf) hheld).ok, h.freed, h.exceeded, .inr ⟨_, _, rfl, hinsert, hmem'⟩⟩
  · intro hall
    obtain ⟨count, hup⟩ := hyes hall
    have hfiltered : m₁ ++ f :: m₂ = (List.range n).filter (· ∈ l ++ [f]) := by
      refine List.Pairwise.eq_of_mem_iff hm.sorted (List.pairwise_lt_range.filter _) fun x => ?_
      rw [hmem', List.mem_filter, List.mem_range, decide_eq_true_iff]
      refine ⟨fun hx => ⟨hm.lt x ((hmem' x).mpr hx), hx⟩, fun hx => hx.2⟩
    rw [hfiltered] at hup
    have hdone := hrun.trans hup
    have heq := eq_of_ok (ipReass_ok h.ok (hp.counted f hf) hdone).ok hok₀ rfl h.freed h.exceeded
    rw [hdone]
    exact congrArg (fun s => some (s, _)) heq

theorem Gathering.run [PbufAddr β] (hp : Split p n) (hok₀ : s₀.Ok) (hroom : Room s₀ p n) (hl : ∀ x ∈ l, x < n) (hnodup : l.Nodup)
    (hnot : ∀ l₁ f l₂, l = l₁ ++ f :: l₂ → ¬ (AllCame n l₁ f ∨ Early n l₁ f)) :
    ∃ s, s₀.receive (l.map p) = some (s, []) ∧ Gathering p n s₀ l s := by
  induction l using List.reverseRecOn with
  | nil => exact ⟨s₀, rfl, hok₀, rfl, rfl, .inl ⟨rfl, rfl⟩⟩
  | append_singleton l f ih =>
    obtain ⟨hnodup, -, hdisjoint⟩ := List.nodup_append.mp hnodup
    have hfl : f ∉ l := fun hfl => hdisjoint f hfl f (by simp) rfl
    obtain ⟨s, hrun, h⟩ := ih (fun x hx => hl x (List.mem_append_left _ hx)) hnodup fun l₁ g l₂ heq => by
      apply hnot l₁ g (l₂ ++ [f])
      rw [heq, List.append_assoc, List.cons_append]
    obtain ⟨s', hstep, h'⟩ := (h.step hp hok₀ hroom (hl f (by simp)) hfl).1 (hnot l f [] rfl)
    refine ⟨s', ?_, h'⟩
    rw [List.map_append]
    exact receive_append hrun (receive_one hstep)

theorem not_allCame {l₁ l₂ : List ℕ} (hlt : ∀ x ∈ l₁ ++ f :: l₂, x < n) (hnodup : (l₁ ++ f :: l₂).Nodup)
    (hne : l₂ ≠ []) : ¬ AllCame n l₁ f := by
  intro hall
  obtain ⟨-, hright, hdisjoint⟩ := List.nodup_append.mp hnodup
  obtain ⟨x, hx⟩ := List.exists_mem_of_ne_nil l₂ hne
  rcases hall x (hlt x (by simp [hx])) with hmem | rfl
  · exact hdisjoint x hmem x (List.mem_cons_of_mem f hx) rfl
  · exact (List.nodup_cons.mp hright).1 hx

variable {sys : ReassSys β}

/-- The fragments of a datagram, in whatever order they come into a state with room for them: if none is early then they
are put together when all have come, and nothing else changes. With the first one that is early what has come is
put together, behind the header of the whole, and is all that is handed up of it. -/
theorem reass_order [PbufAddr β] (hs : reassMachine.Reach ReassSys.ok sys) (hp : Split p n) (hroom : Room sys.reass p n)
    (hl : l.Perm (List.range n)) :
    ((∀ l₁ f l₂, l = l₁ ++ f :: l₂ → ¬ Early n l₁ f) →
      sys.reass.receive (l.map p) = some (sys.reass, [together p n (List.range n)])) ∧
    ∀ l₁ f l₂, l = l₁ ++ f :: l₂ → Early n l₁ f → (∀ l₃ g l₄, l₁ = l₃ ++ g :: l₄ → ¬ Early n l₃ g) →
      sys.reass.receive ((l₁ ++ [f]).map p) =
        some (sys.reass, [together p n ((List.range n).filter (· ∈ l₁ ++ [f]))]) := by
  have hok := (reach_accounted hs).ok
  have hmem : ∀ x, x ∈ l ↔ x < n := fun x => by rw [hl.mem_iff, List.mem_range]
  have hnodup : l.Nodup := hl.nodup_iff.mpr List.nodup_range
  -- the fragments in front of one of them
  have hbefore : ∀ l₁ f l₂, l = l₁ ++ f :: l₂ → (∀ l₃ g l₄, l₁ = l₃ ++ g :: l₄ → ¬ Early n l₃ g) →
      f < n ∧ f ∉ l₁ ∧ ∃ s, sys.reass.receive (l₁.map p) = some (s, []) ∧ Gathering p n sys.reass l₁ s := by
    rintro l₁ f l₂ rfl hnot
    obtain ⟨hnodup₁, -, hdisjoint⟩ := List.nodup_append.mp hnodup
    refine ⟨(hmem f).mp (by simp), fun hf => hdisjoint f hf f (by simp) rfl, ?_⟩
    refine Gathering.run hp hok hroom (fun x hx => (hmem x).mp (List.mem_append_left _ hx)) hnodup₁ fun l₃ g l₄ heq => ?_
    have hall : l₃ ++ g :: (l₄ ++ f :: l₂) = l₁ ++ f :: l₂ := by
      rw [heq, List.append_assoc, List.cons_append]
    rintro (hcame | hearly)
    · have hne : l₄ ++ f :: l₂ ≠ [] := by simp
      refine not_allCame ?_ ?_ hne hcame
      · rw [hall]
        exact fun x hx => (hmem x).mp hx
      · rw [hall]
        exact hnodup
    · exact hnot l₃ g l₄ heq hearly
  have hlast : ∀ l₁ f l₂, l = l₁ ++ f :: l₂ → (∀ l₃ g l₄, l₁ = l₃ ++ g :: l₄ → ¬ Early n l₃ g) →
      AllCame n l₁ f ∨ Early n l₁ f → sys.reass.receive ((l₁ ++ [f]).map p) =
        some (sys.reass, [together p n ((List.range n).filter (· ∈ l₁ ++ [f]))]) := by
    intro l₁ f l₂ heq hnot hcases
    obtain ⟨hf, hfl, s, hrun, h⟩ := hbefore l₁ f l₂ heq hnot
    rw [List.map_append]
    exact receive_append hrun (receive_one ((h.step hp hok hroom hf hfl).2 hcases))
  constructor
  · intro hnot
    have htwo := hp.two
    have hne : l ≠ [] := List.ne_nil_of_mem ((hmem 0).mpr (by omega))
    obtain ⟨l₁, f, hconcat⟩ := List.eq_nil_or_concat l |>.resolve_left hne
    rw [List.concat_eq_append] at hconcat
    have hcame : AllCame n l₁ f := by
      intro x hx
      rw [← hmem, hconcat, List.mem_append, List.mem_singleton] at hx
      exact hx
    have hrun := hlast l₁ f [] hconcat (fun l₃ g l₄ heq => hnot l₃ g (l₄ ++ [f]) (by
      rw [hconcat, heq, List.append_assoc, List.cons_append])) (.inl hcame)
    have hfilter : (List.range n).filter (· ∈ l₁ ++ [f]) = List.range n := by
      rw [← hconcat]
      exact List.filter_eq_self.mpr fun x hx => decide_eq_true ((hmem x).mpr (List.mem_range.mp hx))
    rwa [hfilter, ← hconcat] at hrun
  · intro l₁ f l₂ heq hearly hnot
    exact hlast l₁ f l₂ heq hnot (.inr hearly)

theorem not_early_range (l₁ : List ℕ) (f : ℕ) (l₂ : List ℕ) (heq : List.range n = l₁ ++ f :: l₂) : ¬ Early n l₁ f := by
  rintro ⟨hf, k, -, -, hall⟩
  have hmem := (hall (f + 1) hf).mpr (.inr (Nat.lt_succ_self f))
  have hsorted : (l₁ ++ f :: l₂).Pairwise (· < ·) := heq ▸ List.pairwise_lt_range
  have hlt := (List.pairwise_append.mp hsorted).2.2 (f + 1) hmem f List.mem_cons_self
  omega

/-- Four fragments of 8 bytes. -/
def fourFragments (i : ℕ) : Packet (BitVec 16 × ℕ) :=
  shortFragment 7 (if i + 1 < 4 then 0x2000 + BitVec.ofNat 16 i else BitVec.ofNat 16 i) 1

theorem split_fourFragments : Split fourFragments 4 := by
  refine ⟨by omega, by decide, by decide, rfl, ?_, by decide, ?_, by decide, by decide, fun i _ => ?_⟩
  · intro i hi
    have hi' : i < 3 := by omega
    clear hi
    revert i
    decide
  · unfold Packet.Trimmed
    decide
  · exact counted_short _ _ Nat.one_pos (by omega)

theorem Early.ends (h : Early n l f) : 0 ∈ l ∧ n - 1 ∈ l ∧ 1 < f := by
  obtain ⟨hf, k, hpos, hlt, hall⟩ := h
  refine ⟨(hall 0 (by omega)).mpr (.inl hpos), (hall (n - 1) (by omega)).mpr (.inr ?_), ?_⟩ <;> omega

/-- Another datagram is held when they come, one order puts them together and in the other one is early. -/
theorem reass_order_four : ∃ sys : ReassSys (BitVec 16 × ℕ),
    reassMachine.run .start [.input (shortFragment 9 0x2001 2)] = some sys ∧
      sys.reass.receive ([2, 0, 3, 1].map fourFragments) = some (sys.reass, [together fourFragments 4 [0, 1, 2, 3]]) ∧
      sys.reass.receive ([0, 3, 2].map fourFragments) = some (sys.reass, [together fourFragments 4 [0, 2, 3]]) := by
  have hreach := reach_of_run (l := [.input (shortFragment 9 0x2001 2)]) (s := _) ?_ rfl
  · refine ⟨_, rfl, ?_, ?_⟩
    · refine (reass_order hreach split_fourFragments ⟨by decide, by decide, by decide⟩ (by decide)).1 ?_
      intro l₁ f l₂ heq hearly
      obtain ⟨-, hlast, hlt⟩ := hearly.ends
      rcases l₁ with _ | ⟨a, _ | ⟨b, _ | ⟨c, _ | ⟨d, l₁⟩⟩⟩⟩ <;> simp at heq hlast <;> omega
    · refine (reass_order (l := [0, 3, 2, 1]) hreach split_fourFragments ⟨by decide, by decide, by decide⟩ (by decide)).2
        [0, 3] 2 [1] rfl ⟨by decide, 1, by decide, by decide, by decide⟩ ?_
      intro l₁ f l₂ heq hearly
      obtain ⟨-, hlast, -⟩ := hearly.ends
      rcases l₁ with _ | ⟨a, _ | ⟨b, l₁⟩⟩ <;> simp at heq hlast
      omega
  · simp [ReassSys.ok, counted_short]

end LoraGateway.Core
