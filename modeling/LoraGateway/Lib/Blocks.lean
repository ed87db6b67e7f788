import Mathlib.Algebra.BigOperators.Group.List.Basic
import Mathlib.Algebra.GroupWithZero.Nat
import Mathlib.Data.List.Basic

/-!
# An arena cut into blocks

Blocks lie one behind the other, each in use or free. `firstFit` is the search for the first free block that is
large enough and `firstFree` where the first free block starts. Blocks in use do not overlap (`Holds.disjoint`),
and where no free block is followed by another, nothing in use means one free block (`eq_singleton_of_free`).
-/

namespace LoraGateway.Lib

structure Block where
  used : Bool
  size : ℕ
  deriving DecidableEq

namespace Blocks

/-- The room the blocks take. -/
def span (l : List Block) : ℕ := (l.map Block.size).sum

/-- Where the first free block starts, or where the blocks end. -/
def firstFree : List Block → ℕ
  | [] => 0
  | b :: l => if b.used then b.size + firstFree l else 0

/-- Where the first free block of at least `n` starts. -/
def firstFit (n : ℕ) : List Block → Option ℕ
  | [] => none
  | b :: l => if b.used = false ∧ n ≤ b.size then some 0 else (firstFit n l).map (b.size + ·)

/-- No free block is followed by another. -/
def Coalesced (l : List Block) : Prop := l.IsChain fun a b => a.used = true ∨ b.used = true

/-- A block in use of `n` starts at `p`. -/
def Holds (l : List Block) (p n : ℕ) : Prop := ∃ pre post, l = pre ++ ⟨true, n⟩ :: post ∧ p = span pre

variable {l pre post : List Block} {b : Block} {n m p q : ℕ}

@[simp] theorem span_nil : span [] = 0 := rfl

@[simp] theorem span_cons : span (b :: l) = b.size + span l := by
  rw [span, List.map_cons, List.sum_cons, span]

@[simp] theorem span_append : span (pre ++ post) = span pre + span post := by
  rw [span, List.map_append, List.sum_append, span, span]

theorem firstFree_le_span (l : List Block) : firstFree l ≤ span l := by
  induction l with
  | nil => exact Nat.le_refl 0
  | cons b l ih =>
    rw [firstFree, span_cons]
    split <;> omega

theorem firstFree_append (pre post : List Block) : firstFree (pre ++ post) =
    if ∀ c ∈ pre, c.used = true then span pre + firstFree post else firstFree pre := by
  induction pre with
  | nil => simp
  | cons c pre ih =>
    rw [List.cons_append, firstFree, ih, firstFree, span_cons, Nat.add_assoc]
    simp only [List.forall_mem_cons]
    by_cases hc : c.used = true <;> simp only [hc, true_and, if_true]
    · split <;> rfl
    · rfl

theorem firstFree_append_used (h : ∀ c ∈ pre, c.used = true) :
    firstFree (pre ++ post) = span pre + firstFree post := by
  rw [firstFree_append, if_pos h]

theorem firstFree_lt_span (hpos : ∀ b ∈ l, 0 < b.size) (h : ¬ ∀ b ∈ l, b.used = true) : firstFree l < span l := by
  induction l with
  | nil => exact absurd nofun h
  | cons b l ih =>
    have hb := hpos b List.mem_cons_self
    rw [firstFree, span_cons]
    split
    · rename_i hused
      have hlt := ih (fun c hc => hpos c (List.mem_cons_of_mem b hc)) fun hall => h (List.forall_mem_cons.mpr ⟨hused, hall⟩)
      omega
    · omega

theorem firstFree_append_le (hb : b.used = false) : firstFree (pre ++ b :: post) ≤ span pre := by
  have hzero : firstFree (b :: post) = 0 := by simp [firstFree, hb]
  have hle := firstFree_le_span pre
  rw [firstFree_append, hzero]
  split <;> omega

theorem firstFree_append_free {b' : Block} {post' : List Block} (hb : b.used = false) (hb' : b'.used = false) :
    firstFree (pre ++ b :: post) = firstFree (pre ++ b' :: post') := by
  rw [firstFree_append, firstFree_append]
  simp [firstFree, hb, hb']

theorem firstFree_of_freed : firstFree (pre ++ ⟨false, n⟩ :: post) =
    if span pre < firstFree (pre ++ ⟨true, n⟩ :: post) then span pre
    else firstFree (pre ++ ⟨true, n⟩ :: post) := by
  have hle := firstFree_le_span pre
  simp only [firstFree_append, firstFree]
  split_ifs <;> first | contradiction | omega

theorem firstFree_of_moved {post' : List Block} (hpos : ∀ b ∈ pre, 0 < b.size) :
    firstFree (pre ++ ⟨true, m⟩ :: ⟨false, q⟩ :: post') =
      if firstFree (pre ++ ⟨true, n⟩ :: ⟨false, p⟩ :: post) = span pre + n then span pre + m
      else firstFree (pre ++ ⟨true, n⟩ :: ⟨false, p⟩ :: post) := by
  simp only [firstFree_append, firstFree]
  by_cases h : ∀ c ∈ pre, c.used = true
  · simp [if_pos h]
  · have hlt := firstFree_lt_span hpos h
    rw [if_neg h, if_neg h, if_neg (by omega)]

/-- Two blocks in use look for a free one as one of their size does. -/
theorem firstFree_split : firstFree (pre ++ ⟨true, n⟩ :: ⟨true, m⟩ :: post) =
    firstFree (pre ++ ⟨true, n + m⟩ :: post) := by
  simp only [firstFree_append, firstFree, if_true, Nat.add_assoc]

theorem exists_firstFree (l : List Block) : ∃ pre post, l = pre ++ post ∧ (∀ c ∈ pre, c.used = true) ∧
    firstFree l = span pre ∧ ∀ b ∈ post.head?, b.used = false := by
  induction l with
  | nil => exact ⟨[], [], rfl, nofun, rfl, nofun⟩
  | cons b l ih =>
    cases hb : b.used with
    | false => exact ⟨[], b :: l, rfl, nofun, by simp [firstFree, hb], by simp [hb]⟩
    | true =>
      obtain ⟨pre, post, rfl, hpre, hfree, hpost⟩ := ih
      refine ⟨b :: pre, post, rfl, ?_, ?_, hpost⟩
      · rintro c (_ | ⟨_, hc⟩)
        · exact hb
        · exact hpre c hc
      · rw [firstFree, if_pos hb, span_cons, hfree]

/-! ## Searching -/

theorem firstFit_eq_none_iff : firstFit n l = none ↔ ∀ b ∈ l, b.used = true ∨ b.size < n := by
  induction l with
  | nil => simp [firstFit]
  | cons b l ih =>
    rw [firstFit]
    split
    · rename_i h
      constructor
      · exact nofun
      · intro hall
        rcases hall b List.mem_cons_self with hused | hsize
        · exact absurd (h.1.symm.trans hused) nofun
        · exact absurd h.2 (by omega)
    · rename_i h
      rw [Option.map_eq_none_iff, ih, List.forall_mem_cons, iff_and_self]
      intro _
      rcases Bool.eq_false_or_eq_true b.used with hused | hfree
      · exact .inl hused
      · exact .inr (by
          rw [not_and] at h
          exact Nat.lt_of_not_le (h hfree))

theorem firstFit_eq_some (h : firstFit n l = some p) : ∃ pre b post, l = pre ++ b :: post ∧ p = span pre ∧
    b.used = false ∧ n ≤ b.size ∧ ∀ c ∈ pre, c.used = true ∨ c.size < n := by
  induction l generalizing p with
  | nil => exact absurd h nofun
  | cons b l ih =>
    rw [firstFit] at h
    split at h
    · rename_i hfit
      exact ⟨[], b, l, rfl, (Option.some.inj h).symm, hfit.1, hfit.2, nofun⟩
    · rename_i hfit
      obtain ⟨q, hq, rfl⟩ := Option.map_eq_some_iff.mp h
      obtain ⟨pre, c, post, rfl, rfl, hfree, hsize, hpre⟩ := ih hq
      refine ⟨b :: pre, c, post, rfl, by rw [span_cons], hfree, hsize, ?_⟩
      rintro d (_ | ⟨_, hd⟩)
      · rw [not_and_or, Bool.not_eq_false, Nat.not_le] at hfit
        exact hfit
      · exact hpre d hd

/-- The search may start behind blocks in use. -/
theorem firstFit_append_used (h : ∀ c ∈ pre, c.used = true) :
    firstFit n (pre ++ post) = (firstFit n post).map (span pre + ·) := by
  induction pre with
  | nil => simp
  | cons c pre ih =>
    have hc := h c List.mem_cons_self
    rw [List.cons_append, firstFit, if_neg (by simp [hc]), ih fun d hd => h d (List.mem_cons_of_mem c hd),
      Option.map_map]
    refine congrFun (congrArg Option.map (funext fun k => ?_)) _
    simp only [Function.comp_apply, span_cons]
    omega

theorem length_le_span (hpos : ∀ b ∈ l, 0 < b.size) : l.length ≤ span l := by
  induction l with
  | nil => exact Nat.le_refl 0
  | cons b l ih =>
    have hb := hpos b List.mem_cons_self
    have hle := ih fun c hc => hpos c (List.mem_cons_of_mem b hc)
    rw [List.length_cons, span_cons]
    omega

theorem size_le_span (hb : b ∈ l) : b.size ≤ span l := by
  obtain ⟨pre, post, rfl⟩ := List.append_of_mem hb
  rw [span_append, span_cons]
  omega

/-! ## Blocks in use -/

theorem Holds.head (pre post : List Block) (n : ℕ) : Holds (pre ++ ⟨true, n⟩ :: post) (span pre) n :=
  ⟨pre, post, rfl, rfl⟩

theorem Holds.le_span (h : Holds l p n) : p + n ≤ span l := by
  obtain ⟨pre, post, rfl, rfl⟩ := h
  rw [span_append, span_cons, ← Nat.add_assoc]
  exact Nat.le_add_right _ _

theorem holds_append : Holds (pre ++ post) p n ↔
    Holds pre p n ∨ span pre ≤ p ∧ Holds post (p - span pre) n := by
  constructor
  · rintro ⟨as, bs, heq, rfl⟩
    obtain ⟨cs, rfl, hpost⟩ | ⟨cs, rfl, hbs⟩ := List.append_eq_append_iff.mp heq
    · refine .inr ⟨by rw [span_append]; omega, cs, bs, hpost, by rw [span_append]; omega⟩
    · cases cs with
      | nil =>
        refine .inr ⟨by simp, [], bs, by simpa using hbs.symm, by simp⟩
      | cons c cs =>
        rw [List.cons_append, List.cons.injEq] at hbs
        obtain ⟨rfl, rfl⟩ := hbs
        exact .inl ⟨as, cs, rfl, rfl⟩
  · rintro (⟨as, bs, rfl, rfl⟩ | ⟨hle, as, bs, rfl, heq⟩)
    · exact ⟨as, bs ++ post, by simp, rfl⟩
    · exact ⟨pre ++ as, bs, by simp, by rw [span_append]; omega⟩

theorem holds_cons : Holds (b :: l) p n ↔ p = 0 ∧ b = ⟨true, n⟩ ∨ b.size ≤ p ∧ Holds l (p - b.size) n := by
  constructor
  · rintro ⟨as, bs, heq, rfl⟩
    cases as with
    | nil => exact .inl ⟨rfl, (List.cons.inj heq).1⟩
    | cons a as =>
      obtain ⟨rfl, rfl⟩ := List.cons.inj heq
      exact .inr ⟨by rw [span_cons]; omega, as, bs, rfl, by rw [span_cons]; omega⟩
  · rintro (⟨rfl, rfl⟩ | ⟨hle, as, bs, rfl, heq⟩)
    · exact ⟨[], l, rfl, rfl⟩
    · exact ⟨b :: as, bs, rfl, by rw [span_cons]; omega⟩

@[simp] theorem not_holds_nil : ¬ Holds [] p n := by
  rintro ⟨pre, post, h, -⟩
  cases pre <;> cases h

theorem holds_cons_free (hb : b.used = false) : Holds (b :: l) p n ↔ b.size ≤ p ∧ Holds l (p - b.size) n := by
  rw [holds_cons, or_iff_right]
  rintro ⟨-, rfl⟩
  exact absurd hb nofun

theorem holds_merge : Holds (pre ++ ⟨false, n + m⟩ :: post) p q ↔
    Holds (pre ++ ⟨false, n⟩ :: ⟨false, m⟩ :: post) p q := by
  rw [holds_append, holds_append, holds_cons_free rfl, holds_cons_free rfl, holds_cons_free rfl, Nat.sub_add_eq,
    ← and_assoc (b := m ≤ _)]
  have hle : n + m ≤ p - span pre ↔ n ≤ p - span pre ∧ m ≤ p - span pre - n := by omega
  simp only [hle]

theorem holds_of_ne (hne : p ≠ span pre) :
    Holds (pre ++ b :: post) p m ↔ Holds pre p m ∨ span pre + b.size ≤ p ∧ Holds post (p - (span pre + b.size)) m := by
  rw [holds_append, holds_cons, Nat.sub_add_eq]
  constructor
  · rintro (h | ⟨hle, ⟨hzero, -⟩ | ⟨hsize, h⟩⟩)
    · exact .inl h
    · exact absurd (Nat.le_antisymm (Nat.le_of_sub_eq_zero hzero) hle) hne
    · exact .inr ⟨by omega, h⟩
  · rintro (h | ⟨hle, h⟩)
    · exact .inl h
    · exact .inr ⟨by omega, .inr ⟨by omega, h⟩⟩

theorem holds_of_taken : Holds (pre ++ ⟨true, n⟩ :: post) p m ↔
    Holds (pre ++ ⟨false, n⟩ :: post) p m ∨ p = span pre ∧ m = n := by
  rw [holds_append, holds_append, holds_cons_free (b := ⟨false, n⟩) rfl, holds_cons, or_assoc]
  refine or_congr_right ?_
  constructor
  · rintro ⟨hle, ⟨hzero, heq⟩ | h⟩
    · exact .inr ⟨by omega, (congrArg Block.size heq).symm⟩
    · exact .inl ⟨hle, h⟩
  · rintro (⟨hle, h⟩ | ⟨rfl, rfl⟩)
    · exact ⟨hle, .inr h⟩
    · exact ⟨Nat.le_refl _, .inl ⟨Nat.sub_self _, rfl⟩⟩

theorem holds_of_freed (hpre : ∀ b ∈ pre, 0 < b.size) (hn : 0 < n) :
    Holds (pre ++ ⟨false, n⟩ :: post) p m ↔ Holds (pre ++ ⟨true, n⟩ :: post) p m ∧ p ≠ span pre := by
  have hne : Holds pre p m → p ≠ span pre := by
    intro h
    have hle := h.le_span
    obtain ⟨as, bs, rfl, -⟩ := h
    have hpos := hpre ⟨true, m⟩ (by simp)
    simp only at hpos
    omega
  rw [holds_append, holds_append, holds_cons_free rfl, holds_cons]
  constructor
  · rintro (h | ⟨hle, hsize, h⟩)
    · exact ⟨.inl h, hne h⟩
    · exact ⟨.inr ⟨hle, .inr ⟨hsize, h⟩⟩, by simp only at hsize; omega⟩
  · rintro ⟨h | ⟨hle, ⟨hzero, -⟩ | ⟨hsize, h⟩⟩, hp⟩
    · exact .inl h
    · exact absurd (Nat.le_antisymm (Nat.le_of_sub_eq_zero hzero) hle) hp
    · exact .inr ⟨hle, hsize, h⟩

/-- Two blocks in use are the same one or lie apart. -/
theorem Holds.disjoint (h : Holds l p n) (h' : Holds l q m) :
    p = q ∧ n = m ∨ p + n ≤ q ∨ q + m ≤ p := by
  obtain ⟨pre, post, rfl, rfl⟩ := h
  rcases holds_append.mp h' with hpre | ⟨hle, hpost⟩
  · exact .inr (.inr hpre.le_span)
  · rcases holds_cons.mp hpost with ⟨hzero, heq⟩ | ⟨hafter, -⟩
    · exact .inl ⟨by omega, congrArg Block.size heq⟩
    · exact .inr (.inl (by simp only at hafter; omega))

theorem not_holds_iff : (∀ p n, ¬ Holds l p n) ↔ ∀ b ∈ l, b.used = false := by
  constructor
  · intro h b hb
    obtain ⟨pre, post, rfl⟩ := List.append_of_mem hb
    rcases b with ⟨used, n⟩
    cases used with
    | false => rfl
    | true => exact absurd (Holds.head pre post n) (h _ n)
  · rintro h p n ⟨pre, post, rfl, -⟩
    exact absurd (h ⟨true, n⟩ (by simp)) nofun

/-! ## Merging -/

theorem Coalesced.length_le_one (h : Coalesced l) (hfree : ∀ b ∈ l, b.used = false) : l.length ≤ 1 := by
  match l with
  | [] => exact Nat.zero_le 1
  | [_] => exact Nat.le_refl 1
  | a :: b :: _ =>
    rcases (List.isChain_cons_cons.mp h).1 with ha | hb
    · exact absurd ((hfree a (by simp)).symm.trans ha) nofun
    · exact absurd ((hfree b (by simp)).symm.trans hb) nofun

theorem eq_singleton_of_free (h : Coalesced l) (hfree : ∀ b ∈ l, b.used = false) (hspan : 0 < span l) :
    l = [⟨false, span l⟩] := by
  have hlength := h.length_le_one hfree
  match l with
  | [] => exact absurd hspan (Nat.lt_irrefl 0)
  | [b] =>
    rcases b with ⟨used, size⟩
    obtain rfl : used = false := hfree _ List.mem_cons_self
    simp
  | _ :: _ :: _ =>
    simp at hlength

end Blocks

end LoraGateway.Lib
