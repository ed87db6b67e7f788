import Mathlib.Data.List.Basic
import Mathlib.Logic.Function.Basic

/-!
# Buffers lent without a copy

A lender has buffers, and any number of borrowers with a queue of loans each. A loan refers to its buffer
until all that is owed for it has been repaid; repayments go to the oldest loans first. The loans are good as
long as every buffer that is lent holds what it held when it was lent. `Good.free_iff` and `Good.fill_iff` say
when a buffer may be freed or filled again.
-/

namespace LoraGateway.Lib

variable {κ ι α : Type*}

/-- `owed` units of the buffer `buf`, which held `contents` when it was lent. -/
structure Loan (ι α : Type*) where
  buf : ι
  contents : α
  owed : ℕ

/-- A queue of loans after `n` units have been repaid. -/
def Loan.repay : ℕ → List (Loan ι α) → List (Loan ι α)
  | _, [] => []
  | n, l :: rest => if l.owed ≤ n then repay (n - l.owed) rest else { l with owed := l.owed - n } :: rest

theorem Loan.mem_repay {n : ℕ} {l : Loan ι α} {queue : List (Loan ι α)} (h : l ∈ repay n queue) :
    ∃ l₀ ∈ queue, l₀.buf = l.buf ∧ l₀.contents = l.contents := by
  induction queue generalizing n with
  | nil => exact absurd h List.not_mem_nil
  | cons l₁ rest ih =>
    rw [repay] at h
    split_ifs at h
    · obtain ⟨l₀, hl₀, heq⟩ := ih h
      exact ⟨l₀, List.mem_cons_of_mem _ hl₀, heq⟩
    · rcases List.mem_cons.mp h with rfl | hrest
      · exact ⟨l₁, List.mem_cons_self, rfl, rfl⟩
      · exact ⟨l, List.mem_cons_of_mem _ hrest, rfl, rfl⟩

/-- The buffers, `none` for one that is not in use, and the loans of each borrower, oldest first. -/
structure Lender (κ ι α : Type*) where
  contents : ι → Option α
  loans : κ → List (Loan ι α)

namespace Lender

/-- Some borrower refers to the buffer. -/
def Lent (s : Lender κ ι α) (b : ι) : Prop := ∃ k, ∃ l ∈ s.loans k, l.buf = b

/-- Every buffer lent holds what it held when it was lent. -/
def Good (s : Lender κ ι α) : Prop := ∀ k, ∀ l ∈ s.loans k, s.contents l.buf = some l.contents

variable {s : Lender κ ι α} {k k' : κ} {b b' : ι} {x : α} {n : ℕ}

theorem Good.not_lent (h : s.Good) (hb : s.contents b = none) : ¬ s.Lent b := by
  rintro ⟨k, l, hl, rfl⟩
  exact absurd (hb.symm.trans (h k l hl)) nofun

/-! ### Loans -/

section loans

variable [DecidableEq κ]

def setLoans (s : Lender κ ι α) (k : κ) (queue : List (Loan ι α)) : Lender κ ι α :=
  { s with loans := Function.update s.loans k queue }

@[simp] theorem loans_setLoans (queue : List (Loan ι α)) : (s.setLoans k queue).loans k = queue :=
  Function.update_self ..

theorem loans_setLoans_of_ne (h : k' ≠ k) (queue : List (Loan ι α)) : (s.setLoans k queue).loans k' = s.loans k' :=
  Function.update_of_ne h ..

/-- No loan is made of nothing. -/
def lend (s : Lender κ ι α) (k : κ) (b : ι) (n : ℕ) : Lender κ ι α :=
  match s.contents b with
  | some x => if n = 0 then s else s.setLoans k (s.loans k ++ [⟨b, x, n⟩])
  | none => s

def repay (s : Lender κ ι α) (k : κ) (n : ℕ) : Lender κ ι α := s.setLoans k (Loan.repay n (s.loans k))

/-- The borrower gives up all of its loans. -/
def drop (s : Lender κ ι α) (k : κ) : Lender κ ι α := s.setLoans k []

theorem lend_zero (s : Lender κ ι α) (k : κ) (b : ι) : s.lend k b 0 = s := by
  rw [lend]
  split <;> rfl

theorem lend_of_ne_zero (h : s.contents b = some x) (hn : n ≠ 0) :
    s.lend k b n = s.setLoans k (s.loans k ++ [⟨b, x, n⟩]) := by
  rw [lend, h]
  exact if_neg hn

theorem lend_cases (s : Lender κ ι α) (k : κ) (b : ι) (n : ℕ) :
    s.lend k b n = s ∨ ∃ x, s.contents b = some x ∧ s.lend k b n = s.setLoans k (s.loans k ++ [⟨b, x, n⟩]) := by
  by_cases hn : n = 0
  · rw [hn]
    exact .inl (lend_zero ..)
  · cases h : s.contents b with
    | none => exact .inl (by rw [lend, h])
    | some x => exact .inr ⟨x, rfl, lend_of_ne_zero h hn⟩

@[simp] theorem contents_lend (s : Lender κ ι α) (k : κ) (b : ι) (n : ℕ) : (s.lend k b n).contents = s.contents := by
  rcases lend_cases s k b n with h | ⟨x, -, h⟩ <;> rw [h]
  rfl

theorem Lent.lend (h : s.Lent b') (k : κ) (b : ι) (n : ℕ) : (s.lend k b n).Lent b' := by
  rcases lend_cases s k b n with heq | ⟨x, -, heq⟩ <;> rw [heq]
  · exact h
  · obtain ⟨k₀, l, hl, hbuf⟩ := h
    refine ⟨k₀, l, ?_, hbuf⟩
    by_cases hk : k₀ = k
    · subst hk
      rw [loans_setLoans]
      exact List.mem_append_left _ hl
    · rwa [loans_setLoans_of_ne hk]

theorem lent_lend (h : s.contents b = some x) (hn : n ≠ 0) : (s.lend k b n).Lent b := by
  rw [lend_of_ne_zero h hn]
  refine ⟨k, ⟨b, x, n⟩, ?_, rfl⟩
  rw [loans_setLoans]
  exact List.mem_append_right _ List.mem_cons_self

theorem Good.setLoans (h : s.Good) {queue : List (Loan ι α)}
    (hqueue : ∀ l ∈ queue, s.contents l.buf = some l.contents) : (s.setLoans k queue).Good := by
  intro k' l hl
  by_cases hk : k' = k
  · subst hk
    rw [loans_setLoans] at hl
    exact hqueue l hl
  · rw [loans_setLoans_of_ne hk] at hl
    exact h k' l hl

theorem Good.repay (h : s.Good) (k : κ) (n : ℕ) : (s.repay k n).Good := h.setLoans fun l hl => by
  obtain ⟨l₀, hl₀, hbuf, hcontents⟩ := Loan.mem_repay hl
  rw [← hbuf, ← hcontents]
  exact h k l₀ hl₀

theorem Good.drop (h : s.Good) (k : κ) : (s.drop k).Good := h.setLoans fun _ hl => absurd hl List.not_mem_nil

theorem Good.lend (h : s.Good) (k : κ) (b : ι) (n : ℕ) : (s.lend k b n).Good := by
  rcases lend_cases s k b n with heq | ⟨x, hx, heq⟩ <;> rw [heq]
  · exact h
  · refine h.setLoans fun l hl => ?_
    rcases List.mem_append.mp hl with hl | hl
    · exact h k l hl
    · rw [List.mem_singleton.mp hl]
      exact hx

end loans

/-! ### Buffers -/

section buffers

variable [DecidableEq ι]

def fill (s : Lender κ ι α) (b : ι) (x : α) : Lender κ ι α :=
  { s with contents := Function.update s.contents b (some x) }

def free (s : Lender κ ι α) (b : ι) : Lender κ ι α := { s with contents := Function.update s.contents b none }

@[simp] theorem contents_fill (s : Lender κ ι α) (b : ι) (x : α) : (s.fill b x).contents b = some x :=
  Function.update_self ..

theorem contents_fill_of_ne (h : b' ≠ b) (x : α) : (s.fill b x).contents b' = s.contents b' :=
  Function.update_of_ne h ..

@[simp] theorem contents_free (s : Lender κ ι α) (b : ι) : (s.free b).contents b = none := Function.update_self ..

theorem contents_free_of_ne (h : b' ≠ b) : (s.free b).contents b' = s.contents b' := Function.update_of_ne h ..

@[simp] theorem lent_fill : (s.fill b x).Lent b' ↔ s.Lent b' := Iff.rfl

/-- A buffer may be freed exactly if nobody refers to it. -/
theorem Good.free_iff (h : s.Good) : (s.free b).Good ↔ ¬ s.Lent b := by
  constructor
  · rintro hfree ⟨k, l, hl, rfl⟩
    have hnone := hfree k l hl
    rw [contents_free] at hnone
    cases hnone
  · intro hlent k l hl
    rw [contents_free_of_ne fun hbuf => hlent ⟨k, l, hl, hbuf⟩]
    exact h k l hl

/-- A buffer may be filled exactly if nobody refers to it or it holds the same already. -/
theorem Good.fill_iff (h : s.Good) : (s.fill b x).Good ↔ (s.Lent b → s.contents b = some x) := by
  constructor
  · rintro hfill ⟨k, l, hl, rfl⟩
    have hx := hfill k l hl
    rw [contents_fill] at hx
    rw [hx]
    exact h k l hl
  · intro hsame k l hl
    by_cases hbuf : l.buf = b
    · rw [hbuf, contents_fill, ← hsame ⟨k, l, hl, hbuf⟩, ← hbuf]
      exact h k l hl
    · rw [contents_fill_of_ne hbuf]
      exact h k l hl

end buffers

end Lender

end LoraGateway.Lib
