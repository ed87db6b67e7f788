import Mathlib.Data.Finset.Max
import Mathlib.Data.Fintype.Basic
import Mathlib.Order.Fin.Basic

/-!
# Sets of numbers as a table of words

A set of numbers below `w * w` as `w` words of `w` bits, and one word more with a bit for each word that is not zero
(`Bitmap.Ok`). Insertion and removal touch two words (`mem_insert`, `mem_erase`), and the least member takes two
lookups of the lowest bit that is set (`first_eq_min'`).
-/

namespace LoraGateway.Lib

structure Bitmap (w : ℕ) where
  grp : BitVec w
  tbl : Fin w → BitVec w

namespace Bitmap

variable {w : ℕ}

/-- The word that has the bit of `p`. -/
def row (p : Fin (w * w)) : Fin w := p.divNat

/-- The bit of `p` in its word. -/
def col (p : Fin (w * w)) : Fin w := p.modNat

def bit (i : Fin w) : BitVec w := 1#w <<< i.val

def empty : Bitmap w := ⟨0, fun _ => 0⟩

def insert (b : Bitmap w) (p : Fin (w * w)) : Bitmap w :=
  ⟨b.grp ||| bit (row p), Function.update b.tbl (row p) (b.tbl (row p) ||| bit (col p))⟩

def erase (b : Bitmap w) (p : Fin (w * w)) : Bitmap w :=
  let word := b.tbl (row p) &&& ~~~ bit (col p)
  ⟨if word = 0 then b.grp &&& ~~~ bit (row p) else b.grp, Function.update b.tbl (row p) word⟩

def mem (b : Bitmap w) (p : Fin (w * w)) : Bool := (b.tbl (row p)).getLsbD (col p)

/-- The first number, as two lookups of the lowest bit. -/
def first (lowest : BitVec w → Fin w) (b : Bitmap w) : Fin (w * w) :=
  Fin.mkDivMod (lowest b.grp) (lowest (b.tbl (lowest b.grp)))

/-- The word in front has a bit for each word that is not zero. -/
def Ok (b : Bitmap w) : Prop := ∀ y : Fin w, b.grp.getLsbD y = true ↔ b.tbl y ≠ 0

def toFinset (b : Bitmap w) : Finset (Fin (w * w)) := Finset.univ.filter fun p => b.mem p = true

variable {b : Bitmap w} {p q : Fin (w * w)} {i j : Fin w} {v : BitVec w}

/-! ## Bits -/

theorem getLsbD_bit (i j : Fin w) : (bit i).getLsbD j = decide (i = j) := by
  rw [bit, BitVec.getLsbD_shiftLeft, BitVec.getLsbD_one]
  have hj := j.isLt
  have hi := i.isLt
  simp only [Fin.ext_iff]
  by_cases h : i.val = j.val
  · simp [h]
    omega
  · simp [h]
    omega

theorem eq_zero_iff : v = 0 ↔ ∀ i : Fin w, v.getLsbD i = false := by
  constructor
  · rintro rfl i
    exact BitVec.getLsbD_zero
  · intro h
    refine BitVec.eq_of_getLsbD_eq fun i hi => ?_
    rw [h ⟨i, hi⟩]
    exact BitVec.getLsbD_zero.symm

theorem ne_zero_iff : v ≠ 0 ↔ ∃ i : Fin w, v.getLsbD i = true := by
  rw [Ne, eq_zero_iff, not_forall]
  simp only [Bool.not_eq_false]

theorem getLsbD_or_bit : (v ||| bit i).getLsbD j = (v.getLsbD j || decide (i = j)) := by
  rw [BitVec.getLsbD_or, getLsbD_bit]

theorem getLsbD_and_not_bit : (v &&& ~~~ bit i).getLsbD j = (v.getLsbD j && !decide (i = j)) := by
  rw [BitVec.getLsbD_and, BitVec.getLsbD_not, getLsbD_bit]
  simp

theorem ext_row_col : p = q ↔ row p = row q ∧ col p = col q := by
  constructor
  · rintro rfl
    exact ⟨rfl, rfl⟩
  · rintro ⟨hrow, hcol⟩
    rw [← Fin.divNat_mkDivMod_modNat p, ← Fin.divNat_mkDivMod_modNat q]
    exact congrArg₂ Fin.mkDivMod hrow hcol

/-! ## Members -/

@[simp] theorem tbl_insert_self : (b.insert p).tbl (row p) = b.tbl (row p) ||| bit (col p) :=
  Function.update_self ..

theorem tbl_insert_of_ne (h : i ≠ row p) : (b.insert p).tbl i = b.tbl i := Function.update_of_ne h ..

@[simp] theorem tbl_erase_self : (b.erase p).tbl (row p) = b.tbl (row p) &&& ~~~ bit (col p) :=
  Function.update_self ..

theorem tbl_erase_of_ne (h : i ≠ row p) : (b.erase p).tbl i = b.tbl i := Function.update_of_ne h ..

theorem mem_insert : (b.insert p).mem q = true ↔ q = p ∨ b.mem q = true := by
  unfold mem
  by_cases hrow : row q = row p
  · rw [hrow, tbl_insert_self, getLsbD_or_bit, Bool.or_eq_true, decide_eq_true_eq, ext_row_col]
    constructor
    · rintro (hmem | hcol)
      · exact .inr hmem
      · exact .inl ⟨hrow, hcol.symm⟩
    · rintro (⟨-, hcol⟩ | hmem)
      · exact .inr hcol.symm
      · exact .inl hmem
  · rw [tbl_insert_of_ne hrow, or_iff_right]
    rintro rfl
    exact hrow rfl

theorem mem_erase : (b.erase p).mem q = true ↔ q ≠ p ∧ b.mem q = true := by
  unfold mem
  by_cases hrow : row q = row p
  · rw [hrow, tbl_erase_self, getLsbD_and_not_bit, Bool.and_eq_true, Bool.not_eq_true', decide_eq_false_iff_not, and_comm, Ne, ext_row_col,
      not_and]
    simp only [hrow, true_implies, eq_comm]
  · rw [tbl_erase_of_ne hrow, iff_and_self]
    rintro - rfl
    exact hrow rfl

@[simp] theorem mem_empty : (empty : Bitmap w).mem p = false := BitVec.getLsbD_zero

theorem ok_empty : (empty : Bitmap w).Ok := fun y => by
  simp [empty]

theorem Ok.insert (h : b.Ok) (p : Fin (w * w)) : (b.insert p).Ok := by
  intro y
  show (b.grp ||| bit (row p)).getLsbD y = true ↔ _
  rw [getLsbD_or_bit, Bool.or_eq_true, decide_eq_true_eq]
  by_cases hrow : y = row p
  · subst hrow
    refine iff_of_true (.inr rfl) ?_
    rw [tbl_insert_self, ne_zero_iff]
    exact ⟨col p, by rw [getLsbD_or_bit]; simp⟩
  · rw [tbl_insert_of_ne hrow, or_iff_left (Ne.symm hrow)]
    exact h y

theorem Ok.erase (h : b.Ok) (p : Fin (w * w)) : (b.erase p).Ok := by
  intro y
  show (if b.tbl (row p) &&& ~~~ bit (col p) = 0 then b.grp &&& ~~~ bit (row p) else b.grp).getLsbD y = true ↔ _
  by_cases hrow : y = row p
  · subst hrow
    rw [tbl_erase_self]
    split
    · rename_i hzero
      rw [getLsbD_and_not_bit]
      simp [hzero]
    · rename_i hword
      refine iff_of_true ((h _).mpr ?_) hword
      intro hzero
      rw [hzero] at hword
      exact hword BitVec.zero_and
  · rw [tbl_erase_of_ne hrow, ← h y]
    split
    · rw [getLsbD_and_not_bit]
      simp [Ne.symm hrow]
    · rfl

theorem Ok.grp_eq_zero_iff (h : b.Ok) : b.grp = 0 ↔ ∀ p, b.mem p = false := by
  constructor
  · intro hzero p
    have hrow := (h (row p)).not
    rw [hzero, not_not] at hrow
    unfold mem
    rw [hrow.mp (by simp)]
    exact BitVec.getLsbD_zero
  · intro hall
    refine eq_zero_iff.mpr fun y => ?_
    rw [← Bool.not_eq_true, h y, not_not]
    refine eq_zero_iff.mpr fun x => ?_
    have hmem := hall (Fin.mkDivMod y x)
    unfold mem row col at hmem
    rwa [Fin.divNat_mkDivMod, Fin.modNat_mkDivMod] at hmem

/-! ## The first member -/

/-- `lowest` is the lowest bit of a word that is not zero. -/
def IsLowest (lowest : BitVec w → Fin w) : Prop :=
  ∀ v, v ≠ 0 → v.getLsbD (lowest v) = true ∧ ∀ i : Fin w, v.getLsbD i = true → lowest v ≤ i

variable {lowest : BitVec w → Fin w}

theorem Ok.mem_first (h : b.Ok) (hlow : IsLowest lowest) (hgrp : b.grp ≠ 0) : b.mem (b.first lowest) = true := by
  have hrow := (hlow _ hgrp).1
  have hword := (h _).mp hrow
  unfold mem row col first
  rw [Fin.divNat_mkDivMod, Fin.modNat_mkDivMod]
  exact (hlow _ hword).1

theorem Ok.first_le (h : b.Ok) (hlow : IsLowest lowest) (hp : b.mem p = true) : b.first lowest ≤ p := by
  have hword : b.tbl (row p) ≠ 0 := ne_zero_iff.mpr ⟨col p, hp⟩
  have hgrp := (h _).mpr hword
  have hrow := (hlow _ (ne_zero_iff.mpr ⟨_, hgrp⟩)).2 _ hgrp
  have hval : (p : ℕ) = w * row p + col p := (Nat.div_add_mod p w).symm
  rw [Fin.le_def, hval]
  show w * (lowest b.grp : ℕ) + lowest (b.tbl (lowest b.grp)) ≤ _
  rcases Nat.lt_or_ge (lowest b.grp) (row p) with hlt | hge
  · have hmul : w * (lowest b.grp + 1) ≤ w * row p := Nat.mul_le_mul_left w hlt
    have hcol := (lowest (b.tbl (lowest b.grp))).isLt
    rw [Nat.mul_add, Nat.mul_one] at hmul
    omega
  · have heq : lowest b.grp = row p := le_antisymm hrow hge
    have hcol : lowest (b.tbl (row p)) ≤ col p := (hlow _ hword).2 _ hp
    rw [heq]
    exact Nat.add_le_add_left hcol _

@[simp] theorem mem_toFinset : p ∈ b.toFinset ↔ b.mem p = true := by
  rw [toFinset, Finset.mem_filter, and_iff_right (Finset.mem_univ p)]

theorem Ok.nonempty_iff (h : b.Ok) : b.toFinset.Nonempty ↔ b.grp ≠ 0 := by
  rw [Ne, h.grp_eq_zero_iff, Finset.Nonempty, not_forall]
  simp only [mem_toFinset, Bool.not_eq_false]

theorem Ok.first_eq_min' (h : b.Ok) (hlow : IsLowest lowest) (hne : b.toFinset.Nonempty) :
    b.first lowest = b.toFinset.min' hne := by
  refine le_antisymm ?_ (Finset.min'_le _ _ ?_)
  · exact h.first_le hlow (mem_toFinset.mp (Finset.min'_mem _ hne))
  · exact mem_toFinset.mpr (h.mem_first hlow (h.nonempty_iff.mp hne))

end Bitmap

end LoraGateway.Lib
