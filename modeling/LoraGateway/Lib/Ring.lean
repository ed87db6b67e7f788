import Mathlib.Data.List.Basic
import Mathlib.Data.Nat.ModEq
import Mathlib.Logic.Function.Basic

/-!
# Circular buffers

`slice mem size start len` is what a circular buffer of `size` cells holds in the `len` cells from
`start` on, wrapping at `size`. Pushing writes the cell after the slice (`slice_push`), popping
drops its first cell (`slice_succ`); a slice shorter than the buffer does not see the write
(`slice_update`).
-/

namespace LoraGateway.Lib.Ring

variable {α : Type*} (mem mem' : ℕ → α) (size start len : ℕ)

/-- The contents of `len` cells from `start`, in order. -/
def slice (mem : ℕ → α) (size start len : ℕ) : List α :=
  (List.range len).map fun i => mem ((start + i) % size)

@[simp] theorem slice_zero : slice mem size start 0 = [] := rfl

@[simp] theorem length_slice : (slice mem size start len).length = len := by simp [slice]

theorem slice_succ :
    slice mem size start (len + 1) = mem (start % size) :: slice mem size (start + 1) len := by
  simp only [slice, List.range_succ_eq_map, List.map_cons, List.map_map, Nat.add_zero]
  congr 1
  refine List.map_congr_left fun i _ => ?_
  simp only [Function.comp_apply, Nat.succ_eq_add_one]
  congr 2
  omega

theorem slice_concat :
    slice mem size start (len + 1) = slice mem size start len ++ [mem ((start + len) % size)] := by
  simp [slice, List.range_succ]

theorem slice_add (a b : ℕ) :
    slice mem size start (a + b) = slice mem size start a ++ slice mem size (start + a) b := by
  induction b with
  | zero => simp
  | succ b ih => rw [← Nat.add_assoc, slice_concat, ih, slice_concat, Nat.add_assoc, List.append_assoc]

@[simp] theorem slice_mod : slice mem size (start % size) len = slice mem size start len := by
  simp [slice]

variable {mem mem' size start len}

theorem slice_congr (h : ∀ i < len, mem ((start + i) % size) = mem' ((start + i) % size)) :
    slice mem size start len = slice mem' size start len :=
  List.map_congr_left fun i hi => h i (List.mem_range.mp hi)

theorem slice_eq_iff {l : List α} : slice mem size start len = l ↔
    l.length = len ∧ ∀ i (hi : i < l.length), mem ((start + i) % size) = l[i] := by
  constructor
  · rintro rfl
    exact ⟨length_slice .., fun i hi => by simp [slice]⟩
  · rintro ⟨rfl, h⟩
    refine List.ext_getElem (length_slice ..) fun i _ hi => ?_
    simpa [slice] using h i hi

theorem index_ne {i j : ℕ} (hi : i < size) (hj : j < size) (hne : i ≠ j) :
    (start + i) % size ≠ (start + j) % size := by
  intro h
  have h' : i % size = j % size := Nat.ModEq.add_left_cancel' start h
  rw [Nat.mod_eq_of_lt hi, Nat.mod_eq_of_lt hj] at h'
  exact hne h'

/-- A slice that leaves a cell free does not see a write to the cell after it. -/
theorem slice_update {x : α} (h : len < size) :
    slice (Function.update mem ((start + len) % size) x) size start len
      = slice mem size start len :=
  slice_congr fun _ hi =>
    Function.update_of_ne (index_ne (hi.trans h) h (Nat.ne_of_lt hi)) _ _

theorem slice_push {x : α} (h : len < size) :
    slice (Function.update mem ((start + len) % size) x) size start (len + 1)
      = slice mem size start len ++ [x] := by
  rw [slice_concat, slice_update h, Function.update_self]

/-- The buffer with `l` written from `start` on. -/
def put (mem : ℕ → α) (size start : ℕ) : List α → ℕ → α
  | [] => mem
  | x :: l => put (Function.update mem (start % size) x) size (start + 1) l

theorem put_congr {l : List α} {a b : ℕ} (h : a % size = b % size) :
    put mem size a l = put mem size b l := by
  induction l generalizing mem a b with
  | nil => rfl
  | cons x l ih =>
    have hnext : (a + 1) % size = (b + 1) % size := Nat.ModEq.add_right 1 h
    rw [put, put, h, ih hnext]

theorem put_of_ne {l : List α} {i : ℕ} (h : ∀ j < l.length, i ≠ (start + j) % size) :
    put mem size start l i = mem i := by
  induction l generalizing mem start with
  | nil => rfl
  | cons x l ih =>
    have hne : i ≠ start % size := h 0 (Nat.succ_pos _)
    rw [put, ih fun j hj => ?_, Function.update_of_ne hne]
    rw [Nat.add_assoc, Nat.add_comm 1 j]
    exact h (j + 1) (Nat.succ_lt_succ hj)

/-- Writing behind a slice appends to it, as long as the buffer has a cell for everything. -/
theorem slice_put {l : List α} (h : len + l.length ≤ size) :
    slice (put mem size (start + len) l) size start (len + l.length)
      = slice mem size start len ++ l := by
  induction l generalizing mem len with
  | nil => simp [put]
  | cons x l ih =>
    rw [List.length_cons] at h ⊢
    rw [put, show start + len + 1 = start + (len + 1) by omega,
      show len + (l.length + 1) = len + 1 + l.length by omega, ih (by omega), slice_push (by omega),
      List.append_assoc, List.singleton_append]

end LoraGateway.Lib.Ring
