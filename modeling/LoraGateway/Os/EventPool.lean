import Mathlib.Data.List.Basic

/-!
# Event control blocks

`OSSemCreate` and `OSSemDel` of `os_sem.c` on the pool they take a block from and give it back to. A block
is its address. That the blocks on `OSEventFreeList` are different ones, and in no use, is part of the type.
Nobody waits for the semaphores that are deleted here.
-/

namespace LoraGateway.Os

/-- `OSEventFreeList`, and the count of each block that is a semaphore. -/
structure EventPool where
  free : List ℕ
  cnt : ℕ → Option ℕ
  intNesting : ℕ
  nodup : free.Nodup
  unused : ∀ a ∈ free, cnt a = none

namespace EventPool

/-- The first free block becomes a semaphore. -/
def take (p : EventPool) {a : ℕ} {rest : List ℕ} (h : p.free = a :: rest) (cnt : ℕ) : EventPool where
  free := rest
  cnt := Function.update p.cnt a (some cnt)
  intNesting := p.intNesting
  nodup := (List.nodup_cons.mp (h ▸ p.nodup)).2
  unused b hb := by
    have hne : b ≠ a := by
      rintro rfl
      exact (List.nodup_cons.mp (h ▸ p.nodup)).1 hb
    rw [Function.update_of_ne hne]
    exact p.unused b (h ▸ List.mem_cons_of_mem a hb)

/-- A semaphore becomes the first free block. -/
def give (p : EventPool) {a : ℕ} (h : p.cnt a ≠ none) : EventPool where
  free := a :: p.free
  cnt := Function.update p.cnt a none
  intNesting := p.intNesting
  nodup := List.nodup_cons.mpr ⟨fun hmem => h (p.unused a hmem), p.nodup⟩
  unused b hb := by
    rcases List.mem_cons.mp hb with rfl | hfree
    · exact Function.update_self ..
    · have hne : b ≠ a := by
        rintro rfl
        exact h (p.unused b hfree)
      rw [Function.update_of_ne hne]
      exact p.unused b hfree

/-- `OSSemCreate`: the block, or `NULL`. -/
def osSemCreate (p : EventPool) (cnt : ℕ) : Option ℕ × EventPool :=
  if 0 < p.intNesting then (none, p)
  else
    match h : p.free with
    | [] => (none, p)
    | a :: _ => (some a, p.take h cnt)

/-- What `OSSemDel` sets `*perr` to. -/
inductive DelErr
  | none
  | eventType
  | delIsr
  deriving DecidableEq, Repr

/-- `OSSemDel` with `OS_DEL_ALWAYS`. -/
def osSemDel (p : EventPool) (a : ℕ) : DelErr × EventPool :=
  if h : p.cnt a = none then (.eventType, p)
  else if 0 < p.intNesting then (.delIsr, p)
  else (.none, p.give h)

variable {p : EventPool} {a : ℕ}

theorem osSemCreate_cons {rest : List ℕ} (hint : p.intNesting = 0) (h : p.free = a :: rest) (cnt : ℕ) :
    osSemCreate p cnt = (some a, p.take h cnt) := by
  rw [osSemCreate, if_neg (by omega)]
  split
  · rename_i hnil
    rw [hnil] at h
    exact absurd h nofun
  · rename_i b rest' hcons
    obtain ⟨rfl, rfl⟩ := List.cons.inj (hcons.symm.trans h)
    rfl

theorem osSemCreate_none (h : 0 < p.intNesting ∨ p.free = []) (cnt : ℕ) : osSemCreate p cnt = (none, p) := by
  rw [osSemCreate]
  split_ifs with hint
  · rfl
  · have hnil := h.resolve_left hint
    split
    · rfl
    · rename_i hcons
      rw [hnil] at hcons
      exact absurd hcons nofun

theorem osSemDel_some (hint : p.intNesting = 0) (h : p.cnt a ≠ none) : osSemDel p a = (.none, p.give h) := by
  rw [osSemDel, dif_neg h, if_neg (by omega)]

end EventPool

end LoraGateway.Os
