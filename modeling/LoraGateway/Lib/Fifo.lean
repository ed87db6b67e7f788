import LoraGateway.Lib.Machine

/-!
# Bounded queues

`fifo cap` is the queue of at most `cap` entries as a machine: `enq` is enabled while there is room,
and `deq a` when `a` is the oldest entry. What a component that refines it can be said to keep is
`fifo_balance`: whatever is put in comes out in the same order, or is still there.
-/

namespace LoraGateway.Lib

variable {α : Type*} [DecidableEq α]

inductive FifoAct (α : Type*)
  | enq (a : α)
  | deq (a : α)

/-- The entry an action puts in. -/
def FifoAct.enq? : FifoAct α → Option α
  | .enq a => some a
  | .deq _ => none

/-- The entry an action takes out. -/
def FifoAct.deq? : FifoAct α → Option α
  | .enq _ => none
  | .deq a => some a

def fifoStep (cap : ℕ) (q : List α) : FifoAct α → Option (List α)
  | .enq a => if q.length < cap then some (q ++ [a]) else none
  | .deq a => if q.head? = some a then some q.tail else none

/-- A queue of at most `cap` entries, empty at the start. -/
def fifo (cap : ℕ) : Machine (List α) (FifoAct α) where
  init q := q = []
  step := fifoStep cap

variable {cap : ℕ} {q q' : List α}

theorem fifoStep_enq {a : α} (h : (q ++ [a]).length ≤ cap) :
    fifoStep cap q (.enq a) = some (q ++ [a]) := by
  rw [List.length_append] at h
  exact if_pos h

theorem fifoStep_deq {a : α} : fifoStep cap (a :: q) (.deq a) = some q := if_pos rfl

/-- What was there and what was put in is what was taken out and what is there, in order. -/
theorem fifo_balance {l : List (FifoAct α)} (h : (fifo cap).Steps Machine.any q l q') :
    q ++ l.filterMap FifoAct.enq? = l.filterMap FifoAct.deq? ++ q' := by
  induction h with
  | nil => simp
  | cons _ hstep _ ih =>
    rename_i a _ _ _
    cases a with
    | enq a =>
      simp only [fifo, fifoStep, Option.ite_none_right_eq_some, Option.some.injEq] at hstep
      rw [← hstep.2] at ih
      simpa [List.filterMap_cons, FifoAct.enq?, FifoAct.deq?] using ih
    | deq a =>
      simp only [fifo, fifoStep, Option.ite_none_right_eq_some, Option.some.injEq] at hstep
      rw [← hstep.2] at ih
      rw [← List.cons_head?_tail hstep.1]
      simpa [List.filterMap_cons, FifoAct.enq?, FifoAct.deq?] using ih

/-- From an empty queue, what was taken out is a prefix of what was put in. -/
theorem fifo_prefix {l : List (FifoAct α)} (h : (fifo cap).Steps Machine.any [] l q') :
    l.filterMap FifoAct.deq? <+: l.filterMap FifoAct.enq? :=
  ⟨q', (fifo_balance h).symm⟩

end LoraGateway.Lib
