import Mathlib.Algebra.BigOperators.Group.List.Basic
import Mathlib.Algebra.GroupWithZero.Nat
import Mathlib.Data.List.Chain
import Mathlib.Data.Nat.ModEq

/-!
# Spans

Pieces of something long, each with a start and a stop. `span_sum` is the length of pieces that follow each other
without a gap, where starts and stops may be kept modulo something. For pieces that are numbered there is no gap
exactly if no number between two of theirs is missing (`isChain_succ_iff`).
-/

namespace LoraGateway.Lib

variable {α : Type*} {start stop len : α → ℕ} {m : ℕ} {a : α} {l : List α}

theorem span_sum (hlen : ∀ x ∈ a :: l, start x + len x ≡ stop x [MOD m])
    (hchain : (a :: l).IsChain fun x y => stop x = start y) :
    start a + ((a :: l).map len).sum ≡ stop (l.getLast?.getD a) [MOD m] := by
  induction l generalizing a with
  | nil =>
    rw [List.map_singleton, List.sum_singleton]
    exact hlen a List.mem_cons_self
  | cons b l ih =>
    obtain ⟨hab, hchain⟩ := List.isChain_cons_cons.mp hchain
    have hrest := ih (fun x hx => hlen x (List.mem_cons_of_mem a hx)) hchain
    have hlast : (b :: l).getLast?.getD a = l.getLast?.getD b := by
      rw [List.getLast?_cons, Option.getD_some]
    rw [List.map_cons, List.sum_cons, ← Nat.add_assoc, hlast]
    refine ((hlen a List.mem_cons_self).add_right _).trans ?_
    rw [hab]
    exact hrest

theorem isChain_succ_iff {l : List ℕ} (hl : l.Pairwise (· < ·)) :
    l.IsChain (fun x y => x + 1 = y) ↔ ∀ x ∈ l, ∀ y ∈ l, ∀ z, x ≤ z → z ≤ y → z ∈ l := by
  induction l with
  | nil => simp
  | cons a l ih =>
    cases l with
    | nil =>
      refine iff_of_true (List.isChain_singleton a) fun x hx y hy z hxz hzy => ?_
      rw [List.mem_singleton] at hx hy ⊢
      omega
    | cons b l =>
      obtain ⟨ha, hl⟩ := List.pairwise_cons.mp hl
      have hb : ∀ x ∈ b :: l, b ≤ x := by
        intro x hx
        rcases List.mem_cons.mp hx with rfl | hx
        · exact Nat.le_refl x
        · exact Nat.le_of_lt (List.rel_of_pairwise_cons hl hx)
      have hab := ha b List.mem_cons_self
      rw [List.isChain_cons_cons, ih hl]
      constructor
      · rintro ⟨hsucc, hconvex⟩ x hx y hy z hxz hzy
        by_cases hz : z = a
        · rw [hz]
          exact List.mem_cons_self
        · apply List.mem_cons_of_mem
          have haz : a ≤ z := by
            rcases List.mem_cons.mp hx with rfl | hx
            · exact hxz
            · exact (Nat.le_of_lt (ha x hx)).trans hxz
          rcases List.mem_cons.mp hy with rfl | hy
          · omega
          · exact hconvex b List.mem_cons_self y hy z (by omega) hzy
      · intro hconvex
        constructor
        · have hmem := hconvex a List.mem_cons_self b (by simp) (a + 1) (by omega) (by omega)
          rcases List.mem_cons.mp hmem with heq | hmem
          · omega
          · have hle := hb (a + 1) hmem
            omega
        · intro x hx y hy z hxz hzy
          have hmem := hconvex x (List.mem_cons_of_mem a hx) y (List.mem_cons_of_mem a hy) z hxz hzy
          rcases List.mem_cons.mp hmem with rfl | hmem
          · have hlt := ha x hx
            omega
          · exact hmem

end LoraGateway.Lib
