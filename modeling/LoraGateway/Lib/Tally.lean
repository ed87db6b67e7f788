import Mathlib.Algebra.BigOperators.Fin
import Mathlib.Algebra.Order.BigOperators.Group.Finset

/-!
# Tallies over tasks

Sums over a finite set of tasks when one step changes the weight of one or two of them. Equations
are between sums, so that no subtraction occurs.
-/

namespace LoraGateway.Lib

variable {ι : Type*} [Fintype ι] [DecidableEq ι] {f g : ι → ℕ}

open scoped BigOperators

theorem tally_one (a : ι) (h : ∀ i, i ≠ a → g i = f i) :
    ∑ i, g i + f a = ∑ i, f i + g a := by
  rw [← Finset.add_sum_erase Finset.univ g (Finset.mem_univ a),
    ← Finset.add_sum_erase Finset.univ f (Finset.mem_univ a)]
  have : ∑ i ∈ Finset.univ.erase a, g i = ∑ i ∈ Finset.univ.erase a, f i :=
    Finset.sum_congr rfl fun i hi => h i (Finset.ne_of_mem_erase hi)
  omega

omit [DecidableEq ι] in
theorem tally_le (a : ι) : f a ≤ ∑ i, f i :=
  Finset.single_le_sum (fun _ _ => Nat.zero_le _) (Finset.mem_univ a)

theorem tally_pair_le {a b : ι} (hab : a ≠ b) : f a + f b ≤ ∑ i, f i := by
  rw [← Finset.add_sum_erase Finset.univ f (Finset.mem_univ a)]
  have : f b ≤ ∑ i ∈ Finset.univ.erase a, f i :=
    Finset.single_le_sum (fun _ _ => Nat.zero_le _)
      (Finset.mem_erase.mpr ⟨hab.symm, Finset.mem_univ b⟩)
  omega

end LoraGateway.Lib
