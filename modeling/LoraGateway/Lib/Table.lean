import Mathlib.Algebra.Order.Group.Multiset
import Mathlib.Data.List.Basic
import Mathlib.Tactic.Abel

/-!
# Tables

A table is a list whose entries are replaced one at a time. A scan of it remembers the last of the best entries among
those with a property, by its index, and how good it is (`Best`); as long as there is none its quality counts as 0.
The names of the entries in use stay distinct (`Distinct`), and what the entries hold adds up (`flatMap_set`).
-/

namespace LoraGateway.Lib

variable {α β : Type*} {key : α → ℕ} {P : α → Prop} {seen : List α} {best : Option ℕ} {quality : ℕ} {a : α}

/-! ## The best so far -/

structure Best (key : α → ℕ) (P : α → Prop) (seen : List α) (best : Option ℕ) (quality : ℕ) : Prop where
  missing : best = none → quality = 0 ∧ ∀ x ∈ seen, ¬ P x
  found : ∀ i ∈ best, ∃ x, seen[i]? = some x ∧ P x ∧ key x = quality ∧ ∀ y ∈ seen, P y → key y ≤ quality

theorem best_nil : Best key P [] none 0 := by
  constructor
  · intro _
    exact ⟨rfl, by simp⟩
  · intro i hi
    exact absurd hi (Option.not_mem_none i)

namespace Best

theorem getElem_concat {i : ℕ} {x : α} (hi : seen[i]? = some x) : (seen ++ [a])[i]? = some x := by
  rw [List.getElem?_append_left (List.getElem?_eq_some_iff.mp hi).1]
  exact hi

theorem skip (h : Best key P seen best quality) (ha : ¬ P a) : Best key P (seen ++ [a]) best quality := by
  constructor
  · intro hnone
    refine ⟨(h.missing hnone).1, fun x hx => ?_⟩
    rcases List.mem_append.mp hx with hx | hx
    · exact (h.missing hnone).2 x hx
    · rw [List.mem_singleton.mp hx]
      exact ha
  · intro i hi
    obtain ⟨x, hx, hpx, hkey, hbest⟩ := h.found i hi
    refine ⟨x, getElem_concat hx, hpx, hkey, fun y hy hpy => ?_⟩
    rcases List.mem_append.mp hy with hy | hy
    · exact hbest y hy hpy
    · rw [List.mem_singleton.mp hy] at hpy
      exact absurd hpy ha

theorem keep (h : Best key P seen best quality) (hless : key a < quality) : Best key P (seen ++ [a]) best quality := by
  constructor
  · intro hnone
    have hzero := (h.missing hnone).1
    omega
  · intro i hi
    obtain ⟨x, hx, hpx, hkey, hbest⟩ := h.found i hi
    refine ⟨x, getElem_concat hx, hpx, hkey, fun y hy hpy => ?_⟩
    rcases List.mem_append.mp hy with hy | hy
    · exact hbest y hy hpy
    · rw [List.mem_singleton.mp hy]
      omega

theorem take (h : Best key P seen best quality) (ha : P a) (hle : quality ≤ key a) :
    Best key P (seen ++ [a]) (some seen.length) (key a) := by
  constructor
  · intro hnone
    cases hnone
  · intro i hi
    obtain rfl := Option.some.inj hi
    refine ⟨a, ?_, ha, rfl, fun y hy hpy => ?_⟩
    · rw [List.getElem?_append_right (Nat.le_refl _), Nat.sub_self]
      simp
    · rcases List.mem_append.mp hy with hy | hy
      · cases best with
        | none => exact absurd hpy ((h.missing rfl).2 y hy)
        | some j =>
          obtain ⟨-, -, -, -, hbest⟩ := h.found j rfl
          exact (hbest y hy hpy).trans hle
      · rw [List.mem_singleton.mp hy]

end Best

/-! ## Entries that are replaced -/

variable {κ : Type*} {used : α → Prop} {name : α → κ} {l : List α} {i j : ℕ} {x y : α}

/-- No two entries in use have the same name. -/
def Distinct (used : α → Prop) (name : α → κ) (l : List α) : Prop :=
  ∀ (i j : ℕ) x y, l[i]? = some x → l[j]? = some y → used x → used y → name x = name y → i = j

/-- The entries other than `i` are not called `k`. -/
def Others (used : α → Prop) (name : α → κ) (l : List α) (i : ℕ) (k : κ) : Prop :=
  ∀ (j : ℕ) x, l[j]? = some x → j ≠ i → used x → name x ≠ k

theorem Distinct.others (h : Distinct used name l) (hi : l[i]? = some a) (ha : used a) :
    Others used name l i (name a) := by
  intro j x hx hji hused hname
  exact hji (h j i x a hx hi hused ha hname)

theorem getElem?_set_cases (h : (l.set i a)[j]? = some x) : i = j ∧ x = a ∨ i ≠ j ∧ l[j]? = some x := by
  by_cases hij : i = j
  · subst hij
    rw [List.getElem?_set_self'] at h
    obtain ⟨-, -, rfl⟩ := Option.map_eq_some_iff.mp h
    exact .inl ⟨rfl, rfl⟩
  · rw [List.getElem?_set_ne hij] at h
    exact .inr ⟨hij, h⟩

theorem Distinct.set (h : Distinct used name l) (ha : used a → Others used name l i (name a)) :
    Distinct used name (l.set i a) := by
  intro j k x y hx hy hux huy hname
  rcases getElem?_set_cases hx with ⟨rfl, rfl⟩ | ⟨hij, hx'⟩
  · rcases getElem?_set_cases hy with ⟨rfl, -⟩ | ⟨hik, hy'⟩
    · rfl
    · exact absurd hname.symm (ha hux k y hy' (Ne.symm hik) huy)
  · rcases getElem?_set_cases hy with ⟨rfl, rfl⟩ | ⟨-, hy'⟩
    · exact absurd hname (ha huy j x hx' (Ne.symm hij) hux)
    · exact h j k x y hx' hy' hux huy hname

theorem Distinct.map {f : α → α} (h : Distinct used name l)
    (hf : ∀ a, used (f a) → used a ∧ name (f a) = name a) : Distinct used name (l.map f) := by
  intro i j x y hx hy hux huy hname
  rw [List.getElem?_map] at hx hy
  obtain ⟨a, ha, rfl⟩ := Option.map_eq_some_iff.mp hx
  obtain ⟨b, hb, rfl⟩ := Option.map_eq_some_iff.mp hy
  obtain ⟨hua, hna⟩ := hf a hux
  obtain ⟨hub, hnb⟩ := hf b huy
  exact h i j a b ha hb hua hub (hna.symm.trans (hname.trans hnb))

theorem flatMap_set {f : α → List β} (h : l[i]? = some x) :
    ((l.set i a).flatMap f : Multiset β) + f x = l.flatMap f + f a := by
  induction l generalizing i with
  | nil => cases h
  | cons y l ih =>
    cases i with
    | zero =>
      obtain rfl : y = x := Option.some.inj h
      rw [List.set_cons_zero, List.flatMap_cons, List.flatMap_cons, ← Multiset.coe_add, ← Multiset.coe_add]
      abel
    | succ i =>
      rw [List.set_cons_succ, List.flatMap_cons, List.flatMap_cons, ← Multiset.coe_add, ← Multiset.coe_add,
        add_assoc, ih h, add_assoc]

end LoraGateway.Lib
