import Mathlib.Computability.StateTransition

/-!
# Loops as state transitions

A loop is a function from its state to the next one, or to none at its end. `eval` and `Reaches` are Mathlib's;
the rules are the ones of a loop in a program: what an iteration keeps holds to the end
(`reaches_invariant`), with a bound that sinks the end is reached (`eval_of_measure`), and a loop that always has a
next state never ends (`not_dom_of_progress`).
-/

namespace LoraGateway.Lib.Loop

open StateTransition

variable {σ : Type*} {f : σ → Option σ} {p : σ → Prop} {a b c : σ}

theorem reaches_refl (f : σ → Option σ) (a : σ) : Reaches f a a := Relation.ReflTransGen.refl

theorem Reaches.trans (h : Reaches f a b) (h' : Reaches f b c) : Reaches f a c :=
  Relation.ReflTransGen.trans h h'

theorem reaches_head (hstep : f a = some b) (h : Reaches f b c) : Reaches f a c :=
  Relation.ReflTransGen.head hstep h

theorem reaches_one (hstep : f a = some b) : Reaches f a b := reaches_head hstep (reaches_refl f b)

/-- What every iteration keeps holds in every state reached. -/
theorem reaches_invariant (hinv : ∀ a b, p a → f a = some b → p b) (h : Reaches f a b) (ha : p a) :
    p b := by
  induction h with
  | refl => exact ha
  | tail _ hstep ih => exact hinv _ _ ih hstep

/-- A loop comes to its end if a bound on the iterations left sinks in each of them. -/
theorem eval_of_measure (bound : σ → ℕ) (hinv : ∀ a b, p a → f a = some b → p b)
    (hsinks : ∀ a b, p a → f a = some b → bound b < bound a) (ha : p a) :
    ∃ b ∈ eval f a, p b := by
  induction hn : bound a using Nat.strong_induction_on generalizing a with
  | _ n ih =>
    cases hstep : f a with
    | none => exact ⟨a, mem_eval.mpr ⟨reaches_refl f a, hstep⟩, ha⟩
    | some a' =>
      obtain ⟨b, hb, hpb⟩ := ih (bound a') (hn ▸ hsinks a a' ha hstep) (hinv a a' ha hstep) rfl
      rw [← reaches_eval (reaches_one hstep)] at hb
      exact ⟨b, hb, hpb⟩

theorem not_dom_of_progress (hprogress : ∀ a, p a → ∃ b, f a = some b ∧ p b) (ha : p a) :
    ¬ (eval f a).Dom := by
  intro hdom
  obtain ⟨hreach, hend⟩ := mem_eval.mp (Part.get_mem hdom)
  have hlast : p ((eval f a).get hdom) := by
    refine reaches_invariant (fun x y hx hstep => ?_) hreach ha
    obtain ⟨y', hstep', hy'⟩ := hprogress x hx
    rw [hstep] at hstep'
    exact Option.some.inj hstep' ▸ hy'
  obtain ⟨b, hstep, -⟩ := hprogress _ hlast
  rw [hend] at hstep
  cases hstep

end LoraGateway.Lib.Loop
