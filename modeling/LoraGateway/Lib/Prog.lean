import Mathlib.Data.List.Basic

/-!
# Programs that keep a state

A program reads and changes a state and returns a value, or stops short of that in the state it got
to: this is where a loop that polls stands when it is not looked at any further (`pollUntil`).
`Triple P m Q R` says that `m`, run from a state in `P`, ends in `Q` if it returns and in `R` if it
stops short, so an invariant put in all three places holds however far the program got.

The rules are the usual ones: `Triple.bind` for a sequence, `Triple.forM` and `Triple.pollUntil` for
loops, and `Triple.act` for a basic step, whose premise is about states only. `Respects` has the same
rules for a part of the state that a program does not look at.
-/

namespace LoraGateway.Lib

/-- A program on `σ` that returns an `α`, if it returns. -/
abbrev Prog (σ α : Type) := OptionT (StateM σ) α

namespace Prog

variable {σ α β : Type}

/-- What the program returns from `s`, and the state it leaves. -/
def exec (m : Prog σ α) (s : σ) : Option α × σ := (OptionT.run m).run s

/-- A basic step. -/
def act (f : σ → α × σ) : Prog σ α := OptionT.mk fun s => (some (f s).1, (f s).2)

/-- A step that only changes the state. -/
def update (f : σ → σ) : Prog σ Unit := act fun s => ((), f s)

/-- A step that only looks at the state. -/
def look (f : σ → α) : Prog σ α := act fun s => (f s, s)

/-- `while(!m);`, looked at for `fuel` rounds. -/
def pollUntil (m : Prog σ Bool) : ℕ → Prog σ Unit
  | 0 => failure
  | fuel + 1 => do if ← m then pure () else pollUntil m fuel

@[simp] theorem exec_pure (a : α) (s : σ) : (pure a : Prog σ α).exec s = (some a, s) := rfl

@[simp] theorem exec_act (f : σ → α × σ) (s : σ) : (act f).exec s = (some (f s).1, (f s).2) := rfl

@[simp] theorem exec_update (f : σ → σ) (s : σ) : (update f).exec s = (some (), f s) := rfl

theorem exec_bind (m : Prog σ α) (f : α → Prog σ β) (s : σ) :
    (m >>= f).exec s = match m.exec s with
      | (some a, s') => (f a).exec s'
      | (none, s') => (none, s') := by
  simp only [exec, OptionT.run_bind, Option.elimM, StateT.run_bind]
  rcases h : m.exec s with ⟨_ | a, s'⟩ <;> rw [exec] at h <;> rw [h] <;> rfl

theorem exec_bind_some {m : Prog σ α} {f : α → Prog σ β} {s s' : σ} {a : α}
    (h : m.exec s = (some a, s')) : (m >>= f).exec s = (f a).exec s' := by
  rw [exec_bind, h]

/-! ## Triples -/

/-- From `P`, a run that returns does so in `Q` and one that stops short does so in `R`. -/
def Triple (P : σ → Prop) (m : Prog σ α) (Q : α → σ → Prop) (R : σ → Prop) : Prop :=
  ∀ s, P s → match m.exec s with
    | (some a, s') => Q a s'
    | (none, s') => R s'

variable {P P' R R' I : σ → Prop} {Q Q' : α → σ → Prop} {T : β → σ → Prop} {m : Prog σ α}
  {f : α → Prog σ β}

namespace Triple

theorem returned (h : Triple P m Q R) {s s' : σ} {a : α} (hs : P s)
    (hm : m.exec s = (some a, s')) : Q a s' := by
  have := h s hs
  rwa [hm] at this

theorem stopped (h : Triple P m Q R) {s s' : σ} (hs : P s) (hm : m.exec s = (none, s')) :
    R s' := by
  have := h s hs
  rwa [hm] at this

theorem total (h : Triple P m Q fun _ => False) {s : σ} (hs : P s) :
    ∃ a s', m.exec s = (some a, s') ∧ Q a s' := by
  have := h s hs
  split at this
  · rename_i a s' heq
    exact ⟨a, s', heq, this⟩
  · exact this.elim

theorem conseq (h : Triple P m Q R) (hP : ∀ s, P' s → P s) (hQ : ∀ a s, Q a s → Q' a s)
    (hR : ∀ s, R s → R' s) : Triple P' m Q' R' := by
  intro s hs
  have := h s (hP s hs)
  split at this
  · exact hQ _ _ this
  · exact hR _ this

theorem pre (h : Triple P m Q R) (hP : ∀ s, P' s → P s) : Triple P' m Q R :=
  h.conseq hP (fun _ _ h => h) fun _ h => h

theorem post (h : Triple P m Q R) (hQ : ∀ a s, Q a s → Q' a s) : Triple P m Q' R :=
  h.conseq (fun _ h => h) hQ fun _ h => h

theorem pure {a : α} (h : ∀ s, P s → Q a s) : Triple P (Pure.pure a) Q R := h

theorem act {g : σ → α × σ} (h : ∀ s, P s → Q (g s).1 (g s).2) : Triple P (Prog.act g) Q R := h

theorem update {g : σ → σ} {Q : Unit → σ → Prop} (h : ∀ s, P s → Q () (g s)) :
    Triple P (Prog.update g) Q R := h

theorem look {g : σ → α} (h : ∀ s, P s → Q (g s) s) : Triple P (Prog.look g) Q R := h

theorem bind (hm : Triple P m Q R) (hf : ∀ a, Triple (Q a) (f a) T R) :
    Triple P (m >>= f) T R := by
  intro s hs
  have := hm s hs
  rw [exec_bind]
  split at this
  · exact hf _ _ this
  · exact this

theorem and (h : Triple P m Q R) (h' : Triple P' m Q' R) :
    Triple (fun s => P s ∧ P' s) m (fun a s => Q a s ∧ Q' a s) R := by
  intro s hs
  have h₁ := h s hs.1
  have h₂ := h' s hs.2
  split at h₁
  · rename_i heq
    rw [heq] at h₂
    exact ⟨h₁, h₂⟩
  · exact h₁

theorem assume {p : Prop} (h : p → Triple P m Q R) : Triple (fun s => p ∧ P s) m Q R :=
  fun s hs => h hs.1 s hs.2

theorem exists_pre {γ : Type} {P : γ → σ → Prop} (h : ∀ x, Triple (P x) m Q R) :
    Triple (fun s => ∃ x, P x s) m Q R := by
  rintro s ⟨x, hx⟩
  exact h x s hx

theorem forM {γ : Type} {l : List γ} {g : γ → Prog σ Unit}
    (h : ∀ x ∈ l, Triple I (g x) (fun _ => I) R) : Triple I (l.forM g) (fun _ => I) R := by
  induction l with
  | nil => exact pure fun _ hs => hs
  | cons x l ih =>
    show Triple I (g x >>= fun _ => l.forM g) (fun _ => I) R
    exact (h x List.mem_cons_self).bind fun _ => ih fun y hy => h y (List.mem_cons_of_mem _ hy)

theorem foldM {γ δ : Type} {l : List γ} {g : γ → Prog σ Unit} {next : δ → γ → δ}
    {J : δ → σ → Prop} (h : ∀ x ∈ l, ∀ d, Triple (J d) (g x) (fun _ => J (next d x)) R) (d : δ) :
    Triple (J d) (l.forM g) (fun _ => J (l.foldl next d)) R := by
  induction l generalizing d with
  | nil => exact pure fun _ hs => hs
  | cons x l ih =>
    show Triple (J d) (g x >>= fun _ => l.forM g) (fun _ => J (l.foldl next (next d x))) R
    exact (h x List.mem_cons_self d).bind fun _ =>
      ih (fun y hy => h y (List.mem_cons_of_mem _ hy)) (next d x)

/-- A polling loop keeps the invariant of its rounds and ends with what the last of them found. -/
theorem pollUntil {g : Prog σ Bool} {Q : Unit → σ → Prop}
    (h : Triple I g (fun x s => if x then Q () s else I s) R) (hR : ∀ s, I s → R s) (fuel : ℕ) :
    Triple I (Prog.pollUntil g fuel) Q R := by
  induction fuel with
  | zero => exact fun s hs => hR s hs
  | succ fuel ih =>
    refine h.bind fun x => ?_
    cases x with
    | true => exact pure fun _ hs => hs
    | false => exact ih

end Triple

/-! ## States that a program does not tell apart -/

/-- From states that are alike, the program returns the same and leaves states that are alike. -/
def Respects (r : σ → σ → Prop) (m : Prog σ α) : Prop :=
  ∀ s s', r s s' → (m.exec s).1 = (m.exec s').1 ∧ r (m.exec s).2 (m.exec s').2

namespace Respects

variable {r : σ → σ → Prop}

theorem pure (a : α) : Respects r (Pure.pure a : Prog σ α) := fun _ _ h => ⟨rfl, h⟩

theorem act {g : σ → α × σ} (h : ∀ s s', r s s' → (g s).1 = (g s').1 ∧ r (g s).2 (g s').2) :
    Respects r (Prog.act g) := by
  intro s s' hs
  obtain ⟨hval, hstate⟩ := h s s' hs
  exact ⟨congrArg some hval, hstate⟩

theorem update {g : σ → σ} (h : ∀ s s', r s s' → r (g s) (g s')) : Respects r (Prog.update g) :=
  act fun s s' hs => ⟨rfl, h s s' hs⟩

theorem look {g : σ → α} (h : ∀ s s', r s s' → g s = g s') : Respects r (Prog.look g) :=
  act fun s s' hs => ⟨h s s' hs, hs⟩

theorem bind (hm : Respects r m) (hf : ∀ a, Respects r (f a)) : Respects r (m >>= f) := by
  intro s s' hs
  have hfirst := hm s s' hs
  rw [exec_bind, exec_bind]
  rcases hrun : m.exec s with ⟨_ | a, t⟩ <;> rcases hrun' : m.exec s' with ⟨_ | a', t'⟩ <;>
    rw [hrun, hrun'] at hfirst
  · exact ⟨rfl, hfirst.2⟩
  · exact absurd hfirst.1 (by simp)
  · exact absurd hfirst.1 (by simp)
  · obtain rfl := Option.some.inj hfirst.1
    exact hf a t t' hfirst.2

theorem forM {γ : Type} {l : List γ} {g : γ → Prog σ Unit} (h : ∀ x ∈ l, Respects r (g x)) :
    Respects r (l.forM g) := by
  induction l with
  | nil => exact pure ()
  | cons x l ih =>
    show Respects r (g x >>= fun _ => l.forM g)
    apply (h x List.mem_cons_self).bind
    intro _
    exact ih fun y hy => h y (List.mem_cons_of_mem _ hy)

theorem pollUntil {g : Prog σ Bool} (h : Respects r g) (fuel : ℕ) :
    Respects r (Prog.pollUntil g fuel) := by
  induction fuel with
  | zero => exact fun _ _ hs => ⟨rfl, hs⟩
  | succ fuel ih =>
    apply h.bind
    intro x
    cases x with
    | true => exact pure ()
    | false => exact ih

/-- What a program returns from one of two states that are alike, it returns from the other. -/
theorem exec (h : Respects r m) {s s' t : σ} {a : α} (hs : r s s') (hm : m.exec s = (some a, t)) :
    ∃ t', m.exec s' = (some a, t') ∧ r t t' := by
  obtain ⟨hval, hstate⟩ := h s s' hs
  rw [hm] at hval hstate
  exact ⟨(m.exec s').2, Prod.ext hval.symm rfl, hstate⟩

end Respects

end Prog

end LoraGateway.Lib
