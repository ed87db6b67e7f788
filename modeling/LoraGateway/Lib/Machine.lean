import Mathlib.Algebra.GroupWithZero.Nat
import Mathlib.Data.List.Basic

/-!
# Machines and their runs

A machine is a set of initial states and a partial step function. A run is a list of actions; `ok`
restricts the runs looked at to those whose every action is allowed in the state it is taken in
(`fun _ _ => True` for all of them). `Reach.invariant` is the induction every safety result of the
development goes through; `Reach.invariant_of` is the same with a known invariant at hand.

A machine refines another when some of its steps, those with a label, are steps of the other and the
rest are not visible there. `Sim.run` lifts that from steps to runs.
-/

namespace LoraGateway.Lib

/-- Initial states and a step function; `none` is an action that is not enabled. -/
structure Machine (σ α : Type*) where
  init : σ → Prop
  step : σ → α → Option σ

namespace Machine

variable {σ α : Type*} (M : Machine σ α)

/-- Every action is allowed. -/
def any : σ → α → Prop := fun _ _ => True

/-- `M.Steps ok s l s'`: the allowed actions `l` lead from `s` to `s'`. -/
inductive Steps (ok : σ → α → Prop) : σ → List α → σ → Prop
  | nil (s : σ) : Steps ok s [] s
  | cons {s s' s'' : σ} {a : α} {l : List α} :
      ok s a → M.step s a = some s' → Steps ok s' l s'' → Steps ok s (a :: l) s''

/-- The states that allowed actions reach from an initial state. -/
inductive Reach (ok : σ → α → Prop) : σ → Prop
  | init {s : σ} : M.init s → Reach ok s
  | step {s s' : σ} {a : α} : Reach ok s → ok s a → M.step s a = some s' → Reach ok s'

variable {M} {ok ok' : σ → α → Prop}

theorem Steps.append {s s' s'' : σ} {l l' : List α} (h : M.Steps ok s l s')
    (h' : M.Steps ok s' l' s'') : M.Steps ok s (l ++ l') s'' := by
  induction h with
  | nil => exact h'
  | cons hok hstep _ ih => exact .cons hok hstep (ih h')

theorem Reach.steps {s s' : σ} {l : List α} (hs : M.Reach ok s) (h : M.Steps ok s l s') :
    M.Reach ok s' := by
  induction h with
  | nil => exact hs
  | cons hok hstep _ ih => exact ih (.step hs hok hstep)

theorem Reach.mono (hle : ∀ s a, ok s a → ok' s a) {s : σ} (hs : M.Reach ok s) :
    M.Reach ok' s := by
  induction hs with
  | init h => exact .init h
  | step _ hok hstep ih => exact .step ih (hle _ _ hok) hstep

/-- A property of every initial state that every allowed step keeps holds in every state reached. -/
theorem Reach.invariant {I : σ → Prop} (hinit : ∀ s, M.init s → I s)
    (hstep : ∀ s a s', I s → ok s a → M.step s a = some s' → I s') {s : σ}
    (hs : M.Reach ok s) : I s := by
  induction hs with
  | init h => exact hinit _ h
  | step _ hok h ih => exact hstep _ _ _ ih hok h

/-- The same, where the step may use an invariant `J` known already. -/
theorem Reach.invariant_of {I J : σ → Prop} (hJ : ∀ s, M.Reach ok s → J s)
    (hinit : ∀ s, M.init s → I s)
    (hstep : ∀ s a s', J s → I s → ok s a → M.step s a = some s' → I s') {s : σ}
    (hs : M.Reach ok s) : I s := by
  induction hs with
  | init h => exact hinit _ h
  | step hr hok h ih => exact hstep _ _ _ (hJ _ hr) ih hok h

/-! ## Running a list of actions -/

variable (M) in
/-- The state after the actions of the list. -/
def run : σ → List α → Option σ
  | s, [] => some s
  | s, a :: l => (M.step s a).bind fun s' => run s' l

theorem Steps.of_run {s s' : σ} {l : List α} (hl : ∀ a ∈ l, ∀ s, ok s a) (h : M.run s l = some s') :
    M.Steps ok s l s' := by
  induction l generalizing s with
  | nil => exact Option.some.inj h ▸ .nil s
  | cons a l ih =>
    obtain ⟨s₁, hstep, hrun⟩ := Option.bind_eq_some_iff.mp h
    exact .cons (hl a List.mem_cons_self s) hstep (ih (fun b hb => hl b (List.mem_cons_of_mem _ hb)) hrun)

theorem steps_of_run {s s' : σ} {l : List α} (h : M.run s l = some s') : M.Steps any s l s' :=
  .of_run (fun _ _ _ => trivial) h

variable (M) in
/-- The same, where the actions have to be allowed. -/
def runOk (ok : σ → α → Prop) [∀ s a, Decidable (ok s a)] : σ → List α → Option σ
  | s, [] => some s
  | s, a :: l => if ok s a then (M.step s a).bind fun s' => runOk ok s' l else none

theorem Steps.of_runOk [∀ s a, Decidable (ok s a)] {s s' : σ} {l : List α}
    (h : M.runOk ok s l = some s') : M.Steps ok s l s' := by
  induction l generalizing s with
  | nil => exact Option.some.inj h ▸ .nil s
  | cons a l ih =>
    rw [runOk] at h
    split at h
    · rename_i hok
      obtain ⟨s₁, hstep, hrun⟩ := Option.bind_eq_some_iff.mp h
      exact .cons hok hstep (ih hrun)
    · exact absurd h nofun

theorem run_append {s : σ} {l l' : List α} :
    M.run s (l ++ l') = (M.run s l).bind fun s' => M.run s' l' := by
  induction l generalizing s with
  | nil => rfl
  | cons a l ih => simp only [List.cons_append, run, ih, Option.bind_assoc]

theorem Steps.mono (hle : ∀ s a, ok s a → ok' s a) {s s' : σ} {l : List α}
    (h : M.Steps ok s l s') : M.Steps ok' s l s' := by
  induction h with
  | nil => exact .nil _
  | cons hok hstep _ ih => exact .cons (hle _ _ hok) hstep ih

theorem Steps.mono_of {J : σ → Prop} (hle : ∀ s a, J s → ok s a → ok' s a)
    (hstep : ∀ s a s', J s → ok s a → M.step s a = some s' → J s') {s s' : σ} {l : List α}
    (h : M.Steps ok s l s') (hs : J s) : M.Steps ok' s l s' := by
  induction h with
  | nil => exact .nil _
  | cons hok h _ ih => exact .cons (hle _ _ hs hok) h (ih (hstep _ _ _ hs hok h))

theorem Steps.invariant {I : σ → Prop}
    (hstep : ∀ s a s', I s → ok s a → M.step s a = some s' → I s') {s s' : σ} {l : List α}
    (h : M.Steps ok s l s') (hs : I s) : I s' := by
  induction h with
  | nil => exact hs
  | cons hok h _ ih => exact ih (hstep _ _ _ hs hok h)

variable (M) in
/-- `P` holds in every state of the run, the first and the last included. -/
def Always (P : σ → Prop) : σ → List α → Prop
  | s, [] => P s
  | s, a :: l => P s ∧ ∀ s', M.step s a = some s' → Always P s' l

theorem Always.now {P : σ → Prop} {s : σ} {l : List α} (h : M.Always P s l) : P s := by
  cases l with
  | nil => exact h
  | cons a l => exact h.1

theorem Always.cons {P : σ → Prop} {s s' : σ} {a : α} {l : List α} (hs : P s) (hstep : M.step s a = some s')
    (h : M.Always P s' l) : M.Always P s (a :: l) := by
  refine ⟨hs, fun s₁ h₁ => ?_⟩
  obtain rfl := Option.some.inj (hstep.symm.trans h₁)
  exact h

instance Always.decidable {P : σ → Prop} [DecidablePred P] (s : σ) : (l : List α) → Decidable (M.Always P s l)
  | [] => inferInstanceAs (Decidable (P s))
  | a :: l =>
    match hstep : M.step s a with
    | none => decidable_of_iff (P s) ⟨fun hs => ⟨hs, fun s' h' => (Option.some_ne_none s' (h'.symm.trans hstep)).elim⟩, And.left⟩
    | some s' =>
      have : Decidable (M.Always P s' l) := Always.decidable s' l
      decidable_of_iff (P s ∧ M.Always P s' l)
        ⟨fun h => ⟨h.1, fun _ h₁ => Option.some.inj (hstep.symm.trans h₁) ▸ h.2⟩, fun h => ⟨h.1, h.2 s' hstep⟩⟩

/-- Two properties that agree wherever `J` holds, and the first of which carries `J` over a step,
hold throughout the same runs. -/
theorem always_iff {P Q J : σ → Prop} (hiff : ∀ s, J s → (P s ↔ Q s))
    (hstep : ∀ s a s', J s → P s → M.step s a = some s' → J s') {s : σ} (hs : J s) (l : List α) :
    M.Always P s l ↔ M.Always Q s l := by
  induction l generalizing s with
  | nil => exact hiff s hs
  | cons a l ih =>
    constructor
    · rintro ⟨hp, hl⟩
      exact ⟨(hiff s hs).mp hp, fun s' h => (ih (hstep s a s' hs hp h)).mp (hl s' h)⟩
    · rintro ⟨hq, hl⟩
      have hp := (hiff s hs).mpr hq
      exact ⟨hp, fun s' h => (ih (hstep s a s' hs hp h)).mpr (hl s' h)⟩

/-- If `J` carries `P`, allowed steps keep `J` and a step that is not allowed breaks `P`, then the runs in
which `P` always holds are the runs of allowed steps. -/
theorem always_iff_steps {P J : σ → Prop} (hJ : ∀ s, J s → P s)
    (hkeep : ∀ s a s', J s → ok s a → M.step s a = some s' → J s')
    (hbreak : ∀ s a s', J s → ¬ ok s a → M.step s a = some s' → ¬ P s') {s s' : σ} {l : List α}
    (h : M.Steps any s l s') (hs : J s) : M.Always P s l ↔ M.Steps ok s l s' := by
  induction h with
  | nil s => exact ⟨fun _ => .nil s, fun _ => hJ s hs⟩
  | cons _ hstep _ ih =>
    rename_i s s₁ _ a l _ _
    by_cases hok : ok s a
    · have hs₁ : J s₁ := hkeep s a s₁ hs hok hstep
      constructor
      · rintro ⟨-, hl⟩
        exact .cons hok hstep ((ih hs₁).mp (hl s₁ hstep))
      · rintro (_ | ⟨_, hstep', hl⟩)
        refine ⟨hJ s hs, fun s₂ h₂ => ?_⟩
        obtain rfl := Option.some.inj (hstep.symm.trans h₂)
        obtain rfl := Option.some.inj (hstep.symm.trans hstep')
        exact (ih hs₁).mpr hl
    · constructor
      · rintro ⟨-, hl⟩
        exact absurd (hl s₁ hstep).now (hbreak s a s₁ hs hok hstep)
      · rintro (_ | ⟨hok', _, _⟩)
        exact absurd hok' hok

/-- The same, where `P` is an invariant by itself. -/
theorem always_iff_steps_self {P : σ → Prop} (hiff : ∀ s a s', P s → M.step s a = some s' → (P s' ↔ ok s a))
    {s s' : σ} {l : List α} (h : M.Steps any s l s') (hs : P s) : M.Always P s l ↔ M.Steps ok s l s' :=
  always_iff_steps (fun _ h => h) (fun s a s' hp hok hstep => (hiff s a s' hp hstep).mpr hok)
    (fun s a s' hp hno hstep hp' => hno ((hiff s a s' hp hstep).mp hp')) h hs

/-! ## Simulation -/

variable {τ β : Type*}

variable (M) in
/-- The labels of the actions of a run. -/
def trace (label : σ → α → Option β) : σ → List α → List β
  | _, [] => []
  | s, a :: l =>
    match M.step s a with
    | none => []
    | some s' => (label s a).toList ++ trace label s' l

/-- Labelled steps of `M` are steps of `N`, and the others leave the related state as it is. -/
structure Sim (M : Machine σ α) (N : Machine τ β) (label : σ → α → Option β) (R : σ → τ → Prop) :
    Prop where
  init : ∀ s, M.init s → ∃ t, N.init t ∧ R s t
  silent : ∀ s a s' t, R s t → M.step s a = some s' → label s a = none → R s' t
  visible : ∀ s a s' t b, R s t → M.step s a = some s' → label s a = some b →
    ∃ t', N.step t b = some t' ∧ R s' t'

theorem Sim.run {N : Machine τ β} {label : σ → α → Option β} {R : σ → τ → Prop}
    (hsim : M.Sim N label R) {s s' : σ} {l : List α} (h : M.Steps ok s l s') {t : τ} (hst : R s t) :
    ∃ t', N.Steps any t (M.trace label s l) t' ∧ R s' t' := by
  induction h generalizing t with
  | nil => exact ⟨t, .nil t, hst⟩
  | cons _ hstep _ ih =>
    rename_i s s₁ _ a l _ _
    simp only [trace, hstep]
    cases hlabel : label s a with
    | none => exact ih (hsim.silent s a s₁ t hst hstep hlabel)
    | some b =>
      obtain ⟨t₁, ht₁, hrel⟩ := hsim.visible s a s₁ t b hst hstep hlabel
      obtain ⟨t', hsteps, hrel'⟩ := ih hrel
      exact ⟨t', .cons trivial ht₁ hsteps, hrel'⟩

end Machine

/-- The parties of a machine with two are numbered 0 and 1. -/
instance neZero_two : NeZero 2 := ⟨Nat.succ_ne_zero 1⟩

end LoraGateway.Lib
