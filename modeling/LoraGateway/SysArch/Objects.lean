import Mathlib.Data.List.Perm.Basic
import LoraGateway.Lib.Machine
import LoraGateway.Lib.Prog
import LoraGateway.Os.EventPool
import LoraGateway.SysArch.Mbox

/-!
# Making and deleting mailboxes and semaphores

`sys_sem_new`, `sys_sem_free`, `sys_mbox_new` and `sys_mbox_free` of `sys_arch.c`, and the semaphore of
`sys_msleep`, on the kernel's pool of event control blocks. A failed assertion prints and spins: the program
stops short there. The assertion behind `OSSemCreate` comes before the test for `NULL`, so without a block
the call does not return, and with one it keeps that block (`mbox_creation_iff`).

Proof: the free blocks and those that somebody has a handle for are all the blocks that there were, each once
(`Ledger`). A call with enough blocks moves them between the two (`kept_step`), and any other hangs (`hung_step`).
-/

namespace LoraGateway.SysArch.Objects

open Os Lib Lib.Prog

/-- `sys_sem_t`: a pointer to an event control block. -/
abbrev SysSem := Option ℕ

/-- `sys_mbox_t`, with its semaphores. -/
structure SysMbox extends LwipMbox where
  sem : SysSem
  mutex : SysSem

/-- `sys_mbox_valid`, of a pointer that is not `NULL`. -/
def sysMboxValid (mbox : SysMbox) : Bool := mbox.sem.isSome

inductive ErrT
  | ok
  | mem
  deriving DecidableEq, Repr

/-! ## The functions -/

abbrev OsCall := Prog EventPool

/-- `LWIP_ASSERT`. -/
def lwipAssert (_message : String) (expression : Bool) : OsCall Unit := if expression then pure () else failure

/-- `sys_sem_new`: its value, and `*sem`. -/
def sysSemNew (count : ℕ) : OsCall (ErrT × SysSem) := do
  let newSem ← Prog.act fun p => p.osSemCreate count
  lwipAssert "[Sys_arch]Error creating sem" newSem.isSome
  if newSem.isSome then pure (.ok, newSem) else pure (.mem, none)

/-- `sys_sem_free`: `*sem` afterwards. A failure of `OSSemDel` is printed. -/
def sysSemFree (sem : SysSem) : OsCall SysSem := do
  Prog.update fun p => sem.elim p fun a => (p.osSemDel a).2
  pure none

/-- `sys_mutex_new` is `sys_sem_new` with a count of 1. -/
def sysMutexNew : OsCall (ErrT × SysSem) := sysSemNew 1

/-- `sys_mbox_new`: its value, and `*mbox`. -/
def sysMboxNew (mbox : SysMbox) : OsCall (ErrT × SysMbox) := do
  let (err, sem) ← sysSemNew 0
  let mbox := { mbox with sem := sem }
  if err ≠ .ok then pure (.mem, mbox)
  else
    lwipAssert "Error creating semaphore" (err = .ok)
    let (err, mutex) ← sysMutexNew
    let mbox := { mbox with mutex := mutex }
    if err ≠ .ok then
      let sem ← sysSemFree mbox.sem
      pure (.mem, { mbox with sem := sem })
    else
      lwipAssert "Error creating mutex" (err = .ok)
      pure (.ok, { mbox with qMem := fun _ => 0, head := 0, tail := 0, msgNum := 0 })

/-- `sys_mbox_free`: `*mbox` afterwards. -/
def sysMboxFree (mbox : SysMbox) : OsCall SysMbox := do
  let sem ← sysSemFree mbox.sem
  let mutex ← sysSemFree mbox.mutex
  pure { mbox with sem := sem, mutex := mutex }

/-- `sys_msleep` up to its wait: the semaphore that is waited for, if any. -/
def sysMsleep (ms : ℕ) : OsCall (Option SysSem) :=
  if ms > 0 then do
    let (err, delaysem) ← sysSemNew 0
    if err = .ok then pure (some delaysem) else pure none
  else pure none

/-! ## One call -/

variable {p : EventPool} {a b : ℕ} {rest : List ℕ}

theorem sysSemNew_cons (hint : p.intNesting = 0) (h : p.free = a :: rest) (count : ℕ) :
    (sysSemNew count).exec p = (some (.ok, some a), p.take h count) := by
  have hact : (Prog.act fun p => p.osSemCreate count).exec p = (some (some a), p.take h count) := by
    rw [exec_act, EventPool.osSemCreate_cons hint h]
  rw [sysSemNew, exec_bind_some hact]
  rfl

theorem sysSemNew_none (h : 0 < p.intNesting ∨ p.free = []) (count : ℕ) :
    (sysSemNew count).exec p = (none, p) := by
  have hact : (Prog.act fun p => p.osSemCreate count).exec p = (some none, p) := by
    rw [exec_act, EventPool.osSemCreate_none h]
  rw [sysSemNew, exec_bind_some hact]
  rfl

/-- A mailbox as it is made. -/
def newMbox (sem mutex : ℕ) : SysMbox := ⟨⟨fun _ => 0, 0, 0, 0⟩, some sem, some mutex⟩

theorem sysMboxNew_cons (mbox : SysMbox) (hint : p.intNesting = 0) (h : p.free = a :: b :: rest) :
    (sysMboxNew mbox).exec p = (some (.ok, newMbox a b), (p.take h 0).take rfl 1) := by
  have hmutex : sysMutexNew.exec (p.take h 0) = (some (.ok, some b), (p.take h 0).take rfl 1) :=
    sysSemNew_cons (p := p.take h 0) hint rfl 1
  rw [sysMboxNew, exec_bind_some (sysSemNew_cons hint h 0)]
  show ((sysMutexNew >>= _).exec (p.take h 0)) = _
  rw [exec_bind_some hmutex]
  rfl

/-- With one block the call stops in its second assertion, and the block is taken. -/
theorem sysMboxNew_one (mbox : SysMbox) (hint : p.intNesting = 0) (h : p.free = [a]) :
    (sysMboxNew mbox).exec p = (none, p.take h 0) := by
  have hmutex : sysMutexNew.exec (p.take h 0) = (none, p.take h 0) := sysSemNew_none (p := p.take h 0) (.inr rfl) 1
  rw [sysMboxNew, exec_bind_some (sysSemNew_cons hint h 0)]
  show ((sysMutexNew >>= _).exec (p.take h 0)) = _
  rw [exec_bind, hmutex]

theorem sysMboxNew_none (mbox : SysMbox) (h : 0 < p.intNesting ∨ p.free = []) :
    (sysMboxNew mbox).exec p = (none, p) := by
  rw [sysMboxNew, exec_bind, sysSemNew_none h]

theorem counted_sysMboxNew {n : ℕ} (k : Kernel (Ev n) n) (m : LwipMbox) :
    (∃ k', SysArch.sysMboxNew k = .ok (m, k')) ↔
      k.intNesting = 0 ∧ 2 ≤ k.eventFree ∧ m = ⟨fun _ => 0, 0, 0, 0⟩ := by
  simp only [SysArch.sysMboxNew, SysArch.sysSemNew, SysArch.osSemCreate, bind, Except.bind, Kernel.setEvent]
  by_cases hint : 0 < k.intNesting
  · simp only [hint, if_true]
    refine iff_of_false ?_ fun h => by omega
    rintro ⟨k', h⟩
    cases h
  by_cases hnil : k.eventFree = 0
  · simp only [hint, hnil, if_true, if_false]
    refine iff_of_false ?_ fun h => by omega
    rintro ⟨k', h⟩
    cases h
  by_cases hone : k.eventFree - 1 = 0
  · simp only [hint, hnil, hone, if_true, if_false]
    refine iff_of_false ?_ fun h => by omega
    rintro ⟨k', h⟩
    cases h
  · simp only [hint, hnil, hone, if_false, pure, Except.pure, Except.ok.injEq, Prod.mk.injEq]
    constructor
    · rintro ⟨k', h, -⟩
      exact ⟨by omega, by omega, h.symm⟩
    · intro h
      exact ⟨_, h.2.2.symm, rfl⟩

/-- The kernel of the mailbox machine only counts its free blocks; `sys_mbox_new` makes the same mailbox
there. -/
theorem sysMboxNew_counted {n : ℕ} {k : Kernel (Ev n) n} (hint : k.intNesting = p.intNesting)
    (hfree : k.eventFree = p.free.length) (mbox : SysMbox) (m : LwipMbox) :
    (∃ k', SysArch.sysMboxNew k = .ok (m, k')) ↔
      ∃ mbox' p', (sysMboxNew mbox).exec p = (some (.ok, mbox'), p') ∧ mbox'.toLwipMbox = m := by
  rw [counted_sysMboxNew, hint, hfree]
  have hnone : ∀ p' : EventPool, ¬ ∃ mbox' p'', ((none : Option (ErrT × SysMbox)), p') = (some (.ok, mbox'), p'') ∧
      mbox'.toLwipMbox = m := fun _ ⟨_, _, h, _⟩ => nomatch h
  by_cases hp : p.intNesting = 0
  · rcases hlist : p.free with _ | ⟨a, _ | ⟨b, rest⟩⟩
    · rw [sysMboxNew_none mbox (.inr hlist)]
      exact iff_of_false (fun h => absurd h.2.1 (by decide)) (hnone _)
    · rw [sysMboxNew_one mbox hp hlist]
      exact iff_of_false (fun h => absurd h.2.1 (by simp)) (hnone _)
    · rw [sysMboxNew_cons mbox hp hlist]
      have hlen : 2 ≤ (a :: b :: rest).length := by simp
      constructor
      · rintro ⟨-, -, rfl⟩
        exact ⟨_, _, rfl, rfl⟩
      · rintro ⟨_, _, heq, rfl⟩
        cases heq
        exact ⟨hp, hlen, rfl⟩
  · rw [sysMboxNew_none mbox (.inl (Nat.pos_of_ne_zero hp))]
    exact iff_of_false (fun h => hp h.1) (hnone _)

/-- The call returns `ERR_OK` with two different blocks that were free, counts 0 and 1 and an empty ring, or
`ERR_MEM` with the free blocks as before and a mailbox that is not valid. -/
def AllOrNothing (p : EventPool) : Option (ErrT × SysMbox) × EventPool → Prop
  | (some (.ok, mbox), p') => ∃ a b, mbox.sem = some a ∧ mbox.mutex = some b ∧ a ≠ b ∧ a ∈ p.free ∧ b ∈ p.free ∧
    p'.cnt a = some 0 ∧ p'.cnt b = some 1 ∧ mbox.head = 0 ∧ mbox.tail = 0 ∧ mbox.msgNum = 0
  | (some (.mem, mbox), p') => p'.free = p.free ∧ sysMboxValid mbox = false
  | (none, _) => False

theorem allOrNothing_iff (p : EventPool) (mbox : SysMbox) :
    AllOrNothing p ((sysMboxNew mbox).exec p) ↔ p.intNesting = 0 ∧ 2 ≤ p.free.length := by
  by_cases hint : p.intNesting = 0
  · rcases hfree : p.free with _ | ⟨a, _ | ⟨b, rest⟩⟩
    · rw [sysMboxNew_none mbox (.inr hfree)]
      exact iff_of_false id fun h => absurd h.2 (by decide)
    · rw [sysMboxNew_one mbox hint hfree]
      exact iff_of_false id fun h => absurd h.2 (by rw [List.length_singleton]; decide)
    · rw [sysMboxNew_cons mbox hint hfree]
      have hnodup := p.nodup
      rw [hfree] at hnodup
      have hne : a ≠ b := by
        rintro rfl
        exact (List.nodup_cons.mp hnodup).1 List.mem_cons_self
      refine iff_of_true ⟨a, b, rfl, rfl, hne, ?_, ?_, ?_, ?_, rfl, rfl, rfl⟩ ⟨hint, ?_⟩
      · rw [hfree]
        exact List.mem_cons_self
      · rw [hfree]
        exact List.mem_cons_of_mem a List.mem_cons_self
      · show Function.update (Function.update p.cnt a (some 0)) b (some 1) a = _
        rw [Function.update_of_ne hne, Function.update_self]
      · exact Function.update_self ..
      · rw [List.length_cons, List.length_cons]
        omega
  · rw [sysMboxNew_none mbox (.inl (Nat.pos_of_ne_zero hint))]
    exact iff_of_false id fun h => hint h.1

/-! ## Sequences of calls -/

/-- The objects in use. `delays` are the semaphores of the calls of `sys_msleep` under way, and `hung` is how
many calls have stopped in an assertion. -/
structure Registry where
  pool : EventPool
  mboxes : List SysMbox
  sems : List SysSem
  delays : List SysSem
  hung : ℕ

inductive ObjectAct
  | mboxNew (mbox : SysMbox)
  | mboxFree (i : ℕ)
  | semNew (count : ℕ)
  | semFree (i : ℕ)
  | sleep (ms : ℕ)
  | wake (i : ℕ)

namespace Registry

/-- What a call leaves. -/
def after {α : Type} (s : Registry) (r : Option α × EventPool) (f : α → Registry → Registry) : Registry :=
  match r with
  | (some x, p) => f x { s with pool := p }
  | (none, p) => { s with pool := p, hung := s.hung + 1 }

def step (s : Registry) : ObjectAct → Option Registry
  | .mboxNew mbox => some (s.after ((sysMboxNew mbox).exec s.pool) fun r s =>
      if r.1 = .ok then { s with mboxes := s.mboxes ++ [r.2] } else s)
  | .mboxFree i => (s.mboxes[i]?).map fun mbox => s.after ((sysMboxFree mbox).exec s.pool) fun _ s =>
      { s with mboxes := s.mboxes.eraseIdx i }
  | .semNew count => some (s.after ((sysSemNew count).exec s.pool) fun r s =>
      if r.1 = .ok then { s with sems := s.sems ++ [r.2] } else s)
  | .semFree i => (s.sems[i]?).map fun sem => s.after ((sysSemFree sem).exec s.pool) fun _ s =>
      { s with sems := s.sems.eraseIdx i }
  | .sleep ms => some (s.after ((sysMsleep ms).exec s.pool) fun r s => { s with delays := s.delays ++ r.toList })
  | .wake i => (s.delays[i]?).map fun delaysem => s.after ((sysSemFree delaysem).exec s.pool) fun _ s =>
      { s with delays := s.delays.eraseIdx i }

/-- The pointers that the objects hold. -/
def handles (s : Registry) : List SysSem :=
  s.mboxes.flatMap (fun mbox => [mbox.sem, mbox.mutex]) ++ (s.sems ++ s.delays)

end Registry

/-- Calls at task level, on a kernel with any number of free blocks. -/
def objectMachine : Machine Registry ObjectAct where
  init s := s.pool.intNesting = 0 ∧ s.mboxes = [] ∧ s.sems = [] ∧ s.delays = [] ∧ s.hung = 0
  step := Registry.step

/-! ### The ledger -/

/-- `handles` are semaphores, and together with the free blocks they are `blocks`. -/
structure Ledger (blocks : List SysSem) (p : EventPool) (handles : List SysSem) : Prop where
  intNesting : p.intNesting = 0
  perm : (p.free.map some ++ handles).Perm blocks
  sem : ∀ a, some a ∈ handles → p.cnt a ≠ none
  nodup : blocks.Nodup
  complete : none ∉ blocks

variable {blocks handles handles' : List SysSem} {sem mutex : SysSem}

theorem Ledger.reorder (h : Ledger blocks p handles) (hperm : handles.Perm handles') :
    Ledger blocks p handles' :=
  ⟨h.intNesting, (hperm.symm.append_left _).trans h.perm, fun a ha => h.sem a (hperm.mem_iff.mpr ha), h.nodup,
    h.complete⟩

theorem Ledger.take (h : Ledger blocks p handles) (hfree : p.free = a :: rest) (cnt : ℕ) :
    Ledger blocks (p.take hfree cnt) (some a :: handles) where
  intNesting := h.intNesting
  perm := by
    have hperm := h.perm
    rw [hfree] at hperm
    exact List.perm_middle.trans hperm
  sem b hb := by
    show Function.update p.cnt a (some cnt) b ≠ none
    by_cases hba : b = a
    · rw [hba, Function.update_self]
      exact nofun
    · rw [Function.update_of_ne hba]
      refine h.sem b ((List.mem_cons.mp hb).resolve_left fun heq => hba (Option.some.inj heq))
  nodup := h.nodup
  complete := h.complete

theorem Ledger.free (h : Ledger blocks p (sem :: handles)) :
    ∃ p', (sysSemFree sem).exec p = (some none, p') ∧ Ledger blocks p' handles := by
  have hmem : ∀ x ∈ sem :: handles, x ∈ blocks := fun x hx => h.perm.mem_iff.mp (List.mem_append_right _ hx)
  have hnodup := (List.nodup_append.mp (h.perm.nodup_iff.mpr h.nodup)).2.1
  cases sem with
  | none => exact absurd (hmem none List.mem_cons_self) h.complete
  | some a =>
    have hcnt := h.sem a List.mem_cons_self
    refine ⟨p.give hcnt, ?_, h.intNesting, List.perm_middle.symm.trans h.perm, fun b hb => ?_, h.nodup, h.complete⟩
    · have hupdate : (Prog.update fun p : EventPool => (some a : SysSem).elim p fun a => (p.osSemDel a).2).exec p =
          (some (), p.give hcnt) := by
        rw [exec_update]
        show (some (), (p.osSemDel a).2) = _
        rw [EventPool.osSemDel_some h.intNesting hcnt]
      rw [sysSemFree, exec_bind_some hupdate]
      rfl
    · have hne : b ≠ a := by
        rintro rfl
        exact (List.nodup_cons.mp hnodup).1 hb
      show Function.update p.cnt a none b ≠ none
      rw [Function.update_of_ne hne]
      exact h.sem b (List.mem_cons_of_mem _ hb)

theorem Ledger.freeMbox {mbox : SysMbox} (h : Ledger blocks p (mbox.sem :: mbox.mutex :: handles)) :
    ∃ r p', (sysMboxFree mbox).exec p = (some r, p') ∧ Ledger blocks p' handles := by
  obtain ⟨p₁, hfirst, h₁⟩ := h.free
  obtain ⟨p₂, hsecond, h₂⟩ := h₁.free
  refine ⟨{ mbox with sem := none, mutex := none }, p₂, ?_, h₂⟩
  rw [sysMboxFree, exec_bind_some hfirst, exec_bind_some hsecond, exec_pure]

/-! ### Steps -/

theorem eraseIdx_perm {α : Type} {l : List α} {i : ℕ} {x : α} (h : l[i]? = some x) : l.Perm (x :: l.eraseIdx i) := by
  obtain ⟨hi, rfl⟩ := List.getElem?_eq_some_iff.mp h
  exact (List.getElem_cons_eraseIdx_perm hi).symm

namespace Registry

variable {s s' : Registry} {i : ℕ}

/-- No call has stopped, and the blocks are accounted for. -/
def Kept (blocks : List SysSem) (s : Registry) : Prop := s.hung = 0 ∧ Ledger blocks s.pool s.handles

theorem handles_mboxNew (s : Registry) (p : EventPool) (mbox : SysMbox) :
    (mbox.sem :: mbox.mutex :: s.handles).Perm
      { s with pool := p, mboxes := s.mboxes ++ [mbox] }.handles := by
  have hperm : (mbox.sem :: mbox.mutex :: s.mboxes.flatMap fun mbox => [mbox.sem, mbox.mutex]).Perm
      ((s.mboxes ++ [mbox]).flatMap fun mbox => [mbox.sem, mbox.mutex]) := by
    rw [List.flatMap_append]
    exact @List.perm_append_comm _ [mbox.sem, mbox.mutex] _
  exact hperm.append_right (s.sems ++ s.delays)

theorem handles_mboxFree {mbox : SysMbox} (h : s.mboxes[i]? = some mbox) (p : EventPool) :
    s.handles.Perm (mbox.sem :: mbox.mutex ::
      { s with pool := p, mboxes := s.mboxes.eraseIdx i }.handles) :=
  ((eraseIdx_perm h).flatMap_right fun mbox => [mbox.sem, mbox.mutex]).append_right (s.sems ++ s.delays)

theorem handles_semNew (s : Registry) (p : EventPool) (sem : SysSem) :
    (sem :: s.handles).Perm { s with pool := p, sems := s.sems ++ [sem] }.handles := by
  have hperm : (s.mboxes.flatMap (fun mbox => [mbox.sem, mbox.mutex]) ++ sem :: (s.sems ++ s.delays)).Perm
      (s.mboxes.flatMap (fun mbox => [mbox.sem, mbox.mutex]) ++ (s.sems ++ [sem] ++ s.delays)) := by
    rw [List.append_assoc]
    exact List.perm_middle.symm.append_left _
  exact List.perm_middle.symm.trans hperm

theorem handles_semFree {sem : SysSem} (h : s.sems[i]? = some sem) (p : EventPool) :
    s.handles.Perm (sem :: { s with pool := p, sems := s.sems.eraseIdx i }.handles) :=
  (((eraseIdx_perm h).append_right s.delays).append_left _).trans List.perm_middle

theorem handles_sleep (s : Registry) (p : EventPool) (sem : SysSem) :
    (sem :: s.handles).Perm { s with pool := p, delays := s.delays ++ [sem] }.handles := by
  have hperm : ((s.mboxes.flatMap (fun mbox => [mbox.sem, mbox.mutex]) ++ (s.sems ++ s.delays)) ++ [sem]).Perm
      (s.mboxes.flatMap (fun mbox => [mbox.sem, mbox.mutex]) ++ (s.sems ++ (s.delays ++ [sem]))) := by
    rw [List.append_assoc, List.append_assoc]
  exact (List.perm_append_singleton sem _).symm.trans hperm

theorem handles_wake {sem : SysSem} (h : s.delays[i]? = some sem) (p : EventPool) :
    s.handles.Perm (sem :: { s with pool := p, delays := s.delays.eraseIdx i }.handles) := by
  have hperm : s.handles.Perm (s.mboxes.flatMap (fun mbox => [mbox.sem, mbox.mutex]) ++
      (s.sems ++ sem :: s.delays.eraseIdx i)) := ((eraseIdx_perm h).append_left _).append_left _
  refine hperm.trans ?_
  rw [← List.append_assoc]
  refine List.perm_middle.trans ?_
  rw [List.append_assoc]
  exact .refl _

/-- There are blocks enough for the call. -/
def Supplied (s : Registry) : ObjectAct → Prop
  | .mboxNew _ => 2 ≤ s.pool.free.length
  | .semNew _ => 1 ≤ s.pool.free.length
  | .sleep ms => ms = 0 ∨ 1 ≤ s.pool.free.length
  | _ => True

theorem exists_cons_cons {l : List ℕ} (h : 2 ≤ l.length) : ∃ a b rest, l = a :: b :: rest := by
  rcases l with _ | ⟨a, _ | ⟨b, rest⟩⟩
  · exact absurd h (by decide)
  · exact absurd h (by simp)
  · exact ⟨a, b, rest, rfl⟩

theorem kept_step {act : ObjectAct} (h : s.Kept blocks) (hok : s.Supplied act) (hstep : s.step act = some s') :
    s'.Kept blocks := by
  obtain ⟨hhung, hledger⟩ := h
  cases act with
  | mboxNew mbox =>
    obtain ⟨a, b, rest, hfree⟩ := exists_cons_cons hok
    rw [step, sysMboxNew_cons mbox hledger.intNesting hfree] at hstep
    obtain rfl := Option.some.inj hstep
    exact ⟨hhung, (((hledger.take hfree 0).take rfl 1).reorder (List.Perm.swap ..)).reorder
      (handles_mboxNew s _ (newMbox a b))⟩
  | semNew count =>
    obtain ⟨a, rest, hfree⟩ := List.exists_cons_of_length_pos hok
    rw [step, sysSemNew_cons hledger.intNesting hfree] at hstep
    obtain rfl := Option.some.inj hstep
    exact ⟨hhung, (hledger.take hfree count).reorder (handles_semNew s _ (some a))⟩
  | sleep ms =>
    rw [step, sysMsleep] at hstep
    split_ifs at hstep with hms
    · obtain ⟨a, rest, hfree⟩ := List.exists_cons_of_length_pos (hok.resolve_left (by omega))
      rw [exec_bind_some (sysSemNew_cons hledger.intNesting hfree 0)] at hstep
      obtain rfl := Option.some.inj hstep
      exact ⟨hhung, (hledger.take hfree 0).reorder (handles_sleep s _ (some a))⟩
    · obtain rfl := Option.some.inj hstep
      refine ⟨hhung, ?_⟩
      show Ledger blocks s.pool (s.mboxes.flatMap _ ++ (s.sems ++ (s.delays ++ [])))
      rw [List.append_nil]
      exact hledger
  | mboxFree i =>
    obtain ⟨mbox, hmbox, rfl⟩ := Option.map_eq_some_iff.mp hstep
    obtain ⟨r, p', hexec, hledger'⟩ := (hledger.reorder (handles_mboxFree hmbox s.pool)).freeMbox
    rw [hexec]
    exact ⟨hhung, hledger'⟩
  | semFree i =>
    obtain ⟨sem, hsem, rfl⟩ := Option.map_eq_some_iff.mp hstep
    obtain ⟨p', hexec, hledger'⟩ := (hledger.reorder (handles_semFree hsem s.pool)).free
    rw [hexec]
    exact ⟨hhung, hledger'⟩
  | wake i =>
    obtain ⟨sem, hsem, rfl⟩ := Option.map_eq_some_iff.mp hstep
    obtain ⟨p', hexec, hledger'⟩ := (hledger.reorder (handles_wake hsem s.pool)).free
    rw [hexec]
    exact ⟨hhung, hledger'⟩

theorem hung_step {act : ObjectAct} (h : s.Kept blocks) (hno : ¬ s.Supplied act) (hstep : s.step act = some s') :
    s'.hung ≠ 0 := by
  obtain ⟨hhung, hledger⟩ := h
  have hint := hledger.intNesting
  cases act with
  | mboxNew mbox =>
    have hfew : s.pool.free.length < 2 := Nat.lt_of_not_le hno
    rcases hfree : s.pool.free with _ | ⟨a, _ | ⟨b, rest⟩⟩
    · rw [step, sysMboxNew_none mbox (.inr hfree)] at hstep
      obtain rfl := Option.some.inj hstep
      exact Nat.succ_ne_zero _
    · rw [step, sysMboxNew_one mbox hint hfree] at hstep
      obtain rfl := Option.some.inj hstep
      exact Nat.succ_ne_zero _
    · rw [hfree, List.length_cons, List.length_cons] at hfew
      omega
  | semNew count =>
    have hnil := List.length_eq_zero_iff.mp (Nat.lt_one_iff.mp (Nat.lt_of_not_le hno))
    rw [step, sysSemNew_none (.inr hnil)] at hstep
    obtain rfl := Option.some.inj hstep
    exact Nat.succ_ne_zero _
  | sleep ms =>
    obtain ⟨hms, hfew⟩ := not_or.mp hno
    have hnil := List.length_eq_zero_iff.mp (Nat.lt_one_iff.mp (Nat.lt_of_not_le hfew))
    rw [step, sysMsleep, if_pos (Nat.pos_of_ne_zero hms), exec_bind, sysSemNew_none (.inr hnil)] at hstep
    obtain rfl := Option.some.inj hstep
    exact Nat.succ_ne_zero _
  | mboxFree i | semFree i | wake i => exact absurd trivial hno

/-- The free blocks, two for each mailbox and one for each semaphore, those of `sys_msleep` included, are as
many as were free at the start, and no call has stopped. -/
def Conserved (s₀ s : Registry) : Prop :=
  s.hung = 0 ∧ s.pool.free.length + 2 * s.mboxes.length + s.sems.length + s.delays.length = s₀.pool.free.length

theorem Kept.conserved {s₀ : Registry} (h : s.Kept (s₀.pool.free.map some)) : Conserved s₀ s := by
  have hlen := h.2.perm.length_eq
  have hmboxes : (s.mboxes.flatMap fun mbox => [mbox.sem, mbox.mutex]).length = 2 * s.mboxes.length := by
    rw [List.length_flatMap]
    simp [Nat.mul_comm]
  rw [List.length_append, List.length_map, List.length_map, handles, List.length_append, hmboxes,
    List.length_append] at hlen
  exact ⟨h.1, by omega⟩

end Registry

theorem kept_init {s : Registry} (h : objectMachine.init s) : s.Kept (s.pool.free.map some) := by
  obtain ⟨hint, hmboxes, hsems, hdelays, hhung⟩ := h
  have hnone : s.handles = [] := by rw [Registry.handles, hmboxes, hsems, hdelays]; rfl
  refine ⟨hhung, hint, ?_, ?_, s.pool.nodup.map (Option.some_injective _), by simp⟩
  · rw [hnone, List.append_nil]
  · rw [hnone]
    exact fun a ha => absurd ha List.not_mem_nil

/-- A call of `sys_mbox_new` is all or nothing exactly at task level with two free blocks or more. In a
sequence of calls the blocks are conserved and every call returns, throughout, exactly if each call that
makes semaphores finds blocks enough. -/
theorem mbox_creation_iff (p : EventPool) (mbox : SysMbox) (s₀ s : Registry) (l : List ObjectAct) :
    (AllOrNothing p ((sysMboxNew mbox).exec p) ↔ p.intNesting = 0 ∧ 2 ≤ p.free.length) ∧
    (objectMachine.init s₀ → objectMachine.Steps Machine.any s₀ l s →
      (objectMachine.Always (Registry.Conserved s₀) s₀ l ↔ objectMachine.Steps Registry.Supplied s₀ l s)) :=
  ⟨allOrNothing_iff p mbox, fun hinit hs => Machine.always_iff_steps (J := Registry.Kept (s₀.pool.free.map some))
    (fun _ h => h.conserved) (fun _ _ _ => Registry.kept_step)
    (fun _ _ _ h hno hstep hc => Registry.hung_step h hno hstep hc.1) hs (kept_init hinit)⟩

instance (s : Registry) : (act : ObjectAct) → Decidable (s.Supplied act)
  | .mboxNew _ => inferInstanceAs (Decidable (2 ≤ s.pool.free.length))
  | .semNew _ => inferInstanceAs (Decidable (1 ≤ s.pool.free.length))
  | .sleep ms => inferInstanceAs (Decidable (ms = 0 ∨ 1 ≤ s.pool.free.length))
  | .mboxFree _ | .semFree _ | .wake _ => .isTrue trivial

/-- Four free blocks, and calls that use them all twice. -/
def fourBlocks : Registry := ⟨⟨[0, 1, 2, 3], fun _ => none, 0, by decide, fun _ _ => rfl⟩, [], [], [], 0⟩

def creations : List ObjectAct := [.mboxNew (newMbox 9 9), .semNew 1, .sleep 5, .mboxFree 0, .mboxNew (newMbox 9 9),
  .wake 0, .semFree 0]

/-- What the first call makes is the mailbox that the mailbox machine starts with. -/
theorem mbox_creation_twice : AllOrNothing fourBlocks.pool ((sysMboxNew (newMbox 9 9)).exec fourBlocks.pool) ∧
    ∃ s, objectMachine.runOk Registry.Supplied fourBlocks creations = some s ∧
      objectMachine.Always (Registry.Conserved fourBlocks) fourBlocks creations ∧ s.pool.free.length = 2 ∧
      s.mboxes.length = 1 ∧ ∃ k, SysArch.sysMboxNew (idleKernel 2 4) = .ok ((newMbox 0 1).toLwipMbox, k) := by
  have hrun : (objectMachine.runOk Registry.Supplied fourBlocks creations).map
      (fun s => (s.pool.free.length, s.mboxes.length)) = some (2, 1) := by
    decide +kernel
  obtain ⟨s, hs, hlengths⟩ := Option.map_eq_some_iff.mp hrun
  obtain ⟨hfree, hmboxes⟩ := Prod.mk.inj hlengths
  have hsteps : objectMachine.Steps Registry.Supplied fourBlocks creations s := .of_runOk hs
  obtain ⟨hcall, hrun⟩ := mbox_creation_iff fourBlocks.pool (newMbox 9 9) fourBlocks s creations
  refine ⟨hcall.mpr ⟨rfl, by decide⟩, s, hs, ?_, hfree, hmboxes, ?_⟩
  · exact (hrun ⟨rfl, rfl, rfl, rfl, rfl⟩ (hsteps.mono fun _ _ _ => trivial)).mpr hsteps
  · exact (sysMboxNew_counted (p := fourBlocks.pool) rfl rfl (newMbox 9 9) _).mpr
      ⟨newMbox 0 1, _, sysMboxNew_cons (newMbox 9 9) rfl rfl, rfl⟩

/-- With one free block the call stops in its assertion, and the block is gone. -/
theorem mbox_new_hangs : ∃ (p p' : EventPool) (mbox : SysMbox), p.intNesting = 0 ∧ p.free.length = 1 ∧
    (sysMboxNew mbox).exec p = (none, p') ∧ p'.free = [] ∧ ¬ AllOrNothing p ((sysMboxNew mbox).exec p) := by
  let p : EventPool := ⟨[0], fun _ => none, 0, by simp, by simp⟩
  have hexec := sysMboxNew_one (newMbox 0 0) (p := p) rfl rfl
  exact ⟨p, _, newMbox 0 0, rfl, rfl, hexec, rfl, by rw [hexec]; exact id⟩

end LoraGateway.SysArch.Objects
