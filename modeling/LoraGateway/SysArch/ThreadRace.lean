import LoraGateway.SysArch.Thread

/-!
# Threads created at the same time

`sys_thread_new` called by several tasks, cut where another task can run: after the slot search, and
after `OSTaskCreate`, which switches to the task it creates if that has the higher priority. Nothing
keeps two searches from finding the same bit clear. They do not if each search is made while no other
call is between its search and its update (`ThreadAct.serial`): whoever is about to create a task
found its bit clear, and every task created before has its bit set.
-/

namespace LoraGateway.SysArch

open Lib

variable {ι : Type*} [DecidableEq ι]

/-- Where a task is in `sys_thread_new`. -/
inductive ThreadCtl
  | idle
  /-- at `OSTaskCreate`, on the stack found -/
  | found (c : ThreadCall) (i : ℕ)
  /-- at `TaskCreateFlag |= (0x01<<i)` -/
  | made (c : ThreadCall) (i : ℕ)
  deriving DecidableEq

/-- The flag and the tasks. What follows is history: the rows tasks were created on, the bits set,
and the values returned. -/
structure ThreadRace (ι : Type*) where
  taskCreateFlag : BitVec 32
  ctl : ι → ThreadCtl
  rows : List ℕ
  updated : List ℕ
  returned : List (ι × BitVec 8)

/-- A step of a task: a call up to the end of its search, `OSTaskCreate`, and the update. -/
inductive ThreadAct (ι : Type*)
  | call (t : ι) (c : ThreadCall)
  | create (t : ι)
  | update (t : ι)

def ThreadRace.step (s : ThreadRace ι) : ThreadAct ι → Option (ThreadRace ι)
  | .call t c =>
    match s.ctl t with
    | .idle =>
      match findSlot s.taskCreateFlag 0 with
      | none => some { s with returned := s.returned ++ [(t, 0)] }
      | some i => some { s with ctl := Function.update s.ctl t (.found c i) }
    | _ => none
  | .create t =>
    match s.ctl t with
    | .found c i =>
      if c.created then
        some { s with ctl := Function.update s.ctl t (.made c i), rows := s.rows ++ [i] }
      else
        some { s with
          ctl := Function.update s.ctl t .idle
          returned := s.returned ++ [(t, c.prioId)] }
    | _ => none
  | .update t =>
    match s.ctl t with
    | .made c i =>
      some { s with
        taskCreateFlag := setSlot s.taskCreateFlag i
        ctl := Function.update s.ctl t .idle
        updated := s.updated ++ [i]
        returned := s.returned ++ [(t, c.prioId)] }
    | _ => none

/-- Tasks that call `sys_thread_new`. -/
def raceMachine (ι : Type*) [DecidableEq ι] : Machine (ThreadRace ι) (ThreadAct ι) where
  init s := s = ⟨0, fun _ => .idle, [], [], []⟩
  step := ThreadRace.step

theorem run_alone {s : ThreadRace ι} {t : ι} (hidle : s.ctl t = .idle) {c : ThreadCall} {i : ℕ}
    (hfind : findSlot s.taskCreateFlag 0 = some i) (hcreated : c.created = true) :
    ∃ s', (raceMachine ι).run s [.call t c, .create t, .update t] = some s' ∧
      s'.taskCreateFlag = (sysThreadNew s.taskCreateFlag c).taskCreateFlag ∧
      s'.rows = s.rows ++ (sysThreadNew s.taskCreateFlag c).stack.toList ∧
      s'.returned = s.returned ++ [(t, (sysThreadNew s.taskCreateFlag c).ret)] ∧
      s'.ctl = s.ctl := by
  have hres : sysThreadNew s.taskCreateFlag c =
      ⟨c.prioId, setSlot s.taskCreateFlag i, some i⟩ := by
    simp [sysThreadNew, hfind, hcreated]
  refine ⟨_, by
    simp only [Machine.run, raceMachine, ThreadRace.step, hidle, hfind, hcreated, if_true,
      Option.bind_some, Function.update_self, Function.update_idem]
    rfl, ?_⟩
  rw [hres]
  exact ⟨rfl, rfl, rfl, by rw [← hidle]; exact Function.update_eq_self t s.ctl⟩

variable {s s' : ThreadRace ι}

/-- The bits that calls have set are set. -/
def ThreadRace.KeepsBits (s : ThreadRace ι) : Prop :=
  ∀ i ∈ s.updated, s.taskCreateFlag.getLsbD i = true

/-- A search starts only when no other call is between its search and its update. -/
def ThreadAct.serial (s : ThreadRace ι) (a : ThreadAct ι) : Prop :=
  ∀ t c, a = .call t c → ∀ u, s.ctl u = .idle

/-- What holds as long as searches are serial. -/
structure ThreadRace.Serial (s : ThreadRace ι) : Prop where
  alone : ∀ t u, s.ctl t ≠ .idle → s.ctl u ≠ .idle → t = u
  found : ∀ t c i, s.ctl t = .found c i → i < 32 ∧ s.taskCreateFlag.getLsbD i = false
  made : ∀ t c i, s.ctl t = .made c i → i < 32
  rows : ∀ i ∈ s.rows, s.taskCreateFlag.getLsbD i = true ∨ ∃ t c, s.ctl t = .made c i
  nodup : s.rows.Nodup
  bits : s.KeepsBits

theorem findSlot_lt_32 {flag : BitVec 32} {i : ℕ} (h : findSlot flag 0 = some i) : i < 32 := by
  obtain ⟨-, hle, -⟩ := findSlot_some h
  simp only [lwipMaxTasks] at hle
  omega

theorem ThreadRace.Serial.call (h : s.Serial) {t : ι} {c : ThreadCall}
    (hidle : ∀ u, s.ctl u = .idle) (hs : s.step (.call t c) = some s') : s'.Serial := by
  simp only [ThreadRace.step, hidle] at hs
  split at hs
  · obtain rfl := Option.some.inj hs
    exact ⟨h.alone, h.found, h.made, h.rows, h.nodup, h.bits⟩
  · rename_i i hfind
    obtain rfl := Option.some.inj hs
    have hcase : ∀ u x, Function.update s.ctl t (.found c i) u = x → x ≠ .idle →
        u = t ∧ x = .found c i := by
      intro u x hx hne
      by_cases hu : u = t
      · subst hu
        rw [Function.update_self] at hx
        exact ⟨rfl, hx.symm⟩
      · rw [Function.update_of_ne hu, hidle] at hx
        exact absurd hx.symm hne
    refine ⟨fun u v hu hv => ?_, fun u d j hd => ?_, fun u d j hd => ?_, fun j hj => ?_, h.nodup,
      h.bits⟩
    · rw [(hcase u _ rfl hu).1, (hcase v _ rfl hv).1]
    · obtain ⟨-, heq⟩ := hcase u _ hd (by simp)
      simp only [ThreadCtl.found.injEq] at heq
      obtain ⟨-, rfl⟩ := heq
      exact ⟨findSlot_lt_32 hfind, (findSlot_some hfind).2.2.1⟩
    · exact absurd (hcase u _ hd (by simp)).2 (by simp)
    · rcases h.rows j hj with hset | ⟨u, d, hd⟩
      · exact Or.inl hset
      · rw [hidle] at hd
        exact absurd hd (by simp)

theorem ThreadRace.Serial.create (h : s.Serial) {t : ι} (hs : s.step (.create t) = some s') :
    s'.Serial := by
  simp only [ThreadRace.step] at hs
  split at hs
  · rename_i c i hc
    obtain ⟨hi, hclear⟩ := h.found t c i hc
    have hone : ∀ u, u ≠ t → s.ctl u = .idle := fun u hu => by
      by_contra hne
      exact hu (h.alone u t hne (by rw [hc]; simp))
    split_ifs at hs with hcreated
    · obtain rfl := Option.some.inj hs
      have hcase : ∀ u x, Function.update s.ctl t (.made c i) u = x → x ≠ .idle →
          u = t ∧ x = .made c i := by
        intro u x hx hne
        by_cases hu : u = t
        · subst hu
          rw [Function.update_self] at hx
          exact ⟨rfl, hx.symm⟩
        · rw [Function.update_of_ne hu, hone u hu] at hx
          exact absurd hx.symm hne
      have hset : ∀ j ∈ s.rows, s.taskCreateFlag.getLsbD j = true := by
        intro j hj
        rcases h.rows j hj with hset | ⟨u, d, hd⟩
        · exact hset
        · have hut : u = t := h.alone u t (by rw [hd]; simp) (by rw [hc]; simp)
          rw [hut, hc] at hd
          exact absurd hd (by simp)
      refine ⟨fun u v hu hv => ?_, fun u d j hd => ?_, fun u d j hd => ?_, fun j hj => ?_, ?_,
        h.bits⟩
      · rw [(hcase u _ rfl hu).1, (hcase v _ rfl hv).1]
      · exact absurd (hcase u _ hd (by simp)).2 (by simp)
      · obtain ⟨-, heq⟩ := hcase u _ hd (by simp)
        simp only [ThreadCtl.made.injEq] at heq
        exact heq.2 ▸ hi
      · rcases List.mem_append.mp hj with hj | hj
        · exact Or.inl (hset j hj)
        · rw [List.mem_singleton.mp hj]
          exact Or.inr ⟨t, c, Function.update_self ..⟩
      · refine List.nodup_append.mpr ⟨h.nodup, List.nodup_singleton i, fun a ha b hb hab => ?_⟩
        rw [List.mem_singleton.mp hb] at hab
        have := hset a ha
        rw [hab, hclear] at this
        exact absurd this (by simp)
    · obtain rfl := Option.some.inj hs
      have hall : ∀ u, Function.update s.ctl t .idle u = .idle := by
        intro u
        by_cases hu : u = t
        · rw [hu, Function.update_self]
        · rw [Function.update_of_ne hu, hone u hu]
      refine ⟨fun u v hu _ => absurd (hall u) hu, fun u d j hd => ?_, fun u d j hd => ?_,
        fun j hj => ?_, h.nodup, h.bits⟩
      · exact absurd ((hall u).symm.trans hd) (by simp)
      · exact absurd ((hall u).symm.trans hd) (by simp)
      · rcases h.rows j hj with hset | ⟨u, d, hd⟩
        · exact Or.inl hset
        · have hut : u = t := h.alone u t (by rw [hd]; simp) (by rw [hc]; simp)
          rw [hut, hc] at hd
          exact absurd hd (by simp)
  · exact absurd hs (by simp)

theorem ThreadRace.Serial.update (h : s.Serial) {t : ι} (hs : s.step (.update t) = some s') :
    s'.Serial := by
  simp only [ThreadRace.step] at hs
  split at hs
  · rename_i c i hc
    obtain rfl := Option.some.inj hs
    have hi := h.made t c i hc
    have hall : ∀ u, Function.update s.ctl t .idle u = .idle := by
      intro u
      by_cases hu : u = t
      · rw [hu, Function.update_self]
      · rw [Function.update_of_ne hu]
        by_contra hne
        exact hu (h.alone u t hne (by rw [hc]; simp))
    have hkeep : ∀ j, s.taskCreateFlag.getLsbD j = true →
        (setSlot s.taskCreateFlag i).getLsbD j = true := fun j hj => by
      rw [getLsbD_setSlot hi, hj, Bool.true_or]
    have hself : (setSlot s.taskCreateFlag i).getLsbD i = true := by
      simp [getLsbD_setSlot hi]
    refine ⟨fun u v hu _ => absurd (hall u) hu, fun u d j hd => ?_, fun u d j hd => ?_,
      fun j hj => ?_, h.nodup, fun j hj => ?_⟩
    · exact absurd ((hall u).symm.trans hd) (by simp)
    · exact absurd ((hall u).symm.trans hd) (by simp)
    · rcases h.rows j hj with hset | ⟨u, d, hd⟩
      · exact Or.inl (hkeep j hset)
      · have hut : u = t := h.alone u t (by rw [hd]; simp) (by rw [hc]; simp)
        rw [hut, hc] at hd
        simp only [ThreadCtl.made.injEq] at hd
        exact Or.inl (hd.2 ▸ hself)
    · rcases List.mem_append.mp hj with hj | hj
      · exact hkeep j (h.bits j hj)
      · rw [List.mem_singleton.mp hj]
        exact hself
  · exact absurd hs (by simp)

/-- In runs whose searches are serial, no two tasks get the same stack and no bit set is lost. -/
theorem thread_race_serial (hr : (raceMachine ι).Reach ThreadAct.serial s) :
    s.rows.Nodup ∧ s.KeepsBits := by
  have hserial : s.Serial := hr.invariant (I := ThreadRace.Serial)
    (fun s hs => by
      obtain rfl : s = ⟨0, fun _ => .idle, [], [], []⟩ := hs
      exact ⟨fun t u ht => absurd rfl ht, by simp, by simp, by simp, by simp,
        by simp [ThreadRace.KeepsBits]⟩)
    fun s a s' h hok hs => by
      cases a with
      | call t c => exact h.call (hok t c rfl) hs
      | create t => exact h.create hs
      | update t => exact h.update hs
  exact ⟨hserial.nodup, hserial.bits⟩

/-- The task that task 0 creates calls `sys_thread_new` before its creator goes on. -/
def nested : List (ThreadAct (Fin 2)) :=
  [.call 0 ⟨1, true⟩, .create 0, .call 1 ⟨2, true⟩, .create 1]

theorem findSlot_zero : findSlot 0 0 = some 0 := by simp [findSlot]

theorem findSlot_one : findSlot (setSlot 0 0) 0 = some 1 := by
  simp [findSlot, setSlot, lwipMaxTasks]

theorem steps_alone (t : ι) {c : ThreadCall} {i : ℕ} {flag : BitVec 32} (hfind : findSlot flag 0 = some i)
    (hcreated : c.created = true) (rows updated : List ℕ) (returned : List (ι × BitVec 8)) :
    (raceMachine ι).Steps ThreadAct.serial ⟨flag, fun _ => .idle, rows, updated, returned⟩
      [.call t c, .create t, .update t]
      ⟨setSlot flag i, fun _ => .idle, rows ++ [i], updated ++ [i], returned ++ [(t, c.prioId)]⟩ := by
  have hidle : Function.update (fun _ : ι => ThreadCtl.idle) t .idle = fun _ => .idle :=
    Function.update_eq_self t _
  have hcall : (raceMachine ι).step ⟨flag, fun _ => .idle, rows, updated, returned⟩ (.call t c) =
      some ⟨flag, Function.update (fun _ => .idle) t (.found c i), rows, updated, returned⟩ := by
    simp only [raceMachine, ThreadRace.step, hfind]
  have hcreate : (raceMachine ι).step
      ⟨flag, Function.update (fun _ => .idle) t (.found c i), rows, updated, returned⟩ (.create t) =
      some ⟨flag, Function.update (fun _ => .idle) t (.made c i), rows ++ [i], updated, returned⟩ := by
    simp only [raceMachine, ThreadRace.step, Function.update_self, hcreated, if_true, Function.update_idem]
  refine .cons (fun _ _ _ _ => rfl) hcall (.cons (fun _ _ ha => absurd ha (by simp)) hcreate
    (.cons (fun _ _ ha => absurd ha (by simp)) ?_ (.nil _)))
  simp only [raceMachine, ThreadRace.step, Function.update_self, Function.update_idem, hidle]

/-- Task 1 searches once task 0 has set its bit. -/
theorem thread_race_two : ∃ s : ThreadRace (Fin 2), (raceMachine (Fin 2)).Steps ThreadAct.serial
      ⟨0, fun _ => .idle, [], [], []⟩
      ([.call 0 ⟨1, true⟩, .create 0, .update 0] ++ [.call 1 ⟨2, true⟩, .create 1, .update 1]) s ∧
    s.rows = [0, 1] ∧ s.updated = [0, 1] ∧ s.rows.Nodup ∧ s.KeepsBits := by
  have hfirst := steps_alone (0 : Fin 2) (c := ⟨1, true⟩) findSlot_zero rfl [] [] []
  have hsecond := steps_alone (1 : Fin 2) (c := ⟨2, true⟩) findSlot_one rfl [0] [0] [(0, 1)]
  have hsteps := hfirst.append hsecond
  exact ⟨_, hsteps, rfl, rfl, thread_race_serial ((Machine.Reach.init rfl).steps hsteps)⟩

theorem thread_race_nested : ∃ s : ThreadRace (Fin 2),
    (raceMachine (Fin 2)).run ⟨0, fun _ => .idle, [], [], []⟩ nested = some s ∧
      s.rows = [0, 0] := by
  refine ⟨_, by
    simp only [nested, Machine.run, raceMachine, ThreadRace.step, findSlot_zero, if_true,
      Option.bind_some, Function.update_self, Function.update_idem,
      Function.update_of_ne (show (1 : Fin 2) ≠ 0 by decide), List.nil_append, List.cons_append]
    rfl, rfl⟩

end LoraGateway.SysArch
