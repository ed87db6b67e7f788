import Mathlib.Data.BitVec
import Mathlib.Data.List.Nodup
import LoraGateway.Lib.Machine

/-!
# Threads

`sys_thread_new` of `sys_arch.c`: a search for a clear bit of `TaskCreateFlag`, `OSTaskCreate` on the
stack of that index, and the bit set if it succeeded. The search stops at the first clear bit and
gives up when it is about to leave `LWIP_MAX_TASKS`, which it tests before it counts: with all
`LWIP_MAX_TASKS` bits set it looks at one more.

A call is one step here, with the success of `OSTaskCreate` as part of the action. The log of the
calls is a history; the bits of the flag are the indices in it (`Threads.Ok`), so what a call does is
decided by the log alone.
-/

namespace LoraGateway.SysArch

open Lib

/-- `LWIP_MAX_TASKS`, the number of rows of `LWIP_TASK_STK`. -/
def lwipMaxTasks : ℕ := 2

/-! ## The call -/

/-- The search loop of `sys_thread_new` from index `i`: the index of a clear bit, or `none` where
the function returns 0. -/
def findSlot (taskCreateFlag : BitVec 32) (i : ℕ) : Option ℕ :=
  if taskCreateFlag.getLsbD i then
    if i < lwipMaxTasks ∧ i < 32 then findSlot taskCreateFlag (i + 1) else none
  else some i
termination_by lwipMaxTasks - i

/-- `TaskCreateFlag |= (0x01 << i)`. -/
def setSlot (taskCreateFlag : BitVec 32) (i : ℕ) : BitVec 32 := taskCreateFlag ||| 1#32 <<< i

/-- A call: the priority, an `int`, and whether `OSTaskCreate` accepts what it is given. -/
structure ThreadCall where
  prio : BitVec 32
  created : Bool
  deriving DecidableEq, Repr

/-- The value returned for a call that comes to its end: `prio` as a `sys_thread_t`. -/
def ThreadCall.prioId (c : ThreadCall) : BitVec 8 := c.prio.setWidth 8

/-- What a call did: its value, the flag it left, and the stack it created a task on. -/
structure ThreadRet where
  ret : BitVec 8
  taskCreateFlag : BitVec 32
  stack : Option ℕ
  deriving DecidableEq, Repr

/-- `sys_thread_new`. -/
def sysThreadNew (taskCreateFlag : BitVec 32) (c : ThreadCall) : ThreadRet :=
  match findSlot taskCreateFlag 0 with
  | none => ⟨0, taskCreateFlag, none⟩
  | some i =>
    if c.created then ⟨c.prioId, setSlot taskCreateFlag i, some i⟩
    else ⟨c.prioId, taskCreateFlag, none⟩

theorem findSlot_some {flag : BitVec 32} {i j : ℕ} (h : findSlot flag i = some j) :
    i ≤ j ∧ j ≤ max i lwipMaxTasks ∧ flag.getLsbD j = false ∧
      ∀ k, i ≤ k → k < j → flag.getLsbD k = true := by
  fun_induction findSlot flag i with
  | case1 i hset hlt ih =>
    obtain ⟨hij, hj, hclear, hbelow⟩ := ih h
    refine ⟨by omega, by omega, hclear, fun k hk hkj => ?_⟩
    by_cases hki : k = i
    · rw [hki]; exact hset
    · exact hbelow k (by omega) hkj
  | case2 => exact absurd h (by simp)
  | case3 i hclear =>
    obtain rfl := Option.some.inj h
    exact ⟨le_rfl, Nat.le_max_left .., by simpa using hclear, fun k hk hkj => by omega⟩

theorem findSlot_none {flag : BitVec 32} {i : ℕ} (h : findSlot flag i = none) :
    ∀ k, i ≤ k → k ≤ lwipMaxTasks → flag.getLsbD k = true := by
  fun_induction findSlot flag i with
  | case1 i hset hlt ih =>
    intro k hk hkm
    by_cases hki : k = i
    · rw [hki]; exact hset
    · exact ih h k (by omega) hkm
  | case2 i hset hge =>
    intro k hk hkm
    have : k = i := by
      simp only [lwipMaxTasks] at hge hkm
      omega
    rw [this]
    exact hset
  | case3 => exact absurd h (by simp)

theorem getLsbD_setSlot {flag : BitVec 32} {i : ℕ} (hi : i < 32) (k : ℕ) :
    (setSlot flag i).getLsbD k = (flag.getLsbD k || decide (k = i)) := by
  simp only [setSlot, BitVec.getLsbD_or, BitVec.getLsbD_shiftLeft, BitVec.getLsbD_one]
  by_cases hk : k = i
  · subst hk
    simp [hi]
  · rcases Nat.lt_or_gt_of_ne hk with hlt | hgt
    · simp [hlt, hk]
    · have : k - i ≠ 0 := by omega
      simp [hk, this]

/-! ## Calls one after another -/

/-- A call in the log, with the flag it found. -/
structure ThreadEntry where
  call : ThreadCall
  before : BitVec 32

/-- What the call of an entry did. -/
def ThreadEntry.result (e : ThreadEntry) : ThreadRet := sysThreadNew e.before e.call

/-- The flag, and the calls made so far. -/
structure Threads where
  taskCreateFlag : BitVec 32
  log : List ThreadEntry

/-- The rows tasks were created on, in order. -/
def Threads.rows (s : Threads) : List ℕ := s.log.filterMap fun e => e.result.stack

def Threads.step (s : Threads) (c : ThreadCall) : Option Threads :=
  some ⟨(sysThreadNew s.taskCreateFlag c).taskCreateFlag, s.log ++ [⟨c, s.taskCreateFlag⟩]⟩

/-- Calls of `sys_thread_new` one after another. -/
def threadMachine : Machine Threads ThreadCall where
  init s := s = ⟨0, []⟩
  step := Threads.step

/-- The flag has the bits of the rows in use, one task each; entries found a flag that had fewer. -/
structure Threads.Ok (s : Threads) : Prop where
  bits : ∀ i < 32, s.taskCreateFlag.getLsbD i = true ↔ i ∈ s.rows
  nodup : s.rows.Nodup
  le : ∀ i ∈ s.rows, i ≤ lwipMaxTasks
  before : ∀ e ∈ s.log, ∀ i < 32, e.before.getLsbD i = true → i ∈ s.rows

theorem Threads.Ok.step {s s' : Threads} (h : s.Ok) {c : ThreadCall} (hs : s.step c = some s') :
    s'.Ok := by
  obtain rfl := Option.some.inj hs
  have hrows : (⟨(sysThreadNew s.taskCreateFlag c).taskCreateFlag,
      s.log ++ [⟨c, s.taskCreateFlag⟩]⟩ : Threads).rows =
      s.rows ++ (sysThreadNew s.taskCreateFlag c).stack.toList := by
    simp only [Threads.rows, List.filterMap_append]
    congr 1
  have hbefore : ∀ e ∈ s.log ++ [⟨c, s.taskCreateFlag⟩], ∀ i < 32, e.before.getLsbD i = true →
      i ∈ s.rows := by
    intro e he i hi hset
    rcases List.mem_append.mp he with he | he
    · exact h.before e he i hi hset
    · rw [List.mem_singleton.mp he] at hset
      exact (h.bits i hi).mp hset
  by_cases hnew : ∃ i, findSlot s.taskCreateFlag 0 = some i ∧ c.created = true
  · obtain ⟨i, hfind, hcreated⟩ := hnew
    obtain ⟨-, hle, hclear, -⟩ := findSlot_some hfind
    have hi : i ≤ lwipMaxTasks := by simpa using hle
    have hi32 : i < 32 := by
      simp only [lwipMaxTasks] at hi
      omega
    have hfresh : i ∉ s.rows := fun hmem => by
      rw [(h.bits i hi32).mpr hmem] at hclear
      exact absurd hclear (by simp)
    have hres : sysThreadNew s.taskCreateFlag c =
        ⟨c.prioId, setSlot s.taskCreateFlag i, some i⟩ := by
      rw [sysThreadNew, hfind]
      exact if_pos hcreated
    rw [hres] at hrows ⊢
    refine ⟨fun k hk => ?_, ?_, ?_, fun e he k hk hset => ?_⟩
    · rw [hrows, getLsbD_setSlot hi32]
      simp [h.bits k hk]
    · rw [hrows]
      simpa using List.nodup_append.mpr ⟨h.nodup, List.nodup_singleton i, by
        intro a ha b hb
        rw [List.mem_singleton.mp hb]
        exact fun hab => hfresh (hab ▸ ha)⟩
    · rw [hrows]
      intro k hk
      rcases List.mem_append.mp hk with hk | hk
      · exact h.le k hk
      · rwa [List.mem_singleton.mp hk]
    · rw [hrows]
      exact List.mem_append_left _ (hbefore e he k hk hset)
  · have hres : (sysThreadNew s.taskCreateFlag c).taskCreateFlag = s.taskCreateFlag ∧
        (sysThreadNew s.taskCreateFlag c).stack = none := by
      unfold sysThreadNew
      split
      · exact ⟨rfl, rfl⟩
      · rename_i i hfind
        split_ifs with hc
        · exact absurd ⟨i, hfind, hc⟩ hnew
        · exact ⟨rfl, rfl⟩
    rw [hres.2, Option.toList_none, List.append_nil] at hrows
    refine ⟨fun k hk => ?_, by rw [hrows]; exact h.nodup, by rw [hrows]; exact h.le,
      fun e he k hk hset => by rw [hrows]; exact hbefore e he k hk hset⟩
    rw [hrows, hres.1]
    exact h.bits k hk

theorem reach_threads {s : Threads} (hr : threadMachine.Reach Machine.any s) : s.Ok :=
  hr.invariant (I := Threads.Ok)
    (fun s hs => by
      obtain rfl : s = ⟨0, []⟩ := hs
      exact ⟨by simp [Threads.rows], by simp [Threads.rows], by simp [Threads.rows], by simp⟩)
    fun _ _ _ h _ hs => h.step hs

/-! ## The allocation law -/

/-- No row of `LWIP_TASK_STK` is free. -/
def NoSlot (taskCreateFlag : BitVec 32) : Prop :=
  ∀ i < lwipMaxTasks, taskCreateFlag.getLsbD i = true

instance (flag : BitVec 32) : Decidable (NoSlot flag) :=
  inferInstanceAs (Decidable (∀ i < lwipMaxTasks, flag.getLsbD i = true))

/-- Tasks sit on rows of their own, no more than there are; a call without a free row or refused by
`OSTaskCreate` creates nothing, leaves the flag and returns 0, and one that creates a task returns
its priority. -/
structure Threads.Allocates (s : Threads) : Prop where
  lt : ∀ i ∈ s.rows, i < lwipMaxTasks
  nodup : s.rows.Nodup
  length : s.rows.length ≤ lwipMaxTasks
  refused : ∀ e ∈ s.log, NoSlot e.before ∨ e.call.created = false →
    e.result = ⟨0, e.before, none⟩
  nothing : ∀ e ∈ s.log, e.result.stack = none → e.result.ret = 0
  created : ∀ e ∈ s.log, ∀ i, e.result.stack = some i → e.result.ret = e.call.prioId

/-- A call that `sys_thread_new` is right for: a row is free if the task can be created, and the
priority is 0 as a `sys_thread_t` if it cannot. -/
def ThreadEntry.Fits (e : ThreadEntry) : Prop :=
  (e.call.created = true → ¬ NoSlot e.before) ∧ (e.call.created = false → e.call.prioId = 0)

theorem findSlot_lt {flag : BitVec 32} (h : ¬ NoSlot flag) :
    ∃ i, findSlot flag 0 = some i ∧ i < lwipMaxTasks := by
  cases hfind : findSlot flag 0 with
  | none => exact absurd (fun i hi => findSlot_none hfind i (Nat.zero_le _) hi.le) h
  | some i =>
    refine ⟨i, rfl, ?_⟩
    by_contra hi
    exact h fun k hk => (findSlot_some hfind).2.2.2 k (Nat.zero_le _) (by omega)

/-- Without a free row the search ends one past the table, unless that bit is set too. -/
theorem findSlot_full {flag : BitVec 32} (h : NoSlot flag)
    (hnext : flag.getLsbD lwipMaxTasks = false) : findSlot flag 0 = some lwipMaxTasks := by
  cases hfind : findSlot flag 0 with
  | none => rw [findSlot_none hfind _ (Nat.zero_le _) le_rfl] at hnext; exact absurd hnext (by simp)
  | some i =>
    obtain ⟨-, hle, hclear, -⟩ := findSlot_some hfind
    have hi : i ≤ lwipMaxTasks := by simpa using hle
    rcases Nat.lt_or_eq_of_le hi with hlt | rfl
    · rw [h i hlt] at hclear
      exact absurd hclear (by simp)
    · rfl

theorem Threads.Ok.length_le {s : Threads} (h : s.Ok) (hlt : ∀ i ∈ s.rows, i < lwipMaxTasks) :
    s.rows.length ≤ lwipMaxTasks := by
  have hsub : s.rows ⊆ List.range lwipMaxTasks := fun i hi => List.mem_range.mpr (hlt i hi)
  simpa using (h.nodup.subperm hsub).length_le

/-- After any sequence of calls, the allocation is right if and only if each call was one that
`sys_thread_new` is right for. -/
theorem thread_allocates_iff {s : Threads} (hr : threadMachine.Reach Machine.any s) :
    s.Allocates ↔ ∀ e ∈ s.log, e.Fits := by
  have hok := reach_threads hr
  constructor
  · intro h e he
    -- the index past the table is in no flag, since no task sits there
    have hnext : e.before.getLsbD lwipMaxTasks = false := by
      by_contra hset
      have := h.lt _ (hok.before e he lwipMaxTasks (by decide) (by simpa using hset))
      omega
    constructor
    · intro hcreated hnone
      have hres := h.refused e he (Or.inl hnone)
      rw [ThreadEntry.result, sysThreadNew, findSlot_full hnone hnext] at hres
      simp [hcreated] at hres
    · intro hrefused
      have hres := h.refused e he (Or.inr hrefused)
      cases hfind : findSlot e.before 0 with
      | none =>
        have := findSlot_none hfind lwipMaxTasks (Nat.zero_le _) le_rfl
        rw [hnext] at this
        exact absurd this (by simp)
      | some i =>
        simp only [ThreadEntry.result, sysThreadNew, hfind, hrefused] at hres
        simpa using congrArg ThreadRet.ret hres
  · intro h
    have hres : ∀ e ∈ s.log, (e.call.created = true → ∃ i < lwipMaxTasks,
        e.result = ⟨e.call.prioId, setSlot e.before i, some i⟩) ∧
        (e.call.created = false → e.result = ⟨0, e.before, none⟩) := by
      intro e he
      obtain ⟨hfree, hzero⟩ := h e he
      constructor
      · intro hcreated
        obtain ⟨i, hfind, hi⟩ := findSlot_lt (hfree hcreated)
        exact ⟨i, hi, by simp [ThreadEntry.result, sysThreadNew, hfind, hcreated]⟩
      · intro hrefused
        unfold ThreadEntry.result sysThreadNew
        split
        · rfl
        · simp [hrefused, hzero hrefused]
    have hlt : ∀ i ∈ s.rows, i < lwipMaxTasks := by
      intro i hi
      obtain ⟨e, he, hstack⟩ := List.mem_filterMap.mp hi
      cases hc : e.call.created with
      | true =>
        obtain ⟨j, hj, hr⟩ := (hres e he).1 hc
        rw [hr] at hstack
        exact Option.some.inj hstack ▸ hj
      | false =>
        rw [(hres e he).2 hc] at hstack
        exact absurd hstack (by simp)
    refine ⟨hlt, hok.nodup, hok.length_le hlt, fun e he hor => ?_, fun e he hnone => ?_,
      fun e he i hstack => ?_⟩
    · rcases hor with hnone | hrefused
      · cases hc : e.call.created with
        | true => exact absurd hnone ((h e he).1 hc)
        | false => exact (hres e he).2 hc
      · exact (hres e he).2 hrefused
    · cases hc : e.call.created with
      | true =>
        obtain ⟨j, -, hr⟩ := (hres e he).1 hc
        rw [hr] at hnone
        exact absurd hnone (by simp)
      | false => rw [(hres e he).2 hc]
    · cases hc : e.call.created with
      | true =>
        obtain ⟨j, -, hr⟩ := (hres e he).1 hc
        rw [hr]
      | false =>
        rw [(hres e he).2 hc] at hstack
        exact absurd hstack (by simp)

/-- Two calls, of the priorities of the protocol stack and of the server on top of it. -/
def twoThreads : List ThreadCall := [⟨1, true⟩, ⟨2, true⟩]

theorem sysThreadNew_first : sysThreadNew 0 ⟨1, true⟩ = ⟨1, 1, some 0⟩ := by
  simp [sysThreadNew, findSlot, setSlot, ThreadCall.prioId]

theorem sysThreadNew_second : sysThreadNew 1 ⟨2, true⟩ = ⟨2, 3, some 1⟩ := by
  simp [sysThreadNew, findSlot, setSlot, ThreadCall.prioId, lwipMaxTasks]

theorem run_twoThreads :
    threadMachine.run ⟨0, []⟩ twoThreads = some ⟨3, [⟨⟨1, true⟩, 0⟩, ⟨⟨2, true⟩, 1⟩]⟩ := by
  simp only [twoThreads, Machine.run, threadMachine, Threads.step, sysThreadNew_first,
    sysThreadNew_second, Option.bind_some, List.nil_append, List.cons_append]

theorem thread_allocates_two :
    Threads.Allocates ⟨3, [⟨⟨1, true⟩, 0⟩, ⟨⟨2, true⟩, 1⟩]⟩ :=
  (thread_allocates_iff ((Machine.Reach.init rfl).steps (Machine.steps_of_run run_twoThreads))).mpr
    (by
      intro e he
      simp only [List.mem_cons, List.not_mem_nil, or_false] at he
      rcases he with rfl | rfl <;> exact ⟨fun _ => by decide, fun h => absurd h (by decide)⟩)

/-- A third call gets a row past the table, and a call that is refused still returns its
priority. -/
theorem thread_overruns :
    (∃ s, threadMachine.run ⟨0, []⟩ (twoThreads ++ [⟨3, true⟩]) = some s ∧ s.rows = [0, 1, 2] ∧
        ¬ s.Allocates) ∧
      ∃ s, threadMachine.run ⟨0, []⟩ [⟨5, false⟩] = some s ∧
        (∃ e ∈ s.log, e.call.created = false ∧ e.result.ret = 5) ∧ ¬ s.Allocates := by
  have hthird : sysThreadNew 3 ⟨3, true⟩ = ⟨3, 7, some 2⟩ := by
    simp [sysThreadNew, findSlot, setSlot, ThreadCall.prioId, lwipMaxTasks]
  have hrefused : sysThreadNew 0 ⟨5, false⟩ = ⟨5, 0, none⟩ := by
    simp [sysThreadNew, findSlot, ThreadCall.prioId]
  constructor
  · have hrows : Threads.rows ⟨7, [⟨⟨1, true⟩, 0⟩, ⟨⟨2, true⟩, 1⟩, ⟨⟨3, true⟩, 3⟩]⟩ =
        [0, 1, 2] := by
      simp only [Threads.rows, ThreadEntry.result, List.filterMap_cons, List.filterMap_nil,
        sysThreadNew_first, sysThreadNew_second, hthird]
    refine ⟨⟨7, [⟨⟨1, true⟩, 0⟩, ⟨⟨2, true⟩, 1⟩, ⟨⟨3, true⟩, 3⟩]⟩, ?_, hrows, fun h => ?_⟩
    · rw [Machine.run_append, run_twoThreads]
      simp only [Option.bind_some, Machine.run, threadMachine, Threads.step, hthird,
        List.cons_append, List.nil_append]
    · exact absurd (h.lt 2 (by rw [hrows]; decide)) (by decide)
  · have hret : ThreadEntry.result ⟨⟨5, false⟩, 0⟩ = ⟨5, 0, none⟩ := hrefused
    refine ⟨⟨0, [⟨⟨5, false⟩, 0⟩]⟩, ?_, ⟨⟨⟨5, false⟩, 0⟩, List.mem_singleton.mpr rfl, rfl, ?_⟩,
      fun h => ?_⟩
    · simp only [Machine.run, threadMachine, Threads.step, hrefused, Option.bind_some,
        List.nil_append]
    · rw [hret]
    · have := h.nothing ⟨⟨5, false⟩, 0⟩ (List.mem_singleton.mpr rfl)
      rw [hret] at this
      exact absurd (this rfl) (by decide)

end LoraGateway.SysArch
