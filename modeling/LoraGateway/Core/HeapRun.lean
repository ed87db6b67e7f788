import LoraGateway.Core.HeapCalls
import LoraGateway.Lib.Machine

/-!
# Runs of the heap

Any sequence of `mem_malloc`, `mem_free` and `mem_trim`, with whatever is written in between into the bytes that
are handed out. `own` says how many bytes a pointer has been handed out for, as long as it has not been given
back. A caller frees and trims what it owns, trims to no more than it has, and writes there only
(`HeapSys.ok`). The invariant `HeapOk` ties `own` to the blocks in use.

A request of more than 65532 bytes wraps around when it is aligned, and is granted as one of 12 bytes
(`expandSize`); any other one is granted with at least the bytes asked for (`le_expandSize`), by the first block
that has room for them (`heap_malloc`).
-/

namespace LoraGateway.Core

open Lib Blocks Heap

structure HeapSys where
  heap : Heap
  own : ℕ → Option ℕ

inductive HeapAct
  | malloc (size : ℕ)
  | free (rmem : ℕ)
  | trim (rmem newsize : ℕ)
  | write (rmem : ℕ) (ram : ℕ → Mem)

namespace HeapSys

/-- The pointer that a call returns is owned with so many bytes. -/
def grant (s : HeapSys) (bytes : ℕ) : Heap × Option ℕ → HeapSys
  | (h, none) => { s with heap := h }
  | (h, some p) => ⟨h, Function.update s.own p (some bytes)⟩

def step (s : HeapSys) : HeapAct → Option HeapSys
  | .malloc size => (s.heap.memMalloc size).map (s.grant (expandSize size))
  | .free rmem => (s.heap.memFree (some rmem)).map fun h => ⟨h, Function.update s.own rmem none⟩
  | .trim rmem newsize => (s.heap.memTrim rmem newsize).map (s.grant (expandSize newsize))
  | .write _ ram => some { s with heap := { s.heap with ram := ram } }

/-- What a caller may do. A write changes the structs that reach into the bytes owned, and no others. -/
def ok (s : HeapSys) : HeapAct → Prop
  | .malloc _ => True
  | .free rmem => s.own rmem ≠ none
  | .trim rmem newsize => ∃ n, s.own rmem = some n ∧ newsize ≤ n
  | .write rmem ram => ∃ n, s.own rmem = some n ∧
      ∀ o, ram o ≠ s.heap.ram o → rmem < o + sizeofStructMem ∧ o < rmem + n

end HeapSys

def heapMachine : Machine HeapSys HeapAct where
  init s := ∃ ram, s = ⟨memInit ram, fun _ => none⟩
  step := HeapSys.step

/-- The blocks that the headers chain up from `ptr` on. -/
def Heap.blocksFrom (h : Heap) : ℕ → ℕ → List Block
  | 0, _ => []
  | fuel + 1, ptr =>
    if ptr = memSizeAligned then []
    else ⟨(h.ram ptr).used, (h.ram ptr).next - ptr⟩ :: blocksFrom h fuel (h.ram ptr).next

def Heap.blocks (h : Heap) : List Block := h.blocksFrom fuel 0

/-- The blocks in use are the ones owned, each with room for what it was handed out for. -/
structure Owned (own : ℕ → Option ℕ) (l : List Block) : Prop where
  held : ∀ p n, Holds l p n → ∃ m, own (p + sizeofStructMem) = some m ∧ minSizeAligned ≤ m ∧ 4 ∣ m ∧
    m + sizeofStructMem ≤ n
  owned : ∀ q m, own q = some m → ∃ p n, q = p + sizeofStructMem ∧ Holds l p n

def HeapOk (s : HeapSys) : Prop := ∃ l, Wf s.heap l ∧ Owned s.own l

variable {h : Heap} {s s' : HeapSys} {l pre post : List Block} {b : Block} {own : ℕ → Option ℕ}
  {k m n o p q ptr size : ℕ}

theorem blocksFrom_eq {ram : ℕ → Mem} {lfree prev fuel : ℕ} (hseg : Seg ram prev ptr l)
    (hroom : ptr + span l = memSizeAligned) (hpos : ∀ b ∈ l, 0 < b.size) (hfuel : l.length < fuel) :
    (Heap.mk ram lfree).blocksFrom fuel ptr = l := by
  induction l generalizing prev ptr fuel with
  | nil =>
    obtain ⟨fuel, rfl⟩ := Nat.exists_eq_add_one_of_ne_zero (Nat.ne_of_gt hfuel)
    rw [span_nil, Nat.add_zero] at hroom
    rw [blocksFrom, if_pos hroom]
  | cons b l ih =>
    obtain ⟨fuel, rfl⟩ := Nat.exists_eq_add_one_of_ne_zero (Nat.ne_of_gt (Nat.zero_lt_of_lt hfuel))
    obtain ⟨hb, hrest⟩ := hseg
    have hsize := hpos b List.mem_cons_self
    rw [span_cons] at hroom
    rw [List.length_cons] at hfuel
    rw [blocksFrom, if_neg (by omega)]
    simp only [hb, Nat.add_sub_cancel_left]
    rw [ih hrest (by omega) (fun c hc => hpos c (List.mem_cons_of_mem b hc)) (by omega)]

theorem Rep.blocks_eq (hr : Rep h l) : h.blocks = l :=
  blocksFrom_eq hr.seg ((Nat.zero_add _).trans hr.room) hr.pos hr.length_lt

/-! ## What is owned -/

theorem Wf.holds_pos (hw : Wf h l) (hp : Holds l p n) : 0 < n := by
  obtain ⟨pre, post, rfl, -⟩ := hp
  exact hw.pos ⟨true, n⟩ (by simp)

theorem Wf.holds_inj (hw : Wf h l) (hp : Holds l p n) (hp' : Holds l p m) : n = m := by
  have hn := hw.holds_pos hp
  have hm := hw.holds_pos hp'
  rcases hp.disjoint hp' with ⟨-, heq⟩ | hle | hle
  · exact heq
  · omega
  · omega

theorem Owned.block (ho : Owned own l) (hq : own q = some m) : ∃ p n, q = p + sizeofStructMem ∧ Holds l p n ∧
    minSizeAligned ≤ m ∧ 4 ∣ m ∧ m + sizeofStructMem ≤ n := by
  obtain ⟨p, n, rfl, hp⟩ := ho.owned q m hq
  obtain ⟨m', hm', hmin, hdvd, hle⟩ := ho.held p n hp
  obtain rfl := Option.some.inj (hq.symm.trans hm')
  exact ⟨p, n, rfl, hp, hmin, hdvd, hle⟩

theorem le_expandSize (hsize : size ≤ 65532) : size ≤ expandSize size := by
  unfold expandSize memAlignSize minSizeAligned
  split <;> omega

theorem room_iff {b : Block} (hb : minBlock ≤ b.size ∧ 4 ∣ b.size) (hle : b.size ≤ memSizeAligned)
    (hsize : size ≤ 65532) :
    b.size < expandSize size + sizeofStructMem ↔ b.size < size + sizeofStructMem := by
  have hexpand := le_expandSize hsize
  unfold minBlock minSizeAligned sizeofStructMem at hb
  unfold expandSize memAlignSize minSizeAligned at hexpand ⊢
  unfold memSizeAligned at hle
  unfold sizeofStructMem
  split_ifs at hexpand ⊢ <;> omega

theorem expandSize_le (hmin : minSizeAligned ≤ m) (hdvd : 4 ∣ m) (hle : size ≤ m) (hm : m ≤ memSizeAligned) :
    expandSize size ≤ m := by
  unfold expandSize memAlignSize
  unfold memSizeAligned at hm
  split <;> omega

/-! ## Steps -/

theorem heapOk_malloc (hs : HeapOk s) (size : ℕ) : ∃ s', s.step (.malloc size) = some s' ∧ HeapOk s' := by
  obtain ⟨l, hw, ho⟩ := hs
  by_cases hnone : size = 0 ∨ memSizeAligned < expandSize size ∨
      firstFit (expandSize size + sizeofStructMem) l = none
  · refine ⟨s, ?_, l, hw, ho⟩
    rw [HeapSys.step, memMalloc_none hw hnone]
    rfl
  · simp only [not_or, Nat.not_lt] at hnone
    obtain ⟨hsize, hle, hfit⟩ := hnone
    obtain ⟨p, hp⟩ := Option.ne_none_iff_exists'.mp hfit
    obtain ⟨h', l', k, hmalloc, hw', hk, hholds⟩ := memMalloc_some hw hsize hle hp
    refine ⟨⟨h', Function.update s.own (p + sizeofStructMem) (some (expandSize size))⟩, ?_, l', hw', ?_, ?_⟩
    · rw [HeapSys.step, hmalloc]
      rfl
    · intro q n hq
      by_cases hqp : q = p
      · subst hqp
        have hn := hw'.holds_inj hq ((hholds q k).mpr (.inr ⟨rfl, rfl⟩))
        exact ⟨_, Function.update_self .., expandSize_ge size, four_dvd_expandSize size, hn ▸ hk⟩
      · obtain ⟨m, hm, hrest⟩ := ho.held q n (((hholds q n).mp hq).resolve_right fun h => hqp h.1)
        exact ⟨m, (Function.update_of_ne (by omega) ..).trans hm, hrest⟩
    · intro q m hq
      by_cases hqp : q = p + sizeofStructMem
      · exact ⟨p, k, hqp, (hholds p k).mpr (.inr ⟨rfl, rfl⟩)⟩
      · simp only [Function.update_of_ne hqp] at hq
        obtain ⟨p', n, hp', hheld⟩ := ho.owned q m hq
        exact ⟨p', n, hp', (hholds p' n).mpr (.inl hheld)⟩

theorem heapOk_free (hs : HeapOk s) {rmem : ℕ} (hown : s.own rmem ≠ none) :
    ∃ s', s.step (.free rmem) = some s' ∧ HeapOk s' := by
  obtain ⟨l, hw, ho⟩ := hs
  obtain ⟨m, hm⟩ := Option.ne_none_iff_exists'.mp hown
  obtain ⟨p, n, rfl, ⟨pre, post, rfl, rfl⟩, -⟩ := ho.block hm
  obtain ⟨h', l', hfree, hw', hholds⟩ := memFree_spec hw
  refine ⟨⟨h', Function.update s.own (span pre + sizeofStructMem) none⟩, ?_, l', hw', ?_, ?_⟩
  · rw [HeapSys.step, hfree]
    rfl
  · intro q k hq
    obtain ⟨hheld, hne⟩ := (hholds q k).mp hq
    obtain ⟨m', hm', hrest⟩ := ho.held q k hheld
    exact ⟨m', (Function.update_of_ne (by omega) ..).trans hm', hrest⟩
  · intro q m' hq
    by_cases hqp : q = span pre + sizeofStructMem
    · subst hqp
      simp only [Function.update_self] at hq
      exact absurd hq nofun
    · simp only [Function.update_of_ne hqp] at hq
      obtain ⟨p', k, rfl, hheld⟩ := ho.owned q m' hq
      exact ⟨p', k, rfl, (hholds p' k).mpr ⟨hheld, fun heq => hqp (by rw [heq])⟩⟩

theorem heapOk_trim (hs : HeapOk s) {rmem newsize : ℕ} (hown : s.own rmem = some m) (hle : newsize ≤ m) :
    ∃ s', s.step (.trim rmem newsize) = some s' ∧ HeapOk s' := by
  obtain ⟨l, hw, ho⟩ := hs
  obtain ⟨p, n, rfl, hheld, hmin, hdvd, hroom⟩ := ho.block hown
  have hend := hheld.le_span
  rw [hw.room] at hend
  obtain ⟨pre, post, rfl, rfl⟩ := hheld
  have hsize : expandSize newsize ≤ m := expandSize_le hmin hdvd hle (by omega)
  obtain ⟨h', l', k, htrim, hw', hk, hheld, hholds⟩ := memTrim_spec hw (Nat.le_trans (Nat.add_le_add_right hsize _) hroom)
  refine ⟨⟨h', Function.update s.own (span pre + sizeofStructMem) (some (expandSize newsize))⟩, ?_, l', hw', ?_, ?_⟩
  · rw [HeapSys.step, htrim]
    rfl
  · intro q j hq
    by_cases hqp : q = span pre
    · subst hqp
      have hj := hw'.holds_inj hq hheld
      exact ⟨_, Function.update_self .., expandSize_ge newsize, four_dvd_expandSize newsize, hj ▸ hk⟩
    · obtain ⟨m', hm', hrest⟩ := ho.held q j ((hholds q j hqp).mp hq)
      exact ⟨m', (Function.update_of_ne (by omega) ..).trans hm', hrest⟩
  · intro q m' hq
    by_cases hqp : q = span pre + sizeofStructMem
    · exact ⟨span pre, k, hqp, hheld⟩
    · simp only [Function.update_of_ne hqp] at hq
      obtain ⟨p', j, rfl, hheld'⟩ := ho.owned q m' hq
      exact ⟨p', j, rfl, (hholds p' j fun heq => hqp (by rw [heq])).mpr hheld'⟩

theorem offsets_append (ptr : ℕ) (pre post : List Block) :
    offsets ptr (pre ++ post) = offsets ptr pre ++ offsets (ptr + span pre) post := by
  induction pre generalizing ptr with
  | nil => rfl
  | cons b pre ih => rw [List.cons_append, offsets, offsets, ih, span_cons, Nat.add_assoc, List.cons_append]

theorem offset_outside (hpos : ∀ c ∈ pre ++ b :: post, 0 < c.size) (ho : o ∈ offsets 0 (pre ++ b :: post)) :
    o ≤ span pre ∨ span pre + b.size ≤ o := by
  rw [offsets_append, List.mem_append, Nat.zero_add, offsets, List.mem_cons] at ho
  rcases ho with ho | rfl | ho
  · obtain ⟨-, hlt⟩ := mem_offsets (fun c hc => hpos c (List.mem_append_left _ hc)) ho
    exact .inl (by omega)
  · exact .inl (Nat.le_refl _)
  · have hrest : ∀ c ∈ post, 0 < c.size := fun c hc =>
      hpos c (List.mem_append_right _ (List.mem_cons_of_mem _ hc))
    exact .inr (mem_offsets hrest ho).1

theorem heapOk_write (hs : HeapOk s) {rmem : ℕ} {ram : ℕ → Mem} (hown : s.own rmem = some m)
    (hram : ∀ o, ram o ≠ s.heap.ram o → rmem < o + sizeofStructMem ∧ o < rmem + m) :
    ∃ s', s.step (.write rmem ram) = some s' ∧ HeapOk s' := by
  obtain ⟨l, hw, ho⟩ := hs
  obtain ⟨p, n, rfl, hheld, hmin, hdvd, hroom⟩ := ho.block hown
  have hend := hheld.le_span
  rw [hw.room] at hend
  obtain ⟨pre, post, rfl, rfl⟩ := hheld
  have hsame : ∀ o, o ≤ span pre ∨ span pre + n ≤ o → ram o = s.heap.ram o := by
    intro o houtside
    by_contra hne
    obtain ⟨hlt, hlt'⟩ := hram o hne
    omega
  refine ⟨_, rfl, _, ⟨⟨?_, hw.room, ?_, hw.sizes, hw.lfree⟩, hw.coalesced⟩, ho⟩
  · exact seg_congr hw.seg fun o ho => hsame o (offset_outside (b := ⟨true, n⟩) hw.pos ho)
  · show (ram memSizeAligned).used = true
    rw [hsame memSizeAligned (.inr hend)]
    exact hw.ramEnd

/-- A step that the caller may take goes through, and keeps the heap in order. -/
theorem heapOk_step (hs : HeapOk s) {a : HeapAct} (ha : s.ok a) : ∃ s', s.step a = some s' ∧ HeapOk s' := by
  cases a with
  | malloc size => exact heapOk_malloc hs size
  | free rmem => exact heapOk_free hs ha
  | trim rmem newsize =>
    obtain ⟨n, hn, hle⟩ := ha
    exact heapOk_trim hs hn hle
  | write rmem ram =>
    obtain ⟨n, hn, hram⟩ := ha
    exact heapOk_write hs hn hram

theorem heapOk_reach (hs : heapMachine.Reach HeapSys.ok s) : HeapOk s := by
  refine hs.invariant ?_ ?_
  · rintro _ ⟨ram, rfl⟩
    refine ⟨_, wf_memInit ram, ?_, fun q m hq => absurd hq nofun⟩
    intro p n hp
    exact absurd hp (not_holds_iff.mpr (by simp) p n)
  · intro s a s' hs ha hstep
    obtain ⟨s₁, hs₁, hok⟩ := heapOk_step hs ha
    rwa [Option.some.inj (hstep.symm.trans hs₁)]

/-! ## What callers rely on -/

/-- A pointer that `mem_malloc` returns is not owned yet: its block was free. -/
theorem malloc_fresh (hw : Wf s.heap l) (ho : Owned s.own l) {h' : Heap}
    (hmalloc : s.heap.memMalloc size = some (h', some q)) : s.own q = none := by
  by_cases hnone : size = 0 ∨ memSizeAligned < expandSize size ∨
      firstFit (expandSize size + sizeofStructMem) l = none
  · rw [memMalloc_none hw hnone] at hmalloc
    exact absurd (Prod.mk.inj (Option.some.inj hmalloc)).2.symm (Option.some_ne_none q)
  · simp only [not_or, Nat.not_lt] at hnone
    obtain ⟨hsize, hle, hfit⟩ := hnone
    obtain ⟨p, hp⟩ := Option.ne_none_iff_exists'.mp hfit
    obtain ⟨h₁, l', k, hmalloc', -⟩ := memMalloc_some hw hsize hle hp
    obtain rfl : p + sizeofStructMem = q := by
      rw [hmalloc'] at hmalloc
      exact Option.some.inj (Prod.mk.inj (Option.some.inj hmalloc)).2
    obtain ⟨pre, b, post, rfl, rfl, hfree, -, -⟩ := firstFit_eq_some hp
    by_contra hown
    obtain ⟨m, hm⟩ := Option.ne_none_iff_exists'.mp hown
    obtain ⟨p', n, hp', hheld⟩ := ho.owned _ m hm
    obtain rfl : span pre = p' := by omega
    rcases holds_append.mp hheld with hpre | ⟨-, hpost⟩
    · have hend := hpre.le_span
      have hpos := hw.holds_pos hheld
      omega
    · have hb := hw.pos b (by simp)
      rcases holds_cons.mp hpost with ⟨-, rfl⟩ | ⟨hle', -⟩
      · exact Bool.noConfusion hfree
      · omega

/-- What is handed out is aligned, lies within the heap, and neither overlaps what else is handed out nor its header;
what is asked for, up to 65532 bytes, fits in what is handed out for it; and no assertion of `mem.c` fails, whatever
is done with it. -/
theorem heap_regions (hs : heapMachine.Reach HeapSys.ok s) :
    (∀ q m, s.own q = some m → q % 4 = 0 ∧ sizeofStructMem ≤ q ∧ q + m ≤ memSizeAligned) ∧
    (∀ q m q' m', s.own q = some m → s.own q' = some m' → q ≠ q' →
      q + m ≤ q' - sizeofStructMem ∨ q' + m' ≤ q - sizeofStructMem) ∧
    (∀ size ≤ 65532, ∀ h' q, s.heap.memMalloc size = some (h', some q) →
      ∃ s' m, s.step (.malloc size) = some s' ∧ s'.heap = h' ∧ s.own q = none ∧ s'.own q = some m ∧ size ≤ m) ∧
    ∀ a, s.ok a → ∃ s', s.step a = some s' := by
  have hok := heapOk_reach hs
  obtain ⟨l, hw, ho⟩ := hok
  refine ⟨?_, ?_, ?_, ?_⟩
  · intro q m hq
    obtain ⟨p, n, rfl, hheld, -, -, hroom⟩ := ho.block hq
    have hend := hheld.le_span
    rw [hw.room] at hend
    obtain ⟨pre, post, rfl, rfl⟩ := hheld
    have hdvd : 4 ∣ span pre := dvd_span fun b hb => hw.sizes b (List.mem_append_left _ hb)
    unfold sizeofStructMem at hroom ⊢
    omega
  · intro q m q' m' hq hq' hne
    obtain ⟨p, n, rfl, hheld, -, -, hroom⟩ := ho.block hq
    obtain ⟨p', n', rfl, hheld', -, -, hroom'⟩ := ho.block hq'
    rcases hheld.disjoint hheld' with ⟨heq, -⟩ | hle | hle
    · exact absurd (congrArg (· + sizeofStructMem) heq) hne
    · exact .inl (by omega)
    · exact .inr (by omega)
  · intro size hsize h' q hmalloc
    refine ⟨⟨h', Function.update s.own q (some (expandSize size))⟩, expandSize size, ?_, rfl, ?_,
      Function.update_self .., le_expandSize hsize⟩
    · rw [HeapSys.step, hmalloc]
      rfl
    · exact malloc_fresh hw ho hmalloc
  · intro a ha
    obtain ⟨s', hs', -⟩ := heapOk_step ⟨l, hw, ho⟩ ha
    exact ⟨s', hs'⟩

/-- A heap of zeroes, after `mem_init`. -/
def HeapSys.boot : HeapSys := ⟨memInit fun _ => ⟨0, 0, false⟩, fun _ => none⟩

theorem reach_boot : heapMachine.Reach HeapSys.ok .boot := .init ⟨_, rfl⟩

theorem ok_malloc (size : ℕ) (s : HeapSys) : s.ok (.malloc size) := trivial

theorem heap_regions_two : ∃ s, heapMachine.run .boot [.malloc 100, .malloc 3] = some s ∧
    s.own 8 = some 100 ∧ s.own 116 = some 12 ∧ (8 + 100 ≤ 116 - 8 ∨ 116 + 12 ≤ 8 - 8) ∧
    (∃ s' m, s.step (.malloc 50) = some s' ∧ s'.own 136 = some m ∧ 50 ≤ m) ∧
    ∃ s', s.step (.trim 8 40) = some s' := by
  refine ⟨_, rfl, rfl, rfl, ?_, ?_, ?_⟩
  all_goals
    have hregions := heap_regions (reach_boot.steps
      (.of_run (l := [.malloc 100, .malloc 3]) (by simp [ok_malloc]) rfl))
  · exact hregions.2.1 8 100 116 12 rfl rfl (by decide)
  · obtain ⟨s', m, hstep, -, -, hown, hle⟩ := hregions.2.2.1 50 (by decide) _ 136 rfl
    exact ⟨s', m, hstep, hown, hle⟩
  · exact hregions.2.2.2 (.trim 8 40) ⟨100, rfl, by decide⟩

/-- `mem_malloc` takes the first free block that is large enough for up to 65532 bytes, and fails only when there is
none. -/
theorem heap_malloc (hs : heapMachine.Reach HeapSys.ok s) (hmax : size ≤ 65532) :
    ∃ h' r, s.heap.memMalloc size = some (h', r) ∧
      (r = none ↔ size = 0 ∨ ∀ b ∈ s.heap.blocks, b.used = true ∨ b.size < size + sizeofStructMem) ∧
      ∀ q, r = some q → ∃ pre b post, s.heap.blocks = pre ++ b :: post ∧ q = span pre + sizeofStructMem ∧
        b.used = false ∧ size + sizeofStructMem ≤ b.size ∧
        ∀ c ∈ pre, c.used = true ∨ c.size < size + sizeofStructMem := by
  obtain ⟨l, hw, ho⟩ := heapOk_reach hs
  rw [hw.blocks_eq]
  have hroom : ∀ b ∈ l, (b.size < expandSize size + sizeofStructMem ↔ b.size < size + sizeofStructMem) := by
    intro b hb
    have hle := size_le_span hb
    rw [hw.room] at hle
    exact room_iff (hw.sizes b hb) hle hmax
  by_cases hzero : size = 0
  · exact ⟨_, none, memMalloc_none hw (.inl hzero), iff_of_true rfl (.inl hzero), nofun⟩
  cases hfit : firstFit (expandSize size + sizeofStructMem) l with
  | none =>
    refine ⟨_, none, memMalloc_none hw (.inr (.inr hfit)), iff_of_true rfl (.inr ?_), nofun⟩
    exact fun b hb => (firstFit_eq_none_iff.mp hfit b hb).imp_right (hroom b hb).mp
  | some p =>
    obtain ⟨pre, b, post, rfl, rfl, hfree, hfits, hpre⟩ := firstFit_eq_some hfit
    have hb : b ∈ pre ++ b :: post := by simp
    have hle := size_le_span hb
    rw [hw.room] at hle
    obtain ⟨h', l', k, hmalloc, -⟩ := memMalloc_some hw hzero (by omega) hfit
    have henough : size + sizeofStructMem ≤ b.size :=
      Nat.not_lt.mp fun hlt => Nat.not_lt.mpr hfits ((hroom b hb).mpr hlt)
    refine ⟨h', _, hmalloc, iff_of_false nofun ?_, ?_⟩
    · rintro (h | h)
      · exact hzero h
      · rcases h b hb with hused | hlt
        · exact absurd (hfree.symm.trans hused) nofun
        · omega
    · intro q hq
      exact ⟨pre, b, post, rfl, (Option.some.inj hq).symm, hfree, henough, fun c hc =>
        (hpre c hc).imp_right (hroom c (List.mem_append_left _ hc)).mp⟩

/-- Three regions are handed out and the second is given back. -/
def gapRun : List HeapAct := [.malloc 100, .malloc 40, .malloc 3, .free 116]

/-- Forty bytes fit where they were before, 41 only behind all that is in use, and 11000 nowhere. -/
theorem heap_malloc_gap : ∃ s, heapMachine.run .boot gapRun = some s ∧
    s.heap.blocks = [⟨true, 108⟩, ⟨false, 48⟩, ⟨true, 20⟩, ⟨false, memSizeAligned - 176⟩] ∧
    (∃ h' pre b post, s.heap.memMalloc 40 = some (h', some 116) ∧ s.heap.blocks = pre ++ b :: post ∧
      span pre = 108 ∧ b.used = false ∧ 48 ≤ b.size) ∧
    (∃ h' r, s.heap.memMalloc 41 = some (h', r) ∧ r ≠ none) ∧
    ∃ h', s.heap.memMalloc 11000 = some (h', none) := by
  have hrun : (heapMachine.run .boot gapRun).map (fun s => (s.heap.blocks, (s.heap.memMalloc 40).map Prod.snd)) =
      some ([⟨true, 108⟩, ⟨false, 48⟩, ⟨true, 20⟩, ⟨false, memSizeAligned - 176⟩], some (some 116)) := by
    decide +kernel
  obtain ⟨s, hs, hvalues⟩ := Option.map_eq_some_iff.mp hrun
  obtain ⟨hblocks, hfirst⟩ := Prod.mk.inj hvalues
  have htaken := reach_boot.steps (.of_run (l := [.malloc 100, .malloc 40, .malloc 3]) (by simp [ok_malloc]) rfl)
  have hreach : heapMachine.Reach HeapSys.ok s :=
    .step htaken (a := .free 116) (Option.some_ne_none _) hs
  refine ⟨s, hs, hblocks, ?_, ?_, ?_⟩
  · obtain ⟨h', r, hmalloc, -, hsome⟩ := heap_malloc hreach (show 40 ≤ 65532 by decide)
    rw [hmalloc] at hfirst
    obtain rfl : r = some 116 := Option.some.inj hfirst
    obtain ⟨pre, b, post, hb, hq, hfree, hle, -⟩ := hsome 116 rfl
    unfold sizeofStructMem at hq hle
    exact ⟨h', pre, b, post, hmalloc, hb, by omega, hfree, hle⟩
  · obtain ⟨h', r, hmalloc, hnone, -⟩ := heap_malloc hreach (show 41 ≤ 65532 by decide)
    refine ⟨h', r, hmalloc, fun hr => ?_⟩
    rcases hnone.mp hr with hzero | hall
    · exact absurd hzero (by decide)
    · rw [hblocks] at hall
      exact absurd (hall _ (List.mem_cons_of_mem _ (List.mem_cons_of_mem _ (List.mem_cons_of_mem _
        List.mem_cons_self)))) (by decide)
  · obtain ⟨h', r, hmalloc, hnone, -⟩ := heap_malloc hreach (show 11000 ≤ 65532 by decide)
    obtain rfl : r = none := hnone.mpr (.inr (by rw [hblocks]; decide))
    exact ⟨h', hmalloc⟩

/-- The blocks fill the heap, no two free ones are neighbours, and the ones in use are those handed out; the header
of each points to the one behind it and to the one in front. When all is given back the heap is as it was. -/
theorem heap_blocks (hs : heapMachine.Reach HeapSys.ok s) :
    span s.heap.blocks = memSizeAligned ∧ Coalesced s.heap.blocks ∧ s.heap.lfree = firstFree s.heap.blocks ∧
    (∀ q, s.own q ≠ none ↔ ∃ p n, q = p + sizeofStructMem ∧ Holds s.heap.blocks p n) ∧
    (∀ pre b post, s.heap.blocks = pre ++ b :: post →
      s.heap.ram (span pre) = ⟨span pre + b.size, lastHeader 0 0 pre, b.used⟩) ∧
    ((∀ q, s.own q = none) → s.heap.blocks = [⟨false, memSizeAligned⟩] ∧ s.heap.lfree = 0) := by
  obtain ⟨l, hw, ho⟩ := heapOk_reach hs
  rw [hw.blocks_eq]
  refine ⟨hw.room, hw.coalesced, hw.lfree, fun q => ⟨?_, ?_⟩, ?_, fun hown => ?_⟩
  · intro hq
    obtain ⟨m, hm⟩ := Option.ne_none_iff_exists'.mp hq
    exact ho.owned q m hm
  · rintro ⟨p, n, rfl, hheld⟩
    obtain ⟨m, hm, -⟩ := ho.held p n hheld
    rw [hm]
    exact nofun
  · rintro pre b post rfl
    exact hw.header
  · have hfree : ∀ b ∈ l, b.used = false := not_holds_iff.mp fun p n hheld => by
      obtain ⟨m, hm, -⟩ := ho.held p n hheld
      exact absurd (hm.symm.trans (hown _)) nofun
    have hl := eq_singleton_of_free hw.coalesced hfree (by rw [hw.room]; decide)
    rw [hw.room] at hl
    refine ⟨hl, ?_⟩
    rw [hw.lfree, hl]
    rfl

theorem heap_blocks_freed : ∃ s, heapMachine.run .boot [.malloc 100, .malloc 3, .free 8, .free 116] = some s ∧
    s.heap.blocks = [⟨false, memSizeAligned⟩] := by
  refine ⟨_, rfl, ((heap_blocks ?_).2.2.2.2.2 ?_).1⟩
  · have htaken := reach_boot.steps (.of_run (l := [.malloc 100, .malloc 3]) (by simp [ok_malloc]) rfl)
    refine .step (.step htaken (a := .free 8) ?_ rfl) (a := .free 116) ?_ rfl <;> exact nofun
  · intro q
    show Function.update (Function.update (Function.update (Function.update HeapSys.boot.own 8 (some 100)) 116
      (some 12)) 8 none) 116 none q = none
    simp only [Function.update_apply]
    split_ifs <;> rfl

end LoraGateway.Core
