import LoraGateway.Lib.Blocks
import Mathlib.Logic.Function.Basic

/-!
# The heap of the stack

`mem.c`, which pbufs of type `PBUF_RAM` come from. The blocks are chained by headers that lie in the heap itself,
in front of the bytes handed out; `lfree` is where the search for a free block starts. `Rep h l` says that the
headers chain up the blocks `l`, and `Wf h l` that no two free ones are neighbours on top of that. Each function
takes a heap that is well formed to one that is, with the blocks the theorem about it names.

Every function holds `mem_mutex`, so that it is one step. `none` is a failed assertion, after which nothing goes
on.
-/

namespace LoraGateway.Core

open Lib Blocks

/-- `struct mem`. -/
structure Mem where
  next : ℕ
  prev : ℕ
  used : Bool
  deriving DecidableEq

/-- `ram`, with the `struct mem` that starts at each offset, and `lfree`. Pointers are offsets into `ram`. The structs
that are in the chain do not overlap, and a function does not look at any other. -/
structure Heap where
  ram : ℕ → Mem
  lfree : ℕ

/-- `MEM_SIZE_ALIGNED`, and where `ram_end` is. -/
def memSizeAligned : ℕ := 1024 * 10

/-- `SIZEOF_STRUCT_MEM`. -/
def sizeofStructMem : ℕ := 8

/-- `MIN_SIZE_ALIGNED`. -/
def minSizeAligned : ℕ := 12

/-- `LWIP_MEM_ALIGN_SIZE`, into a variable of type `mem_size_t`. -/
def memAlignSize (size : ℕ) : ℕ := (size + 3) / 4 * 4 % 65536

/-- The size that is looked for: aligned, and not below the minimum. -/
def expandSize (size : ℕ) : ℕ :=
  if memAlignSize size < minSizeAligned then minSizeAligned else memAlignSize size

namespace Heap

variable (h : Heap)

def setRam (p : ℕ) (m : Mem) : Heap := { h with ram := Function.update h.ram p m }

def setNext (p next : ℕ) : Heap := h.setRam p { h.ram p with next := next }

def setPrev (p prev : ℕ) : Heap := h.setRam p { h.ram p with prev := prev }

def setUsed (p : ℕ) (used : Bool) : Heap := h.setRam p { h.ram p with used := used }

/-- `mem_init`, with whatever is in the memory. -/
def memInit (ram : ℕ → Mem) : Heap :=
  ((Heap.mk ram 0).setRam 0 ⟨memSizeAligned, 0, false⟩).setRam memSizeAligned
    ⟨memSizeAligned, memSizeAligned, true⟩

/-- Either half of `plug_holes`: the two structs become one. -/
def join (mem nmem : ℕ) : Heap :=
  let h := if h.lfree = nmem then { h with lfree := mem } else h
  let next := (h.ram nmem).next
  (h.setNext mem next).setPrev next mem

def plugHoles (mem : ℕ) : Option Heap :=
  if memSizeAligned ≤ mem ∨ (h.ram mem).used = true ∨ memSizeAligned < (h.ram mem).next then none else
    -- plug hole forward
    let nmem := (h.ram mem).next
    let h := if mem ≠ nmem ∧ (h.ram nmem).used = false ∧ nmem ≠ memSizeAligned then h.join mem nmem else h
    -- plug hole backward
    let pmem := (h.ram mem).prev
    some (if pmem ≠ mem ∧ (h.ram pmem).used = false then h.join pmem mem else h)

def memFree : Option ℕ → Option Heap
  | none => some h
  | some rmem =>
    if rmem % 4 ≠ 0 ∨ memSizeAligned ≤ rmem then none else
      let mem := rmem - sizeofStructMem
      if (h.ram mem).used = false then none else
        let h := h.setUsed mem false
        let h := if mem < h.lfree then { h with lfree := mem } else h
        h.plugHoles mem

/-- A new free struct at `ptr2` between the one at `ptr` and the one at `next`. -/
def carve (ptr ptr2 next : ℕ) : Heap :=
  let h := (h.setRam ptr2 ⟨next, ptr, false⟩).setNext ptr ptr2
  if next ≠ memSizeAligned then h.setPrev next ptr2 else h

def memTrim (rmem newsize : ℕ) : Option (Heap × Option ℕ) :=
  let newsize := expandSize newsize
  if memSizeAligned < newsize then some (h, none)
  else if memSizeAligned ≤ rmem then none
  else
    let ptr := rmem - sizeofStructMem
    let mem2 := (h.ram ptr).next
    let size := mem2 - ptr - sizeofStructMem
    if size < newsize then none
    else if newsize = size then some (h, some rmem)
    else
      let ptr2 := ptr + sizeofStructMem + newsize
      if (h.ram mem2).used = false then
        let next := (h.ram mem2).next
        let h := if h.lfree = mem2 then { h with lfree := ptr2 } else h
        some (h.carve ptr ptr2 next, some rmem)
      else if newsize + sizeofStructMem + minSizeAligned ≤ size then
        let h := if ptr2 < h.lfree then { h with lfree := ptr2 } else h
        some (h.carve ptr ptr2 mem2, some rmem)
      else some (h, some rmem)

/-- The `for` loop of `mem_malloc`: where the first block is that fits, `none` within the result if there is none. -/
def scan (size : ℕ) : ℕ → ℕ → Option (Option ℕ)
  | 0, _ => none
  | fuel + 1, ptr =>
    if ptr < memSizeAligned - size then
      if (h.ram ptr).used = false ∧ size ≤ (h.ram ptr).next - (ptr + sizeofStructMem) then some (some ptr)
      else scan size fuel (h.ram ptr).next
    else some none

/-- The loop that moves `lfree` on. -/
def findFree : ℕ → ℕ → Option ℕ
  | 0, _ => none
  | fuel + 1, cur =>
    if (h.ram cur).used = true ∧ cur ≠ memSizeAligned then findFree fuel (h.ram cur).next else some cur

/-- Enough for any walk along the chain. -/
def fuel : ℕ := memSizeAligned + 1

/-- The block at `ptr` is taken, and split if what remains is large enough for a block. -/
def take (ptr size : ℕ) : Heap :=
  let next := (h.ram ptr).next
  if size + sizeofStructMem + minSizeAligned ≤ next - (ptr + sizeofStructMem) then
    (h.carve ptr (ptr + sizeofStructMem + size) next).setUsed ptr true
  else h.setUsed ptr true

def adjustLfree (mem : ℕ) : Option Heap :=
  if mem = h.lfree then (h.findFree fuel h.lfree).map fun cur => { h with lfree := cur } else some h

def memMalloc (size : ℕ) : Option (Heap × Option ℕ) :=
  if size = 0 then some (h, none)
  else
    let size := expandSize size
    if memSizeAligned < size then some (h, none)
    else
      match h.scan size fuel h.lfree with
      | none => none
      | some none => some (h, none)
      | some (some mem) =>
        match (h.take mem size).adjustLfree mem with
        | none => none
        | some h' =>
          -- the assertions of `mem_malloc` on what it returns
          if mem + sizeofStructMem + size ≤ memSizeAligned ∧ (mem + sizeofStructMem) % 4 = 0 ∧ mem % 4 = 0 then
            some (h', some (mem + sizeofStructMem))
          else none

/-! ## Chains of headers -/

/-- The headers from `ptr` on chain up the blocks; `prev` is the header in front. -/
def Seg (ram : ℕ → Mem) : ℕ → ℕ → List Block → Prop
  | _, _, [] => True
  | prev, ptr, b :: l => ram ptr = ⟨ptr + b.size, prev, b.used⟩ ∧ Seg ram ptr (ptr + b.size) l

/-- Where the headers are. -/
def offsets : ℕ → List Block → List ℕ
  | _, [] => []
  | ptr, b :: l => ptr :: offsets (ptr + b.size) l

/-- The header of the last block, the one in front if there is none. -/
def lastHeader : ℕ → ℕ → List Block → ℕ
  | prev, _, [] => prev
  | _, ptr, b :: l => lastHeader ptr (ptr + b.size) l

end Heap

open Heap

/-- The smallest block, header included. -/
def minBlock : ℕ := sizeofStructMem + minSizeAligned

structure Rep (h : Heap) (l : List Block) : Prop where
  seg : Seg h.ram 0 0 l
  room : span l = memSizeAligned
  ramEnd : (h.ram memSizeAligned).used = true
  sizes : ∀ b ∈ l, minBlock ≤ b.size ∧ 4 ∣ b.size
  lfree : h.lfree = firstFree l

structure Wf (h : Heap) (l : List Block) : Prop extends Rep h l where
  coalesced : Coalesced l

variable {h : Heap} {ram ram' : ℕ → Mem} {prev prev' ptr : ℕ} {l pre mid mid' post : List Block} {o n s : ℕ}

theorem seg_append : Seg ram prev ptr (pre ++ post) ↔
    Seg ram prev ptr pre ∧ Seg ram (lastHeader prev ptr pre) (ptr + span pre) post := by
  induction pre generalizing prev ptr with
  | nil => simp [Seg, lastHeader]
  | cons b pre ih =>
    rw [List.cons_append, Seg, Seg, ih, and_assoc, lastHeader, span_cons, Nat.add_assoc]

theorem lastHeader_append (prev ptr : ℕ) (pre post : List Block) : lastHeader prev ptr (pre ++ post) =
    lastHeader (lastHeader prev ptr pre) (ptr + span pre) post := by
  induction pre generalizing prev ptr with
  | nil => rfl
  | cons b pre ih => rw [List.cons_append, lastHeader, ih, lastHeader, span_cons, Nat.add_assoc]

theorem mem_offsets (hl : ∀ b ∈ l, 0 < b.size) (ho : o ∈ offsets ptr l) : ptr ≤ o ∧ o < ptr + span l := by
  induction l generalizing ptr with
  | nil => exact absurd ho List.not_mem_nil
  | cons b l ih =>
    have hb := hl b List.mem_cons_self
    rw [span_cons]
    rcases List.mem_cons.mp ho with rfl | ho
    · omega
    · obtain ⟨hle, hlt⟩ := ih (fun c hc => hl c (List.mem_cons_of_mem b hc)) ho
      omega

theorem seg_congr (h : Seg ram prev ptr l) (heq : ∀ o ∈ offsets ptr l, ram' o = ram o) :
    Seg ram' prev ptr l := by
  induction l generalizing prev ptr with
  | nil => trivial
  | cons b l ih =>
    obtain ⟨hb, hl⟩ := h
    exact ⟨(heq ptr List.mem_cons_self).trans hb, ih hl fun o ho => heq o (List.mem_cons_of_mem ptr ho)⟩

/-- The blocks in the middle are replaced by others that take the same room. -/
theorem seg_splice (h : Seg ram 0 0 (pre ++ mid ++ post)) (hspan : span mid' = span mid)
    (hsize : ∀ b ∈ pre ++ mid ++ post, 0 < b.size)
    (hpre : ∀ o < span pre, ram' o = ram o)
    (hmid : Seg ram' (lastHeader 0 0 pre) (span pre) mid')
    (hfirst : post ≠ [] → ram' (span pre + span mid) =
      { ram (span pre + span mid) with prev := lastHeader (lastHeader 0 0 pre) (span pre) mid' })
    (hpost : ∀ o, span pre + span mid < o → o < span (pre ++ mid ++ post) → ram' o = ram o) :
    Seg ram' 0 0 (pre ++ mid' ++ post) := by
  have hparts := h
  simp only [seg_append, Nat.zero_add] at hparts ⊢
  refine ⟨⟨seg_congr hparts.1.1 fun o ho => hpre o ?_, hmid⟩, ?_⟩
  · have hlt := (mem_offsets (fun b hb => hsize b (by simp [hb])) ho).2
    omega
  · cases post with
    | nil => trivial
    | cons b post =>
      obtain ⟨hb, hrest⟩ := hparts.2
      rw [span_append] at hb hrest ⊢
      rw [hspan]
      refine ⟨?_, seg_congr hrest fun o ho => hpost o ?_ ?_⟩
      · rw [hfirst (List.cons_ne_nil b post), hb, lastHeader_append 0 0 pre mid', Nat.zero_add]
      · have hpos := hsize b (by simp)
        have hle := (mem_offsets (fun c hc => hsize c (by simp [hc])) ho).1
        omega
      · have hlt := (mem_offsets (fun c hc => hsize c (by simp [hc])) ho).2
        simp only [span_append, span_cons]
        omega

end LoraGateway.Core
