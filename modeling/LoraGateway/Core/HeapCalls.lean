import LoraGateway.Core.Heap
import Mathlib.Data.List.Chain

/-!
# What the functions of the heap do to its blocks

A block that is freed is merged with the free blocks next to it, one that is taken or trimmed is split where the
rest is large enough. In each case the other blocks stay where they are, with their sizes.

The blocks are cut in two where the function works, and those in the middle are replaced by others that take the same
room (`Rep.splice`). So each function is about a few headers, and its theorem says which list of blocks it makes of
which. What is free and what is in use is then a matter of these lists.
-/

namespace LoraGateway.Core

open Lib Blocks Heap

variable {h h' : Heap} {l pre post : List Block} {b : Block} {k m n o p s ptr size : ℕ}

@[simp] theorem ram_setRam (h : Heap) (p : ℕ) (m : Mem) (o : ℕ) :
    (h.setRam p m).ram o = if o = p then m else h.ram o := Function.update_apply ..

@[simp] theorem lfree_setRam (h : Heap) (p : ℕ) (m : Mem) : (h.setRam p m).lfree = h.lfree := rfl

theorem lfree_lower (h : Heap) (p : ℕ) : (if p < h.lfree then { h with lfree := p } else h) =
    { h with lfree := if p < h.lfree then p else h.lfree } := by
  split <;> rfl

theorem Rep.pos (hr : Rep h l) : ∀ b ∈ l, 0 < b.size := fun b hb => by
  have hmin := (hr.sizes b hb).1
  unfold minBlock sizeofStructMem at hmin
  omega

theorem Rep.header (hr : Rep h (pre ++ b :: post)) :
    h.ram (span pre) = ⟨span pre + b.size, lastHeader 0 0 pre, b.used⟩ := by
  have hseg := (seg_append.mp hr.seg).2.1
  rwa [Nat.zero_add] at hseg

theorem Rep.end_le (hr : Rep h (pre ++ b :: post)) : span pre + b.size + span post = memSizeAligned := by
  have hspan := hr.room
  rw [span_append, span_cons] at hspan
  omega

theorem dvd_span (hl : ∀ b ∈ l, minBlock ≤ b.size ∧ 4 ∣ b.size) : 4 ∣ span l := by
  induction l with
  | nil => exact ⟨0, rfl⟩
  | cons b l ih =>
    rw [span_cons]
    exact Nat.dvd_add (hl b List.mem_cons_self).2 (ih fun c hc => hl c (List.mem_cons_of_mem b hc))

/-- Blocks that take the same room again. -/
theorem Rep.splice {mid : List Block} (hr : Rep h (pre ++ mid ++ post)) (h' : Heap) (mid' : List Block)
    (hspan : span mid' = span mid)
    (hpre : ∀ o < span pre, h'.ram o = h.ram o)
    (hmid : Seg h'.ram (lastHeader 0 0 pre) (span pre) mid')
    (hfirst : post ≠ [] → h'.ram (span pre + span mid) =
      { h.ram (span pre + span mid) with prev := lastHeader (lastHeader 0 0 pre) (span pre) mid' })
    (hpost : ∀ o, span pre + span mid < o → h'.ram o = h.ram o)
    (hend : (h'.ram (span pre + span mid)).used = (h.ram (span pre + span mid)).used)
    (hsize : ∀ b ∈ mid', minBlock ≤ b.size ∧ 4 ∣ b.size) (hlfree : h'.lfree = firstFree (pre ++ mid' ++ post)) :
    Rep h' (pre ++ mid' ++ post) := by
  have htotal := hr.room
  rw [span_append, span_append] at htotal
  refine ⟨?_, ?_, ?_, ?_, hlfree⟩
  · exact seg_splice hr.seg hspan hr.pos hpre hmid hfirst fun o ho _ => hpost o ho
  · rw [span_append, span_append, hspan]
    exact htotal
  · have hramEnd := hr.ramEnd
    show (h'.ram memSizeAligned).used = true
    rcases Nat.lt_or_ge (span pre + span mid) memSizeAligned with hlt | hge
    · rw [hpost _ hlt]
      exact hramEnd
    · have heq : memSizeAligned = span pre + span mid := by omega
      rw [heq, hend, ← heq]
      exact hramEnd
  · intro b hb
    rcases List.mem_append.mp hb with hb | hb
    · rcases List.mem_append.mp hb with hb | hb
      · exact hr.sizes b (by simp [hb])
      · exact hsize b hb
    · exact hr.sizes b (by simp [hb])

/-! ## Merging and splitting -/

theorem rep_join (hr : Rep h (pre ++ ⟨false, s⟩ :: ⟨false, n⟩ :: post)) :
    Rep (h.join (span pre) (span pre + s)) (pre ++ ⟨false, s + n⟩ :: post) := by
  have hs := hr.sizes ⟨false, s⟩ (by simp)
  have hn := hr.sizes ⟨false, n⟩ (by simp)
  have hspos := hr.pos ⟨false, s⟩ (by simp)
  have hnpos := hr.pos ⟨false, n⟩ (by simp)
  have hmem : h.ram (span pre) = ⟨span pre + s, lastHeader 0 0 pre, false⟩ := hr.header
  have hnmem : (h.ram (span pre + s)).next = span pre + s + n := by
    have hrep : Rep h ((pre ++ [⟨false, s⟩]) ++ ⟨false, n⟩ :: post) := by simpa using hr
    have hheader := hrep.header
    rw [span_append, span_cons, span_nil, Nat.add_zero] at hheader
    exact congrArg Mem.next hheader
  -- `lfree` is at the first of the two or in front of it
  have hlfree : h.lfree ≠ span pre + s := by
    have hle : firstFree (pre ++ ⟨false, s⟩ :: ⟨false, n⟩ :: post) ≤ span pre := firstFree_append_le rfl
    rw [hr.lfree]
    simp only at hspos
    omega
  have hfree : firstFree (pre ++ ⟨false, s⟩ :: ⟨false, n⟩ :: post) = firstFree (pre ++ ⟨false, s + n⟩ :: post) :=
    firstFree_append_free rfl rfl
  simp only at hs hn hspos hnpos
  have hr' : Rep h (pre ++ [⟨false, s⟩, ⟨false, n⟩] ++ post) := by simpa using hr
  have hram : ∀ o, (h.join (span pre) (span pre + s)).ram o = if o = span pre + s + n then
      { h.ram o with prev := span pre } else if o = span pre then { h.ram o with next := span pre + s + n }
      else h.ram o := by
    intro o
    simp only [join, if_neg hlfree, hnmem, setPrev, setNext, ram_setRam]
    split_ifs <;> first | rfl | omega | simp_all
  have hsplice := hr'.splice (h.join (span pre) (span pre + s)) [⟨false, s + n⟩] (by simp)
    (fun o ho => by rw [hram, if_neg (by omega), if_neg (by omega)])
    ⟨by rw [hram, if_neg (by omega), if_pos rfl, hmem, Nat.add_assoc], trivial⟩
    (fun _ => by simp only [span_cons, span_nil, Nat.add_zero, ← Nat.add_assoc]; rw [hram, if_pos rfl]; rfl)
    (fun o ho => by
      simp only [span_cons, span_nil, Nat.add_zero] at ho
      rw [hram, if_neg (by omega), if_neg (by omega)])
    (by simp only [span_cons, span_nil, Nat.add_zero, ← Nat.add_assoc]; rw [hram, if_pos rfl])
    (fun b hb => by
      obtain rfl := List.mem_singleton.mp hb
      exact ⟨hs.1.trans (Nat.le_add_right s n), Nat.dvd_add hs.2 hn.2⟩)
    (by simp only [join, if_neg hlfree, setPrev, setNext, lfree_setRam]
        rw [hr.lfree, hfree]
        simp)
  simpa using hsplice

/-- The block at the end of `pre` and what is behind it cut anew: `k` bytes and a free block of the rest. -/
theorem rep_carve {mid : List Block} {used : Bool} (hr : Rep h (pre ++ b :: mid ++ post)) (h' : Heap)
    (hk : minBlock ≤ k) (hdvd : 4 ∣ k) (hrest : k + minBlock ≤ b.size + span mid)
    (hram : ∀ o, h'.ram o =
      if o = span pre + (b.size + span mid) ∧ o ≠ memSizeAligned then { h.ram o with prev := span pre + k }
      else if o = span pre then ⟨span pre + k, (h.ram o).prev, used⟩
      else if o = span pre + k then ⟨span pre + (b.size + span mid), span pre, false⟩ else h.ram o)
    (hlfree : h'.lfree = firstFree (pre ++ ⟨used, k⟩ :: ⟨false, b.size + span mid - k⟩ :: post)) :
    Rep h' (pre ++ ⟨used, k⟩ :: ⟨false, b.size + span mid - k⟩ :: post) := by
  have hb : Rep h (pre ++ b :: (mid ++ post)) := by simpa using hr
  have hheader := hb.header
  have hmid : 4 ∣ b.size + span mid := by
    rw [← span_cons]
    exact dvd_span fun c hc => hr.sizes c (by simp at hc ⊢; tauto)
  have hpost : post ≠ [] → span pre + (b.size + span mid) ≠ memSizeAligned := by
    intro hne
    obtain ⟨c, rest, rfl⟩ := List.exists_cons_of_ne_nil hne
    have hpos := hr.pos c (by simp)
    have hroom := hr.room
    simp only [span_append, span_cons] at hroom
    omega
  have hpos : 0 < minBlock := by decide
  have hsplice := hr.splice h' [⟨used, k⟩, ⟨false, b.size + span mid - k⟩]
    (by simp only [span_cons, span_nil]; omega)
    (fun o ho => by rw [hram, if_neg (by omega), if_neg (by omega), if_neg (by omega)])
    (by
      refine ⟨?_, ?_, trivial⟩
      · rw [hram, if_neg (by omega), if_pos rfl, hheader]
      · rw [hram, if_neg (by simp only; omega), if_neg (by simp only; omega), if_pos rfl]
        simp only [Mem.mk.injEq, and_true]
        omega)
    (fun hne => by rw [span_cons, hram, if_pos ⟨rfl, hpost hne⟩]; rfl)
    (fun o ho => by
      rw [span_cons] at ho
      rw [hram, if_neg (by omega), if_neg (by omega), if_neg (by omega)])
    (by
      rw [span_cons, hram]
      split
      · rfl
      · rw [if_neg (by omega), if_neg (by omega)])
    (fun c hc => by
      simp only [List.mem_cons, List.not_mem_nil, or_false] at hc
      rcases hc with rfl | rfl
      · exact ⟨hk, hdvd⟩
      · exact ⟨by simp only; omega, Nat.dvd_sub hmid hdvd⟩)
    (by simpa using hlfree)
  simpa using hsplice

/-! ## Freeing -/

theorem rep_setUsed {used : Bool} (hr : Rep h (pre ++ b :: post)) {lfree' : ℕ}
    (hlfree : lfree' = firstFree (pre ++ ⟨used, b.size⟩ :: post)) :
    Rep { h.setUsed (span pre) used with lfree := lfree' } (pre ++ ⟨used, b.size⟩ :: post) := by
  have hb := hr.sizes b (by simp)
  have hpos := hr.pos b (by simp)
  have hr' : Rep h (pre ++ [b] ++ post) := by simpa using hr
  have hsplice := hr'.splice { h.setUsed (span pre) used with lfree := lfree' } [⟨used, b.size⟩] (by simp)
    (fun o ho => by simp [setUsed, Nat.ne_of_lt ho])
    ⟨by simp [setUsed, hr.header], trivial⟩
    (fun hne => by
      obtain ⟨c, rest, rfl⟩ := List.exists_cons_of_ne_nil hne
      have hrep : Rep h ((pre ++ [b]) ++ c :: rest) := by simpa using hr
      have hheader := hrep.header
      rw [span_append, span_cons, span_nil, Nat.add_zero] at hheader
      simp [setUsed, hheader, lastHeader, lastHeader_append, Nat.ne_of_gt hpos])
    (fun o ho => by
      simp only [span_cons, span_nil, Nat.add_zero] at ho
      simp [setUsed, show o ≠ span pre by omega])
    (by simp [setUsed, Nat.ne_of_gt hpos])
    (fun c hc => by
      obtain rfl := List.mem_singleton.mp hc
      exact hb)
    (by simpa using hlfree)
  simpa using hsplice

theorem plug_forward (hr : Rep h (pre ++ ⟨false, s⟩ :: post)) (hpost : Coalesced post) :
    ∃ h' s' post', (if span pre ≠ span pre + s ∧ (h.ram (span pre + s)).used = false ∧
        span pre + s ≠ memSizeAligned then h.join (span pre) (span pre + s) else h) = h' ∧
      Rep h' (pre ++ ⟨false, s'⟩ :: post') ∧ Coalesced post' ∧ (∀ b ∈ post'.head?, b.used = true) ∧
      ∀ p n, Holds (pre ++ ⟨false, s'⟩ :: post') p n ↔ Holds (pre ++ ⟨false, s⟩ :: post) p n := by
  have hspos := hr.pos ⟨false, s⟩ (by simp)
  simp only at hspos
  cases post with
  | nil =>
    have hend : span pre + s = memSizeAligned := by simpa using hr.end_le
    have hused := hr.ramEnd
    refine ⟨h, s, [], if_neg ?_, hr, hpost, nofun, fun p n => Iff.rfl⟩
    rw [hend, hused]
    exact fun hcond => absurd hcond.2.1 nofun
  | cons b post =>
    have hheader : (h.ram (span pre + s)).used = b.used := by
      have hrep : Rep h ((pre ++ [⟨false, s⟩]) ++ b :: post) := by simpa using hr
      have hmem := hrep.header
      rw [span_append, span_cons, span_nil, Nat.add_zero] at hmem
      exact congrArg Mem.used hmem
    rcases b with ⟨used, n⟩
    cases used with
    | true =>
      refine ⟨h, s, _, if_neg ?_, hr, hpost, by simp, fun p n => Iff.rfl⟩
      rw [hheader]
      exact fun hcond => absurd hcond.2.1 nofun
    | false =>
      have hnpos := hr.pos ⟨false, n⟩ (by simp)
      have hend := hr.end_le
      rw [span_cons] at hend
      simp only at hend hnpos
      refine ⟨_, s + n, post, if_pos ⟨by omega, hheader, by omega⟩, rep_join hr, hpost.tail, ?_, ?_⟩
      · intro c hc
        exact ((List.isChain_cons.mp hpost).1 c hc).resolve_left nofun
      · exact fun p n => holds_merge

theorem plug_backward (hr : Rep h (pre ++ ⟨false, s⟩ :: post)) (hpre : Coalesced pre) (hpost : Coalesced post)
    (hhead : ∀ b ∈ post.head?, b.used = true) :
    ∃ h' l', (if lastHeader 0 0 pre ≠ span pre ∧ (h.ram (lastHeader 0 0 pre)).used = false then
        h.join (lastHeader 0 0 pre) (span pre) else h) = h' ∧ Wf h' l' ∧
      ∀ p n, Holds l' p n ↔ Holds (pre ++ ⟨false, s⟩ :: post) p n := by
  have hbehind : ∀ s', Coalesced (⟨false, s'⟩ :: post) := fun s' =>
    List.isChain_cons.mpr ⟨fun b hb => .inr (hhead b hb), hpost⟩
  rcases List.eq_nil_or_concat pre with rfl | ⟨front, ⟨used, n⟩, rfl⟩
  · exact ⟨h, _, if_neg fun hcond => hcond.1 rfl, ⟨hr, hbehind s⟩, fun p n => Iff.rfl⟩
  · rw [List.concat_eq_append] at hr hpre ⊢
    have hlast : lastHeader 0 0 (front ++ [⟨used, n⟩]) = span front := by
      rw [lastHeader_append, Nat.zero_add]
      rfl
    have hr' : Rep h (front ++ ⟨used, n⟩ :: ⟨false, s⟩ :: post) := by simpa using hr
    have hheader := hr'.header
    have hnpos := hr'.pos ⟨used, n⟩ (by simp)
    simp only at hnpos
    rw [hlast, hheader, span_append, span_cons, span_nil, Nat.add_zero]
    cases used with
    | true =>
      refine ⟨h, _, if_neg fun hcond => absurd hcond.2 nofun, ⟨hr, ?_⟩, fun p n => Iff.rfl⟩
      refine List.isChain_append.mpr ⟨hpre, hbehind s, ?_⟩
      rintro b hb c -
      rw [List.getLast?_append_cons, List.getLast?_singleton] at hb
      obtain rfl := Option.some.inj hb
      exact .inl rfl
    | false =>
      refine ⟨_, _, if_pos ⟨Nat.ne_of_lt (Nat.lt_add_of_pos_right hnpos), rfl⟩, ⟨rep_join hr', ?_⟩, fun p m => ?_⟩
      · refine List.isChain_append.mpr ⟨hpre.left_of_append, hbehind (n + s), ?_⟩
        rintro b hb c hc
        obtain rfl := Option.some.inj hc
        exact .inl (((List.isChain_append.mp hpre).2.2 b hb ⟨false, n⟩ rfl).resolve_right nofun)
      · rw [holds_merge, List.append_assoc, List.singleton_append]

theorem plugHoles_spec (hr : Rep h (pre ++ ⟨false, s⟩ :: post)) (hpre : Coalesced pre) (hpost : Coalesced post) :
    ∃ h' l', h.plugHoles (span pre) = some h' ∧ Wf h' l' ∧
      ∀ p n, Holds l' p n ↔ Holds (pre ++ ⟨false, s⟩ :: post) p n := by
  have hheader := hr.header
  have hspos := hr.pos ⟨false, s⟩ (by simp)
  have hend := hr.end_le
  simp only at hspos hend
  obtain ⟨h₁, s', post', hforward, hr₁, hpost', hhead, hholds₁⟩ := plug_forward hr hpost
  obtain ⟨h₂, l', hbackward, hw, hholds₂⟩ := plug_backward hr₁ hpre hpost' hhead
  refine ⟨h₂, l', ?_, hw, fun p n => (hholds₂ p n).trans (hholds₁ p n)⟩
  have hassert : ¬ (memSizeAligned ≤ span pre ∨ (h.ram (span pre)).used = true ∨
      memSizeAligned < (h.ram (span pre)).next) := by
    rw [hheader]
    simp only [Bool.false_eq_true, false_or, not_or]
    omega
  rw [plugHoles, if_neg hassert]
  simp only [hheader, hforward, hr₁.header, hbackward]

/-- `mem_free` on what `mem_malloc` has handed out: one block less is in use. -/
theorem memFree_spec (hw : Wf h (pre ++ ⟨true, s⟩ :: post)) :
    ∃ h' l', h.memFree (some (span pre + sizeofStructMem)) = some h' ∧ Wf h' l' ∧
      ∀ p n, Holds l' p n ↔ Holds (pre ++ ⟨true, s⟩ :: post) p n ∧ p ≠ span pre := by
  have hs := hw.sizes ⟨true, s⟩ (by simp)
  have hspos := hw.pos ⟨true, s⟩ (by simp)
  have hend := hw.end_le
  have hdvd : 4 ∣ span pre := dvd_span fun b hb => hw.sizes b (by simp [hb])
  have hchain := List.isChain_append.mp hw.coalesced
  simp only [minBlock, sizeofStructMem, minSizeAligned] at hs hspos hend
  -- `lfree` is where it has to be as soon as the block is marked
  have hlfree : (if span pre < h.lfree then span pre else h.lfree) = firstFree (pre ++ ⟨false, s⟩ :: post) := by
    rw [hw.lfree, firstFree_of_freed]
  have hr := rep_setUsed hw.toRep hlfree
  obtain ⟨h', l', hplug, hw', hholds⟩ := plugHoles_spec hr hchain.1 (List.isChain_cons.mp hchain.2.1).2
  have hpre : ∀ b ∈ pre, 0 < b.size := fun b hb => hw.pos b (by simp [hb])
  refine ⟨h', l', ?_, hw', fun p n => (hholds p n).trans (holds_of_freed hpre hspos)⟩
  have hused : (h.ram (span pre)).used = true := congrArg Mem.used hw.header
  rw [memFree, if_neg (by unfold sizeofStructMem; omega)]
  simp only [Nat.add_sub_cancel, hused, lfree_lower, Bool.true_eq_false, if_false]
  exact hplug

/-! ## Trimming -/

theorem expandSize_ge (size : ℕ) : minSizeAligned ≤ expandSize size := by
  unfold expandSize
  split <;> omega

theorem four_dvd_expandSize (size : ℕ) : 4 ∣ expandSize size := by
  unfold expandSize memAlignSize minSizeAligned
  split <;> omega

theorem ram_carve (h : Heap) {next : ℕ} (hk : 0 < k) (hnext : p + k < next) (o : ℕ) :
    (h.carve p (p + k) next).ram o =
      if o = next ∧ o ≠ memSizeAligned then { h.ram o with prev := p + k }
      else if o = p then ⟨p + k, (h.ram o).prev, (h.ram o).used⟩
      else if o = p + k then ⟨next, p, false⟩ else h.ram o := by
  unfold carve setPrev setNext
  split <;> simp only [ram_setRam] <;> split_ifs <;> first | rfl | omega | simp_all

theorem coalesced_of_cut {rest : ℕ} (hpre : Coalesced pre) (hpost : Coalesced post)
    (hhead : ∀ b ∈ post.head?, b.used = true) : Coalesced (pre ++ ⟨true, k⟩ :: ⟨false, rest⟩ :: post) := by
  refine List.isChain_append.mpr ⟨hpre, ?_, ?_⟩
  · refine List.isChain_cons.mpr ⟨fun c _ => .inl rfl, List.isChain_cons.mpr ⟨fun c hc => ?_, hpost⟩⟩
    exact .inr (hhead c hc)
  · intro a ha c hc
    obtain rfl := Option.some.inj hc
    exact .inr rfl

@[simp] theorem lfree_carve (h : Heap) (p q n : ℕ) : (h.carve p q n).lfree = h.lfree := by
  unfold carve
  split <;> rfl

/-- The branch of `mem_trim` where the next struct is free: it moves down. -/
theorem trim_moved (hw : Wf h (pre ++ ⟨true, s⟩ :: ⟨false, m⟩ :: post)) (hmin : minBlock ≤ k) (hdvd : 4 ∣ k)
    (hk : k ≤ s) :
    Wf ((if h.lfree = span pre + s then { h with lfree := span pre + k } else h).carve (span pre) (span pre + k)
      (span pre + (s + m))) (pre ++ ⟨true, k⟩ :: ⟨false, s + m - k⟩ :: post) := by
  have hm := hw.sizes ⟨false, m⟩ (by simp)
  have hkpos : 0 < minBlock := by decide
  have hchain := List.isChain_append.mp hw.coalesced
  have hpost : Coalesced (⟨false, m⟩ :: post) := (List.isChain_cons.mp hchain.2.1).2
  have hhead : ∀ b ∈ post.head?, b.used = true := fun b hb =>
    ((List.isChain_cons.mp hpost).1 b hb).resolve_left nofun
  have hpos : ∀ b ∈ pre, 0 < b.size := fun b hb => hw.pos b (by simp [hb])
  simp only at hm
  have hr : Rep h (pre ++ ⟨true, s⟩ :: [⟨false, m⟩] ++ post) := by simpa using hw.toRep
  have hrep := rep_carve hr
    ((if h.lfree = span pre + s then { h with lfree := span pre + k } else h).carve (span pre) (span pre + k)
      (span pre + (s + m))) hmin hdvd (by simp only [span_cons, span_nil]; omega)
    (fun o => by
      have hheader := hw.header
      have hram : (if h.lfree = span pre + s then { h with lfree := span pre + k } else h).ram = h.ram := by
        split <;> rfl
      rw [ram_carve _ (by omega) (by omega), hram]
      simp only [span_cons, span_nil, Nat.add_zero]
      split_ifs with h₁ h₂
      · rfl
      · rw [h₂, hheader]
      · rfl
      · rfl)
    (by
      have hmoved : firstFree (pre ++ ⟨true, k⟩ :: ⟨false, s + m - k⟩ :: post) =
          if firstFree (pre ++ ⟨true, s⟩ :: ⟨false, m⟩ :: post) = span pre + s then span pre + k
          else firstFree (pre ++ ⟨true, s⟩ :: ⟨false, m⟩ :: post) := firstFree_of_moved hpos
      rw [← hw.lfree] at hmoved
      rw [lfree_carve]
      refine Eq.trans ?_ hmoved.symm
      split <;> rfl)
  exact ⟨by simpa using hrep, coalesced_of_cut hchain.1 hpost.tail hhead⟩

/-- The branch of `mem_trim` where the next struct is in use, or there is none: a new one is put behind the
block. -/
theorem trim_split (hw : Wf h (pre ++ ⟨true, s⟩ :: post)) (hmin : minBlock ≤ k) (hdvd : 4 ∣ k)
    (hk : k + minBlock ≤ s) (hhead : ∀ b ∈ post.head?, b.used = true) :
    Wf ((if span pre + k < h.lfree then { h with lfree := span pre + k } else h).carve (span pre) (span pre + k)
      (span pre + s)) (pre ++ ⟨true, k⟩ :: ⟨false, s - k⟩ :: post) := by
  have hkpos : 0 < minBlock := by decide
  have hchain := List.isChain_append.mp hw.coalesced
  have hpost : Coalesced post := (List.isChain_cons.mp hchain.2.1).2
  have hr : Rep h (pre ++ ⟨true, s⟩ :: [] ++ post) := by simpa using hw.toRep
  have hrep : Rep _ (pre ++ ⟨true, k⟩ :: ⟨false, s + span [] - k⟩ :: post) := rep_carve hr
    ((if span pre + k < h.lfree then { h with lfree := span pre + k } else h).carve (span pre) (span pre + k)
      (span pre + s)) hmin hdvd (by simpa using hk)
    (fun o => by
      have hheader := hw.header
      have hram : (if span pre + k < h.lfree then { h with lfree := span pre + k } else h).ram = h.ram := by
        split <;> rfl
      show _ = if o = span pre + s ∧ o ≠ memSizeAligned then _ else _
      rw [ram_carve _ (by omega) (by omega), hram]
      split_ifs with h₁ h₂
      · rfl
      · rw [h₂, hheader]
      · rfl
      · rfl)
    (by
      have hfreed : firstFree ((pre ++ [⟨true, k⟩]) ++ ⟨false, s - k⟩ :: post) = _ := firstFree_of_freed
      simp only [List.append_assoc, List.singleton_append, firstFree_split, span_append, span_cons, span_nil,
        Nat.add_zero] at hfreed
      rw [Nat.add_sub_cancel' (by omega), ← hw.lfree] at hfreed
      rw [lfree_carve, lfree_lower, span_nil, Nat.add_zero, hfreed])
  exact ⟨by simpa using hrep, coalesced_of_cut hchain.1 hpost hhead⟩

/-- `mem_trim` on what `mem_malloc` has handed out, to no more than there is: the block may get smaller, and
the others stay. -/
theorem memTrim_spec {newsize : ℕ} (hw : Wf h (pre ++ ⟨true, s⟩ :: post))
    (hle : expandSize newsize + sizeofStructMem ≤ s) :
    ∃ h' l' s', h.memTrim (span pre + sizeofStructMem) newsize = some (h', some (span pre + sizeofStructMem)) ∧
      Wf h' l' ∧ expandSize newsize + sizeofStructMem ≤ s' ∧ Holds l' (span pre) s' ∧
      ∀ p n, p ≠ span pre → (Holds l' p n ↔ Holds (pre ++ ⟨true, s⟩ :: post) p n) := by
  have hs := hw.sizes ⟨true, s⟩ (by simp)
  have hend := hw.end_le
  have hheader := hw.header
  have hmin := expandSize_ge newsize
  have hdvd := four_dvd_expandSize newsize
  simp only at hs hend hheader
  have height : sizeofStructMem = 8 := rfl
  have htwelve : minSizeAligned = 12 := rfl
  have hblock : minBlock = sizeofStructMem + minSizeAligned := rfl
  have hk : minBlock ≤ expandSize newsize + sizeofStructMem := by omega
  have hkdvd : 4 ∣ expandSize newsize + sizeofStructMem := by omega
  have hptr2 : span pre + sizeofStructMem + expandSize newsize = span pre + (expandSize newsize + sizeofStructMem) := by
    omega
  rw [memTrim, if_neg (by omega), if_neg (by omega)]
  simp only [Nat.add_sub_cancel, Nat.add_sub_cancel_left, hheader, hptr2]
  rw [if_neg (by omega)]
  by_cases hsame : expandSize newsize = s - sizeofStructMem
  · exact ⟨h, _, s, if_pos hsame, hw, hle, Holds.head pre post s, fun p n _ => Iff.rfl⟩
  rw [if_neg hsame]
  -- what is in use is the same behind the block, wherever a free one starts there
  have hother : ∀ {k m : ℕ} {post' : List Block}, (∀ p n, span pre + s ≤ p ∧ Holds post (p - (span pre + s)) n ↔
      span pre + k + m ≤ p ∧ Holds post' (p - (span pre + k + m)) n) → ∀ p n, p ≠ span pre →
      (Holds (pre ++ ⟨true, k⟩ :: ⟨false, m⟩ :: post') p n ↔ Holds (pre ++ ⟨true, s⟩ :: post) p n) := by
    intro k m post' hsame p n hne
    rw [holds_of_ne hne, holds_of_ne hne, holds_cons_free rfl, hsame, Nat.sub_sub, ← and_assoc]
    have hle : span pre + k ≤ p ∧ m ≤ p - (span pre + k) ↔ span pre + k + m ≤ p := by omega
    simp only [hle]
  cases post with
  | nil =>
    have hnone : (h.ram (span pre + s)).used = true := by
      have hroom : span pre + s = memSizeAligned := by simpa using hend
      rw [hroom]
      exact hw.ramEnd
    rw [if_neg (by rw [hnone]; exact nofun)]
    by_cases hroom : expandSize newsize + sizeofStructMem + minSizeAligned ≤ s - sizeofStructMem
    · refine ⟨_, _, _, if_pos hroom, trim_split hw hk hkdvd (by omega) nofun, Nat.le_refl _, Holds.head ..,
        hother fun p n => by simp⟩
    · exact ⟨h, _, s, if_neg hroom, hw, hle, Holds.head pre [] s, fun p n _ => Iff.rfl⟩
  | cons b post =>
    have hmem2 : h.ram (span pre + s) = ⟨span pre + s + b.size, span pre, b.used⟩ := by
      have hrep : Rep h ((pre ++ [⟨true, s⟩]) ++ b :: post) := by simpa using hw.toRep
      have hmem := hrep.header
      rwa [span_append, span_cons, span_nil, Nat.add_zero, lastHeader_append, Nat.zero_add] at hmem
    rcases b with ⟨used, m⟩
    simp only [hmem2, Nat.add_assoc (span pre) s m]
    cases used with
    | false =>
      refine ⟨_, _, _, if_pos rfl, trim_moved hw hk hkdvd hle, Nat.le_refl _, Holds.head .., hother fun p n => ?_⟩
      have hlast : span pre + (expandSize newsize + sizeofStructMem) +
          (s + m - (expandSize newsize + sizeofStructMem)) = span pre + s + m := by omega
      have hpast : span pre + s ≤ p ∧ m ≤ p - (span pre + s) ↔ span pre + s + m ≤ p := by omega
      rw [holds_cons_free rfl, ← and_assoc, hlast, Nat.sub_sub]
      simp only [hpast]
    | true =>
      rw [if_neg nofun]
      by_cases hroom : expandSize newsize + sizeofStructMem + minSizeAligned ≤ s - sizeofStructMem
      · refine ⟨_, _, _, if_pos hroom, trim_split hw hk hkdvd (by omega) (by simp), Nat.le_refl _, Holds.head ..,
          hother fun p n => ?_⟩
        rw [Nat.add_assoc (span pre), Nat.add_sub_cancel' hle]
      · exact ⟨h, _, s, if_neg hroom, hw, hle, Holds.head pre _ s, fun p n _ => Iff.rfl⟩

/-! ## Taking -/

/-- The search of `mem_malloc` from the header of the first block of `l` to the end. -/
theorem scan_spec {ram : ℕ → Mem} {lfree prev fuel : ℕ} (hseg : Seg ram prev ptr l)
    (hroom : ptr + span l = memSizeAligned) (hl : ∀ b ∈ l, minBlock ≤ b.size ∧ 4 ∣ b.size)
    (hfuel : l.length < fuel) :
    (Heap.mk ram lfree).scan size fuel ptr = some ((firstFit (size + sizeofStructMem) l).map (ptr + ·)) := by
  induction l generalizing prev ptr fuel with
  | nil =>
    obtain ⟨fuel, rfl⟩ := Nat.exists_eq_add_one_of_ne_zero (Nat.ne_of_gt hfuel)
    rw [span_nil] at hroom
    rw [scan, if_neg (by omega)]
    rfl
  | cons b l ih =>
    obtain ⟨fuel, rfl⟩ := Nat.exists_eq_add_one_of_ne_zero (Nat.ne_of_gt (Nat.zero_lt_of_lt hfuel))
    obtain ⟨hb, hrest⟩ := hseg
    have hsize := (hl b List.mem_cons_self).1
    rw [span_cons] at hroom
    rw [List.length_cons] at hfuel
    unfold minBlock sizeofStructMem at hsize
    rw [scan, firstFit]
    by_cases hlt : ptr < memSizeAligned - size
    · rw [if_pos hlt]
      simp only [hb]
      have hfit : b.used = false ∧ size ≤ ptr + b.size - (ptr + sizeofStructMem) ↔
          b.used = false ∧ size + sizeofStructMem ≤ b.size := by
        unfold sizeofStructMem
        exact and_congr_right fun _ => by omega
      by_cases hcond : b.used = false ∧ size + sizeofStructMem ≤ b.size
      · rw [if_pos (hfit.mpr hcond), if_pos hcond]
        rfl
      · rw [if_neg (fun h => hcond (hfit.mp h)), if_neg hcond,
          ih hrest (by omega) (fun c hc => hl c (List.mem_cons_of_mem b hc)) (by omega), Option.map_map]
        refine congrArg some (congrFun (congrArg Option.map (funext fun k => ?_)) _)
        exact Nat.add_assoc ptr b.size k
    · -- what is left is smaller than the block that is looked for
      have hnone : firstFit (size + sizeofStructMem) (b :: l) = none := by
        rw [firstFit_eq_none_iff]
        intro c hc
        have hle := size_le_span hc
        rw [span_cons] at hle
        unfold sizeofStructMem
        exact .inr (by omega)
      rw [firstFit] at hnone
      rw [if_neg hlt, hnone]
      rfl

theorem findFree_spec {ram : ℕ → Mem} {lfree prev fuel : ℕ} (hseg : Seg ram prev ptr l)
    (hroom : ptr + span l = memSizeAligned) (hpos : ∀ b ∈ l, 0 < b.size) (hfuel : l.length < fuel) :
    (Heap.mk ram lfree).findFree fuel ptr = some (ptr + firstFree l) := by
  induction l generalizing prev ptr fuel with
  | nil =>
    obtain ⟨fuel, rfl⟩ := Nat.exists_eq_add_one_of_ne_zero (Nat.ne_of_gt hfuel)
    rw [span_nil] at hroom
    rw [findFree, if_neg fun hcond => hcond.2 hroom]
    rfl
  | cons b l ih =>
    obtain ⟨fuel, rfl⟩ := Nat.exists_eq_add_one_of_ne_zero (Nat.ne_of_gt (Nat.zero_lt_of_lt hfuel))
    obtain ⟨hb, hrest⟩ := hseg
    have hsize := hpos b List.mem_cons_self
    rw [span_cons] at hroom
    rw [List.length_cons] at hfuel
    rw [findFree, firstFree]
    simp only [hb]
    split
    · rename_i hcond
      rw [if_pos hcond.1, ih hrest (by omega) (fun c hc => hpos c (List.mem_cons_of_mem b hc)) (by omega),
        Nat.add_assoc]
    · rename_i hcond
      rw [if_neg fun hused => hcond ⟨hused, by omega⟩]
      rfl

theorem Rep.length_lt (hr : Rep h l) : l.length < fuel := by
  have hle := length_le_span hr.pos
  rw [hr.room] at hle
  exact Nat.lt_succ_of_le hle

theorem Rep.scan (hr : Rep h l) : h.scan size fuel h.lfree = some (firstFit (size + sizeofStructMem) l) := by
  obtain ⟨pre, post, rfl, hused, hlfree, -⟩ := exists_firstFree l
  have hseg := (seg_append.mp hr.seg).2
  have hlength := hr.length_lt
  have hroom := hr.room
  rw [Nat.zero_add] at hseg
  rw [List.length_append] at hlength
  rw [span_append] at hroom
  have hscan : (Heap.mk h.ram h.lfree).scan size fuel (span pre) = _ :=
    scan_spec hseg hroom (fun b hb => hr.sizes b (by simp [hb])) (by omega)
  rw [firstFit_append_used hused, hr.lfree, hlfree]
  exact hscan

theorem adjustLfree_spec {post' : List Block} {m : ℕ} (hlfree : h.lfree = firstFree (pre ++ ⟨false, m⟩ :: post'))
    (hr : Rep { h with lfree := firstFree (pre ++ ⟨true, k⟩ :: post) } (pre ++ ⟨true, k⟩ :: post)) :
    h.adjustLfree (span pre) = some { h with lfree := firstFree (pre ++ ⟨true, k⟩ :: post) } := by
  have hpos : ∀ b ∈ pre, 0 < b.size := fun b hb => hr.pos b (by simp [hb])
  rw [adjustLfree]
  by_cases hall : ∀ c ∈ pre, c.used = true
  · have hhere : h.lfree = span pre := by
      rw [hlfree, firstFree_append_used hall]
      rfl
    have hseg := (seg_append.mp hr.seg).2
    have hlength := hr.length_lt
    have hroom := hr.room
    rw [Nat.zero_add] at hseg
    rw [List.length_append] at hlength
    rw [span_append] at hroom
    have hfind : (Heap.mk h.ram h.lfree).findFree fuel (span pre) = _ :=
      findFree_spec hseg hroom (fun b hb => hr.pos b (by simp_all)) (by omega)
    rw [if_pos hhere.symm, hhere, firstFree_append_used hall]
    exact congrArg (Option.map fun cur => { h with lfree := cur }) hfind
  · have hlt := firstFree_lt_span hpos hall
    have hsame : firstFree (pre ++ ⟨true, k⟩ :: post) = h.lfree := by
      rw [hlfree, firstFree_append, firstFree_append, if_neg hall, if_neg hall]
    have hbefore : h.lfree = firstFree pre := by rw [hlfree, firstFree_append, if_neg hall]
    rw [if_neg (by omega), hsame]

theorem take_spec (hw : Wf h (pre ++ ⟨false, s⟩ :: post)) (hmin : minSizeAligned ≤ size) (hdvd : 4 ∣ size)
    (hle : size + sizeofStructMem ≤ s) :
    ∃ h' l' k, (h.take (span pre) size).adjustLfree (span pre) = some h' ∧ Wf h' l' ∧
      size + sizeofStructMem ≤ k ∧
      ∀ p n, Holds l' p n ↔ Holds (pre ++ ⟨false, s⟩ :: post) p n ∨ p = span pre ∧ n = k := by
  have hs := hw.sizes ⟨false, s⟩ (by simp)
  have hheader := hw.header
  have hchain := List.isChain_append.mp hw.coalesced
  have hpost : Coalesced post := (List.isChain_cons.mp hchain.2.1).2
  have hhead : ∀ b ∈ post.head?, b.used = true := fun b hb =>
    ((List.isChain_cons.mp hchain.2.1).1 b hb).resolve_left nofun
  have height : sizeofStructMem = 8 := rfl
  have hblock : minBlock = sizeofStructMem + minSizeAligned := rfl
  simp only at hs hheader
  rw [take]
  simp only [hheader]
  by_cases hroom : size + sizeofStructMem + minSizeAligned ≤ span pre + s - (span pre + sizeofStructMem)
  · rw [if_pos hroom, Nat.add_assoc (span pre) sizeofStructMem size]
    have hr : Rep h (pre ++ ⟨false, s⟩ :: [] ++ post) := by simpa using hw.toRep
    have hrep : Rep { (h.carve (span pre) (span pre + (sizeofStructMem + size)) (span pre + s)).setUsed (span pre) true
        with lfree := firstFree (pre ++ ⟨true, sizeofStructMem + size⟩ ::
          ⟨false, s + span [] - (sizeofStructMem + size)⟩ :: post) }
        (pre ++ ⟨true, sizeofStructMem + size⟩ :: ⟨false, s + span [] - (sizeofStructMem + size)⟩ :: post) :=
      rep_carve hr _ (by omega) (by omega) (by simp only [span_nil]; omega)
        (fun o => by
          show _ = if o = span pre + s ∧ o ≠ memSizeAligned then _ else _
          simp only [setUsed, ram_setRam]
          rw [ram_carve _ (by omega) (by omega), ram_carve _ (by omega) (by omega)]
          split_ifs <;> first | rfl | omega | simp_all)
        rfl
    have hfree : ((h.carve (span pre) (span pre + (sizeofStructMem + size)) (span pre + s)).setUsed (span pre)
        true).lfree = firstFree (pre ++ ⟨false, s⟩ :: post) := (lfree_carve ..).trans hw.lfree
    refine ⟨_, _, _, adjustLfree_spec hfree hrep, ⟨hrep, coalesced_of_cut hchain.1 hpost hhead⟩,
      (Nat.add_comm _ _).le, fun p n => ?_⟩
    rw [holds_of_taken, ← holds_merge, span_nil, Nat.add_zero, Nat.add_sub_cancel' (by omega)]
  · rw [if_neg hroom]
    have hrep : Rep { h.setUsed (span pre) true with lfree := firstFree (pre ++ ⟨true, s⟩ :: post) }
        (pre ++ ⟨true, s⟩ :: post) := rep_setUsed hw.toRep rfl
    have hfree : (h.setUsed (span pre) true).lfree = firstFree (pre ++ ⟨false, s⟩ :: post) := hw.lfree
    have hchain' : Coalesced (pre ++ ⟨true, s⟩ :: post) := List.isChain_append.mpr
      ⟨hchain.1, List.isChain_cons.mpr ⟨fun _ _ => .inl rfl, hpost⟩, fun _ _ b hb => .inr (by
        obtain rfl := Option.some.inj hb
        rfl)⟩
    exact ⟨_, _, s, adjustLfree_spec hfree hrep, ⟨hrep, hchain'⟩, hle, fun p n => holds_of_taken⟩

/-- `mem_malloc` where it finds nothing: there is no free block with as much room as it looks for. -/
theorem memMalloc_none (hw : Wf h l) (hnone : size = 0 ∨ memSizeAligned < expandSize size ∨
    firstFit (expandSize size + sizeofStructMem) l = none) : h.memMalloc size = some (h, none) := by
  rw [memMalloc]
  split
  · rfl
  · rename_i hsize
    simp only []
    split
    · rfl
    · rename_i hle
      rw [hw.toRep.scan, (hnone.resolve_left hsize).resolve_left hle]

/-- `mem_malloc` where it finds a block: the first that is large enough. -/
theorem memMalloc_some (hw : Wf h l) (hsize : size ≠ 0) (hle : expandSize size ≤ memSizeAligned)
    (hfit : firstFit (expandSize size + sizeofStructMem) l = some p) :
    ∃ h' l' k, h.memMalloc size = some (h', some (p + sizeofStructMem)) ∧ Wf h' l' ∧
      expandSize size + sizeofStructMem ≤ k ∧ ∀ q n, Holds l' q n ↔ Holds l q n ∨ q = p ∧ n = k := by
  obtain ⟨pre, ⟨used, s⟩, post, rfl, rfl, hfree, hroom, -⟩ := firstFit_eq_some hfit
  obtain rfl : used = false := hfree
  obtain ⟨h', l', k, htake, hw', hk, hholds⟩ :=
    take_spec hw (expandSize_ge size) (four_dvd_expandSize size) hroom
  refine ⟨h', l', k, ?_, hw', hk, hholds⟩
  have hend := hw.end_le
  have hdvd : 4 ∣ span pre := dvd_span fun b hb => hw.sizes b (by simp [hb])
  have height : sizeofStructMem = 8 := rfl
  simp only at hroom hend
  rw [memMalloc, if_neg hsize]
  simp only []
  rw [if_neg (Nat.not_lt.mpr hle), hw.toRep.scan, hfit]
  simp only [htake]
  rw [if_pos (by omega)]

theorem wf_memInit (ram : ℕ → Mem) : Wf (memInit ram) [⟨false, memSizeAligned⟩] := by
  have hne : (0 : ℕ) ≠ memSizeAligned := by decide
  refine ⟨⟨⟨?_, trivial⟩, by simp, ?_, ?_, rfl⟩, List.isChain_singleton _⟩
  · simp [memInit, hne]
  · simp [memInit]
  · intro b hb
    obtain rfl := List.mem_singleton.mp hb
    decide

end LoraGateway.Core
