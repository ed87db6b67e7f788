import LoraGateway.Lib.Bytes

/-!
# NUL-terminated strings

`Holds mem chars` says that `mem` has the characters of `chars`, none of them NUL, and then a NUL; what is behind
it may be anything. Any memory with a NUL somewhere holds a string (`exists_holds`), and a loop that walks through
one sees it end at the first NUL and not before (`Holds.zero_iff`).
-/

namespace LoraGateway.Lib

/-- A character constant. -/
def ascii (c : Char) : Byte := BitVec.ofNat 8 c.toNat

structure Holds (mem : ℕ → Byte) (chars : List Byte) : Prop where
  chars_eq : readBytes mem 0 chars.length = chars
  nul : mem chars.length = 0
  nonzero : ∀ c ∈ chars, c ≠ 0

/-- A `char *` with the string it points to. -/
structure CString where
  mem : ℕ → Byte
  chars : List Byte
  holds : Holds mem chars

variable {mem : ℕ → Byte} {chars : List Byte} {i : ℕ}

theorem getElem_readBytes {off len : ℕ} (h : i < (readBytes mem off len).length) :
    (readBytes mem off len)[i] = mem (off + i) := by
  simp [readBytes]

theorem Holds.eq_getElem (h : Holds mem chars) (hi : i < chars.length) : mem i = chars[i] := by
  have hi' : i < (readBytes mem 0 chars.length).length := by rwa [length_readBytes]
  have hread : (readBytes mem 0 chars.length)[i] = chars[i] := by simp only [h.chars_eq]
  rw [← hread, getElem_readBytes, Nat.zero_add]

theorem Holds.drop_eq (h : Holds mem chars) (hi : i < chars.length) :
    chars.drop i = mem i :: chars.drop (i + 1) := by
  rw [List.drop_eq_getElem_cons hi, h.eq_getElem hi]

theorem Holds.eq_of_drop {c : Byte} {rest : List Byte} (h : Holds mem chars) (hdrop : chars.drop i = c :: rest) :
    i < chars.length ∧ mem i = c ∧ chars.drop (i + 1) = rest := by
  have hi : i < chars.length := by
    by_contra hle
    rw [List.drop_eq_nil_of_le (by omega)] at hdrop
    cases hdrop
  rw [h.drop_eq hi] at hdrop
  exact ⟨hi, List.head_eq_of_cons_eq hdrop, List.tail_eq_of_cons_eq hdrop⟩

theorem Holds.ne_zero (h : Holds mem chars) (hi : i < chars.length) : mem i ≠ 0 := by
  rw [h.eq_getElem hi]
  exact h.nonzero _ (List.getElem_mem hi)

theorem Holds.zero_iff (h : Holds mem chars) (hi : i ≤ chars.length) :
    mem i = 0 ↔ i = chars.length := by
  constructor
  · intro hzero
    by_contra hne
    exact h.ne_zero (by omega) hzero
  · rintro rfl
    exact h.nul

theorem Holds.length_le (h : Holds mem chars) (hzero : mem i = 0) : chars.length ≤ i := by
  by_contra hlt
  exact h.ne_zero (by omega) hzero

theorem holds_readBytes {n : ℕ} (hnul : mem n = 0) (hne : ∀ i < n, mem i ≠ 0) :
    Holds mem (readBytes mem 0 n) where
  chars_eq := by rw [length_readBytes]
  nul := by rw [length_readBytes, hnul]
  nonzero := by
    intro c hc
    obtain ⟨i, hi, rfl⟩ := List.mem_map.mp hc
    rw [Nat.zero_add]
    exact hne i (List.mem_range.mp hi)

theorem exists_holds (h : ∃ n, mem n = 0) : ∃ chars, Holds mem chars :=
  ⟨_, holds_readBytes (Nat.find_spec h) fun _ hi => Nat.find_min h hi⟩

theorem holds_memcpy (hne : ∀ c ∈ chars, c ≠ 0) : Holds (memcpy mem 0 (chars ++ [0])) chars := by
  have hread : readBytes (memcpy mem 0 (chars ++ [0])) 0 (chars ++ [0]).length = chars ++ [0] := readBytes_memcpy
  rw [List.length_append, List.length_singleton] at hread
  have hparts := hread
  rw [readBytes_add, Nat.zero_add] at hparts
  obtain ⟨hchars, hnul⟩ := List.append_inj hparts length_readBytes
  exact ⟨hchars, List.head_eq_of_cons_eq hnul, hne⟩

/-- The string of `chars`, in memory that is otherwise empty. -/
def CString.of (chars : List Byte) (hne : ∀ c ∈ chars, c ≠ 0) : CString where
  mem := memcpy (fun _ => 0) 0 (chars ++ [0])
  chars := chars
  holds := holds_memcpy hne

end LoraGateway.Lib
