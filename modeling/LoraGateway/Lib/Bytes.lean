import Mathlib.Data.BitVec
import Mathlib.Data.List.GetD

/-!
# Bytes in memory

A buffer is a function from offsets to bytes. `memcpy` writes a list of bytes at an offset and
`readBytes` reads one back: what lies before the offset is untouched, so bytes copied one piece after
another read back as the pieces put together (`readBytes_memcpy_zero`).
-/

namespace LoraGateway.Lib

abbrev Byte := BitVec 8

/-- The `len` bytes from `off` on. -/
def readBytes (mem : ℕ → Byte) (off len : ℕ) : List Byte := (List.range len).map fun i => mem (off + i)

/-- `memcpy(&mem[off], bytes, length)`. -/
def memcpy (mem : ℕ → Byte) (off : ℕ) (bytes : List Byte) : ℕ → Byte :=
  fun i => if off ≤ i ∧ i < off + bytes.length then bytes.getD (i - off) 0 else mem i

variable {mem mem' : ℕ → Byte} {off len : ℕ} {bytes : List Byte}

@[simp] theorem length_readBytes : (readBytes mem off len).length = len := by simp [readBytes]

@[simp] theorem readBytes_zero : readBytes mem off 0 = [] := rfl

theorem readBytes_add (a b : ℕ) :
    readBytes mem off (a + b) = readBytes mem off a ++ readBytes mem (off + a) b := by
  simp only [readBytes, List.range_add, List.map_append, List.map_map]
  congr 1
  exact List.map_congr_left fun i _ => by simp [Nat.add_assoc]

theorem readBytes_congr (h : ∀ i, off ≤ i → i < off + len → mem i = mem' i) :
    readBytes mem off len = readBytes mem' off len :=
  List.map_congr_left fun _ hi => h _ (Nat.le_add_right ..)
    (Nat.add_lt_add_left (List.mem_range.mp hi) off)

theorem memcpy_of_lt {i : ℕ} (h : i < off) : memcpy mem off bytes i = mem i :=
  if_neg fun hi => absurd hi.1 (by omega)

theorem readBytes_memcpy : readBytes (memcpy mem off bytes) off bytes.length = bytes := by
  refine List.ext_getElem (by simp) fun i hi hi' => ?_
  simp only [readBytes, List.getElem_map, List.getElem_range, memcpy]
  rw [if_pos ⟨Nat.le_add_right .., Nat.add_lt_add_left hi' off⟩, Nat.add_sub_cancel_left,
    List.getD_eq_getElem?_getD, List.getElem?_eq_getElem hi', Option.getD_some]

theorem readBytes_memcpy_zero :
    readBytes (memcpy mem off bytes) 0 (off + bytes.length) = readBytes mem 0 off ++ bytes := by
  rw [readBytes_add, Nat.zero_add, readBytes_memcpy]
  congr 1
  exact readBytes_congr fun i _ hi => memcpy_of_lt (by omega)

theorem memcpy_append {a b : List Byte} {n : ℕ} (h : n = off + a.length) :
    memcpy (memcpy mem off a) n b = memcpy mem off (a ++ b) := by
  subst h
  funext i
  unfold memcpy
  rw [List.length_append]
  by_cases ha : off ≤ i ∧ i < off + a.length
  · rw [if_neg (by omega), if_pos ha, if_pos (by omega), List.getD_append _ _ _ _ (by omega)]
  · by_cases hb : off + a.length ≤ i ∧ i < off + a.length + b.length
    · rw [if_pos hb, if_pos (by omega), List.getD_append_right _ _ _ _ (by omega), Nat.sub_sub]
    · rw [if_neg hb, if_neg ha, if_neg (by omega)]

/-! ## Halfwords -/

/-- A halfword from its bytes. -/
def halfword (low high : Byte) : BitVec 16 := BitVec.ofNat 16 (low.toNat + 256 * high.toNat)

def lowByte (v : BitVec 16) : Byte := BitVec.ofNat 8 v.toNat

def highByte (v : BitVec 16) : Byte := BitVec.ofNat 8 (v.toNat / 256)

/-- The halfword at offset `i` of a little-endian memory. -/
def u16At (b : List Byte) (i : ℕ) : BitVec 16 := halfword (b.getD i 0) (b.getD (i + 1) 0)

/-- The halfword at offset `i` set to `v`. -/
def setU16 (b : List Byte) (i : ℕ) (v : BitVec 16) : List Byte :=
  (b.set i (lowByte v)).set (i + 1) (highByte v)

/-- Network byte order on a little-endian machine. -/
def htons (v : BitVec 16) : BitVec 16 := halfword (highByte v) (lowByte v)

@[simp] theorem lowByte_halfword (low high : Byte) : lowByte (halfword low high) = low := by
  apply BitVec.eq_of_toNat_eq
  simp only [lowByte, halfword, BitVec.toNat_ofNat]
  omega

@[simp] theorem highByte_halfword (low high : Byte) : highByte (halfword low high) = high := by
  apply BitVec.eq_of_toNat_eq
  simp only [highByte, halfword, BitVec.toNat_ofNat]
  omega

@[simp] theorem halfword_bytes (v : BitVec 16) : halfword (lowByte v) (highByte v) = v := by
  apply BitVec.eq_of_toNat_eq
  simp only [lowByte, highByte, halfword, BitVec.toNat_ofNat]
  omega

@[simp] theorem htons_htons (v : BitVec 16) : htons (htons v) = v := by
  rw [htons, htons, highByte_halfword, lowByte_halfword, halfword_bytes]

@[simp] theorem length_setU16 {b : List Byte} {i : ℕ} {v : BitVec 16} :
    (setU16 b i v).length = b.length := by
  simp [setU16]

theorem getD_set_of_ne {b : List Byte} {i j : ℕ} {x : Byte} (h : i ≠ j) :
    (b.set i x).getD j 0 = b.getD j 0 := by
  simp [List.getD_eq_getElem?_getD, List.getElem?_set_ne h]

theorem getD_set_self {b : List Byte} {i : ℕ} {x : Byte} (h : i < b.length) :
    (b.set i x).getD i 0 = x := by
  simp [List.getD_eq_getElem?_getD, h]

theorem u16At_setU16 {b : List Byte} {i : ℕ} {v : BitVec 16} (hi : i + 1 < b.length) :
    u16At (setU16 b i v) i = v := by
  rw [u16At, setU16, getD_set_of_ne (by omega), getD_set_self (by omega),
    getD_set_self (by rw [List.length_set]; exact hi), halfword_bytes]

theorem u16At_setU16_of_ne {b : List Byte} {i j : ℕ} {v : BitVec 16} (h : j + 1 < i ∨ i + 1 < j) :
    u16At (setU16 b i v) j = u16At b j := by
  simp only [u16At, setU16]
  rw [getD_set_of_ne (by omega), getD_set_of_ne (by omega), getD_set_of_ne (by omega),
    getD_set_of_ne (by omega)]

theorem memcpy_setU16 {i : ℕ} {v : BitVec 16} (hi : i + 1 < bytes.length) :
    memcpy (memcpy mem off bytes) (off + i) [lowByte v, highByte v] = memcpy mem off (setU16 bytes i v) := by
  funext j
  unfold memcpy
  rw [length_setU16, List.length_cons, List.length_singleton]
  by_cases hj : off + i ≤ j ∧ j < off + i + 2
  · rw [if_pos hj, if_pos (by omega), setU16]
    rcases Nat.lt_or_ge (off + i) j with hlt | hge
    · have hhigh : j - off = i + 1 := by omega
      rw [hhigh, getD_set_self (by rw [List.length_set]; exact hi), show j - (off + i) = 1 by omega]
      rfl
    · have hlow : j - off = i := by omega
      rw [hlow, getD_set_of_ne (by omega), getD_set_self (by omega), show j - (off + i) = 0 by omega]
      rfl
  · rw [if_neg hj]
    by_cases hin : off ≤ j ∧ j < off + bytes.length
    · rw [if_pos hin, if_pos hin, setU16, getD_set_of_ne (by omega), getD_set_of_ne (by omega)]
    · rw [if_neg hin, if_neg hin]

theorem setU16_eq_self_iff {b : List Byte} {i : ℕ} {v : BitVec 16} (hi : i + 1 < b.length) :
    setU16 b i v = b ↔ u16At b i = v := by
  have hi' : i < b.length := Nat.lt_of_succ_lt hi
  rw [u16At, List.getD_eq_getElem b 0 hi, List.getD_eq_getElem b 0 hi']
  constructor
  · intro h
    have hlow : some (lowByte v) = some b[i] := by
      rw [← List.getElem?_eq_getElem hi', ← h]
      simp [setU16, hi']
    have hhigh : some (highByte v) = some b[i + 1] := by
      rw [← List.getElem?_eq_getElem hi, ← h]
      simp [setU16, hi]
    rw [← Option.some.inj hlow, ← Option.some.inj hhigh, halfword_bytes]
  · rintro rfl
    rw [setU16, lowByte_halfword, highByte_halfword, List.set_getElem_self, List.set_getElem_self]

end LoraGateway.Lib
