import LoraGateway.Lib.Bytes
import Mathlib.Algebra.BigOperators.Group.List.Basic

/-!
# One's-complement sums

In one's-complement addition of 16-bit words the carry out of the top comes in at the bottom. As a number the sum
is the `residue` of the plain total modulo 65535, which is 0 only if all the words are. The carries may be kept
in the upper half of a wider accumulator and added at the end (`residue_foldCarry`), and a word that
complements the sum of the others makes it all ones (`onesSum_complement`).
-/

namespace LoraGateway.Lib

/-- Addition with end-around carry. -/
def onesAdd (a b : BitVec 16) : BitVec 16 :=
  let s := a.toNat + b.toNat
  BitVec.ofNat 16 (s % 65536 + s / 65536)

def onesSum (ws : List (BitVec 16)) : BitVec 16 := ws.foldl onesAdd 0

/-- The 16-bit words of a message in network order; an odd byte at the end is padded with zero. -/
def words : List Byte → List (BitVec 16)
  | high :: low :: rest => halfword low high :: words rest
  | [high] => [halfword 0 high]
  | [] => []

def total (ws : List (BitVec 16)) : ℕ := (ws.map BitVec.toNat).sum

/-- The number from 1 to 65535 that is congruent modulo 65535, and 0 for 0. -/
def residue (n : ℕ) : ℕ := if n = 0 then 0 else (n - 1) % 65535 + 1

variable {n m : ℕ} {ws ws' : List (BitVec 16)}

theorem residue_of_le (h : n ≤ 65535) : residue n = n := by
  unfold residue
  split <;> omega

theorem residue_residue_add (n m : ℕ) : residue (residue n + m) = residue (n + m) := by
  unfold residue
  split <;> split <;> split <;> omega

theorem residue_carry (n : ℕ) : residue (n / 65536 + n % 65536) = residue n := by
  unfold residue
  split <;> split <;> omega

theorem residue_complement (n : ℕ) : residue (n + (65535 - residue n)) = 65535 := by
  unfold residue
  split <;> split <;> omega

theorem toNat_onesAdd (a b : BitVec 16) : (onesAdd a b).toNat = residue (a.toNat + b.toNat) := by
  have ha := a.isLt
  have hb := b.isLt
  have hle : (a.toNat + b.toNat) / 65536 + (a.toNat + b.toNat) % 65536 ≤ 65535 := by omega
  rw [← residue_carry, residue_of_le hle, onesAdd, BitVec.toNat_ofNat, Nat.add_comm,
    Nat.mod_eq_of_lt (Nat.lt_succ_of_le hle)]

theorem total_cons (w : BitVec 16) (ws : List (BitVec 16)) : total (w :: ws) = w.toNat + total ws := by
  rw [total, List.map_cons, List.sum_cons, total]

theorem toNat_foldl_onesAdd (w : BitVec 16) (ws : List (BitVec 16)) :
    (ws.foldl onesAdd w).toNat = residue (w.toNat + total ws) := by
  induction ws generalizing w with
  | nil =>
    have hw := w.isLt
    exact (residue_of_le (by omega)).symm
  | cons w' ws ih =>
    rw [List.foldl_cons, ih, toNat_onesAdd, residue_residue_add, total_cons, Nat.add_assoc]

theorem toNat_onesSum (ws : List (BitVec 16)) : (onesSum ws).toNat = residue (total ws) := by
  rw [onesSum, toNat_foldl_onesAdd]
  exact congrArg residue (Nat.zero_add _)

theorem total_le (ws : List (BitVec 16)) : total ws ≤ 65535 * ws.length := by
  induction ws with
  | nil => exact Nat.le_refl 0
  | cons w ws ih =>
    have hw := w.isLt
    rw [total_cons, List.length_cons]
    omega

theorem length_words_le (b : List Byte) : 2 * (words b).length ≤ b.length + 1 := by
  induction b using words.induct with
  | case1 high low rest ih =>
    simp only [words, List.length_cons]
    omega
  | case2 high => exact Nat.le_refl 2
  | case3 => exact Nat.zero_le 1

/-! ## Deferred carries -/

/-- The upper half added to the lower. -/
def foldCarry (acc : BitVec 32) : BitVec 32 := (acc >>> 16) + (acc &&& 0x0000ffff)

theorem toNat_foldCarry (acc : BitVec 32) : (foldCarry acc).toNat = acc.toNat / 65536 + acc.toNat % 65536 := by
  have hacc := acc.isLt
  have hlow : (acc &&& 0x0000ffff).toNat = acc.toNat % 65536 := by
    rw [BitVec.toNat_and]
    exact Nat.and_two_pow_sub_one_eq_mod acc.toNat 16
  unfold foldCarry
  rw [BitVec.toNat_add, hlow, BitVec.toNat_ushiftRight, Nat.shiftRight_eq_div_pow]
  omega

theorem high_eq_zero_iff (acc : BitVec 32) : acc &&& 0xffff0000 = 0 ↔ acc.toNat < 65536 := by
  have hacc := acc.isLt
  have hmask : ∀ i < 32, (0xffff0000 : BitVec 32).getLsbD i = decide (16 ≤ i) := by decide
  have hshift : acc &&& (0xffff0000 : BitVec 32) = (acc >>> 16) <<< 16 := by
    apply BitVec.eq_of_getLsbD_eq
    intro i hi
    rw [BitVec.getLsbD_and, BitVec.getLsbD_shiftLeft, BitVec.getLsbD_ushiftRight, hmask i hi]
    by_cases hhigh : 16 ≤ i
    · simp [hhigh, hi, show 16 + (i - 16) = i by omega]
    · simp [hhigh, show i < 16 by omega]
  rw [hshift, ← BitVec.toNat_inj, BitVec.toNat_shiftLeft, BitVec.toNat_ushiftRight, Nat.shiftRight_eq_div_pow,
    Nat.shiftLeft_eq]
  show acc.toNat / 2 ^ 16 * 2 ^ 16 % 2 ^ 32 = 0 ↔ acc.toNat < 65536
  omega

/-- Two additions are enough for a 32-bit accumulator, the second only if it is needed. -/
theorem residue_foldCarry (acc : BitVec 32) :
    ((if foldCarry acc &&& 0xffff0000 ≠ 0 then foldCarry (foldCarry acc) else foldCarry acc).setWidth 16).toNat =
      residue acc.toNat := by
  have hacc := acc.isLt
  have hfold := toNat_foldCarry acc
  have hresidue := residue_carry acc.toNat
  rw [← hfold] at hresidue
  rw [BitVec.toNat_setWidth, ← hresidue]
  split
  · rename_i hhigh
    rw [Ne, high_eq_zero_iff] at hhigh
    rw [toNat_foldCarry (foldCarry acc), ← residue_carry (foldCarry acc).toNat, residue_of_le (by omega)]
    omega
  · rename_i hhigh
    rw [Ne, not_not, high_eq_zero_iff] at hhigh
    rw [residue_of_le (by omega)]
    omega

/-! ## Checksums -/

theorem onesSum_complement {w : BitVec 16} (hw : w = ~~~ onesSum (ws ++ 0 :: ws')) :
    onesSum (ws ++ w :: ws') = 0xffff := by
  have htotal : ∀ w : BitVec 16, total (ws ++ w :: ws') = total (ws ++ 0 :: ws') + w.toNat := by
    intro w
    unfold total
    simp only [List.map_append, List.map_cons, List.sum_append, List.sum_cons]
    show _ = _ + (0 + _) + w.toNat
    omega
  apply BitVec.eq_of_toNat_eq
  rw [toNat_onesSum, htotal, hw, BitVec.toNat_not, toNat_onesSum]
  exact residue_complement _

end LoraGateway.Lib
