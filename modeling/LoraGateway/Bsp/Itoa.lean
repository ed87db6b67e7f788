import LoraGateway.Lib.Decimal

/-!
# Conversion of an integer

`itoa` of `usart1.c` divides by 10000 first, so that the conversion is right exactly for up to five digits
(`itoa_iff`); with more, the first quotient is no digit.

Proof: the loop is followed by induction on the power of ten, with what has been written as a text from the start of
the string on (`Itoa.Wrote`). Until the first digit that is not 0 nothing is written (`digits_unflagged`), and behind
it every digit is (`digits_flagged`). Whatever the number, the NUL comes behind a sign and five digits at the latest
(`itoa_nul`), which is before the end of a longer numeral.
-/

namespace LoraGateway.Bsp

open Lib

/-- The memory at `string`, the offset of `ptr` in it, and `value` and `flag`. -/
structure Itoa where
  string : ℕ → Byte
  ptr : ℕ
  value : BitVec 32
  flag : Bool

/-- `*ptr++ = c`. -/
def Itoa.put (s : Itoa) (c : Byte) : Itoa := { s with string := memcpy s.string s.ptr [c], ptr := s.ptr + 1 }

/-- An iteration of the loop over the powers of ten. -/
def Itoa.divide (s : Itoa) (i : BitVec 32) : Itoa :=
  let d := s.value.sdiv i
  if d ≠ 0 ∨ s.flag then
    { s.put ((d + 0x30).setWidth 8) with value := s.value - d * i, flag := true }
  else s

/-- `for (; i > 0; i /= 10)`. -/
def Itoa.digits (i : ℕ) (s : Itoa) : Itoa :=
  if i > 0 then Itoa.digits (i / 10) (s.divide (BitVec.ofNat 32 i)) else s
termination_by i

/-- `value *= -1` is taken to wrap at the most negative value, as the machine's negation does. -/
def itoa (value : BitVec 32) (string : ℕ → Byte) (radix : BitVec 32) : ℕ → Byte :=
  if radix ≠ 10 then memcpy string 0 [0]
  else if value = 0 then memcpy (memcpy string 0 [0x30]) 1 [0]
  else
    let s : Itoa := ⟨string, 0, value, false⟩
    let s := if value.slt 0 then { s.put (ascii '-') with value := value * -1 } else s
    let s := s.digits 10000
    memcpy s.string s.ptr [0]

/-- The canonical numeral and a NUL behind it are written, in 12 bytes, and nothing else is. -/
def Converted (value : BitVec 32) (string : ℕ → Byte) : Prop :=
  ∃ text, IsNumeral value.toInt text ∧ Holds (itoa value string 10) text ∧ text.length + 1 ≤ 12 ∧
    ∀ i, text.length < i → itoa value string 10 i = string i

/-! ## The digit loop -/

section digits

variable {string : ℕ → Byte} {s : Itoa} {text : List Byte} {a b k v : ℕ}

theorem ofNat_sdiv (ha : a < 2 ^ 31) (hb : b < 2 ^ 31) :
    (BitVec.ofNat 32 a).sdiv (BitVec.ofNat 32 b) = BitVec.ofNat 32 (a / b) := by
  have hmsb : ∀ n < 2 ^ 31, (BitVec.ofNat 32 n).msb = false := by
    intro n hn
    rw [BitVec.msb_eq_false_iff_two_mul_lt, BitVec.toNat_ofNat]
    omega
  apply BitVec.eq_of_toNat_eq
  rw [BitVec.sdiv_eq, hmsb a ha, hmsb b hb]
  simp only [BitVec.udiv_eq, BitVec.toNat_udiv, BitVec.toNat_ofNat]
  rw [Nat.mod_eq_of_lt (by omega), Nat.mod_eq_of_lt (by omega), Nat.mod_eq_of_lt]
  exact Nat.lt_of_le_of_lt (Nat.div_le_self a b) (by omega)

theorem ofNat_sub_mul (ha : a < 2 ^ 31) :
    BitVec.ofNat 32 a - BitVec.ofNat 32 (a / b) * BitVec.ofNat 32 b = BitVec.ofNat 32 (a % b) := by
  have hsplit := Nat.div_add_mod' a b
  apply BitVec.eq_of_toNat_eq
  rw [← BitVec.ofNat_mul]
  generalize a / b * b = m at *
  simp only [BitVec.toNat_sub, BitVec.toNat_ofNat]
  omega

/-- What has been written is `text`. -/
structure Itoa.Wrote (string : ℕ → Byte) (s : Itoa) (text : List Byte) : Prop where
  string_eq : s.string = memcpy string 0 text
  ptr_eq : s.ptr = text.length

theorem Itoa.Wrote.put (h : s.Wrote string text) (c : Byte) : (s.put c).Wrote string (text ++ [c]) where
  string_eq := by
    unfold Itoa.put
    rw [h.string_eq, h.ptr_eq, memcpy_append (Nat.zero_add _).symm]
  ptr_eq := by
    unfold Itoa.put
    rw [h.ptr_eq, List.length_append, List.length_singleton]

theorem pow_le (hk : k ≤ 4) : 10 ^ k ≤ 10000 := Nat.pow_le_pow_right (by omega) hk

theorem divide_writes (hk : k ≤ 4) (hv : v < 10 ^ (k + 1)) (hvalue : s.value = BitVec.ofNat 32 v)
    (hdigit : 10 ^ k ≤ v ∨ s.flag = true) :
    s.divide (BitVec.ofNat 32 (10 ^ k)) =
      { s.put (digit (v / 10 ^ k)) with value := BitVec.ofNat 32 (v % 10 ^ k), flag := true } := by
  have hpow := pow_le hk
  have hpos : 0 < 10 ^ k := Nat.pow_pos (by omega)
  rw [Nat.pow_succ] at hv
  have hquot : v / 10 ^ k < 10 := Nat.div_lt_of_lt_mul hv
  have hsdiv : s.value.sdiv (BitVec.ofNat 32 (10 ^ k)) = BitVec.ofNat 32 (v / 10 ^ k) := by
    rw [hvalue, ofNat_sdiv (by omega) (by omega)]
  have hchar : (BitVec.ofNat 32 (v / 10 ^ k) + 0x30).setWidth 8 = digit (v / 10 ^ k) := by
    generalize v / 10 ^ k = d at hquot
    apply BitVec.eq_of_toNat_eq
    rw [toNat_digit hquot]
    simp only [BitVec.ofNat_eq_ofNat, BitVec.toNat_setWidth, BitVec.toNat_add, BitVec.toNat_ofNat]
    omega
  have htest : BitVec.ofNat 32 (v / 10 ^ k) ≠ 0 ∨ s.flag = true := by
    refine hdigit.imp_left fun hle heq => ?_
    have hone : 1 ≤ v / 10 ^ k := (Nat.one_le_div_iff hpos).mpr hle
    have hzero := congrArg BitVec.toNat heq
    simp only [BitVec.ofNat_eq_ofNat, BitVec.toNat_ofNat] at hzero
    omega
  unfold Itoa.divide
  simp only [hsdiv]
  rw [if_pos htest, hchar, hvalue, ofNat_sub_mul (by omega)]

theorem divide_skips (hk : k ≤ 4) (hv : v < 10 ^ k) (hvalue : s.value = BitVec.ofNat 32 v)
    (hflag : s.flag = false) : s.divide (BitVec.ofNat 32 (10 ^ k)) = s := by
  have hpow := pow_le hk
  unfold Itoa.divide
  rw [hvalue, ofNat_sdiv (by omega) (by omega), Nat.div_eq_of_lt hv, hflag]
  exact if_neg (by simp)

theorem digits_zero : s.digits 0 = s := by
  unfold Itoa.digits
  exact if_neg (Nat.lt_irrefl 0)

theorem digits_one : s.digits 1 = s.divide (BitVec.ofNat 32 (10 ^ 0)) := by
  rw [Itoa.digits, if_pos Nat.one_pos, show 1 / 10 = 0 from rfl, digits_zero, Nat.pow_zero]

theorem digits_pow (k : ℕ) :
    s.digits (10 ^ (k + 1)) = (s.divide (BitVec.ofNat 32 (10 ^ (k + 1)))).digits (10 ^ k) := by
  have hdiv : 10 ^ (k + 1) / 10 = 10 ^ k := by
    rw [Nat.pow_succ]
    exact Nat.mul_div_cancel _ (by omega)
  rw [Itoa.digits, if_pos (Nat.pow_pos (by omega)), hdiv]

theorem digits_flagged (hk : k ≤ 4) (hv : v < 10 ^ (k + 1)) (hvalue : s.value = BitVec.ofNat 32 v)
    (hflag : s.flag = true) (h : s.Wrote string text) :
    (s.digits (10 ^ k)).Wrote string (text ++ padded (k + 1) v) := by
  induction k generalizing s v text with
  | zero =>
    rw [Nat.pow_zero, digits_one, divide_writes hk hv hvalue (.inr hflag)]
    obtain ⟨hstring, hptr⟩ := h.put (digit (v / 10 ^ 0))
    exact ⟨hstring, hptr⟩
  | succ k ih =>
    rw [digits_pow, divide_writes hk hv hvalue (.inr hflag)]
    obtain ⟨hstring, hptr⟩ := h.put (digit (v / 10 ^ (k + 1)))
    have hrest := ih (s := { s.put (digit (v / 10 ^ (k + 1))) with
      value := BitVec.ofNat 32 (v % 10 ^ (k + 1)), flag := true }) (by omega)
      (Nat.mod_lt v (Nat.pow_pos (by omega))) rfl rfl ⟨hstring, hptr⟩
    rw [List.append_assoc] at hrest
    exact hrest

theorem digits_unflagged (hk : k ≤ 4) (hpos : 0 < v) (hv : v < 10 ^ (k + 1))
    (hvalue : s.value = BitVec.ofNat 32 v) (hflag : s.flag = false) (h : s.Wrote string text) :
    (s.digits (10 ^ k)).Wrote string (text ++ decimal v) := by
  induction k generalizing s with
  | zero =>
    rw [Nat.pow_zero, digits_one, divide_writes hk hv hvalue (.inl hpos)]
    rw [decimal_eq_padded hpos hv]
    obtain ⟨hstring, hptr⟩ := h.put (digit (v / 10 ^ 0))
    exact ⟨hstring, hptr⟩
  | succ k ih =>
    rw [digits_pow]
    rcases Nat.lt_or_ge v (10 ^ (k + 1)) with hlt | hge
    · rw [divide_skips hk hlt hvalue hflag]
      exact ih (by omega) hlt hvalue hflag h
    · rw [divide_writes hk hv hvalue (.inl hge), decimal_eq_padded hge hv]
      obtain ⟨hstring, hptr⟩ := h.put (digit (v / 10 ^ (k + 1)))
      have hrest := digits_flagged (s := { s.put (digit (v / 10 ^ (k + 1))) with
        value := BitVec.ofNat 32 (v % 10 ^ (k + 1)), flag := true }) (by omega)
        (Nat.mod_lt v (Nat.pow_pos (by omega))) rfl rfl ⟨hstring, hptr⟩
      rw [List.append_assoc] at hrest
      exact hrest

theorem digits_ptr_le (s : Itoa) (k : ℕ) : (s.digits (10 ^ k)).ptr ≤ s.ptr + (k + 1) := by
  have hone : ∀ (s : Itoa) i, (s.divide i).ptr ≤ s.ptr + 1 := by
    intro s i
    unfold Itoa.divide
    dsimp only
    split
    · exact Nat.le_refl _
    · exact Nat.le_succ _
  induction k generalizing s with
  | zero =>
    rw [Nat.pow_zero, digits_one]
    exact hone s _
  | succ k ih =>
    rw [digits_pow]
    have hfirst := hone s (BitVec.ofNat 32 (10 ^ (k + 1)))
    have hrest := ih (s.divide (BitVec.ofNat 32 (10 ^ (k + 1))))
    omega

end digits

/-! ## The conversion -/

section itoa

variable {value : BitVec 32} {string : ℕ → Byte}

/-- The sign and the digits, before the NUL. -/
theorem itoa_eq (hne : value ≠ 0) : itoa value string 10 =
    (let s : Itoa := if value.slt 0 then
        { Itoa.put ⟨string, 0, value, false⟩ (ascii '-') with value := value * -1 }
      else ⟨string, 0, value, false⟩
    memcpy (s.digits (10 ^ 4)).string (s.digits (10 ^ 4)).ptr [0]) := by
  unfold itoa
  rw [if_neg (by decide), if_neg hne, show 10 ^ 4 = 10000 from rfl]

theorem toInt_neg_iff : value.slt 0 = true ↔ value.toInt < 0 := by
  rw [BitVec.slt_iff_toInt_lt]
  rfl

theorem itoa_eq_memcpy (hlow : -99999 ≤ value.toInt) (hhigh : value.toInt ≤ 99999) :
    itoa value string 10 = memcpy string 0 (numeral value.toInt ++ [0]) := by
  have htoInt := BitVec.toInt_eq_toNat_cond value
  have hend : ∀ {s : Itoa} {text : List Byte}, s.Wrote string text →
      memcpy s.string s.ptr [0] = memcpy string 0 (text ++ [0]) := by
    intro s text hs
    rw [hs.string_eq, hs.ptr_eq, memcpy_append (Nat.zero_add _).symm]
  have hstart : ∀ v, Itoa.Wrote string ⟨string, 0, v, false⟩ [] := by
    refine fun v => ⟨?_, rfl⟩
    funext i
    exact (if_neg fun h => Nat.not_lt_zero i h.2).symm
  by_cases hne : value = 0
  · subst hne
    unfold itoa
    rw [if_neg (by decide), if_pos rfl, show numeral (BitVec.toInt 0) = [0x30] from rfl]
    exact memcpy_append (a := [0x30]) rfl
  · have hnat : value.toNat ≠ 0 := fun h => hne (BitVec.eq_of_toNat_eq h)
    rw [itoa_eq hne]
    by_cases hneg : value.toInt < 0
    · rw [if_pos (toInt_neg_iff.mpr hneg)]
      have hvalue : value * -1 = BitVec.ofNat 32 value.toInt.natAbs := by
        apply BitVec.eq_of_toNat_eq
        rw [show (-1 : BitVec 32) = BitVec.ofNat 32 4294967295 by decide, BitVec.toNat_mul, BitVec.toNat_ofNat,
          BitVec.toNat_ofNat]
        split at htoInt <;> omega
      obtain ⟨hstring, hptr⟩ := (hstart value).put (ascii '-')
      rw [numeral, if_pos hneg]
      exact hend (digits_unflagged (s := { Itoa.put ⟨string, 0, value, false⟩ (ascii '-') with value := value * -1 })
        (k := 4) (Nat.le_refl 4) (by omega) (by omega) hvalue rfl ⟨hstring, hptr⟩)
    · rw [if_neg fun h => hneg (toInt_neg_iff.mp h)]
      have hvalue : value = BitVec.ofNat 32 value.toInt.natAbs := by
        apply BitVec.eq_of_toNat_eq
        rw [BitVec.toNat_ofNat]
        split at htoInt <;> omega
      rw [numeral, if_neg hneg]
      exact hend (digits_unflagged (k := 4) (Nat.le_refl 4) (by omega) (by omega) hvalue rfl (hstart value))

theorem holds_itoa (hlow : -99999 ≤ value.toInt) (hhigh : value.toInt ≤ 99999) :
    Holds (itoa value string 10) (numeral value.toInt) := by
  rw [itoa_eq_memcpy hlow hhigh]
  exact holds_memcpy fun _ hc => numeral_ne_zero hc

/-- There is a NUL behind the sign and five digits at the latest. -/
theorem itoa_nul (value : BitVec 32) (string : ℕ → Byte) :
    ∃ n ≤ (if value.toInt < 0 then 6 else 5), itoa value string 10 n = 0 := by
  have hend : ∀ (mem : ℕ → Byte) n, memcpy mem n [0] n = 0 := by
    intro mem n
    unfold memcpy
    rw [if_pos ⟨Nat.le_refl n, Nat.lt_succ_self n⟩, Nat.sub_self]
    rfl
  by_cases hne : value = 0
  · subst hne
    exact ⟨1, by decide, hend (memcpy string 0 [0x30]) 1⟩
  · rw [itoa_eq hne]
    by_cases hneg : value.toInt < 0
    · rw [if_pos (toInt_neg_iff.mpr hneg), if_pos hneg]
      exact ⟨_, digits_ptr_le { Itoa.put ⟨string, 0, value, false⟩ (ascii '-') with value := value * -1 } 4, hend ..⟩
    · rw [if_neg fun h => hneg (toInt_neg_iff.mp h), if_neg hneg]
      exact ⟨_, digits_ptr_le ⟨string, 0, value, false⟩ 4, hend ..⟩

theorem converted_of_small (hlow : -99999 ≤ value.toInt) (hhigh : value.toInt ≤ 99999) :
    Converted value string := by
  have hdecimal : (decimal value.toInt.natAbs).length ≤ 5 := (length_decimal_le_iff (by omega)).mpr (by omega)
  have hlength : (numeral value.toInt).length + 1 ≤ 12 := by
    unfold numeral
    split
    · rw [List.length_cons]
      omega
    · omega
  refine ⟨_, isNumeral_iff.mpr rfl, holds_itoa hlow hhigh, hlength, fun i hi => ?_⟩
  rw [itoa_eq_memcpy hlow hhigh]
  refine if_neg fun h => ?_
  rw [List.length_append, List.length_singleton] at h
  omega

/-- The numeral of a number with more digits has no room before the NUL. -/
theorem not_converted_of_large (hlarge : value.toInt < -99999 ∨ 99999 < value.toInt) :
    ¬ Converted value string := by
  rintro ⟨text, hnumeral, hholds, -⟩
  obtain ⟨n, hn, hnul⟩ := itoa_nul value string
  have hlength := hholds.length_le hnul
  have hdecimal : ¬ (decimal value.toInt.natAbs).length ≤ 5 := by
    rw [length_decimal_le_iff (by omega)]
    omega
  rw [isNumeral_iff.mp hnumeral, numeral] at hlength
  split at hlength
  · rename_i hneg
    rw [if_pos hneg] at hn
    rw [List.length_cons] at hlength
    omega
  · rename_i hneg
    rw [if_neg hneg] at hn
    omega

end itoa

theorem itoa_iff (value : BitVec 32) (string : ℕ → Byte) :
    Converted value string ↔ -99999 ≤ value.toInt ∧ value.toInt ≤ 99999 := by
  constructor
  · intro h
    by_contra hlarge
    exact not_converted_of_large (by omega) h
  · rintro ⟨hlow, hhigh⟩
    exact converted_of_small hlow hhigh

/-- Neither 100000 is converted nor the most negative value. -/
theorem itoa_misses : ¬ Converted 100000 (fun _ => 0) ∧ ¬ Converted (BitVec.intMin 32) fun _ => 0 :=
  ⟨not_converted_of_large (.inr (by decide)), not_converted_of_large (.inl (by decide))⟩

end LoraGateway.Bsp
