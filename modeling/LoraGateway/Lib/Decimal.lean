import LoraGateway.Lib.CString

/-!
# Decimal numerals

`decimal n` is the numeral of a natural number and `numeral v` that of an integer, as bytes. A numeral is digits
only, without a leading zero and with a minus sign exactly if the number is negative, and it is the only such text
with its value (`isNumeral_iff`). A program that divides by falling powers of ten produces `padded`, in
which zeros lead; it is the numeral from the first power that is no larger than the number (`decimal_eq_padded`).
-/

namespace LoraGateway.Lib

def digit (d : ℕ) : Byte := BitVec.ofNat 8 (0x30 + d)

def IsDigit (c : Byte) : Prop := 0x30 ≤ c.toNat ∧ c.toNat < 0x3a

def decimal (n : ℕ) : List Byte := (Nat.toDigits 10 n).map ascii

/-- The number that digits stand for, the most significant first. -/
def ofDecimal (s : List Byte) : ℕ := s.foldl (fun v c => 10 * v + (c.toNat - 0x30)) 0

/-- The last `k` digits of `n`. -/
def padded : ℕ → ℕ → List Byte
  | 0, _ => []
  | k + 1, n => digit (n / 10 ^ k) :: padded k (n % 10 ^ k)

structure IsDecimal (s : List Byte) : Prop where
  digits : ∀ c ∈ s, IsDigit c
  nonempty : s ≠ []
  leading : s.head? = some (ascii '0') → s = [ascii '0']

variable {n k d : ℕ} {s : List Byte}

theorem toNat_digit (hd : d < 10) : (digit d).toNat = 0x30 + d := by
  unfold digit
  rw [BitVec.toNat_ofNat]
  omega

theorem isDigit_digit (hd : d < 10) : IsDigit (digit d) := by
  unfold IsDigit
  rw [toNat_digit hd]
  omega

theorem digit_of_isDigit {c : Byte} (h : IsDigit c) : digit (c.toNat - 0x30) = c := by
  obtain ⟨hlow, hhigh⟩ := h
  apply BitVec.eq_of_toNat_eq
  rw [toNat_digit (by omega)]
  omega

theorem IsDigit.ne_zero {c : Byte} (h : IsDigit c) : c ≠ 0 := by
  rintro rfl
  exact absurd h.1 (by decide)

theorem ascii_digitChar (hd : d < 10) : ascii d.digitChar = digit d := by
  apply BitVec.eq_of_toNat_eq
  rw [toNat_digit hd, ascii, BitVec.toNat_ofNat, Nat.toNat_digitChar_of_lt_ten hd]
  omega

/-! ## The numeral of a natural number -/

theorem decimal_of_lt (hn : n < 10) : decimal n = [digit n] := by
  rw [decimal, Nat.toDigits_of_lt_base hn, List.map_singleton, ascii_digitChar hn]

theorem decimal_of_le (hn : 10 ≤ n) : decimal n = decimal (n / 10) ++ [digit (n % 10)] := by
  rw [decimal, decimal, Nat.toDigits_of_base_le (by omega) hn, List.map_append, List.map_singleton,
    ascii_digitChar (Nat.mod_lt n (by omega))]

theorem length_decimal_le_iff (hk : 0 < k) : (decimal n).length ≤ k ↔ n < 10 ^ k := by
  rw [decimal, List.length_map, Nat.length_toDigits_le_iff (by omega) hk]

theorem ofDecimal_append (s : List Byte) (c : Byte) :
    ofDecimal (s ++ [c]) = 10 * ofDecimal s + (c.toNat - 0x30) := by
  rw [ofDecimal, List.foldl_append]
  rfl

theorem ofDecimal_decimal (n : ℕ) : ofDecimal (decimal n) = n := by
  induction n using Nat.strong_induction_on with
  | _ n ih =>
    rcases Nat.lt_or_ge n 10 with hn | hn
    · rw [decimal_of_lt hn]
      show 10 * 0 + ((digit n).toNat - 0x30) = n
      rw [toNat_digit hn]
      omega
    · rw [decimal_of_le hn, ofDecimal_append, ih (n / 10) (by omega), toNat_digit (Nat.mod_lt n (by omega))]
      omega

theorem isDecimal_decimal (n : ℕ) : IsDecimal (decimal n) := by
  induction n using Nat.strong_induction_on with
  | _ n ih =>
    rcases Nat.lt_or_ge n 10 with hn | hn
    · rw [decimal_of_lt hn]
      refine ⟨fun c hc => ?_, List.cons_ne_nil _ _, fun h => by rw [Option.some.inj h]⟩
      rw [List.mem_singleton.mp hc]
      exact isDigit_digit hn
    · obtain ⟨hdigits, hnonempty, hleading⟩ := ih (n / 10) (by omega)
      rw [decimal_of_le hn]
      refine ⟨fun c hc => ?_, by simp, fun h => ?_⟩
      · rcases List.mem_append.mp hc with hc | hc
        · exact hdigits c hc
        · rw [List.mem_singleton.mp hc]
          exact isDigit_digit (Nat.mod_lt n (by omega))
      · -- what is left of a larger number is not 0
        rw [List.head?_append_of_ne_nil _ hnonempty] at h
        have hvalue := ofDecimal_decimal (n / 10)
        rw [hleading h] at hvalue
        have hzero : ofDecimal [ascii '0'] = 0 := rfl
        omega

theorem IsDecimal.of_append {c c' : Byte} (h : IsDecimal (c' :: s ++ [c])) :
    IsDecimal (c' :: s) ∧ c' ≠ ascii '0' := by
  have hhead : c' ≠ ascii '0' := by
    rintro rfl
    have hall := h.leading rfl
    simp at hall
  refine ⟨⟨fun x hx => h.digits x (List.mem_append_left _ hx), List.cons_ne_nil _ _, ?_⟩, hhead⟩
  intro heq
  exact absurd (Option.some.inj heq) hhead

theorem ofDecimal_pos (h : IsDecimal s) (hs : s ≠ [ascii '0']) : 0 < ofDecimal s := by
  induction s using List.reverseRecOn with
  | nil => exact absurd rfl h.nonempty
  | append_singleton s c ih =>
    rw [ofDecimal_append]
    cases s with
    | nil =>
      have hlow := (h.digits c List.mem_cons_self).1
      have hne : c.toNat ≠ 0x30 := by
        intro heq
        exact hs (congrArg (fun c => [c]) (BitVec.eq_of_toNat_eq heq))
      omega
    | cons c' s =>
      obtain ⟨hinit, hhead⟩ := h.of_append
      have hpos := ih hinit fun heq => hhead (List.head_eq_of_cons_eq heq)
      omega

/-- Digits without a leading zero are the numeral of the number they stand for. -/
theorem decimal_ofDecimal (h : IsDecimal s) : decimal (ofDecimal s) = s := by
  induction s using List.reverseRecOn with
  | nil => exact absurd rfl h.nonempty
  | append_singleton s c ih =>
    have hc := h.digits c (List.mem_append_right _ List.mem_cons_self)
    have hrange := hc
    unfold IsDigit at hrange
    rw [ofDecimal_append]
    cases s with
    | nil =>
      show decimal (10 * 0 + (c.toNat - 0x30)) = [c]
      rw [Nat.mul_zero, Nat.zero_add, decimal_of_lt (by omega), digit_of_isDigit hc]
    | cons c' s =>
      obtain ⟨hinit, hhead⟩ := h.of_append
      have hpos := ofDecimal_pos hinit fun heq => hhead (List.head_eq_of_cons_eq heq)
      have hdiv : (10 * ofDecimal (c' :: s) + (c.toNat - 0x30)) / 10 = ofDecimal (c' :: s) := by omega
      have hmod : (10 * ofDecimal (c' :: s) + (c.toNat - 0x30)) % 10 = c.toNat - 0x30 := by omega
      rw [decimal_of_le (by omega), hdiv, hmod, ih hinit, digit_of_isDigit hc]

/-! ## Division by falling powers of ten -/

theorem padded_succ_last (hn : n < 10 ^ (k + 1)) :
    padded (k + 1) n = padded k (n / 10) ++ [digit (n % 10)] := by
  induction k generalizing n with
  | zero =>
    show [digit (n / 1)] = [digit (n % 10)]
    have hlt : n < 10 := hn
    rw [Nat.div_one, Nat.mod_eq_of_lt hlt]
  | succ k ih =>
    have hpow : 10 ^ (k + 1) = 10 * 10 ^ k := Nat.pow_succ'
    have hhead : n / 10 ^ (k + 1) = n / 10 / 10 ^ k := by rw [hpow, Nat.div_div_eq_div_mul]
    have hmid : n % 10 ^ (k + 1) / 10 = n / 10 % 10 ^ k := by rw [hpow, Nat.mod_mul_right_div_self]
    have hlast : n % 10 ^ (k + 1) % 10 = n % 10 := Nat.mod_mod_of_dvd n (hpow ▸ Nat.dvd_mul_right 10 _)
    rw [padded, ih (Nat.mod_lt n (Nat.pow_pos (by omega))), hmid, hlast, hhead, padded, List.cons_append]

/-- From the first power of ten that is no larger than the number, the digits are its numeral. -/
theorem decimal_eq_padded (hlow : 10 ^ k ≤ n) (hhigh : n < 10 ^ (k + 1)) :
    decimal n = padded (k + 1) n := by
  induction k generalizing n with
  | zero =>
    have hlt : n < 10 := hhigh
    rw [decimal_of_lt hlt, padded_succ_last hhigh, Nat.mod_eq_of_lt hlt]
    rfl
  | succ k ih =>
    have hpos : 0 < 10 ^ k := Nat.pow_pos (by omega)
    rw [padded_succ_last hhigh]
    rw [Nat.pow_succ] at hlow hhigh
    rw [decimal_of_le (by omega), ih (by omega) (by omega)]

/-! ## The numeral of an integer -/

def numeral (v : ℤ) : List Byte :=
  if v < 0 then ascii '-' :: decimal v.natAbs else decimal v.natAbs

/-- A numeral with its sign, if there is one, read back. -/
def ofNumeral (s : List Byte) : ℤ :=
  if s.head? = some (ascii '-') then -(ofDecimal s.tail : ℤ) else ofDecimal s

/-- Digits without a leading zero, with a minus sign exactly if the number is negative, that read back as it. -/
structure IsNumeral (v : ℤ) (s : List Byte) : Prop where
  sign : s.head? = some (ascii '-') ↔ v < 0
  digits : IsDecimal (if v < 0 then s.tail else s)
  value : ofNumeral s = v

variable {v : ℤ}

theorem IsDecimal.head_ne_minus (h : IsDecimal s) : s.head? ≠ some (ascii '-') := by
  cases s with
  | nil => exact absurd rfl h.nonempty
  | cons c s =>
    intro heq
    have hlow := (h.digits c List.mem_cons_self).1
    rw [Option.some.inj heq] at hlow
    exact absurd hlow (by decide)

/-- There is one numeral of each integer. -/
theorem isNumeral_iff : IsNumeral v s ↔ s = numeral v := by
  unfold numeral
  constructor
  · rintro ⟨hsign, hdigits, hvalue⟩
    unfold ofNumeral at hvalue
    by_cases hv : v < 0
    · have hhead := hsign.mpr hv
      rw [if_pos hv] at hdigits ⊢
      rw [if_pos hhead] at hvalue
      rw [← hvalue, Int.natAbs_neg, Int.natAbs_natCast, decimal_ofDecimal hdigits]
      exact (List.cons_head?_tail hhead).symm
    · rw [if_neg hv] at hdigits ⊢
      rw [if_neg fun hhead => hv (hsign.mp hhead)] at hvalue
      rw [← hvalue, Int.natAbs_natCast, decimal_ofDecimal hdigits]
  · rintro rfl
    have hdecimal := isDecimal_decimal v.natAbs
    by_cases hv : v < 0
    · rw [if_pos hv]
      refine ⟨⟨fun _ => hv, fun _ => rfl⟩, ?_, ?_⟩
      · rw [if_pos hv]
        exact hdecimal
      · show -(ofDecimal (decimal v.natAbs) : ℤ) = v
        rw [ofDecimal_decimal]
        omega
    · rw [if_neg hv]
      refine ⟨⟨fun h => absurd h hdecimal.head_ne_minus, fun h => absurd h hv⟩, ?_, ?_⟩
      · rw [if_neg hv]
        exact hdecimal
      · rw [ofNumeral, if_neg hdecimal.head_ne_minus, ofDecimal_decimal]
        omega

theorem numeral_ne_zero {c : Byte} (hc : c ∈ numeral v) : c ≠ 0 := by
  have hdecimal : ∀ c ∈ decimal v.natAbs, c ≠ 0 := fun c hc => ((isDecimal_decimal _).digits c hc).ne_zero
  unfold numeral at hc
  split at hc
  · rcases List.mem_cons.mp hc with rfl | hc
    · decide
    · exact hdecimal c hc
  · exact hdecimal c hc

end LoraGateway.Lib
