import LoraGateway.Lib.Decimal
import LoraGateway.Netapp.NoCopy

/-!
# The text of the DHCP report

`dhcp_netconn_thread` formats the address with `ipaddr_ntoa` into a `sendbuf` of 20 bytes. `ipaddr_ntoa_r` never
runs out of its own 16 bytes (`ipaddrNtoaR_eq`), but with its other 14 characters the report is longer than
`sendbuf` for all addresses with more than five digits (`dhcp_report_iff`).

Proof: the four numbers are written one after another behind the text so far (`number_wrote`), so that of the 16 bytes
there is always one left for the NUL.
-/

namespace LoraGateway.Netapp

open Lib LoraGateway.Core NoCopy

/-! ## The calls -/

/-- `buf` with `rp` in it, and `len`. -/
structure Ntoa where
  buf : ℕ → Byte
  rp : ℕ
  len : ℕ

/-- `if (len++ >= buflen) return NULL; *rp++ = c`. -/
def Ntoa.put (buflen : ℕ) (s : Ntoa) (c : Byte) : Option Ntoa :=
  if s.len ≥ buflen then none else some ⟨memcpy s.buf s.rp [c], s.rp + 1, s.len + 1⟩

/-- The loop that fills `inv` with the digits of `*ap`, the last one first. -/
def ntoaDigits (ap : Byte) (inv : List Byte) : List Byte :=
  let rem := ap % 10
  let inv := inv ++ [ascii '0' + rem]
  if ap / 10 ≠ 0 then ntoaDigits (ap / 10) inv else inv
termination_by ap.toNat
decreasing_by
  rename_i h
  have hdiv : (ap / 10).toNat = ap.toNat / 10 := rfl
  have hpos : (ap / 10).toNat ≠ 0 := fun heq => h (BitVec.eq_of_toNat_eq heq)
  omega

/-- `while (i--)`. -/
def ntoaUnload (buflen : ℕ) (inv : List Byte) : ℕ → Ntoa → Option Ntoa
  | 0, s => some s
  | i + 1, s => do
    let s ← s.put buflen (inv.getD i 0)
    ntoaUnload buflen inv i s

/-- An iteration of the loop over the four numbers. -/
def ntoaNumber (buflen : ℕ) (s : Ntoa) (ap : Byte) : Option Ntoa := do
  let inv := ntoaDigits ap []
  let s ← ntoaUnload buflen inv inv.length s
  s.put buflen (ascii '.')

/-- `ipaddr_ntoa_r`: the memory at `buf`, or `none` if it was too small. The last full stop is written over. -/
def ipaddrNtoaR (addr : IpAddr) (buf : ℕ → Byte) (buflen : ℕ) : Option (ℕ → Byte) := do
  let s ← ((List.range 4).map fun n => BitVec.ofNat 8 (octet addr n)).foldlM (ntoaNumber buflen) ⟨buf, 0, 0⟩
  some (memcpy s.buf (s.rp - 1) [0])

/-- The string in a buffer of `n` bytes. -/
def stringIn (mem : ℕ → Byte) (n : ℕ) : List Byte := (readBytes mem 0 n).takeWhile (· ≠ 0)

/-- `strlen = sprintf(sendbuf, "DHCP--IP:%s\r\n", ipaddr_ntoa(..))`, with `str` the static buffer of `ipaddr_ntoa`: the memory
at `sendbuf`, and `strlen`, which is passed to `netconn_write`. -/
def dhcpReport (addr : IpAddr) (str sendbuf : ℕ → Byte) : Option ((ℕ → Byte) × BitVec 16) := do
  let str ← ipaddrNtoaR addr str 16
  let text := cString "DHCP--IP:" ++ stringIn str 16 ++ cString "\r\n"
  some (memcpy sendbuf 0 (text ++ [0]), BitVec.ofNat 16 text.length)

/-- The text and its NUL are in the 20 bytes of `sendbuf`, and its length is what is passed on. -/
def ReportFits (addr : IpAddr) (str sendbuf : ℕ → Byte) : Prop :=
  ∃ text sendbuf' strlen, dhcpReport addr str sendbuf = some (sendbuf', strlen) ∧ Holds sendbuf' text ∧
    text.length + 1 ≤ 20 ∧ BitVec.toNat strlen = text.length

/-! ## The digits of an address -/

section ntoa

variable {ap : Byte} {inv : List Byte} {s : Ntoa} {buf : ℕ → Byte} {text : List Byte} {buflen n : ℕ}

theorem ntoaDigits_eq (ap : Byte) (inv : List Byte) :
    ntoaDigits ap inv = inv ++ (decimal ap.toNat).reverse := by
  induction hn : ap.toNat using Nat.strong_induction_on generalizing ap inv with
  | _ n ih =>
    subst hn
    have hdiv : (ap / 10).toNat = ap.toNat / 10 := rfl
    have hmod : (ap % 10).toNat = ap.toNat % 10 := rfl
    have hdigit : ascii '0' + ap % 10 = digit (ap.toNat % 10) := by
      apply BitVec.eq_of_toNat_eq
      rw [toNat_digit (by omega), BitVec.toNat_add, hmod]
      show (0x30 + ap.toNat % 10) % 256 = 0x30 + ap.toNat % 10
      omega
    unfold ntoaDigits
    dsimp only
    rw [hdigit]
    by_cases hzero : ap / 10 = 0
    · have hlt : ap.toNat < 10 := by
        have h := congrArg BitVec.toNat hzero
        rw [hdiv] at h
        change ap.toNat / 10 = 0 at h
        omega
      rw [if_neg (not_not.mpr hzero), decimal_of_lt hlt, Nat.mod_eq_of_lt hlt]
      rfl
    · have hpos : (ap / 10).toNat ≠ 0 := fun heq => hzero (BitVec.eq_of_toNat_eq heq)
      rw [if_pos hzero, ih (ap / 10).toNat (by omega) _ _ rfl, hdiv, decimal_of_le (n := ap.toNat) (by omega),
        List.reverse_append, List.append_assoc]
      rfl

/-- What has been written is `text`. -/
structure Ntoa.Wrote (buf : ℕ → Byte) (s : Ntoa) (text : List Byte) : Prop where
  buf_eq : s.buf = memcpy buf 0 text
  rp_eq : s.rp = text.length
  len_eq : s.len = text.length

theorem put_wrote (buflen : ℕ) (c : Byte) (hs : s.Wrote buf text) (hroom : text.length < buflen) :
    ∃ s', s.put buflen c = some s' ∧ s'.Wrote buf (text ++ [c]) := by
  refine ⟨_, if_neg (by rw [hs.len_eq]; omega), ?_, ?_, ?_⟩
  · show memcpy s.buf s.rp [c] = memcpy buf 0 (text ++ [c])
    rw [hs.buf_eq, hs.rp_eq, memcpy_append (Nat.zero_add _).symm]
  · show s.rp + 1 = (text ++ [c]).length
    rw [hs.rp_eq, List.length_append, List.length_singleton]
  · show s.len + 1 = (text ++ [c]).length
    rw [hs.len_eq, List.length_append, List.length_singleton]

theorem unload_wrote (buflen : ℕ) (hn : n ≤ inv.length) (hs : s.Wrote buf text) (hroom : text.length + n ≤ buflen) :
    ∃ s', ntoaUnload buflen inv n s = some s' ∧ s'.Wrote buf (text ++ (inv.take n).reverse) := by
  induction n generalizing s text with
  | zero => exact ⟨s, rfl, by rwa [List.take_zero, List.reverse_nil, List.append_nil]⟩
  | succ n ih =>
    obtain ⟨t, hput, ht⟩ := put_wrote buflen (inv.getD n 0) hs (by omega)
    obtain ⟨s', hrest, hs'⟩ := ih (by omega) ht (by rw [List.length_append, List.length_singleton]; omega)
    refine ⟨s', ?_, ?_⟩
    · rw [ntoaUnload, hput]
      exact hrest
    · rw [List.append_assoc, List.getD_eq_getElem _ _ hn] at hs'
      rw [List.take_succ_eq_append_getElem hn, List.reverse_append]
      exact hs'

theorem length_decimal_byte (ap : Byte) : (decimal ap.toNat).length ≤ 3 := by
  rw [length_decimal_le_iff (by omega)]
  omega

theorem number_wrote (buflen : ℕ) (ap : Byte) (hs : s.Wrote buf text) (hroom : text.length + 4 ≤ buflen) :
    ∃ s', ntoaNumber buflen s ap = some s' ∧ s'.Wrote buf (text ++ (decimal ap.toNat ++ [ascii '.'])) := by
  have hlength := length_decimal_byte ap
  have hinv : ntoaDigits ap [] = (decimal ap.toNat).reverse := ntoaDigits_eq ap []
  obtain ⟨t, hunload, ht⟩ := unload_wrote buflen (Nat.le_refl (ntoaDigits ap []).length) hs
    (by rw [hinv, List.length_reverse]; omega)
  rw [List.take_length, hinv, List.reverse_reverse] at ht
  obtain ⟨s', hput, hs'⟩ := put_wrote buflen (ascii '.') ht (by rw [List.length_append]; omega)
  refine ⟨s', ?_, by rwa [← List.append_assoc]⟩
  rw [ntoaNumber, hunload]
  exact hput

theorem numbers_wrote (l : List Byte) (hs : s.Wrote buf text) (hroom : text.length + 4 * l.length ≤ buflen) :
    ∃ s', l.foldlM (ntoaNumber buflen) s = some s' ∧
      s'.Wrote buf (text ++ l.flatMap fun ap => decimal ap.toNat ++ [ascii '.']) := by
  induction l generalizing s text with
  | nil => exact ⟨s, rfl, by rwa [List.flatMap_nil, List.append_nil]⟩
  | cons ap l ih =>
    rw [List.length_cons] at hroom
    have hlength := length_decimal_byte ap
    obtain ⟨t, hone, ht⟩ := number_wrote buflen ap hs (by omega)
    obtain ⟨s', hrest, hs'⟩ := ih ht (by rw [List.length_append, List.length_append, List.length_singleton]; omega)
    refine ⟨s', ?_, ?_⟩
    · rw [List.foldlM_cons, hone]
      exact hrest
    · rwa [List.flatMap_cons, ← List.append_assoc]

end ntoa

/-- An address as four numbers with full stops between them. -/
def dotted (addr : IpAddr) : List Byte :=
  decimal (octet addr 0) ++ [ascii '.'] ++ decimal (octet addr 1) ++ [ascii '.'] ++ decimal (octet addr 2) ++
    [ascii '.'] ++ decimal (octet addr 3)

section report

variable {addr : IpAddr} {str sendbuf : ℕ → Byte}

theorem octet_lt (addr : IpAddr) (k : ℕ) : octet addr k < 256 := Nat.mod_lt _ (by omega)

theorem memcpy_last (mem : ℕ → Byte) (text : List Byte) (c c' : Byte) :
    memcpy (memcpy mem 0 (text ++ [c])) text.length [c'] = memcpy mem 0 (text ++ [c']) := by
  rw [← memcpy_append (Nat.zero_add _).symm, ← memcpy_append (Nat.zero_add _).symm]
  funext i
  unfold memcpy
  rw [List.length_singleton, List.length_singleton]
  split
  · rfl
  · rfl

/-- There is room for every address, and the text that is left is the address. -/
theorem ipaddrNtoaR_eq (addr : IpAddr) (buf : ℕ → Byte) :
    ipaddrNtoaR addr buf 16 = some (memcpy buf 0 (dotted addr ++ [0])) := by
  have hstart : Ntoa.Wrote buf ⟨buf, 0, 0⟩ [] := by
    refine ⟨?_, rfl, rfl⟩
    funext i
    exact (if_neg fun h => Nat.not_lt_zero i h.2).symm
  obtain ⟨s, hfold, hs⟩ := numbers_wrote ((List.range 4).map fun n => BitVec.ofNat 8 (octet addr n)) hstart
    (Nat.le_refl 16)
  have hnumber : ∀ n, (BitVec.ofNat 8 (octet addr n)).toNat = octet addr n := by
    intro n
    rw [BitVec.toNat_ofNat]
    exact Nat.mod_eq_of_lt (octet_lt addr n)
  have htext : ((List.range 4).map fun n => BitVec.ofNat 8 (octet addr n)).flatMap
      (fun ap => decimal ap.toNat ++ [ascii '.']) = dotted addr ++ [ascii '.'] := by
    simp [List.range_succ, hnumber, dotted]
  rw [htext, List.nil_append] at hs
  rw [ipaddrNtoaR, hfold]
  show some (memcpy s.buf (s.rp - 1) [0]) = _
  rw [hs.buf_eq, hs.rp_eq, List.length_append, List.length_singleton, Nat.add_sub_cancel, memcpy_last]

theorem dotted_ne_zero (addr : IpAddr) : ∀ c ∈ dotted addr, c ≠ 0 := by
  have hdecimal : ∀ n, ∀ c ∈ decimal n, c ≠ 0 := fun n c hc => ((isDecimal_decimal n).digits c hc).ne_zero
  have hstop : ∀ c ∈ [ascii '.'], c ≠ 0 := by decide
  unfold dotted
  simp only [List.forall_mem_append]
  exact ⟨⟨⟨⟨⟨⟨hdecimal _, hstop⟩, hdecimal _⟩, hstop⟩, hdecimal _⟩, hstop⟩, hdecimal _⟩

theorem length_dotted (addr : IpAddr) : (dotted addr).length =
    (decimal (octet addr 0)).length + (decimal (octet addr 1)).length + (decimal (octet addr 2)).length +
      (decimal (octet addr 3)).length + 3 := by
  unfold dotted
  simp only [List.length_append, List.length_singleton]
  omega

theorem length_octet_le (addr : IpAddr) (k : ℕ) : (decimal (octet addr k)).length ≤ 3 := by
  have hlt := octet_lt addr k
  rw [length_decimal_le_iff (by omega)]
  omega

theorem stringIn_eq {mem : ℕ → Byte} {chars : List Byte} {n : ℕ} (h : Holds mem chars) (hn : chars.length < n) :
    stringIn mem n = chars := by
  obtain ⟨k, rfl⟩ : ∃ k, n = chars.length + (1 + k) := ⟨n - chars.length - 1, by omega⟩
  have hnul : readBytes mem chars.length 1 = [0] := congrArg (fun c => [c]) h.nul
  rw [stringIn, readBytes_add, h.chars_eq, readBytes_add, Nat.zero_add, hnul,
    List.takeWhile_append_of_pos fun c hc => decide_eq_true (h.nonzero c hc)]
  exact List.append_nil chars

theorem sendText_eq (addr : IpAddr) :
    sendText addr = cString "DHCP--IP:" ++ dotted addr ++ cString "\r\n" := by
  have hnumber : ∀ n, (Nat.repr n).toList.map ascii = decimal n := by
    intro n
    rw [Nat.toList_repr]
    rfl
  have hstring : ∀ t : String, cString t = t.toList.map ascii := fun _ => rfl
  have hjoin : ipaddrNtoa addr = Nat.repr (octet addr 0) ++ "." ++ Nat.repr (octet addr 1) ++ "." ++
      Nat.repr (octet addr 2) ++ "." ++ Nat.repr (octet addr 3) := rfl
  have haddr : cString (ipaddrNtoa addr) = dotted addr := by
    rw [hstring, hjoin]
    simp only [String.toList_append, List.map_append, hnumber]
    rfl
  rw [← haddr]
  simp only [sendText, hstring, String.toList_append, List.map_append]

theorem dhcpReport_eq (addr : IpAddr) (str sendbuf : ℕ → Byte) : dhcpReport addr str sendbuf =
    some (memcpy sendbuf 0 (sendText addr ++ [0]), BitVec.ofNat 16 (sendText addr).length) := by
  have hholds : Holds (memcpy str 0 (dotted addr ++ [0])) (dotted addr) := holds_memcpy (dotted_ne_zero addr)
  have hroom : (dotted addr).length < 16 := by
    have hlength := length_dotted addr
    have hle := length_octet_le addr
    have h0 := hle 0
    have h1 := hle 1
    have h2 := hle 2
    have h3 := hle 3
    omega
  rw [dhcpReport, ipaddrNtoaR_eq]
  show some (memcpy sendbuf 0 (cString "DHCP--IP:" ++ stringIn _ 16 ++ cString "\r\n" ++ [0]), _) = _
  rw [stringIn_eq hholds hroom, ← sendText_eq]

theorem sendText_ne_zero (addr : IpAddr) : ∀ c ∈ sendText addr, c ≠ 0 := by
  rw [sendText_eq]
  simp only [List.forall_mem_append]
  exact ⟨⟨by decide, dotted_ne_zero addr⟩, by decide⟩

theorem length_sendText (addr : IpAddr) : (sendText addr).length = 11 + (dotted addr).length := by
  rw [sendText_eq, List.length_append, List.length_append]
  show 9 + (dotted addr).length + 2 = _
  omega

end report

/-! ## Which reports fit -/

/-- Five digits at most: three of the numbers are below 10 and the other is below 100. -/
def Short (addr : IpAddr) : Prop :=
  ∃ k : Fin 4, octet addr k < 100 ∧ ∀ j : Fin 4, j ≠ k → octet addr j < 10

instance (addr : IpAddr) : Decidable (Short addr) := by
  unfold Short
  infer_instance

section fits

variable {addr : IpAddr} {str sendbuf : ℕ → Byte}

theorem reportFits_iff_length : ReportFits addr str sendbuf ↔ (sendText addr).length + 1 ≤ 20 := by
  have hholds : Holds (memcpy sendbuf 0 (sendText addr ++ [0])) (sendText addr) :=
    holds_memcpy (sendText_ne_zero addr)
  unfold ReportFits
  rw [dhcpReport_eq]
  constructor
  · rintro ⟨text, sendbuf', strlen, heq, htext, hfits, -⟩
    obtain ⟨rfl, -⟩ := Prod.mk.inj (Option.some.inj heq)
    have hle := hholds.length_le htext.nul
    omega
  · intro hfits
    refine ⟨sendText addr, _, _, rfl, hholds, hfits, ?_⟩
    rw [BitVec.toNat_ofNat]
    omega

theorem length_decimal_pos (n : ℕ) : 1 ≤ (decimal n).length := by
  by_contra h
  exact (isDecimal_decimal n).nonempty (List.length_eq_zero_iff.mp (by omega))

theorem short_iff (addr : IpAddr) : Short addr ↔ (dotted addr).length ≤ 8 := by
  have hone : ∀ k, octet addr k < 10 ↔ (decimal (octet addr k)).length ≤ 1 :=
    fun _ => (length_decimal_le_iff Nat.one_pos).symm
  have htwo : ∀ k, octet addr k < 100 ↔ (decimal (octet addr k)).length ≤ 2 :=
    fun _ => (length_decimal_le_iff Nat.two_pos).symm
  have hpos := fun k => length_decimal_pos (octet addr k)
  have h0 := hpos 0
  have h1 := hpos 1
  have h2 := hpos 2
  have h3 := hpos 3
  rw [length_dotted]
  unfold Short
  simp only [hone, htwo]
  have hcases : ∀ length : ℕ → ℕ, (∃ k : Fin 4, length k ≤ 2 ∧ ∀ j : Fin 4, j ≠ k → length j ≤ 1) ↔
      length 0 ≤ 2 ∧ length 1 ≤ 1 ∧ length 2 ≤ 1 ∧ length 3 ≤ 1 ∨
      length 1 ≤ 2 ∧ length 0 ≤ 1 ∧ length 2 ≤ 1 ∧ length 3 ≤ 1 ∨
      length 2 ≤ 2 ∧ length 0 ≤ 1 ∧ length 1 ≤ 1 ∧ length 3 ≤ 1 ∨
      length 3 ≤ 2 ∧ length 0 ≤ 1 ∧ length 1 ≤ 1 ∧ length 2 ≤ 1 := by
    intro length
    simp [Fin.exists_fin_succ, Fin.forall_fin_succ]
  rw [hcases fun k => (decimal (octet addr k)).length]
  omega

end fits

/-- The report and its NUL fit in `sendbuf` exactly for short addresses. -/
theorem dhcp_report_iff (addr : IpAddr) (str sendbuf : ℕ → Byte) : ReportFits addr str sendbuf ↔ Short addr := by
  rw [reportFits_iff_length, short_iff, length_sendText]
  omega

/-- For 192.168.0.105, 25 bytes are written. -/
theorem dhcp_report_overflows : ¬ ReportFits (ip4Addr 192 168 0 105) (fun _ => 0) fun _ => 0 := by
  rw [reportFits_iff_length]
  decide

end LoraGateway.Netapp
