import LoraGateway.Lib.CString
import LoraGateway.Lib.Loop

/-!
# Sending a string

`USART_SendString` of `usart1.c` sends a character before it tests for the end, and counts in 16 bits. The empty
string is not seen to be empty, and the count comes round before a string of 65536 characters or more ends
(`sendString_iff`).
-/

namespace LoraGateway.Bsp

open Lib StateTransition

/-- `k`, the bytes passed to `USART_SendByte`, the offsets of `str` read, and what the latest test said. -/
structure SendString where
  k : BitVec 16
  sent : List Byte
  reads : List ℕ
  more : Bool

def SendString.start : SendString := ⟨0, [], [], true⟩

/-- The loop of `USART_SendString`: an iteration with the test at its end. The flags that the calls wait for get
set. -/
def usartSendString (str : ℕ → Byte) (s : SendString) : Option SendString :=
  if s.more then
    let sent := s.sent ++ [str s.k.toNat]
    let k := s.k + 1
    some ⟨k, sent, s.reads ++ [s.k.toNat, k.toNat], str k.toNat ≠ 0⟩
  else none

/-- The call returns, the characters have been sent, and no byte behind the terminator has been read. -/
def SendsString (str : CString) : Prop :=
  ∃ s ∈ eval (usartSendString str.mem) .start,
    s.sent = str.chars ∧ ∀ r ∈ s.reads, r ≤ str.chars.length

section sendString

variable {str : CString} {s s' : SendString}

theorem usartSendString_cases {mem : ℕ → Byte} (h : usartSendString mem s = some s') :
    s.more = true ∧ s'.k = s.k + 1 ∧ s'.sent = s.sent ++ [mem s.k.toNat] ∧
      s'.reads = s.reads ++ [s.k.toNat, s'.k.toNat] ∧ (s'.more = true ↔ mem s'.k.toNat ≠ 0) := by
  unfold usartSendString at h
  split at h
  · rename_i hmore
    obtain rfl := Option.some.inj h
    exact ⟨hmore, rfl, rfl, rfl, decide_eq_true_iff⟩
  · cases h

theorem usartSendString_none {mem : ℕ → Byte} : usartSendString mem s = none ↔ s.more = false := by
  unfold usartSendString
  cases s.more with
  | true => simp
  | false => simp

/-- The first `k` characters have been sent, and there are more exactly if the end is not reached. -/
structure Sending (str : CString) (s : SendString) : Prop where
  inside : s.k.toNat ≤ str.chars.length
  sent : s.sent = str.chars.take s.k.toNat
  reads : ∀ r ∈ s.reads, r ≤ str.chars.length
  more : s.more = true ↔ s.k.toNat ≠ str.chars.length

theorem sending_start (hpos : 1 ≤ str.chars.length) : Sending str .start where
  inside := Nat.zero_le _
  sent := rfl
  reads _ hr := absurd hr List.not_mem_nil
  more := by
    show true = true ↔ 0 ≠ str.chars.length
    simp only [true_iff]
    omega

theorem sending_step (hshort : str.chars.length ≤ 65535) (hs : Sending str s)
    (h : usartSendString str.mem s = some s') : Sending str s' ∧ s'.k.toNat = s.k.toNat + 1 := by
  obtain ⟨hmore, hk, hsent, hreads, hmore'⟩ := usartSendString_cases h
  have hlt : s.k.toNat < str.chars.length := by
    have hne := hs.more.mp hmore
    have hle := hs.inside
    omega
  have hnext : s'.k.toNat = s.k.toNat + 1 := by
    rw [hk, BitVec.toNat_add]
    show (s.k.toNat + 1) % 65536 = s.k.toNat + 1
    omega
  refine ⟨⟨by omega, ?_, ?_, ?_⟩, hnext⟩
  · rw [hsent, hs.sent, hnext, str.holds.eq_getElem hlt, List.take_append_getElem]
  · intro r hr
    rw [hreads] at hr
    rcases List.mem_append.mp hr with hr | hr
    · exact hs.reads r hr
    · rcases List.mem_pair.mp hr with rfl | rfl
      · exact hs.inside
      · omega
  · rw [hmore', Ne, str.holds.zero_iff (by omega)]

theorem sendsString_of_length (hpos : 1 ≤ str.chars.length) (hshort : str.chars.length ≤ 65535) :
    SendsString str := by
  obtain ⟨s, heval, hs⟩ := Loop.eval_of_measure (p := Sending str)
    (fun s => str.chars.length - s.k.toNat) (fun _ _ hs h => (sending_step hshort hs h).1)
    (fun s s' hs h => by
      obtain ⟨hs', hk⟩ := sending_step hshort hs h
      have hle := hs'.inside
      omega) (sending_start hpos)
  refine ⟨s, heval, ?_, hs.reads⟩
  have hdone : s.more = false := usartSendString_none.mp (mem_eval.mp heval).2
  have hend : s.k.toNat = str.chars.length := by
    by_contra hne
    rw [hs.more.mpr hne] at hdone
    cases hdone
  rw [hs.sent, hend, List.take_length]

theorem not_sendsString_empty (hempty : str.chars = []) : ¬ SendsString str := by
  rintro ⟨s, heval, hsent, -⟩
  obtain ⟨hreach, hnone⟩ := mem_eval.mp heval
  have hsome : s.more = true ∨ s.sent ≠ [] := by
    refine Loop.reaches_invariant (p := fun s => s.more = true ∨ s.sent ≠ []) (fun s s' _ h => ?_) hreach
      (.inl rfl)
    rw [(usartSendString_cases h).2.2.1]
    exact .inr (by simp)
  rw [usartSendString_none.mp hnone] at hsome
  exact hsome.resolve_left Bool.false_ne_true (hsent.trans hempty)

theorem not_sendsString_long (hlong : 65536 ≤ str.chars.length) : ¬ SendsString str := by
  rintro ⟨s, heval, -⟩
  refine Loop.not_dom_of_progress (p := fun s => s.more = true) (fun s hmore => ?_) rfl
    (Part.dom_iff_mem.mpr ⟨s, heval⟩)
  have hstep : usartSendString str.mem s ≠ none := by
    rw [Ne, usartSendString_none, hmore]
    exact Bool.noConfusion
  obtain ⟨s', h⟩ := Option.ne_none_iff_exists'.mp hstep
  refine ⟨s', h, (usartSendString_cases h).2.2.2.2.mpr (str.holds.ne_zero ?_)⟩
  have hk := s'.k.isLt
  omega

end sendString

theorem sendString_iff (str : CString) :
    SendsString str ↔ 1 ≤ str.chars.length ∧ str.chars.length ≤ 65535 := by
  constructor
  · intro h
    constructor
    · by_contra hempty
      exact not_sendsString_empty (List.length_eq_zero_iff.mp (by omega)) h
    · by_contra hlong
      exact not_sendsString_long (by omega) h
  · rintro ⟨hpos, hshort⟩
    exact sendsString_of_length hpos hshort

/-- Neither the empty string is sent as it should be nor 65536 times the same letter. -/
theorem sendString_misses :
    ¬ SendsString (.of [] fun _ h => absurd h List.not_mem_nil) ∧
      ¬ SendsString (.of (List.replicate 65536 0x41) fun c h => by
        rw [List.eq_of_mem_replicate h]
        decide) :=
  ⟨not_sendsString_empty rfl, not_sendsString_long (Nat.le_of_eq List.length_replicate.symm)⟩

end LoraGateway.Bsp
