import LoraGateway.Bsp.Itoa
import LoraGateway.Lib.Loop

/-!
# Formatted output

`USART1_printf` of `usart1.c` goes through its format with one pointer, and looks at the character behind a `%` or
a backslash without asking whether there is one: if the format ends there, the NUL is taken for that
character and the loop goes on behind it (`printf_inside_iff`). What it sends is described piece by piece
(`Prints`); for a format that is complete it is what was asked for (`printf_output`).

Proof: from the test at the top of the loop, one piece of the format is printed (`piece_reaches`), a string argument
with a loop of its own (`walk_reaches`), and then the next. That nothing behind the NUL is read is an invariant
(`Inside`): what is ahead of `Data` is complete, and a step goes over one piece of it (`step_cases`, `complete_next`).
-/

namespace LoraGateway.Bsp

open Lib StateTransition

/-! ## The call -/

/-- A variable argument: a `const char *` or an `int`. -/
inductive Arg
  | str (s : CString)
  | int (d : BitVec 32)

/-- The test of the main loop, or `for (; *s; s++)` in one of the two directives that print. -/
inductive PrintfPc
  | test
  | walk (s : ℕ → Byte) (i : ℕ)

/-- `data` is the offset of `Data` in the format; `sent` is what was passed to `USART_SendData`, and `reads` are
the offsets at which the format was read. -/
structure Printf where
  pc : PrintfPc
  data : ℕ
  ap : List Arg
  buf : ℕ → Byte
  sent : List Byte
  reads : List ℕ

/-- `buf` is not initialised. -/
def Printf.start (ap : List Arg) (buf : ℕ → Byte) : Printf := ⟨.test, 0, ap, buf, [], []⟩

def Printf.send (s : Printf) (c : Byte) : Printf := { s with sent := s.sent ++ [c] }

/-- `*Data`. -/
def Printf.read (s : Printf) : Printf := { s with reads := s.reads ++ [s.data] }

/-- `Data++`. -/
def Printf.advance (s : Printf) : Printf := { s with data := s.data + 1 }

/-- Behind a backslash. -/
def printfEscape (fmt : ℕ → Byte) (s : Printf) : Printf :=
  let s := s.advance.read
  if fmt s.data = ascii 'r' then (s.send 0x0d).advance
  else if fmt s.data = ascii 'n' then (s.send 0x0a).advance
  else s.advance

/-- Behind a `%`. An argument of the wrong type, or none at all, is undefined. -/
def printfDirective (fmt : ℕ → Byte) (s : Printf) : Option Printf :=
  let s := s.advance.read
  if fmt s.data = ascii 's' then
    match s.ap with
    | .str str :: ap => some { s with pc := .walk str.mem 0, ap }
    | _ => none
  else if fmt s.data = ascii 'd' then
    match s.ap with
    | .int d :: ap => some { s with pc := .walk (itoa d s.buf 10) 0, ap, buf := itoa d s.buf 10 }
    | _ => none
  else some s.advance

/-- A step of `USART1_printf`, to the next test of one of its loops. `USART_GetFlagStatus` gets to say that the
transmission is complete. -/
def usart1Printf (fmt : ℕ → Byte) (s : Printf) : Option Printf :=
  match s.pc with
  | .walk str i =>
    if str i ≠ 0 then some { s.send (str i) with pc := .walk str (i + 1) }
    else some { s.advance with pc := .test }
  | .test =>
    let s := s.read
    if fmt s.data = 0 then none
    else if fmt s.data = 0x5c then some (printfEscape fmt s)
    else if fmt s.data = ascii '%' then printfDirective fmt s
    else some (s.send (fmt s.data)).advance

/-! ## Formats -/

/-- A character that stands for itself, or one behind a backslash or a `%`. -/
inductive Piece
  | plain (c : Byte)
  | escape (c : Byte)
  | directive (c : Byte)

def Piece.text : Piece → List Byte
  | .plain c => [c]
  | .escape c => [0x5c, c]
  | .directive c => [ascii '%', c]

def Piece.Proper : Piece → Prop
  | .plain c => c ≠ 0x5c ∧ c ≠ ascii '%'
  | _ => True

/-- The pieces of a format, and what is left over at its end: a backslash or a `%` without a character. -/
def scan : List Byte → List Piece × List Byte
  | [] => ([], [])
  | [c] => if c = 0x5c ∨ c = ascii '%' then ([], [c]) else ([.plain c], [])
  | c :: c' :: rest =>
    if c = 0x5c then (.escape c' :: (scan rest).1, (scan rest).2)
    else if c = ascii '%' then (.directive c' :: (scan rest).1, (scan rest).2)
    else (.plain c :: (scan (c' :: rest)).1, (scan (c' :: rest)).2)

/-- The arguments are of the types that the directives ask for. -/
def Matches : List Piece → List Arg → Prop
  | [], _ => True
  | .directive c :: ps, args =>
    if c = ascii 's' then
      match args with
      | .str _ :: args => Matches ps args
      | _ => False
    else if c = ascii 'd' then
      match args with
      | .int _ :: args => Matches ps args
      | _ => False
    else Matches ps args
  | _ :: ps, args => Matches ps args

theorem scan_eq (chars : List Byte) :
    chars = (scan chars).1.flatMap Piece.text ++ (scan chars).2 ∧ ∀ p ∈ (scan chars).1, p.Proper := by
  induction chars using scan.induct with
  | case1 => exact ⟨rfl, fun p hp => absurd hp List.not_mem_nil⟩
  | case2 c hc =>
    rw [scan, if_pos hc]
    exact ⟨rfl, fun p hp => absurd hp List.not_mem_nil⟩
  | case3 c hc =>
    rw [scan, if_neg hc]
    refine ⟨rfl, fun p hp => ?_⟩
    rw [List.mem_singleton.mp hp]
    exact not_or.mp hc
  | case4 c' rest ih =>
    rw [scan, if_pos rfl]
    refine ⟨congrArg (fun l => 0x5c :: c' :: l) ih.1, List.forall_mem_cons.mpr ⟨trivial, ih.2⟩⟩
  | case5 c' rest hc ih =>
    rw [scan, if_neg hc, if_pos rfl]
    refine ⟨congrArg (fun l => ascii '%' :: c' :: l) ih.1, List.forall_mem_cons.mpr ⟨trivial, ih.2⟩⟩
  | case6 c c' rest hc hc' ih =>
    rw [scan, if_neg hc, if_neg hc']
    refine ⟨congrArg (fun l => c :: l) ih.1, List.forall_mem_cons.mpr ⟨⟨hc, hc'⟩, ih.2⟩⟩

theorem scan_left {chars : List Byte} (h : (scan chars).2 ≠ []) :
    ∃ c, (scan chars).2 = [c] ∧ (c = 0x5c ∨ c = ascii '%') := by
  induction chars using scan.induct with
  | case1 => exact absurd rfl h
  | case2 c hc =>
    rw [scan, if_pos hc]
    exact ⟨c, rfl, hc⟩
  | case3 c hc =>
    rw [scan, if_neg hc] at h
    exact absurd rfl h
  | case4 c' rest ih =>
    rw [scan, if_pos rfl] at h ⊢
    exact ih h
  | case5 c' rest hc ih =>
    rw [scan, if_neg hc, if_pos rfl] at h ⊢
    exact ih h
  | case6 c c' rest hc hc' ih =>
    rw [scan, if_neg hc, if_neg hc'] at h ⊢
    exact ih h

/-! ## What the pieces print -/

def escaped (c : Byte) : List Byte :=
  if c = ascii 'r' then [0x0d] else if c = ascii 'n' then [0x0a] else []

/-- From arguments and `buf`, a piece prints some bytes and leaves the other arguments and `buf`. -/
inductive Prints : Piece → List Arg → (ℕ → Byte) → List Byte → List Arg → (ℕ → Byte) → Prop
  | plain {c : Byte} {ap : List Arg} {buf : ℕ → Byte} : Prints (.plain c) ap buf [c] ap buf
  | escape {c : Byte} {ap : List Arg} {buf : ℕ → Byte} : Prints (.escape c) ap buf (escaped c) ap buf
  | str {str : CString} {ap : List Arg} {buf : ℕ → Byte} :
      Prints (.directive (ascii 's')) (.str str :: ap) buf str.chars ap buf
  | int {d : BitVec 32} {ap : List Arg} {buf : ℕ → Byte} {chars : List Byte} :
      Holds (itoa d buf 10) chars →
      Prints (.directive (ascii 'd')) (.int d :: ap) buf chars ap (itoa d buf 10)
  | other {c : Byte} {ap : List Arg} {buf : ℕ → Byte} : c ≠ ascii 's' → c ≠ ascii 'd' →
      Prints (.directive c) ap buf [] ap buf

inductive PrintsAll : List Piece → List Arg → (ℕ → Byte) → List Byte → List Arg → (ℕ → Byte) → Prop
  | nil {ap : List Arg} {buf : ℕ → Byte} : PrintsAll [] ap buf [] ap buf
  | cons {p : Piece} {ps : List Piece} {ap ap' ap'' : List Arg} {buf buf' buf'' : ℕ → Byte}
      {out out' : List Byte} : Prints p ap buf out ap' buf' → PrintsAll ps ap' buf' out' ap'' buf'' →
      PrintsAll (p :: ps) ap buf (out ++ out') ap'' buf''

theorem matches_prints {ps : List Piece} {ap : List Arg} (buf : ℕ → Byte) (h : Matches ps ap) :
    ∃ out ap' buf', PrintsAll ps ap buf out ap' buf' := by
  induction ps generalizing ap buf with
  | nil => exact ⟨[], ap, buf, .nil⟩
  | cons p ps ih =>
    cases p with
    | plain c =>
      obtain ⟨out, ap', buf', hall⟩ := ih buf h
      exact ⟨_, ap', buf', .cons .plain hall⟩
    | escape c =>
      obtain ⟨out, ap', buf', hall⟩ := ih buf h
      exact ⟨_, ap', buf', .cons .escape hall⟩
    | directive c =>
      unfold Matches at h
      split at h
      · rename_i hc
        subst hc
        split at h
        · obtain ⟨out, ap', buf', hall⟩ := ih buf h
          exact ⟨_, ap', buf', .cons .str hall⟩
        · cases h
      · rename_i hs
        split at h
        · rename_i hc
          subst hc
          split at h
          · rename_i d rest
            obtain ⟨n, -, hnul⟩ := itoa_nul d buf
            obtain ⟨chars, hchars⟩ := exists_holds ⟨n, hnul⟩
            obtain ⟨out, ap', buf', hall⟩ := ih (itoa d buf 10) h
            exact ⟨_, ap', buf', .cons (.int hchars) hall⟩
          · cases h
        · rename_i hd
          obtain ⟨out, ap', buf', hall⟩ := ih buf h
          exact ⟨_, ap', buf', .cons (.other hs hd) hall⟩

section run

variable {fmt : CString} {s s' : Printf} {chars : List Byte} {mem : ℕ → Byte} {i n : ℕ}

/-- At the test, with so much of the format behind it. -/
structure Printf.At (s : Printf) (n : ℕ) (ap : List Arg) (buf : ℕ → Byte) (sent : List Byte) : Prop where
  pc : s.pc = .test
  data : s.data = n
  ap : s.ap = ap
  buf : s.buf = buf
  sent : s.sent = sent

variable (fmt) in
/-- The characters of a string are sent up to its NUL, and `Data` goes on. -/
theorem walk_reaches (h : Holds mem chars) (hi : i ≤ chars.length) (hpc : s.pc = .walk mem i) :
    ∃ s', Reaches (usart1Printf fmt.mem) s s' ∧ s'.At (s.data + 1) s.ap s.buf (s.sent ++ chars.drop i) := by
  induction hl : chars.drop i generalizing i s with
  | nil =>
    have hend : i = chars.length := Nat.le_antisymm hi (List.drop_eq_nil_iff.mp hl)
    have hstep : usart1Printf fmt.mem s = some { s.advance with pc := .test } := by
      unfold usart1Printf
      rw [hpc]
      exact if_neg (not_not.mpr (hend ▸ h.nul))
    refine ⟨_, Loop.reaches_one hstep, rfl, rfl, rfl, rfl, ?_⟩
    exact (List.append_nil s.sent).symm
  | cons c rest ih =>
    obtain ⟨hlt, hc, hrest⟩ := h.eq_of_drop hl
    have hstep : usart1Printf fmt.mem s = some { s.send c with pc := .walk mem (i + 1) } := by
      unfold usart1Printf
      rw [hpc, ← hc]
      exact if_pos (h.ne_zero hlt)
    obtain ⟨s', hreach, hat⟩ := ih (s := { s.send c with pc := .walk mem (i + 1) }) hlt rfl hrest
    refine ⟨s', Loop.reaches_head hstep hreach, hat.pc, hat.data, hat.ap, hat.buf, ?_⟩
    rw [hat.sent, Printf.send, List.append_assoc, List.singleton_append]

theorem step_test (hpc : s.pc = .test) (hlt : s.data < fmt.chars.length) :
    usart1Printf fmt.mem s =
      if fmt.mem s.data = 0x5c then some (printfEscape fmt.mem s.read)
      else if fmt.mem s.data = ascii '%' then printfDirective fmt.mem s.read
      else some (s.read.send (fmt.mem s.data)).advance := by
  unfold usart1Printf
  rw [hpc]
  exact if_neg (fmt.holds.ne_zero hlt)

theorem step_end (hpc : s.pc = .test) (hdata : s.data = fmt.chars.length) : usart1Printf fmt.mem s = none := by
  unfold usart1Printf
  rw [hpc]
  exact if_pos (hdata ▸ fmt.holds.nul)

theorem step_percent {c : Byte} {rest : List Byte} (hpc : s.pc = .test)
    (hdrop : fmt.chars.drop s.data = ascii '%' :: c :: rest) :
    usart1Printf fmt.mem s = printfDirective fmt.mem s.read ∧ fmt.mem (s.data + 1) = c := by
  obtain ⟨hlt, hchar, hdrop'⟩ := fmt.holds.eq_of_drop hdrop
  obtain ⟨-, hnext, -⟩ := fmt.holds.eq_of_drop hdrop'
  refine ⟨?_, hnext⟩
  rw [step_test hpc hlt, hchar, if_neg (by decide), if_pos rfl]

theorem printfEscape_at (mem : ℕ → Byte) {ap : List Arg} {buf : ℕ → Byte} {sent : List Byte}
    (hs : s.At n ap buf sent) : (printfEscape mem s).At (n + 2) ap buf (sent ++ escaped (mem (n + 1))) := by
  obtain ⟨hpc, rfl, rfl, rfl, rfl⟩ := hs
  have hread : s.advance.read.data = s.data + 1 := rfl
  unfold printfEscape escaped
  simp only [hread]
  split
  · exact ⟨hpc, rfl, rfl, rfl, rfl⟩
  · split
    · exact ⟨hpc, rfl, rfl, rfl, rfl⟩
    · exact ⟨hpc, rfl, rfl, rfl, (List.append_nil s.sent).symm⟩

theorem printfDirective_str {mem : ℕ → Byte} {str : CString} {ap : List Arg} (hap : s.ap = .str str :: ap)
    (hmem : mem (s.data + 1) = ascii 's') :
    printfDirective mem s = some { s.advance.read with pc := .walk str.mem 0, ap } := by
  have happ : s.advance.read.ap = .str str :: ap := hap
  unfold printfDirective
  simp only [happ]
  exact if_pos hmem

theorem printfDirective_int {mem : ℕ → Byte} {d : BitVec 32} {ap : List Arg} (hap : s.ap = .int d :: ap)
    (hmem : mem (s.data + 1) = ascii 'd') :
    printfDirective mem s =
      some { s.advance.read with pc := .walk (itoa d s.buf 10) 0, ap, buf := itoa d s.buf 10 } := by
  have happ : s.advance.read.ap = .int d :: ap := hap
  have hread : mem s.advance.read.data = ascii 'd' := hmem
  unfold printfDirective
  simp only [happ, hread]
  exact (if_neg (by decide)).trans (if_pos trivial)

theorem printfDirective_other {mem : ℕ → Byte} (hs : mem (s.data + 1) ≠ ascii 's')
    (hd : mem (s.data + 1) ≠ ascii 'd') : printfDirective mem s = some s.advance.read.advance := by
  unfold printfDirective
  exact (if_neg hs).trans (if_neg hd)

/-- The loop prints a piece as it should, and goes on behind it. -/
theorem piece_reaches {p : Piece} {rest : List Byte} {ap ap' : List Arg} {buf buf' : ℕ → Byte}
    {sent out : List Byte} (hs : s.At n ap buf sent) (hdrop : fmt.chars.drop n = p.text ++ rest)
    (hp : p.Proper) (hprints : Prints p ap buf out ap' buf') :
    ∃ s', Reaches (usart1Printf fmt.mem) s s' ∧ s'.At (n + p.text.length) ap' buf' (sent ++ out) := by
  obtain ⟨hpc, rfl, hap, hbuf, rfl⟩ := hs
  cases hprints with
  | plain =>
    obtain ⟨hlt, hchar, -⟩ := fmt.holds.eq_of_drop hdrop
    refine ⟨(s.read.send (fmt.mem s.data)).advance, Loop.reaches_one ?_, hpc, rfl, hap, hbuf, ?_⟩
    · rw [step_test hpc hlt, hchar, if_neg hp.1, if_neg hp.2]
    · rw [hchar]
      rfl
  | escape =>
    obtain ⟨hlt, hchar, hdrop'⟩ := fmt.holds.eq_of_drop hdrop
    obtain ⟨-, hnext, -⟩ := fmt.holds.eq_of_drop hdrop'
    have hstep : usart1Printf fmt.mem s = some (printfEscape fmt.mem s.read) := by
      rw [step_test hpc hlt, hchar, if_pos rfl]
    have hat := printfEscape_at fmt.mem (s := s.read) ⟨hpc, rfl, hap, hbuf, rfl⟩
    rw [show s.read.data = s.data from rfl, hnext] at hat
    exact ⟨_, Loop.reaches_one hstep, hat⟩
  | @str str =>
    obtain ⟨hstep, hnext⟩ := step_percent hpc hdrop
    rw [printfDirective_str (s := s.read) hap hnext] at hstep
    obtain ⟨s', hreach, hat⟩ := walk_reaches fmt
      (s := { s.read.advance.read with pc := .walk str.mem 0, ap := ap' }) str.holds (Nat.zero_le _) rfl
    exact ⟨s', Loop.reaches_head hstep hreach, hat.pc, hat.data, hat.ap, hat.buf.trans hbuf, hat.sent⟩
  | @int d _ _ _ hchars =>
    obtain ⟨hstep, hnext⟩ := step_percent hpc hdrop
    subst hbuf
    rw [printfDirective_int (s := s.read) hap hnext] at hstep
    obtain ⟨s', hreach, hat⟩ := walk_reaches fmt
      (s := { s.read.advance.read with pc := .walk (itoa d s.buf 10) 0, ap := ap', buf := itoa d s.buf 10 })
      hchars (Nat.zero_le _) rfl
    exact ⟨s', Loop.reaches_head hstep hreach, hat.pc, hat.data, hat.ap, hat.buf, hat.sent⟩
  | other hs hd =>
    obtain ⟨hstep, hnext⟩ := step_percent hpc hdrop
    rw [printfDirective_other (s := s.read) (hnext ▸ hs) (hnext ▸ hd)] at hstep
    exact ⟨_, Loop.reaches_one hstep, hpc, rfl, hap, hbuf, (List.append_nil _).symm⟩

theorem pieces_reach {ps : List Piece} {rest : List Byte} {ap ap' : List Arg} {buf buf' : ℕ → Byte}
    {sent out : List Byte} (hs : s.At n ap buf sent)
    (hdrop : fmt.chars.drop n = ps.flatMap Piece.text ++ rest) (hp : ∀ p ∈ ps, p.Proper)
    (hprints : PrintsAll ps ap buf out ap' buf') :
    ∃ s', Reaches (usart1Printf fmt.mem) s s' ∧
      s'.At (n + (ps.flatMap Piece.text).length) ap' buf' (sent ++ out) := by
  induction hprints generalizing s n sent with
  | nil => exact ⟨s, Loop.reaches_refl _ s, hs.pc, hs.data, hs.ap, hs.buf, by rw [hs.sent, List.append_nil]⟩
  | @cons p ps _ _ _ _ _ _ out out' hone _ ih =>
    rw [List.flatMap_cons, List.append_assoc] at hdrop
    obtain ⟨hp, hps⟩ := List.forall_mem_cons.mp hp
    obtain ⟨t, hreach, ht⟩ := piece_reaches hs hdrop hp hone
    have hdrop' : fmt.chars.drop (n + p.text.length) = ps.flatMap Piece.text ++ rest := by
      rw [← List.drop_drop, hdrop, List.drop_left]
    obtain ⟨s', hreach', hs'⟩ := ih ht hdrop' hps
    rw [List.append_assoc] at hs'
    rw [List.flatMap_cons, List.length_append, ← Nat.add_assoc]
    exact ⟨s', Loop.Reaches.trans hreach hreach', hs'⟩

theorem format_reaches {ps : List Piece} {rest : List Byte} {ap ap' : List Arg} {buf buf' : ℕ → Byte}
    {out : List Byte} (hchars : fmt.chars = ps.flatMap Piece.text ++ rest) (hp : ∀ p ∈ ps, p.Proper)
    (hprints : PrintsAll ps ap buf out ap' buf') :
    ∃ s', Reaches (usart1Printf fmt.mem) (.start ap buf) s' ∧
      s'.At (ps.flatMap Piece.text).length ap' buf' out := by
  have hstart : (Printf.start ap buf).At 0 ap buf [] := ⟨rfl, rfl, rfl, rfl, rfl⟩
  obtain ⟨s', hreach, hs'⟩ := pieces_reach hstart hchars hp hprints
  rw [Nat.zero_add, List.nil_append] at hs'
  exact ⟨s', hreach, hs'⟩

end run

/-! ## Inside the format -/

/-- Where the loop goes on: behind the character of the directive while that prints. -/
def Printf.offset (s : Printf) : ℕ :=
  match s.pc with
  | .test => s.data
  | .walk _ _ => s.data + 1

/-- The format ends with a `%` or a backslash that wants another character. -/
def Dangling (chars : List Byte) : Prop := (scan chars).2 ≠ []

instance (chars : List Byte) : Decidable (Dangling chars) := inferInstanceAs (Decidable (_ ≠ _))

/-- The loop ends at the terminator, no byte behind it is read, and each iteration takes `Data` forward and not past
the terminator. -/
structure StaysInside (fmt : CString) (ap : List Arg) (buf : ℕ → Byte) : Prop where
  ends : ∃ s ∈ eval (usart1Printf fmt.mem) (.start ap buf), s.pc = .test ∧ s.data = fmt.chars.length
  reads : ∀ s, Reaches (usart1Printf fmt.mem) (.start ap buf) s → ∀ r ∈ s.reads, r ≤ fmt.chars.length
  consumes : ∀ s s', Reaches (usart1Printf fmt.mem) (.start ap buf) s → s.pc = .test →
    Reaches₁ (usart1Printf fmt.mem) s s' → s'.pc = .test → s.data < s'.data ∧ s'.data ≤ fmt.chars.length

section inside

variable {fmt : CString} {s s' : Printf} {ap : List Arg} {buf : ℕ → Byte}

/-- What is ahead is complete. -/
structure Inside (fmt : CString) (s : Printf) : Prop where
  offset : s.offset ≤ fmt.chars.length
  complete : ¬ Dangling (fmt.chars.drop s.offset)
  reads : ∀ r ∈ s.reads, r ≤ fmt.chars.length

/-- Behind a character that stands for itself, or a pair, what is ahead is complete still. -/
theorem complete_next {chars : List Byte} {n : ℕ} {c : Byte} {rest : List Byte} (h : ¬ Dangling (chars.drop n))
    (hdrop : chars.drop n = c :: rest) :
    if c = 0x5c ∨ c = ascii '%' then n + 2 ≤ chars.length ∧ ¬ Dangling (chars.drop (n + 2))
    else ¬ Dangling (chars.drop (n + 1)) := by
  have hnext : chars.drop (n + 1) = rest := by rw [← List.drop_drop, hdrop, List.drop_one, List.tail_cons]
  have hlt : n < chars.length := by
    by_contra hle
    rw [List.drop_eq_nil_of_le (by omega)] at hdrop
    cases hdrop
  rw [hdrop, Dangling, not_not] at h
  cases rest with
  | nil =>
    rw [scan] at h
    split at h
    · cases h
    · rename_i hc
      rw [if_neg hc, hnext]
      exact fun h => h rfl
  | cons c' rest =>
    have hnext' : chars.drop (n + 2) = rest := by
      rw [show n + 2 = n + 1 + 1 from rfl, ← List.drop_drop, hnext, List.drop_one, List.tail_cons]
    have hlen : n + 2 ≤ chars.length := by
      by_contra hle
      rw [List.drop_eq_nil_of_le (by omega)] at hnext
      cases hnext
    rw [scan] at h
    split at h
    · rename_i hc
      rw [if_pos (.inl hc), hnext', Dangling, not_not]
      exact ⟨hlen, h⟩
    · split at h
      · rename_i hc
        rw [if_pos (.inr hc), hnext', Dangling, not_not]
        exact ⟨hlen, h⟩
      · rename_i hc hc'
        rw [if_neg (not_or.mpr ⟨hc, hc'⟩), hnext, Dangling, not_not]
        exact h

theorem offset_test (h : s.pc = .test) : s.offset = s.data := by rw [Printf.offset, h]

theorem printfEscape_place {mem : ℕ → Byte} (hpc : s.pc = .test) :
    (printfEscape mem s).offset = s.data + 2 ∧ (printfEscape mem s).reads = s.reads ++ [s.data + 1] := by
  unfold printfEscape
  dsimp only
  split
  · exact ⟨offset_test hpc, rfl⟩
  · split
    · exact ⟨offset_test hpc, rfl⟩
    · exact ⟨offset_test hpc, rfl⟩

theorem printfDirective_place {mem : ℕ → Byte} (hpc : s.pc = .test) (h : printfDirective mem s = some s') :
    s'.offset = s.data + 2 ∧ s'.reads = s.reads ++ [s.data + 1] := by
  unfold printfDirective at h
  dsimp only at h
  split at h
  · split at h
    · obtain rfl := Option.some.inj h
      exact ⟨rfl, rfl⟩
    · cases h
  · split at h
    · split at h
      · obtain rfl := Option.some.inj h
        exact ⟨rfl, rfl⟩
      · cases h
    · obtain rfl := Option.some.inj h
      exact ⟨offset_test hpc, rfl⟩

/-- What a step does to the place and the reads: nothing in the loop over a string; at the test, one character and
its read, or two of each. -/
theorem step_cases (h : usart1Printf fmt.mem s = some s') :
    (s.pc ≠ .test ∧ s'.offset = s.offset ∧ s'.reads = s.reads) ∨
    (s.pc = .test ∧ fmt.mem s.data ≠ 0 ∧
      if fmt.mem s.data = 0x5c ∨ fmt.mem s.data = ascii '%' then
        s'.offset = s.data + 2 ∧ s'.reads = s.reads ++ [s.data] ++ [s.data + 1]
      else s'.offset = s.data + 1 ∧ s'.reads = s.reads ++ [s.data]) := by
  unfold usart1Printf at h
  cases hpc : s.pc with
  | walk mem i =>
    rw [hpc] at h
    refine .inl ⟨PrintfPc.noConfusion, ?_⟩
    have hoffset : s.offset = s.data + 1 := by rw [Printf.offset, hpc]
    dsimp only at h
    split at h
    · obtain rfl := Option.some.inj h
      exact ⟨hoffset.symm, rfl⟩
    · obtain rfl := Option.some.inj h
      exact ⟨hoffset.symm, rfl⟩
  | test =>
    rw [hpc] at h
    dsimp only at h
    split at h
    · cases h
    · rename_i hne
      refine .inr ⟨rfl, hne, ?_⟩
      split at h
      · rename_i hc
        obtain rfl := Option.some.inj h
        rw [if_pos (.inl hc)]
        exact printfEscape_place (s := s.read) hpc
      · rename_i hc
        split at h
        · rename_i hc'
          rw [if_pos (.inr hc')]
          exact printfDirective_place (s := s.read) hpc h
        · rename_i hc'
          obtain rfl := Option.some.inj h
          have hplain : ¬ (fmt.mem s.data = 0x5c ∨ fmt.mem s.data = ascii '%') := not_or.mpr ⟨hc, hc'⟩
          rw [if_neg hplain]
          exact ⟨offset_test hpc, rfl⟩

theorem inside_step (hs : Inside fmt s) (h : usart1Printf fmt.mem s = some s') :
    Inside fmt s' ∧ s.offset ≤ s'.offset ∧ (s.pc = .test → s.offset < s'.offset) := by
  rcases step_cases h with ⟨hpc, hoffset, hreads⟩ | ⟨hpc, hne, hplace⟩
  · exact ⟨⟨hoffset ▸ hs.offset, hoffset ▸ hs.complete, hreads ▸ hs.reads⟩, Nat.le_of_eq hoffset.symm,
      fun h => absurd h hpc⟩
  · have hoffset := offset_test hpc
    have hle := hs.offset
    rw [hoffset] at hle
    have hlt : s.data < fmt.chars.length := by
      refine Nat.lt_of_le_of_ne hle fun heq => hne ?_
      rw [heq]
      exact fmt.holds.nul
    have hdrop := fmt.holds.drop_eq hlt
    have hnext := complete_next (hoffset ▸ hs.complete) hdrop
    split at hplace
    · rename_i hc
      rw [if_pos hc] at hnext
      obtain ⟨hplace, hreads⟩ := hplace
      refine ⟨⟨by omega, hplace ▸ hnext.2, ?_⟩, by omega, fun _ => by omega⟩
      rw [hreads]
      simp only [List.forall_mem_append, List.forall_mem_singleton]
      exact ⟨⟨hs.reads, hle⟩, hlt⟩
    · rename_i hc
      rw [if_neg hc] at hnext
      obtain ⟨hplace, hreads⟩ := hplace
      refine ⟨⟨by omega, hplace ▸ hnext, ?_⟩, by omega, fun _ => by omega⟩
      rw [hreads]
      simp only [List.forall_mem_append, List.forall_mem_singleton]
      exact ⟨hs.reads, hle⟩

theorem inside_start (ap : List Arg) (buf : ℕ → Byte) (h : ¬ Dangling fmt.chars) : Inside fmt (.start ap buf) where
  offset := Nat.zero_le _
  complete := h
  reads _ hr := absurd hr List.not_mem_nil

theorem inside_reaches (hs : Inside fmt s) (h : Reaches (usart1Printf fmt.mem) s s') :
    Inside fmt s' ∧ s.offset ≤ s'.offset := by
  refine Loop.reaches_invariant (p := fun s' => Inside fmt s' ∧ s.offset ≤ s'.offset) ?_ h
    ⟨hs, Nat.le_refl _⟩
  rintro t t' ⟨ht, hle⟩ hstep
  obtain ⟨ht', hle', -⟩ := inside_step ht hstep
  exact ⟨ht', Nat.le_trans hle hle'⟩

theorem staysInside_of_complete (hmatch : Matches (scan fmt.chars).1 ap) (h : ¬ Dangling fmt.chars) :
    StaysInside fmt ap buf where
  ends := by
    obtain ⟨hchars, hproper⟩ := scan_eq fmt.chars
    obtain ⟨out, ap', buf', hprints⟩ := matches_prints buf hmatch
    obtain ⟨s, hreach, hs⟩ := format_reaches hchars hproper hprints
    have hdata : s.data = fmt.chars.length := by
      have hlen := congrArg List.length hchars
      rw [not_not.mp h, List.append_nil] at hlen
      rw [hs.data, ← hlen]
    exact ⟨s, mem_eval.mpr ⟨hreach, step_end hs.pc hdata⟩, hs.pc, hdata⟩
  reads s hs := (inside_reaches (inside_start ap buf h) hs).1.reads
  consumes s s' hs hpc hreach hpc' := by
    obtain ⟨hinside, -⟩ := inside_reaches (inside_start ap buf h) hs
    obtain ⟨t, hstep, hrest⟩ := Relation.TransGen.head'_iff.mp hreach
    obtain ⟨ht, -, hlt⟩ := inside_step hinside hstep
    obtain ⟨hs', hle⟩ := inside_reaches ht hrest
    have hend := hs'.offset
    have hfirst := hlt hpc
    rw [offset_test hpc] at hfirst
    rw [offset_test hpc'] at hle hend
    exact ⟨by omega, hend⟩

theorem not_staysInside_of_dangling (hmatch : Matches (scan fmt.chars).1 ap) (h : Dangling fmt.chars) :
    ¬ StaysInside fmt ap buf := by
  intro hinside
  obtain ⟨hchars, hproper⟩ := scan_eq fmt.chars
  obtain ⟨c, hleft, hc⟩ := scan_left h
  rw [hleft] at hchars
  obtain ⟨out, ap', buf', hprints⟩ := matches_prints buf hmatch
  obtain ⟨s, hreach, hs⟩ := format_reaches hchars hproper hprints
  obtain ⟨hpc, hdata, -, -, -⟩ := hs
  have hdrop : fmt.chars.drop s.data = [c] := by
    rw [hdata]
    exact (congrArg (List.drop _) hchars).trans List.drop_left
  obtain ⟨hlt, hchar, hnil⟩ := fmt.holds.eq_of_drop hdrop
  have hlen : s.data + 1 = fmt.chars.length := Nat.le_antisymm hlt (List.drop_eq_nil_iff.mp hnil)
  have hnul : fmt.mem (s.data + 1) = 0 := hlen ▸ fmt.holds.nul
  -- the NUL is taken for the character that was wanted
  have hpast : ∃ s', usart1Printf fmt.mem s = some s' ∧ s'.pc = .test ∧ s'.data = s.data + 2 := by
    rw [step_test hpc hlt, hchar]
    rcases hc with rfl | rfl
    · rw [if_pos rfl]
      have hat := printfEscape_at fmt.mem (s := s.read) ⟨hpc, rfl, rfl, rfl, rfl⟩
      exact ⟨_, rfl, hat.pc, hat.data⟩
    · have hother : fmt.mem (s.read.data + 1) = 0 := hnul
      rw [if_neg (by decide), if_pos rfl, printfDirective_other (by rw [hother]; decide) (by rw [hother]; decide)]
      exact ⟨_, rfl, hpc, rfl⟩
  obtain ⟨s', hstep, hpc', hdata'⟩ := hpast
  have hend := (hinside.consumes s s' hreach hpc (Relation.TransGen.single hstep) hpc').2
  omega

end inside

/-- With arguments of the types asked for, the call stays inside its format exactly if no `%` and no backslash
that begins a directive or an escape is the last character. -/
theorem printf_inside_iff (fmt : CString) (ap : List Arg) (buf : ℕ → Byte)
    (hmatch : Matches (scan fmt.chars).1 ap) : StaysInside fmt ap buf ↔ ¬ Dangling fmt.chars := by
  constructor
  · intro hinside h
    exact not_staysInside_of_dangling hmatch h hinside
  · intro h
    exact staysInside_of_complete hmatch h

/-- The format `a%d`. -/
def sampleFormat : CString := .of [0x61, ascii '%', ascii 'd'] (by decide)

theorem printf_inside_sample : StaysInside sampleFormat [.int 5] fun _ => 0 :=
  (printf_inside_iff sampleFormat [.int 5] (fun _ => 0) trivial).mpr (by decide)

/-- The format `100%` is left behind. -/
theorem printf_leaves_format :
    ¬ StaysInside (.of [0x31, 0x30, 0x30, ascii '%'] (by decide)) [] fun _ => 0 :=
  not_staysInside_of_dangling trivial (by decide)

/-! ## What is sent -/

/-- A piece of a format with the argument it asks for; integers have five digits at most. -/
inductive Item
  | plain (c : Byte) (hc : c ≠ 0 ∧ c ≠ 0x5c ∧ c ≠ ascii '%')
  | cr
  | lf
  | str (s : CString)
  | int (d : BitVec 32) (hd : -99999 ≤ d.toInt ∧ d.toInt ≤ 99999)

def Item.text : Item → List Byte
  | .plain c _ => [c]
  | .cr => [0x5c, ascii 'r']
  | .lf => [0x5c, ascii 'n']
  | .str _ => [ascii '%', ascii 's']
  | .int _ _ => [ascii '%', ascii 'd']

def Item.args : Item → List Arg
  | .str s => [.str s]
  | .int d _ => [.int d]
  | _ => []

def Item.output : Item → List Byte
  | .plain c _ => [c]
  | .cr => [0x0d]
  | .lf => [0x0a]
  | .str s => s.chars
  | .int d _ => numeral d.toInt

theorem item_prints (item : Item) (ap : List Arg) (buf : ℕ → Byte) :
    ∃ p buf', Piece.text p = item.text ∧ p.Proper ∧ Prints p (item.args ++ ap) buf item.output ap buf' := by
  cases item with
  | plain c hc => exact ⟨.plain c, buf, rfl, hc.2, .plain⟩
  | cr => exact ⟨.escape (ascii 'r'), buf, rfl, trivial, .escape⟩
  | lf => exact ⟨.escape (ascii 'n'), buf, rfl, trivial, .escape⟩
  | str s => exact ⟨.directive (ascii 's'), buf, rfl, trivial, .str⟩
  | int d hd => exact ⟨.directive (ascii 'd'), itoa d buf 10, rfl, trivial, .int (holds_itoa hd.1 hd.2)⟩

theorem items_print (items : List Item) (ap : List Arg) (buf : ℕ → Byte) :
    ∃ ps buf', ps.flatMap Piece.text = items.flatMap Item.text ∧ (∀ p ∈ ps, p.Proper) ∧
      PrintsAll ps (items.flatMap Item.args ++ ap) buf (items.flatMap Item.output) ap buf' := by
  induction items generalizing buf with
  | nil => exact ⟨[], buf, rfl, fun p hp => absurd hp List.not_mem_nil, .nil⟩
  | cons item items ih =>
    obtain ⟨p, buf', htext, hproper, hprints⟩ := item_prints item (items.flatMap Item.args ++ ap) buf
    obtain ⟨ps, buf'', htexts, hpropers, hall⟩ := ih buf'
    refine ⟨p :: ps, buf'', ?_, List.forall_mem_cons.mpr ⟨hproper, hpropers⟩, ?_⟩
    · rw [List.flatMap_cons, List.flatMap_cons, htext, htexts]
    · rw [List.flatMap_cons, List.flatMap_cons, List.append_assoc]
      exact .cons hprints hall

/-- A format of plain characters, `\r`, `\n`, `%s` and `%d` sends its pieces one after another, with each argument in
the place that asks for it, and takes no others. -/
theorem printf_output (items : List Item) (others : List Arg) (fmt : CString) (buf : ℕ → Byte)
    (hfmt : fmt.chars = items.flatMap Item.text) :
    ∃ s ∈ eval (usart1Printf fmt.mem) (.start (items.flatMap Item.args ++ others) buf),
      s.pc = .test ∧ s.data = fmt.chars.length ∧ s.sent = items.flatMap Item.output ∧ s.ap = others := by
  obtain ⟨ps, buf', htexts, hpropers, hall⟩ := items_print items others buf
  rw [← htexts] at hfmt
  have hchars : fmt.chars = ps.flatMap Piece.text ++ [] := by rw [hfmt, List.append_nil]
  obtain ⟨s, hreach, hs⟩ := format_reaches hchars hpropers hall
  have hdata : s.data = fmt.chars.length := by rw [hs.data, ← hfmt]
  exact ⟨s, mem_eval.mpr ⟨hreach, step_end hs.pc hdata⟩, hs.pc, hdata, hs.sent, hs.ap⟩

/-- `a%d` with -7 sends `a-7`. -/
theorem printf_output_sample :
    ∃ s ∈ eval (usart1Printf sampleFormat.mem) (.start [.int (-7)] fun _ => 0),
      s.pc = .test ∧ s.data = 3 ∧ s.sent = [0x61, ascii '-', ascii '7'] ∧ s.ap = [] :=
  printf_output [.plain 0x61 (by decide), .int (-7) (by decide)] [] sampleFormat (fun _ => 0) rfl

end LoraGateway.Bsp
