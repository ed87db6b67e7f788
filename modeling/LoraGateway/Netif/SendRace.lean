import LoraGateway.Lib.Machine
import LoraGateway.Netif.PacketSend

/-!
# Several tasks sending

`low_level_output` called by several tasks. Copying a segment into `MySendbuf` is one step, and so is
the critical section around `enc28j60PacketSend`; nothing holds the buffer between them. What a task
has copied is there at the end if no copy of another changes it meanwhile (`SendAct.apart`): then the
bytes below its `templen` are the segments it has copied (`SendRace.Ok`), whatever is above. So no check
fails, and a call that returns has given the bytes of its own chain to `enc28j60PacketSend`, once
(`send_race_apart`).
-/

namespace LoraGateway.Netif

open Lib

variable {ι : Type*} [DecidableEq ι]

/-- A pbuf chain whose lengths agree and that fits the send buffer. -/
structure Packet where
  head : Pbuf
  tail : List Pbuf
  wf : head.totLen = (chainBytes (head :: tail)).length
  le : head.totLen ≤ sendbufSize

def Packet.chain (p : Packet) : List Pbuf := p.head :: p.tail

/-- A call of `PacketSend` in its copy loop: what is left of the chain, and `templen`. -/
structure Sending where
  packet : Packet
  rest : List Pbuf
  templen : ℕ

/-- The buffer and the tasks. The frames given to `enc28j60PacketSend` and the calls that have returned are
history, each with its task and its chain. -/
structure SendRace (ι : Type*) where
  mySendbuf : ℕ → Byte
  ctl : ι → Option Sending
  sent : List (ι × Packet × List Byte)
  returned : List (ι × Packet × Err)

/-- A call, a segment copied and checked, and the end of a call. -/
inductive SendAct (ι : Type*)
  | call (t : ι) (p : Packet)
  | copy (t : ι)
  | send (t : ι)

/-- Task `t` goes on with `x`. -/
def SendRace.goto (s : SendRace ι) (t : ι) (x : Option Sending) : SendRace ι :=
  { s with ctl := Function.update s.ctl t x }

/-- The call of task `t` with the chain `p` returns. -/
def SendRace.ret (s : SendRace ι) (t : ι) (p : Packet) (e : Err) : SendRace ι :=
  { s with ctl := Function.update s.ctl t none, returned := s.returned ++ [(t, p, e)] }

def SendRace.step (s : SendRace ι) : SendAct ι → Option (SendRace ι)
  | .call t p =>
    match s.ctl t with
    | none => some (s.goto t (some ⟨p, p.chain, 0⟩))
    | some _ => none
  | .copy t =>
    match s.ctl t with
    | some ⟨p, q :: rest, templen⟩ =>
      let s := { s with mySendbuf := memcpy s.mySendbuf templen q.payload }
      if tooLong (templen + q.len) p.head.totLen then some (s.ret t p .buf)
      else some (s.goto t (some ⟨p, rest, templen + q.len⟩))
    | _ => none
  | .send t =>
    match s.ctl t with
    | some ⟨p, [], templen⟩ =>
      if templen = p.head.totLen then
        some ({ s with sent := s.sent ++ [(t, p, readBytes s.mySendbuf 0 templen)] }.ret t p .ok)
      else some (s.ret t p .buf)
    | _ => none

/-- Tasks that call `low_level_output`, on any buffer. -/
def sendMachine (ι : Type*) [DecidableEq ι] : Machine (SendRace ι) (SendAct ι) where
  init s := s.ctl = (fun _ => none) ∧ s.sent = [] ∧ s.returned = []
  step := SendRace.step

variable {s s' : SendRace ι} {t u : ι}

@[simp] theorem SendRace.goto_ctl (x : Option Sending) : (s.goto t x).ctl t = x :=
  Function.update_self ..

@[simp] theorem SendRace.ret_ctl (p : Packet) (e : Err) : (s.ret t p e).ctl t = none := Function.update_self ..

theorem SendRace.goto_ctl_of_ne (hu : u ≠ t) (x : Option Sending) :
    (s.goto t x).ctl u = s.ctl u := Function.update_of_ne hu ..

theorem SendRace.ret_ctl_of_ne (hu : u ≠ t) (p : Packet) (e : Err) : (s.ret t p e).ctl u = s.ctl u :=
  Function.update_of_ne hu ..

/-! ## A call nobody interrupts -/

theorem run_copies {p : Packet} {rest : List Pbuf} {templen len : ℕ} {buf : ℕ → Byte}
    (hc : s.ctl t = some ⟨p, rest, templen⟩)
    (hcopy : copyChain p.head.totLen s.mySendbuf templen rest = (buf, some len)) :
    (sendMachine ι).run s (List.replicate rest.length (.copy t)) =
      some ({ s with mySendbuf := buf }.goto t (some ⟨p, [], len⟩)) := by
  induction rest generalizing s templen with
  | nil =>
    simp only [copyChain, Prod.mk.injEq, Option.some.injEq] at hcopy
    obtain ⟨rfl, rfl⟩ := hcopy
    simp only [List.length_nil, List.replicate_zero, Machine.run, SendRace.goto, ← hc,
      Function.update_eq_self]
  | cons q rest ih =>
    simp only [copyChain] at hcopy
    by_cases hcheck : tooLong (templen + q.len) p.head.totLen = true
    · rw [if_pos hcheck] at hcopy
      exact absurd hcopy (by simp)
    rw [if_neg hcheck] at hcopy
    simp only [List.length_cons, List.replicate_succ, Machine.run, sendMachine, SendRace.step, hc,
      if_neg hcheck, Option.bind_some]
    refine (ih (SendRace.goto_ctl (s := { s with mySendbuf := memcpy s.mySendbuf templen q.payload })
      (some ⟨p, rest, templen + q.len⟩)) hcopy).trans ?_
    simp only [SendRace.goto, Function.update_idem]

/-- A call that nobody interrupts is `packetSend`. -/
theorem run_alone (hidle : s.ctl t = none) (p : Packet) :
    (sendMachine ι).run s
        (.call t p :: (List.replicate p.chain.length (.copy t) ++ [.send t])) =
      some ⟨(packetSend s.mySendbuf p.head p.tail).mySendbuf, s.ctl,
        s.sent ++ [(t, p, chainBytes p.chain)],
        s.returned ++ [(t, p, (packetSend s.mySendbuf p.head p.tail).err)]⟩ := by
  obtain ⟨hlen, hread⟩ := copyChain_some p.head.totLen s.mySendbuf 0 p.chain
    (by rw [Nat.zero_add, Packet.chain, ← p.wf]; exact p.le)
    (by rw [Nat.zero_add, Packet.chain, ← p.wf])
  cases hcopy : copyChain p.head.totLen s.mySendbuf 0 p.chain with
  | mk buf len =>
    rw [hcopy, Nat.zero_add, Packet.chain, ← p.wf] at hlen hread
    obtain rfl : len = some p.head.totLen := hlen
    have hsend : packetSend s.mySendbuf p.head p.tail =
        ⟨.ok, buf, some (readBytes buf 0 p.head.totLen)⟩ := by
      unfold packetSend
      rw [show p.head :: p.tail = p.chain from rfl, hcopy]
      exact if_pos rfl
    have hloop := run_copies (s := s.goto t (some ⟨p, p.chain, 0⟩)) (SendRace.goto_ctl _) hcopy
    have hctl : Function.update s.ctl t none = s.ctl := by
      rw [← hidle, Function.update_eq_self]
    simp only [Machine.run, sendMachine, SendRace.step, hidle, Option.bind_some]
    change (sendMachine ι).run (s.goto t (some ⟨p, p.chain, 0⟩)) _ = _
    rw [Machine.run_append, hloop, hsend]
    simp only [readBytes_zero, List.nil_append] at hread
    simp only [Machine.run, sendMachine, SendRace.step, SendRace.goto, SendRace.ret,
      Function.update_self, Function.update_idem, if_true, Option.bind_some, hread, hctl]
    rfl

/-! ## Calls that keep apart -/

/-- A copy leaves what other calls in progress have copied as it is. -/
def SendAct.apart (s : SendRace ι) (a : SendAct ι) : Prop :=
  ∀ t p q rest templen, a = .copy t → s.ctl t = some ⟨p, q :: rest, templen⟩ →
    ∀ u x, u ≠ t → s.ctl u = some x →
      ∀ i < x.templen, memcpy s.mySendbuf templen q.payload i = s.mySendbuf i

/-- A call in progress has its copied segments below its `templen`. -/
def Sending.Ok (mySendbuf : ℕ → Byte) (x : Sending) : Prop :=
  ∃ done, x.packet.chain = done ++ x.rest ∧ x.templen = (chainBytes done).length ∧
    readBytes mySendbuf 0 x.templen = chainBytes done

/-- Calls are in order, what was sent is what the calls were given, and each call that has returned has sent
its frame. -/
structure SendRace.Ok (s : SendRace ι) : Prop where
  calls : ∀ t x, s.ctl t = some x → x.Ok s.mySendbuf
  sent : ∀ f ∈ s.sent, f.2.2 = chainBytes f.2.1.chain
  returned : s.returned = s.sent.map fun f => (f.1, f.2.1, Err.ok)

theorem Sending.Ok.congr {buf buf' : ℕ → Byte} {x : Sending} (h : x.Ok buf)
    (hsame : ∀ i < x.templen, buf' i = buf i) : x.Ok buf' := by
  obtain ⟨done, hchain, hlen, hread⟩ := h
  refine ⟨done, hchain, hlen, ?_⟩
  rw [← hread]
  exact readBytes_congr fun i _ hi => hsame i (by omega)

theorem Sending.Ok.pass {buf : ℕ → Byte} {p : Packet} {q : Pbuf} {rest : List Pbuf} {templen : ℕ}
    (h : Sending.Ok buf ⟨p, q :: rest, templen⟩) : ¬ tooLong (templen + q.len) p.head.totLen = true := by
  obtain ⟨done, hchain, hlen, -⟩ := h
  have hdone : templen = (chainBytes done).length := hlen
  have htot : p.head.totLen = (chainBytes (done ++ q :: rest)).length := p.wf.trans (by rw [← hchain]; rfl)
  rw [chainBytes_append, chainBytes_cons, List.length_append, List.length_append, ← hdone] at htot
  have hsize := p.le
  simp only [tooLong, Bool.or_eq_true, decide_eq_true_eq, not_or, Nat.not_lt]
  rw [Pbuf.len]
  omega

theorem Sending.Ok.templen_eq {buf : ℕ → Byte} {p : Packet} {templen : ℕ} (h : Sending.Ok buf ⟨p, [], templen⟩) :
    templen = p.head.totLen := by
  obtain ⟨done, hchain, hlen, -⟩ := h
  rw [List.append_nil] at hchain
  exact hlen.trans ((congrArg (fun l => (chainBytes l).length) hchain.symm).trans p.wf.symm)

theorem SendRace.Ok.step (h : s.Ok) {a : SendAct ι} (hok : a.apart s) (hs : s.step a = some s') :
    s'.Ok := by
  cases a with
  | call t p =>
    simp only [SendRace.step] at hs
    split at hs
    · obtain rfl := Option.some.inj hs
      refine ⟨fun u x hx => ?_, h.sent, h.returned⟩
      by_cases hu : u = t
      · subst hu
        rw [SendRace.goto_ctl] at hx
        obtain rfl := Option.some.inj hx
        exact ⟨[], rfl, rfl, rfl⟩
      · rw [SendRace.goto_ctl_of_ne hu] at hx
        exact h.calls u x hx
    · exact absurd hs (by simp)
  | copy t =>
    simp only [SendRace.step] at hs
    split at hs
    · rename_i p q rest templen hc
      -- the others keep what they have copied
      have hothers : ∀ u x, u ≠ t → s.ctl u = some x →
          x.Ok (memcpy s.mySendbuf templen q.payload) := fun u x hu hx =>
        (h.calls u x hx).congr (hok t p q rest templen rfl hc u x hu hx)
      rw [if_neg (h.calls t _ hc).pass] at hs
      obtain rfl := Option.some.inj hs
      refine ⟨fun u x hx => ?_, h.sent, h.returned⟩
      by_cases hu : u = t
      · subst hu
        rw [SendRace.goto_ctl] at hx
        obtain rfl := Option.some.inj hx
        obtain ⟨done, hchain, hlen, hread⟩ := h.calls u _ hc
        refine ⟨done ++ [q], by simpa using hchain, ?_, ?_⟩
        · simpa [Pbuf.len] using hlen
        · simp only [chainBytes_append, chainBytes_cons, chainBytes_nil, List.append_nil]
          exact readBytes_memcpy_zero.trans (by rw [hread])
      · rw [SendRace.goto_ctl_of_ne hu] at hx
        exact hothers u x hu hx
    · exact absurd hs (by simp)
  | send t =>
    simp only [SendRace.step] at hs
    split at hs
    · rename_i p templen hc
      rw [if_pos (h.calls t _ hc).templen_eq] at hs
      obtain rfl := Option.some.inj hs
      refine ⟨fun u x hx => ?_, fun f hf => ?_, ?_⟩
      · by_cases hu : u = t
        · subst hu
          exact absurd ((SendRace.ret_ctl ..).symm.trans hx) (by simp)
        · rw [SendRace.ret_ctl_of_ne hu] at hx
          exact h.calls u x hx
      · rcases List.mem_append.mp hf with hf | hf
        · exact h.sent f hf
        · rw [List.mem_singleton.mp hf]
          obtain ⟨done, hchain, hlen, hread⟩ := h.calls t _ hc
          simp only [List.append_nil] at hchain
          simpa only [hchain] using hread
      · show s.returned ++ [(t, p, Err.ok)] = (s.sent ++ [(t, p, _)]).map _
        rw [List.map_append, h.returned]
        rfl
    · exact absurd hs (by simp)

/-- In runs whose copies keep apart, every frame sent is the bytes of its call's own chain, and the calls that
have returned are those with a frame sent, one each and in this order, all with `ERR_OK`. -/
theorem send_race_apart (hr : (sendMachine ι).Reach SendAct.apart s) :
    (∀ f ∈ s.sent, f.2.2 = chainBytes f.2.1.chain) ∧
    s.returned = s.sent.map fun f => (f.1, f.2.1, Err.ok) := by
  have hok : s.Ok := hr.invariant (I := SendRace.Ok)
    (fun s hs => ⟨fun t x hx => by rw [hs.1] at hx; exact absurd hx (by simp), by simp [hs.2.1],
      by rw [hs.2.1, hs.2.2]; rfl⟩)
    fun s a s' h hok hs => h.step hok hs
  exact ⟨hok.sent, hok.returned⟩

/-- A packet of one byte. -/
def bytePacket (b : Byte) : Packet where
  head := ⟨[b], 1⟩
  tail := []
  wf := rfl
  le := Nat.le_of_ble_eq_true rfl

/-- A packet of two bytes in two segments. -/
def twoPacket (b c : Byte) : Packet where
  head := ⟨[b], 2⟩
  tail := [⟨[c], 1⟩]
  wf := rfl
  le := Nat.le_of_ble_eq_true rfl

/-- An empty buffer, nobody sending. -/
def emptySend : SendRace (Fin 2) := ⟨fun _ => 0, fun _ => none, [], []⟩

theorem apart_call {ι : Type*} [DecidableEq ι] {s : SendRace ι} {t : ι} {p : Packet} :
    (SendAct.call t p).apart s := fun _ _ _ _ _ ha => absurd ha (by simp)

theorem apart_send {ι : Type*} [DecidableEq ι] {s : SendRace ι} {t : ι} : (SendAct.send t).apart s :=
  fun _ _ _ _ _ ha => absurd ha (by simp)

/-- Of two tasks, one copies a byte that the other has there already. -/
theorem apart_copy {s : SendRace (Fin 2)} {t u : Fin 2} {p : Packet} {q : Pbuf} {rest : List Pbuf} {templen : ℕ}
    (hc : s.ctl t = some ⟨p, q :: rest, templen⟩) (hother : ∀ v, v ≠ t → v = u) {x : Option Sending}
    (hu : s.ctl u = x)
    (hkeep : ∀ y ∈ x, ∀ i < y.templen, memcpy s.mySendbuf templen q.payload i = s.mySendbuf i) :
    (SendAct.copy t).apart s := by
  intro t' p' q' rest' templen' ha hc' v y hv hy i hi
  obtain rfl : t = t' := SendAct.copy.inj ha
  obtain ⟨rfl, ⟨rfl, rfl⟩, rfl⟩ : p = p' ∧ (q = q' ∧ rest = rest') ∧ templen = templen' := by
    simpa using hc.symm.trans hc'
  obtain rfl := hother v hv
  exact hkeep y (by rw [← hu]; exact hy) i hi

/-- Task 1 copies its first byte over the same byte of task 0, and its second behind it; then both send. -/
theorem send_race_two : ∃ s : SendRace (Fin 2), (sendMachine (Fin 2)).Reach SendAct.apart s ∧
    s.returned.map (fun r => (r.1, r.2.2)) = [(0, .ok), (1, .ok)] ∧
    s.sent.map (fun f => (f.1, f.2.2)) = [(0, [7]), (1, [7, 9])] ∧
    (∀ f ∈ s.sent, f.2.2 = chainBytes f.2.1.chain) ∧
    s.returned = s.sent.map fun f => (f.1, f.2.1, Err.ok) := by
  have h0 : (sendMachine (Fin 2)).Reach SendAct.apart emptySend := .init ⟨rfl, rfl, rfl⟩
  have h1 := h0.step (a := .call 0 (bytePacket 7)) apart_call rfl
  have h2 := h1.step (a := .copy 0) (apart_copy (u := 1) rfl (by decide) rfl (by decide)) rfl
  have h3 := h2.step (a := .call 1 (twoPacket 7 9)) apart_call rfl
  have h4 := h3.step (a := .copy 1) (apart_copy (u := 0) rfl (by decide) rfl (by decide)) rfl
  have h5 := h4.step (a := .copy 1) (apart_copy (u := 0) rfl (by decide) rfl (by decide)) rfl
  have h6 := h5.step (a := .send 0) apart_send rfl
  have h7 := h6.step (a := .send 1) apart_send rfl
  exact ⟨_, h7, rfl, rfl, send_race_apart h7⟩

/-- Task 1 copies its byte over that of task 0, which then sends it. -/
theorem send_race_mixed : ∃ s : SendRace (Fin 2),
    (sendMachine (Fin 2)).run emptySend
        [.call 0 (bytePacket 7), .copy 0, .call 1 (bytePacket 9), .copy 1, .send 0] = some s ∧
      ∃ f ∈ s.sent, f.1 = 0 ∧ chainBytes f.2.1.chain = [7] ∧ f.2.2 = [9] :=
  ⟨_, rfl, _, List.mem_singleton.mpr rfl, rfl, rfl, rfl⟩

end LoraGateway.Netif
