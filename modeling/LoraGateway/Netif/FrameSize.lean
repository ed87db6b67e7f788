import LoraGateway.Enc28j60.Registers
import LoraGateway.Netif.PacketSend

/-!
# Frame sizes

The way of an IP datagram through `ip_output_if`, `etharp_output` and `low_level_output`, with the
limits it meets on it: the `mtu` that `low_level_init` sets, the size of `MySendbuf`, and on the other
side of the wire the `MAMXFL` that `enc28j60Init` programs. The `mtu` is the length of the datagram, the
two others count the Ethernet header too and `MAMXFL` the CRC as well, and all three are 1500: the
datagrams of the last 18 lengths pass the first and not the last (`frame_sizes_agree`).
-/

namespace LoraGateway.Netif

open Lib Lib.Prog Enc28j60

/-- The fields of `struct netif` that sending uses. -/
structure Interface where
  hwaddr : Fin 6 → Byte
  mtu : ℕ

def mymacinit (fuel : ℕ) (mymac : Fin 6 → Byte) : Drv Unit := do
  enc28j60Init fuel mymac
  enc28j60clkout 2

def lowLevelInit (fuel : ℕ) (myMacID : Fin 6 → Byte) : Drv Interface := do
  mymacinit fuel myMacID
  pure ⟨myMacID, 1500⟩

/-- `struct eth_hdr` of an IP packet. -/
def ethHdr (dst src : Fin 6 → Byte) : List Byte := List.ofFn dst ++ List.ofFn src ++ [0x08, 0x00]

@[simp] theorem length_ethHdr (dst src : Fin 6 → Byte) : (ethHdr dst src).length = 14 := by
  simp [ethHdr]

/-- `pbuf_header` by the size of the header, which `etharp_send_ip` then fills in. The room for it is
there: the transport layers ask for it when they allocate. -/
def withHeader (hdr : List Byte) (p : Pbuf) : Pbuf := ⟨hdr ++ p.payload, (p.totLen + hdr.length) % 2 ^ 16⟩

/-- `etharp_send_ip`, once the address `dst` is known. -/
def etharpSendIp (netif : Interface) (mySendbuf : ℕ → Byte) (dst : Fin 6 → Byte) (p : Pbuf)
    (rest : List Pbuf) : SendResult :=
  packetSend mySendbuf (withHeader (ethHdr dst netif.hwaddr) p) rest

/-- What `ip_output_if` does with a datagram. -/
inductive Output
  | fragment
  | send (r : SendResult)

def ipOutputIf (netif : Interface) (mySendbuf : ℕ → Byte) (dst : Fin 6 → Byte) (p : Pbuf)
    (rest : List Pbuf) : Output :=
  if netif.mtu ≠ 0 ∧ p.totLen > netif.mtu then .fragment
  else .send (etharpSendIp netif mySendbuf dst p rest)

/-- The frame is given to `enc28j60PacketSend` as a whole, and the call returns `ERR_OK`. -/
def Output.Sends (o : Output) (frame : List Byte) : Prop :=
  match o with
  | .fragment => False
  | .send r => r.err = .ok ∧ r.frame = some frame

/-- `MAMXFL`: longer frames, header and CRC included, are not received. -/
def mamxfl (c : Chip) : ℕ := (c.get mamxfll).toNat + 256 * (c.get mamxflh).toNat

/-- A datagram that is not fragmented goes out as one frame exactly if it fits `MySendbuf` with its
header. -/
theorem ipOutputIf_sends (netif : Interface) (mySendbuf : ℕ → Byte) (dst : Fin 6 → Byte) {p : Pbuf}
    {rest : List Pbuf} (hwf : p.totLen = (chainBytes (p :: rest)).length)
    (hmtu : p.totLen ≤ netif.mtu) (hlen : p.totLen + 14 < 2 ^ 16) :
    (ipOutputIf netif mySendbuf dst p rest).Sends
        (ethHdr dst netif.hwaddr ++ chainBytes (p :: rest)) ↔ p.totLen + 14 ≤ sendbufSize := by
  have htot : (withHeader (ethHdr dst netif.hwaddr) p).totLen = p.totLen + 14 := by
    rw [withHeader, length_ethHdr, Nat.mod_eq_of_lt hlen]
  have hbytes : chainBytes (withHeader (ethHdr dst netif.hwaddr) p :: rest) =
      ethHdr dst netif.hwaddr ++ chainBytes (p :: rest) := by
    rw [chainBytes_cons, chainBytes_cons, withHeader, List.append_assoc]
  have hwf' : (withHeader (ethHdr dst netif.hwaddr) p).totLen =
      (chainBytes (withHeader (ethHdr dst netif.hwaddr) p :: rest)).length := by
    rw [htot, hbytes, List.length_append, length_ethHdr, ← hwf, Nat.add_comm]
  have hspec := packetSend_spec mySendbuf hwf'
  rw [htot, hbytes] at hspec
  rw [ipOutputIf, if_neg (by omega)]
  exact hspec

theorem lowLevelInit_mamxfl {w w' : World} {fuel : ℕ} {myMacID : Fin 6 → Byte} {netif : Interface}
    (hw : w.Cold) (h : (lowLevelInit fuel myMacID).exec w = (some netif, w')) :
    mamxfl w'.chip = 1500 ∧ netif = ⟨myMacID, 1500⟩ := by
  have htraced : Traced w := by rw [Traced, hw.1, hw.2]; rfl
  let P : World → Prop := fun w => w.chip.reg (regOf mamxfll) = 0xDC ∧ w.chip.reg (regOf mamxflh) = 0x05
  have hP : Steady P := (steady_reg (by decide) _).and (steady_reg (by decide) _)
  have hinit : Triple Traced (enc28j60Init fuel myMacID) (fun _ => Between P) Linked :=
    (triple_init fuel myMacID).post fun _ w hb =>
      ⟨hb.synced, hb.regs (mamxfll, 0xDC) (by decide), hb.regs (mamxflh, 0x05) (by decide)⟩
  have hclk : Triple (Between P) (enc28j60clkout 2) (fun _ => P) Linked := by
    refine (keeps_write hP (keepsBank_of_ne (by decide)) fun w hw hp => ?_).post fun _ _ h => h.2
    have htarget : w.chip.target ecocon = regOf ecocon := target_eq hw.bsel
    have hreg : ∀ r, r ≠ regOf ecocon → r ∉ echoes (regOf ecocon) →
        (w.issue (.write ecocon (2 &&& 0x7))).chip.reg r = w.chip.reg r := by
      intro r hne hecho
      show (w.chip.store (w.chip.target ecocon) _).reg r = _
      rw [htarget, store_reg_of_ne hne hecho]
    exact ⟨(hreg _ (by decide) (by decide)).trans hp.1, (hreg _ (by decide) (by decide)).trans hp.2⟩
  have hall : Triple Traced (lowLevelInit fuel myMacID)
      (fun netif w => P w ∧ netif = ⟨myMacID, 1500⟩) Linked :=
    (hinit.bind fun _ => hclk).bind fun _ => Triple.pure fun _ hp => ⟨hp, rfl⟩
  obtain ⟨⟨hl, hh⟩, hnetif⟩ := hall.returned htraced h
  refine ⟨?_, hnetif⟩
  rw [mamxfl, Chip.get, Chip.get, hl, hh]
  rfl

/-- Among the datagrams that are not fragmented, those of up to 1482 bytes are sent as a whole frame
and fit the frame limit of the receiver. -/
theorem frame_sizes_agree {w w' : World} {fuel : ℕ} {myMacID : Fin 6 → Byte} {netif : Interface}
    (hw : w.Cold) (hinit : (lowLevelInit fuel myMacID).exec w = (some netif, w'))
    (mySendbuf : ℕ → Byte) (dst : Fin 6 → Byte) {p : Pbuf} {rest : List Pbuf}
    (hwf : p.totLen = (chainBytes (p :: rest)).length) (hmtu : p.totLen ≤ netif.mtu) :
    ((ipOutputIf netif mySendbuf dst p rest).Sends
        (ethHdr dst netif.hwaddr ++ chainBytes (p :: rest)) ∧ 14 + p.totLen + 4 ≤ mamxfl w'.chip) ↔
      p.totLen ≤ 1482 := by
  obtain ⟨hmax, hnetif⟩ := lowLevelInit_mamxfl hw hinit
  have h1500 : netif.mtu = 1500 := by rw [hnetif]
  rw [ipOutputIf_sends netif mySendbuf dst hwf hmtu (by omega), hmax, sendbufSize]
  omega

theorem prompt_lowLevelInit : ∃ w', (lowLevelInit 1 fun _ => 0).exec (promptWorld fun _ => []) =
    (some ⟨fun _ => 0, 1500⟩, w') := by
  obtain ⟨w₁, hrun⟩ := prompt_init
  have htraced : Traced (promptWorld fun _ => []) := rfl
  have htriple := triple_init 1 fun _ => 0
  generalize promptWorld (fun _ => []) = w at hrun htraced ⊢
  have hok : KeepsBank ecocon (2 &&& 0x7) := keepsBank_of_ne (by decide)
  obtain ⟨_, w', hclk, -⟩ := (synced_write (R := fun _ => False) hok).total
    (htriple.returned htraced hrun).synced
  refine ⟨w', ?_⟩
  rw [lowLevelInit, mymacinit]
  refine (exec_bind_some ((exec_bind_some hrun).trans hclk)).trans ?_
  rfl

/-- A datagram of `mtu` bytes is not sent, and the frame it would make is longer than `MAMXFL`. -/
theorem frame_too_long : ∃ netif w', (lowLevelInit 1 fun _ => 0).exec (promptWorld fun _ => []) =
      (some netif, w') ∧
    1500 ≤ netif.mtu ∧
    ¬ (ipOutputIf netif (fun _ => 0) (fun _ => 0) ⟨List.replicate 1500 0, 1500⟩ []).Sends
        (ethHdr (fun _ => 0) netif.hwaddr ++ List.replicate 1500 0) ∧
    ¬ 14 + 1500 + 4 ≤ mamxfl w'.chip := by
  obtain ⟨w', hinit⟩ := prompt_lowLevelInit
  have hbytes : chainBytes [⟨List.replicate 1500 0, 1500⟩] = List.replicate 1500 0 := by
    rw [chainBytes_cons, chainBytes_nil, List.append_nil]
  have hwf : (⟨List.replicate 1500 0, 1500⟩ : Pbuf).totLen =
      (chainBytes [⟨List.replicate 1500 0, 1500⟩]).length := by rw [hbytes, List.length_replicate]
  have hsends := ipOutputIf_sends ⟨fun _ => 0, 1500⟩ (fun _ => 0) (fun _ => 0) hwf
    (Nat.le_refl 1500) (by decide)
  rw [hbytes] at hsends
  refine ⟨_, w', hinit, Nat.le_refl 1500, fun h => absurd (hsends.mp h) (by decide), ?_⟩
  rw [(lowLevelInit_mamxfl ⟨rfl, rfl⟩ hinit).1]
  decide

theorem frame_sizes_agree_one : ∃ netif w', (lowLevelInit 1 fun _ => 0).exec (promptWorld fun _ => []) =
      (some netif, w') ∧
    (ipOutputIf netif (fun _ => 0) (fun _ => 0) ⟨[7, 8], 2⟩ []).Sends
        (ethHdr (fun _ => 0) netif.hwaddr ++ [7, 8]) ∧ 14 + 2 + 4 ≤ mamxfl w'.chip := by
  obtain ⟨w', hinit⟩ := prompt_lowLevelInit
  have hwf : (⟨[7, 8], 2⟩ : Pbuf).totLen = (chainBytes [⟨[7, 8], 2⟩]).length := rfl
  exact ⟨_, w', hinit, (frame_sizes_agree ⟨rfl, rfl⟩ hinit (fun _ => 0) (fun _ => 0) hwf
    (by decide)).mpr (by decide)⟩

end LoraGateway.Netif
