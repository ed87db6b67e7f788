import LoraGateway.Lib.Machine
import LoraGateway.Lib.Prog
import LoraGateway.Enc28j60.Chip

/-!
# The driver

`enc28j60.c`, on the chip behind the SPI bus. Every byte exchanged gives the chip time: the next
entry of `script` is what it does in it (`World.hear`), and what holds for every script holds for every
behaviour of the hardware. A loop that polls a register is looked at for `fuel` rounds.

`issued` is history: the control-register commands the driver has issued, with the address constant
it meant.
-/

namespace LoraGateway.Enc28j60

open Lib

/-! ## Constants -/

def readCtrlReg : Byte := 0x00
def readBufMem : Byte := 0x3A
def writeCtrlReg : Byte := 0x40
def writeBufMem : Byte := 0x7A
def bitFieldSet : Byte := 0x80
def bitFieldClr : Byte := 0xA0
def softResetOp : Byte := 0xFF

def rxstartInit : ℕ := 0x0
def rxstopInit : ℕ := 0x1FFF - 0x0600 - 1
def txstartInit : ℕ := 0x1FFF - 0x0600
def txstopInit : ℕ := 0x1FFF
def maxFramelen : ℕ := 1500

/-- `x & 0xFF` and `x >> 8`, as the bytes given to a pair of registers. -/
def lowByte (x : ℕ) : Byte := BitVec.ofNat 8 x
def highByte (x : ℕ) : Byte := BitVec.ofNat 8 (x / 256)

/-! ## The state -/

/-- A command to a control register, by its address constant. -/
inductive Issue
  | reset
  | read (address : Byte)
  | write (address data : Byte)
  | set (address data : Byte)
  | clear (address data : Byte)
  deriving DecidableEq, Repr

/-- The chip, what it is going to do, the driver's variables, and the commands issued so far. -/
structure World where
  chip : Chip
  script : ℕ → List HwEvent
  enc28j60Bank : Byte
  nextPacketPtr : BitVec 32
  issued : List Issue

/-- The chip does what comes next. -/
def World.hear (w : World) : World :=
  { w with chip := (w.script 0).foldl Chip.event w.chip, script := fun n => w.script (n + 1) }

abbrev Drv := Prog World

def withChip (f : Chip → Chip) : Drv Unit := Prog.update fun w => { w with chip := f w.chip }

/-- `ENC28J60_CSL()` -/
def enc28j60CSL : Drv Unit := withChip Chip.csLow

/-- `ENC28J60_CSH()` -/
def enc28j60CSH : Drv Unit := withChip Chip.csHigh

def spi1ReadWrite (writedat : Byte) : Drv Byte :=
  Prog.act fun w =>
    let w := w.hear
    ((w.chip.exchange writedat).1, { w with chip := (w.chip.exchange writedat).2 })

/-- What a call of `enc28j60ReadOp` or `enc28j60WriteOp` asks for. -/
def issueOf (op address data : Byte) : List Issue :=
  if op = readCtrlReg then [.read address]
  else if op = writeCtrlReg then [.write address data]
  else if op = bitFieldSet then [.set address data]
  else if op = bitFieldClr then [.clear address data]
  else if op = softResetOp then [.reset]
  else []

def World.note (w : World) (l : List Issue) : World := { w with issued := w.issued ++ l }

/-! ## SPI commands -/

def enc28j60ReadOp (op address : Byte) : Drv Byte := do
  Prog.update fun w => w.note (issueOf op address 0)
  enc28j60CSL
  let _ ← spi1ReadWrite (op ||| (address &&& addrMask))
  let dat ← spi1ReadWrite 0xFF
  -- a dummy read for MAC and MII registers
  let dat ← (if address &&& 0x80 ≠ 0 then spi1ReadWrite 0xFF else pure dat : Drv Byte)
  enc28j60CSH
  pure dat

def enc28j60WriteOp (op address data : Byte) : Drv Unit := do
  Prog.update fun w => w.note (issueOf op address data)
  enc28j60CSL
  let _ ← spi1ReadWrite (op ||| (address &&& addrMask))
  let _ ← spi1ReadWrite data
  enc28j60CSH

/-- The loop of `enc28j60ReadBuffer`. -/
def readLoop : ℕ → Drv (List Byte)
  | 0 => pure []
  | len + 1 => do
    let x ← spi1ReadWrite 0
    let rest ← readLoop len
    pure (x :: rest)

/-- What is stored from `data` on: `len` bytes and a 0. -/
def enc28j60ReadBuffer (len : ℕ) : Drv (List Byte) := do
  enc28j60CSL
  let _ ← spi1ReadWrite readBufMem
  let bytes ← readLoop len
  enc28j60CSH
  pure (bytes ++ [0])

/-- The loop of `enc28j60WriteBuffer`. -/
def writeLoop : List Byte → Drv Unit
  | [] => pure ()
  | x :: data => do
    let _ ← spi1ReadWrite x
    writeLoop data

def enc28j60WriteBuffer (data : List Byte) : Drv Unit := do
  enc28j60CSL
  let _ ← spi1ReadWrite writeBufMem
  writeLoop data
  enc28j60CSH

/-! ## Registers -/

def enc28j60SetBank (address : Byte) : Drv Unit := do
  let bank ← Prog.look World.enc28j60Bank
  if address &&& bankMask ≠ bank then
    enc28j60WriteOp bitFieldClr econ1 0x03
    enc28j60WriteOp bitFieldSet econ1 ((address &&& bankMask) >>> 5)
    Prog.update fun w => { w with enc28j60Bank := address &&& bankMask }
  else pure ()

def enc28j60Read (address : Byte) : Drv Byte := do
  enc28j60SetBank address
  enc28j60ReadOp readCtrlReg address

def enc28j60Write (address data : Byte) : Drv Unit := do
  enc28j60SetBank address
  enc28j60WriteOp writeCtrlReg address data

/-- Calls of `enc28j60Write`, one after another. -/
def enc28j60WriteAll (l : List (Byte × Byte)) : Drv Unit := l.forM fun p => enc28j60Write p.1 p.2

variable (fuel : ℕ)

/-- The PHY register and the data for it. -/
def phyWrites (address : Byte) (data : BitVec 32) : List (Byte × Byte) :=
  [(miregadr, address), (miwrl, data.setWidth 8), (miwrh, (data >>> 8).setWidth 8)]

def enc28j60PhyWrite (address : Byte) (data : BitVec 32) : Drv Unit := do
  enc28j60WriteAll (phyWrites address data)
  Prog.pollUntil (do
    let busy ← enc28j60Read mistat
    pure (busy &&& 0x01 == 0)) fuel

def enc28j60clkout (clk : Byte) : Drv Unit := enc28j60Write ecocon (clk &&& 0x7)

def phcon1 : Byte := 0x00
def phcon2 : Byte := 0x10
def phlcon : Byte := 0x14

/-- The buffer pointers, the packet filter and the first of the MAC registers. -/
def bufferWrites : List (Byte × Byte) :=
  [(erxstl, lowByte rxstartInit), (erxsth, highByte rxstartInit),
    (erxrdptl, lowByte rxstartInit), (erxrdpth, highByte rxstartInit),
    (erxndl, lowByte rxstopInit), (erxndh, highByte rxstopInit),
    (etxstl, lowByte txstartInit), (etxsth, highByte txstartInit),
    (etxndl, lowByte txstopInit), (etxndh, highByte txstopInit),
    (erxfcon, 0x80 ||| 0x20 ||| 0x10), (epmm0, 0x3F), (epmm1, 0x30), (epmcsl, 0xF9), (epmcsh, 0xF7),
    (macon1, 0x01 ||| 0x08 ||| 0x04), (macon2, 0x00)]

/-- The frame gaps, the maximum frame length and the MAC address, which is byte-backward. -/
def macWrites (macaddr : Fin 6 → Byte) : List (Byte × Byte) :=
  [(maipgl, 0x12), (maipgh, 0x0C), (mabbipg, 0x15),
    (mamxfll, lowByte maxFramelen), (mamxflh, highByte maxFramelen),
    (maadr5, macaddr 0), (maadr4, macaddr 1), (maadr3, macaddr 2), (maadr2, macaddr 3),
    (maadr1, macaddr 4), (maadr0, macaddr 5)]

/-- The address is read back and printed. -/
def printMac (macaddr : Fin 6 → Byte) : Drv Unit := do
  let first ← enc28j60Read maadr5
  if first = macaddr 0 then
    [maadr5, maadr4, maadr3, maadr2, maadr1, maadr0].forM fun address => do
      let _ ← enc28j60Read address
  else pure ()

def enc28j60Init (macaddr : Fin 6 → Byte) : Drv Unit := do
  enc28j60CSH
  enc28j60WriteOp softResetOp 0 softResetOp
  Prog.pollUntil (do
    let ready ← enc28j60Read estat
    pure (ready &&& 0x01 != 0)) fuel
  Prog.update fun w => { w with nextPacketPtr := BitVec.ofNat 32 rxstartInit }
  enc28j60WriteAll bufferWrites
  enc28j60WriteOp bitFieldSet macon3 (0x20 ||| 0x10 ||| 0x02 ||| 0x01)
  enc28j60WriteAll (macWrites macaddr)
  printMac macaddr
  enc28j60PhyWrite fuel phcon1 0x0100
  -- a write to the control register of that number, not to the PHY register
  enc28j60Write phlcon (BitVec.ofNat 8 0x0476)
  enc28j60PhyWrite fuel phcon2 0x0100
  enc28j60SetBank econ1
  enc28j60WriteOp bitFieldSet eie (0x80 ||| 0x40 ||| 0x01)
  enc28j60WriteOp bitFieldSet econ1 0x04

def enc28j60getrev : Drv Byte := enc28j60Read erevid

/-! ## Packets -/

/-- The write pointer and the end of the transmit buffer, for a packet of `len` bytes. -/
def sendWrites (len : ℕ) : List (Byte × Byte) :=
  [(ewrptl, lowByte txstartInit), (ewrpth, highByte txstartInit),
    (etxndl, lowByte (txstartInit + len)), (etxndh, highByte (txstartInit + len))]

def enc28j60PacketSend (packet : List Byte) : Drv Unit := do
  Prog.pollUntil (do
    let busy ← enc28j60Read econ1
    pure (busy &&& 0x08 == 0)) fuel
  enc28j60WriteAll (sendWrites packet.length)
  enc28j60WriteOp writeBufMem 0 0x00
  enc28j60WriteBuffer packet
  enc28j60WriteOp bitFieldSet econ1 0x08
  -- errata point 12
  let flags ← enc28j60Read eir
  if flags &&& 0x02 ≠ 0 then
    enc28j60SetBank econ1
    enc28j60WriteOp bitFieldClr econ1 0x08
  else pure ()

/-- Two bytes of the receive buffer, the low one first. -/
def readBufWord : Drv (BitVec 32) := do
  let low ← enc28j60ReadOp readBufMem 0
  let high ← enc28j60ReadOp readBufMem 0
  pure (low.setWidth 32 ||| high.setWidth 32 <<< 8)

/-- What a call of `enc28j60PacketReceive` did: the packet count it read, its value, and the bytes it
stored from `packet` on. -/
structure Received where
  count : Byte
  len : BitVec 32
  packet : List Byte
  deriving DecidableEq

/-- The header of the next packet: its length without the CRC, and its status. -/
def readHeader : Drv (BitVec 32 × BitVec 32) := do
  let ptr ← Prog.look World.nextPacketPtr
  enc28j60WriteAll [(erdptl, ptr.setWidth 8), (erdpth, (ptr >>> 8).setWidth 8)]
  let next ← readBufWord
  Prog.update fun w => { w with nextPacketPtr := next }
  let len ← readBufWord
  let rxstat ← readBufWord
  pure (len - 4, rxstat)

/-- The data of a packet received without errors, and nothing of another. -/
def readData (len rxstat : BitVec 32) : Drv (BitVec 32 × List Byte) :=
  if rxstat &&& 0x80 = 0 then pure (0, [])
  else do
    let bytes ← enc28j60ReadBuffer len.toNat
    pure (len, bytes)

/-- Frees the packet read and counts it down. -/
def freePacket : Drv Unit := do
  let ptr ← Prog.look World.nextPacketPtr
  enc28j60WriteAll [(erxrdptl, ptr.setWidth 8), (erxrdpth, (ptr >>> 8).setWidth 8)]
  enc28j60WriteOp bitFieldSet econ2 0x40

def enc28j60PacketReceive (maxlen : BitVec 32) : Drv Received := do
  let count ← enc28j60Read epktcnt
  if count = 0 then pure ⟨count, 0, []⟩
  else
    let (len, rxstat) ← readHeader
    let (len, packet) ← readData (if maxlen - 1 < len then maxlen - 1 else len) rxstat
    freePacket
    pure ⟨count, len, packet⟩

/-! ## Calls of the driver -/

inductive Call
  | init (macaddr : Fin 6 → Byte)
  | read (address : Byte)
  | write (address data : Byte)
  | phyWrite (address : Byte) (data : BitVec 32)
  | clkout (clk : Byte)
  | getrev
  | send (packet : List Byte)
  | receive (maxlen : BitVec 32)

/-- The call, with what it received if it is `enc28j60PacketReceive`. -/
def Call.run : Call → Drv (Option Received)
  | .init macaddr => do enc28j60Init fuel macaddr; pure none
  | .read address => do let _ ← enc28j60Read address; pure none
  | .write address data => do enc28j60Write address data; pure none
  | .phyWrite address data => do enc28j60PhyWrite fuel address data; pure none
  | .clkout clk => do enc28j60clkout clk; pure none
  | .getrev => do let _ ← enc28j60getrev; pure none
  | .send packet => do enc28j60PacketSend fuel packet; pure none
  | .receive maxlen => do
    let r ← enc28j60PacketReceive maxlen
    pure (some r)

/-- A packet taken from the chip, and the bound it was asked for with. -/
structure Receipt where
  maxlen : BitVec 32
  received : Received

/-- The driver between two calls; `returned` says whether the last call came to its end. The packets
taken so far are history. -/
structure NetCard where
  world : World
  returned : Bool
  taken : List Receipt

/-- What a call adds to the packets taken: nothing, if it found the packet count at 0. -/
def Call.takes : Call → Option Received → List Receipt
  | .receive maxlen, some r => if r.count = 0 then [] else [⟨maxlen, r⟩]
  | _, _ => []

/-- A call, polled for `fuel` rounds. No call follows one that has not returned. -/
def NetCard.step (s : NetCard) (a : Call × ℕ) : Option NetCard :=
  if s.returned then
    match (a.1.run a.2).exec s.world with
    | (some r, w) => some ⟨w, true, s.taken ++ a.1.takes r⟩
    | (none, w) => some ⟨w, false, s.taken⟩
  else none

/-- Nothing has been issued yet. -/
def World.Cold (w : World) : Prop := w.issued = [] ∧ w.chip.reached = []

/-- Driver calls after a first `enc28j60Init`, on a chip and driver variables in any state. -/
def netMachine : Machine NetCard (Call × ℕ) where
  init s := ∃ (w : World) (fuel : ℕ) (macaddr : Fin 6 → Byte), w.Cold ∧
    s.world = ((enc28j60Init fuel macaddr).exec w).2 ∧
    s.returned = ((enc28j60Init fuel macaddr).exec w).1.isSome ∧ s.taken = []
  step := NetCard.step

end LoraGateway.Enc28j60
