import Mathlib.Logic.Function.Iterate
import LoraGateway.Lib.Bytes
import LoraGateway.Lib.Ring

/-!
# The ENC28J60

The controller as its driver sees it: a slave on the SPI bus that takes a byte and gives one back
(`Chip.exchange`), an opcode first and then its data, until chip select goes high. A register
command reaches the register that the five bits of its argument select in the bank `ECON1.BSEL`;
the registers from 0x1B on are the same in every bank (`Reg.at`).

What the chip does by itself is a `HwEvent`: it stores a received frame behind those that are there,
if the space up to `ERXRDPT` and the packet counter allow it, it ends a transmission, and it changes
its status registers. Unimplemented register bits, the DMA unit and the receive filters are not
modelled: a frame that arrives is one the filters have let through.
-/

namespace LoraGateway.Enc28j60

open Lib

/-! ## Registers

The constants of `enc28j60.h`: the address in bits 0 to 4, the bank in bits 5 and 6, and the MAC/MII
indicator in bit 7. -/

def addrMask : Byte := 0x1F
def bankMask : Byte := 0x60

def eie : Byte := 0x1B
def eir : Byte := 0x1C
def estat : Byte := 0x1D
def econ2 : Byte := 0x1E
def econ1 : Byte := 0x1F

def erdptl : Byte := 0x00
def erdpth : Byte := 0x01
def ewrptl : Byte := 0x02
def ewrpth : Byte := 0x03
def etxstl : Byte := 0x04
def etxsth : Byte := 0x05
def etxndl : Byte := 0x06
def etxndh : Byte := 0x07
def erxstl : Byte := 0x08
def erxsth : Byte := 0x09
def erxndl : Byte := 0x0A
def erxndh : Byte := 0x0B
def erxrdptl : Byte := 0x0C
def erxrdpth : Byte := 0x0D
def erxwrptl : Byte := 0x0E
def erxwrpth : Byte := 0x0F
def edmadstl : Byte := 0x14
def edmacsl : Byte := 0x16
def edmacsh : Byte := 0x17

def epmm0 : Byte := 0x28
def epmm1 : Byte := 0x29
def epmcsl : Byte := 0x30
def epmcsh : Byte := 0x31
def ewolir : Byte := 0x37
def erxfcon : Byte := 0x38
def epktcnt : Byte := 0x39

def macon1 : Byte := 0xC0
def macon2 : Byte := 0xC1
def macon3 : Byte := 0xC2
def mabbipg : Byte := 0xC4
def maipgl : Byte := 0xC6
def maipgh : Byte := 0xC7
def mamxfll : Byte := 0xCA
def mamxflh : Byte := 0xCB
def miregadr : Byte := 0xD4
def miwrl : Byte := 0xD6
def miwrh : Byte := 0xD7
def mirdl : Byte := 0xD8
def mirdh : Byte := 0xD9

def maadr1 : Byte := 0xE0
def maadr0 : Byte := 0xE1
def maadr3 : Byte := 0xE2
def maadr2 : Byte := 0xE3
def maadr5 : Byte := 0xE4
def maadr4 : Byte := 0xE5
def ebstcon : Byte := 0x67
def ebstcsl : Byte := 0x68
def ebstcsh : Byte := 0x69
def mistat : Byte := 0xEA
def erevid : Byte := 0x72
def ecocon : Byte := 0x75
def eflocon : Byte := 0x77

/-- The control register constants of `enc28j60.h`. -/
def controlRegs : List Byte :=
  [0x1B, 0x1C, 0x1D, 0x1E, 0x1F] ++
    (List.range 0x18).map (BitVec.ofNat 8) ++
    ((List.range 0x12 ++ [0x14, 0x15, 0x16, 0x17, 0x18, 0x19]).map fun i =>
      BitVec.ofNat 8 i ||| 0x20) ++
    ([0x00, 0x01, 0x02, 0x03, 0x04, 0x06, 0x07, 0x08, 0x09, 0x0A, 0x0B, 0x0D, 0x11, 0x12, 0x14,
      0x16, 0x17, 0x18, 0x19].map fun i => BitVec.ofNat 8 i ||| 0x40 ||| 0x80) ++
    ([0x00, 0x01, 0x02, 0x03, 0x04, 0x05, 0x0A].map fun i => BitVec.ofNat 8 i ||| 0x60 ||| 0x80) ++
    ([0x06, 0x07, 0x08, 0x09, 0x12, 0x15, 0x17, 0x18, 0x19].map fun i => BitVec.ofNat 8 i ||| 0x60)

/-- A control register: the shared ones count as bank 0. -/
structure Reg where
  bank : BitVec 2
  addr : BitVec 5
  deriving DecidableEq, Repr

/-- The register that a command with argument `addr` reaches while `BSEL` is `bsel`. -/
def Reg.at (bsel : BitVec 2) (addr : BitVec 5) : Reg :=
  if 0x1B ≤ addr then ⟨0, addr⟩ else ⟨bsel, addr⟩

/-- Bits 0 to 4 of an address constant. -/
def argOf (address : Byte) : BitVec 5 := address.extractLsb' 0 5

/-- Bits 5 and 6. -/
def bankOf (address : Byte) : BitVec 2 := address.extractLsb' 5 2

/-- The register an address constant names. -/
def regOf (address : Byte) : Reg := Reg.at (bankOf address) (argOf address)

/-- The MAC and MII registers, which put a byte before the one that is read and do not take the bit
field commands. -/
def Reg.macMii (r : Reg) : Bool :=
  r.bank == 2 || r.bank == 3 && (decide (r.addr ≤ 5) || r.addr == 0x0A)

/-- Registers a write does not change. -/
def readOnlyRegs : List Reg :=
  [epktcnt, erxwrptl, erxwrpth, erevid, mistat, mirdl, mirdh].map regOf

/-- Registers that change with what goes on in the chip, in ways that do not matter to the driver
beyond what they read as. -/
def statusRegs : List Reg :=
  [estat, mistat, mirdl, mirdh, edmacsl, edmacsh, ewolir, ebstcon, ebstcsl, ebstcsh, eflocon].map
    regOf

/-! ## The chip -/

/-- A received frame as the chip stores it: `data` with its 4 CRC bytes, and the padding up to the
next frame. -/
structure RxFrame where
  data : List Byte
  status : BitVec 16
  pad : List Byte
  four_le : 4 ≤ data.length
  lt : data.length < 2 ^ 16

/-- Bytes taken by a frame: next packet pointer, length and status, data and padding. -/
def RxFrame.size (f : RxFrame) : ℕ := 6 + f.data.length + f.pad.length

/-- The low and the high byte of a word. -/
def le16 (n : ℕ) : List Byte := [BitVec.ofNat 8 n, BitVec.ofNat 8 (n / 256)]

/-- A frame in memory, followed by one at `next`. -/
def RxFrame.bytes (f : RxFrame) (next : ℕ) : List Byte :=
  le16 next ++ le16 f.data.length ++ le16 f.status.toNat ++ f.data ++ f.pad

/-- Where the chip is in an SPI command. -/
inductive Spi
  /-- chip select is high -/
  | idle
  /-- waiting for an opcode -/
  | opcode
  /-- `RCR`, with a byte to come before the register's -/
  | rcr (r : Reg) (dummy : Bool)
  | wcr (r : Reg)
  | bfs (r : Reg)
  | bfc (r : Reg)
  | rbm
  | wbm
  /-- a command that has had its data -/
  | done
  deriving DecidableEq, Repr

/-- Register values after a reset; the fields are those the driver's start depends on. -/
structure ResetValues where
  reg : Reg → Byte
  econ1 : reg (regOf econ1) = 0
  econ2 : reg (regOf econ2) = 0x80
  eir : reg (regOf eir) = 0
  epktcnt : reg (regOf epktcnt) = 0

/-- The chip. `rxRdPt` is `ERXRDPT` as the receive logic has it, which follows the registers when
`ERXRDPTH` is written. The last fields are history: the registers that commands have reached and, since the
reset, the frames stored, the value of `EIR.TXERIF` at each transmit request, and the requests (by
their number) that were sent, were aborted, and were cancelled by the host, and how many times
`PKTDEC` was set. -/
structure Chip where
  por : ResetValues
  reg : Reg → Byte
  phy : BitVec 5 → BitVec 16
  mem : ℕ → Byte
  rxRdPt : ℕ
  spi : Spi
  reached : List Reg
  stored : List RxFrame
  requests : List Bool
  sent : List ℕ
  failed : List ℕ
  cancelled : List ℕ
  decrements : ℕ

namespace Chip

variable (c : Chip)

/-- The register of an address constant. -/
def get (address : Byte) : Byte := c.reg (regOf address)

/-- `ECON1.BSEL`. -/
def bsel : BitVec 2 := (c.get econ1).extractLsb' 0 2

/-- `ECON1.TXRTS`. -/
def txrts : Bool := (c.get econ1).getLsbD 3

/-- `ECON1.RXEN`. -/
def rxen : Bool := (c.get econ1).getLsbD 2

/-- `ECON2.AUTOINC`. -/
def autoinc : Bool := (c.get econ2).getLsbD 7

/-- `EIR.TXERIF`. -/
def txerif : Bool := (c.get eir).getLsbD 1

/-- A pointer into the 8 KB of memory, from its two registers. -/
def ptr (l h : Byte) : ℕ := ((c.get l).toNat + 256 * (c.get h).toNat) % 0x2000

def set (r : Reg) (v : Byte) : Chip := { c with reg := Function.update c.reg r v }

def setPtr (l h : Byte) (p : ℕ) : Chip :=
  (c.set (regOf l) (BitVec.ofNat 8 p)).set (regOf h) (BitVec.ofNat 8 (p / 256))

def erxst : ℕ := c.ptr erxstl erxsth
def erxnd : ℕ := c.ptr erxndl erxndh
def erxwrpt : ℕ := c.ptr erxwrptl erxwrpth
def erdpt : ℕ := c.ptr erdptl erdpth
def ewrpt : ℕ := c.ptr ewrptl ewrpth
def etxst : ℕ := c.ptr etxstl etxsth
def etxnd : ℕ := c.ptr etxndl etxndh

end Chip

/-! ## The receive buffer -/

/-- The address after `p` in a receive buffer from `st` to `nd`. -/
def rxStep (st nd p : ℕ) : ℕ := if p = nd then st else (p + 1) % 0x2000

/-- The memory with `bytes` written from `p` on. -/
def rxPut (st nd : ℕ) : (ℕ → Byte) → ℕ → List Byte → ℕ → Byte
  | mem, _, [] => mem
  | mem, p, b :: bytes => rxPut st nd (Function.update mem p b) (rxStep st nd p) bytes

namespace Chip

variable (c : Chip)

/-- Free space: one byte is never used, so that a full buffer differs from an empty one. -/
def rxFree : ℕ :=
  if c.rxRdPt < c.erxwrpt then (c.erxnd - c.erxst) - (c.erxwrpt - c.rxRdPt)
  else if c.erxwrpt = c.rxRdPt then c.erxnd - c.erxst
  else c.rxRdPt - c.erxwrpt - 1

/-- A frame arrives: it is stored if reception is on, there is space, and the counter is not at its
end. -/
def receive (f : RxFrame) : Chip :=
  if c.rxen = true ∧ f.size ≤ c.rxFree ∧ (c.get epktcnt).toNat < 255 then
    let next := (rxStep c.erxst c.erxnd)^[f.size] c.erxwrpt
    { (c.setPtr erxwrptl erxwrpth next).set (regOf epktcnt) (c.get epktcnt + 1) with
      mem := rxPut c.erxst c.erxnd c.mem c.erxwrpt (f.bytes next)
      stored := c.stored ++ [f] }
  else c

/-- The transmission under way ends, and its status vector is written behind the frame. After an
abort the transmit logic may be stuck with `TXRTS` set. -/
def endTx (aborted stuck : Bool) (status : List Byte) : Chip :=
  if c.txrts then
    let busy : Byte := if aborted && stuck then 0x08 else 0
    let error : Byte := if aborted then 0x02 else 0
    let number := c.requests.length - 1
    { (c.set (regOf econ1) (c.get econ1 &&& (~~~0x08 ||| busy))).set (regOf eir)
        (c.get eir ||| error) with
      mem := Ring.put c.mem 0x2000 (c.etxnd + 1) (status.take 7)
      sent := if aborted then c.sent else c.sent ++ [number]
      failed := if aborted then c.failed ++ [number] else c.failed }
  else c

end Chip

/-- What the chip does by itself. -/
inductive HwEvent
  | frame (f : RxFrame)
  | txEnd (aborted stuck : Bool) (status : List Byte)
  | status (r : Reg) (v : Byte)
  /-- the interrupt flags change, `TXERIF` apart -/
  | interrupt (v : Byte)

namespace Chip

variable (c : Chip)

def event : HwEvent → Chip
  | .frame f => c.receive f
  | .txEnd aborted stuck status => c.endTx aborted stuck status
  | .status r v => if r ∈ statusRegs then c.set r v else c
  | .interrupt v => c.set (regOf eir) (v &&& ~~~0x02 ||| c.get eir &&& 0x02)

/-! ## Commands -/

/-- `TXRTS` going up is a transmit request, and going down a cancellation. -/
def storeEcon1 (v : Byte) : Chip :=
  { c.set (regOf econ1) v with
    requests := if v.getLsbD 3 && !c.txrts then c.requests ++ [c.txerif] else c.requests
    cancelled :=
      if !v.getLsbD 3 && c.txrts then c.cancelled ++ [c.requests.length - 1] else c.cancelled }

/-- `PKTDEC` counts a packet down and reads as 0. -/
def storeEcon2 (v : Byte) : Chip :=
  let count := c.get epktcnt
  { (c.set (regOf econ2) (v &&& ~~~0x40)).set (regOf epktcnt)
      (if v.getLsbD 6 ∧ count ≠ 0 then count - 1 else count) with
    decrements := if v.getLsbD 6 then c.decrements + 1 else c.decrements }

/-- A value written to a register, with what that sets off. -/
def store (r : Reg) (v : Byte) : Chip :=
  if r ∈ readOnlyRegs then c
  else if r = regOf econ1 then c.storeEcon1 v
  else if r = regOf econ2 then c.storeEcon2 v
  else if r = regOf erxrdpth then
    let c := c.set r v
    { c with rxRdPt := c.ptr erxrdptl erxrdpth }
  else if r ∈ [erxstl, erxsth, erxndl, erxndh].map regOf then
    let c := c.set r v
    c.setPtr erxwrptl erxwrpth c.erxst
  else if r = regOf miwrh then
    { (c.set r v).set (regOf mistat) (c.get mistat ||| 0x01) with
      phy := Function.update c.phy (argOf (c.get miregadr)) (v ++ c.get miwrl) }
  else c.set r v

/-- The system reset. It leaves the memory and the PHY registers as they are. -/
def softReset : Chip :=
  { c with
    reg := c.por.reg
    rxRdPt := ((c.por.reg (regOf erxrdptl)).toNat + 256 * (c.por.reg (regOf erxrdpth)).toNat) % 0x2000
    stored := []
    requests := []
    sent := []
    failed := []
    cancelled := []
    decrements := 0 }

/-- `RBM`: the byte at `ERDPT`, which moves on. -/
def fetch : Byte × Chip :=
  (c.mem c.erdpt,
    if c.autoinc then c.setPtr erdptl erdpth (rxStep c.erxst c.erxnd c.erdpt) else c)

/-- `WBM`: a byte written at `EWRPT`, which moves on. -/
def push (b : Byte) : Chip :=
  let c' := { c with mem := Function.update c.mem c.ewrpt b }
  if c.autoinc then c'.setPtr ewrptl ewrpth ((c.ewrpt + 1) % 0x2000) else c'

/-- The opcode byte of a command. -/
def decode (b : Byte) : Chip :=
  if b = 0xFF then { c.softReset with spi := .done }
  else if b = 0x3A then { c with spi := .rbm }
  else if b = 0x7A then { c with spi := .wbm }
  else
    let r := Reg.at c.bsel (argOf b)
    let reach (s : Spi) : Chip := { c with spi := s, reached := c.reached ++ [r] }
    match b.extractLsb' 5 3 with
    | 0 => reach (.rcr r r.macMii)
    | 2 => reach (.wcr r)
    | 4 => reach (.bfs r)
    | 5 => reach (.bfc r)
    | _ => { c with spi := .done }

/-- One byte each way on the SPI bus. -/
def exchange (b : Byte) : Byte × Chip :=
  match c.spi with
  | .idle => (0, c)
  | .opcode => (0, c.decode b)
  | .rcr r true => (0, { c with spi := .rcr r false })
  | .rcr r false => (c.reg r, c)
  | .wcr r => (0, { c.store r b with spi := .done })
  | .bfs r => (0, { if r.macMii then c else c.store r (c.reg r ||| b) with spi := .done })
  | .bfc r => (0, { if r.macMii then c else c.store r (c.reg r &&& ~~~b) with spi := .done })
  | .rbm => c.fetch
  | .wbm => (0, c.push b)
  | .done => (0, c)

/-- Chip select goes low. -/
def csLow : Chip :=
  match c.spi with
  | .idle => { c with spi := .opcode }
  | _ => c

/-- Chip select goes high. -/
def csHigh : Chip := { c with spi := .idle }

end Chip

end LoraGateway.Enc28j60
