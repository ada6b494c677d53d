import Mathlib.Tactic.SplitIfs
import Scorch.Strings

/-!
# The network card

The receiving half of `rtl8139.c`. The card puts frames into a buffer of `0x2000` bytes and
interrupts, and the handler goes through the frames behind `bufferPtr`, up to the place the
card has got to.

The calls of `recv_packet` are logged with the header each of them reads, and so are the
writes to the card's ports. The number of tests a loop may take is a parameter : there is no
result when it takes more. Nothing that is written for the console is kept.
-/

open ByteMemory

namespace Scorch

/-! ## The card's registers -/

/-- `CAPR`. -/
def capr : BitVec 16 := 0x38

/-- `ISR`. -/
def isr : BitVec 16 := 0x3E

/-- `FLAG_ISR_ROK`. -/
def flagIsrRok : BitVec 16 := 0x0001

/-- `FLAG_ISR_RER`. -/
def flagIsrRer : BitVec 16 := 0x0002

/-- `FLAG_ISR_TOK`. -/
def flagIsrTok : BitVec 16 := 0x0004

/-- `FLAG_ISR_TER`. -/
def flagIsrTer : BitVec 16 := 0x0008

/-- `FLAG_ISR_RXOVW`. -/
def flagIsrRxovw : BitVec 16 := 0x0010

/-- `FLAG_ISR_PUN`. -/
def flagIsrPun : BitVec 16 := 0x0020

/-- `FLAG_ISR_FOVW`. -/
def flagIsrFovw : BitVec 16 := 0x0040

/-- `RX_BUF_SIZE`. -/
def rxBufSize : BitVec 16 := 0x2000

/-! ## Receiving -/

/-- The header of a packet, and where in the buffer it is. -/
structure Packet where
  offset : BitVec 16
  status : BitVec 16
  len : BitVec 16
deriving DecidableEq

/-- `read_ofs`, and the headers that `recv_packet` has been called on. -/
structure Receiver where
  readOfs : BitVec 16
  calls : List Packet

/-- The header at a place in the buffer. -/
def headerAt (rxbuf : Bytes) (offset : BitVec 16) : Packet where
  offset := offset
  status := load16 rxbuf offset.toNat
  len := load16 rxbuf (offset.toNat + 2)

/-- `recv_packet`, without what is done with the packet. -/
def recvPacket (rxbuf : Bytes) (r : Receiver) : Receiver :=
  let header := headerAt rxbuf r.readOfs
  let r := { r with calls := r.calls ++ [header] }
  if 3000 < header.len then r
  else
    let readOfs := r.readOfs + (header.len + 4)
    { r with readOfs := (readOfs + 3) &&& ~~~3 }

/-- The loop `while (read_ofs < limit)`, with at most `n` tests. -/
def receiveLoop (rxbuf : Bytes) (limit : BitVec 16) : ℕ → Receiver → Option Receiver
  | 0, _ => none
  | n + 1, r => if r.readOfs < limit then receiveLoop rxbuf limit n (recvPacket rxbuf r) else some r

/-- Both loops of the handler. -/
def receive (n : ℕ) (rxbuf : Bytes) (endOfs : BitVec 16) (r : Receiver) : Option Receiver :=
  let caughtUp :=
    if endOfs < r.readOfs then
      (receiveLoop rxbuf rxBufSize n r).map fun r => { r with readOfs := r.readOfs - rxBufSize }
    else some r
  caughtUp.bind (receiveLoop rxbuf endOfs n)

/-- What the driver keeps, with the calls and the port writes it has made. -/
structure RtlDriver where
  ioaddr : BitVec 16
  bufferPtr : BitVec 16
  calls : List Packet
  ports : List (BitVec 16 × BitVec 16)

/-- Acknowledge a flag. -/
def RtlDriver.acknowledge (d : RtlDriver) (flag : BitVec 16) : RtlDriver :=
  { d with ports := d.ports ++ [(d.ioaddr + isr, flag)] }

/-- Acknowledge a flag that is set. -/
def RtlDriver.acknowledgeSet (d : RtlDriver) (status flag : BitVec 16) : RtlDriver :=
  if status &&& flag ≠ 0 then d.acknowledge flag else d

@[simp] theorem RtlDriver.acknowledgeSet_bufferPtr (d : RtlDriver) (status flag : BitVec 16) :
    (d.acknowledgeSet status flag).bufferPtr = d.bufferPtr := by
  rw [acknowledgeSet]
  split_ifs <;> rfl

@[simp] theorem RtlDriver.acknowledgeSet_calls (d : RtlDriver) (status flag : BitVec 16) :
    (d.acknowledgeSet status flag).calls = d.calls := by
  rw [acknowledgeSet]
  split_ifs <;> rfl

/-- `status` and `cba` are what the handler reads from `ISR` and `CBA`. -/
def rtlIrqHandler (n : ℕ) (status cba : BitVec 16) (rxbuf : Bytes) (d : RtlDriver) :
    Option RtlDriver :=
  let d := { d with ioaddr := d.ioaddr &&& ~~~1 }
  let d := d.acknowledgeSet status flagIsrTok
  if status &&& flagIsrRok ≠ 0 then
    (receive n rxbuf cba ⟨d.bufferPtr, d.calls⟩).map fun r =>
      let d := { d with bufferPtr := r.readOfs, calls := r.calls }
      let d := { d with ports := d.ports ++ [(d.ioaddr + capr, r.readOfs - 0x10)] }
      d.acknowledge flagIsrRok
  else
    let d := d.acknowledgeSet status flagIsrTer
    let d := d.acknowledgeSet status flagIsrRer
    let d := d.acknowledgeSet status flagIsrPun
    let d := d.acknowledgeSet status flagIsrRxovw
    some (d.acknowledgeSet status flagIsrFovw)

/-- The driver before the first interrupt, with `bufferPtr` as `init_rtl8139` sets it. -/
def RtlDriver.initial (ioaddr : BitVec 16) : RtlDriver where
  ioaddr := ioaddr
  bufferPtr := 0
  calls := []
  ports := []

end Scorch
