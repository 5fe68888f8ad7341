import NetCpp.RawData

namespace NetCpp
open Library

theorem sized_new : ([] : Bytes).length = (0 : UInt16).toNat := rfl

/-- A UDP fragment (`struct net_box`); `data` points to a block of `data_size` bytes. What
the source leaves without a value until it is written is 0 here: no function reads it before. -/
structure NetBox where
  idx : UInt16 := 0
  cnt : UInt16 := 0
  head : UInt32 := 0
  tail : UInt32 := 0
  bId : UInt64 := 0
  data : Bytes := []
  dataSize : UInt16 := 0
  sendData : Bytes := []
  sdtSize : UInt16 := 0
  sized : data.length = dataSize.toNat := by exact sized_new
deriving DecidableEq, Repr

def netb : Bytes := ascii ['N', 'E', 'T', 'B']

def bten : Bytes := ascii ['B', 'T', 'E', 'N']

namespace NetBox

def set (nnb : NetBox) (pbuff : Bytes) (pbsize : UInt16) : Except Fault NetBox :=
  if h : pbsize.toNat ≤ pbuff.length then
    .ok { nnb with data := pbuff.take pbsize.toNat, dataSize := pbsize, sized := by simp [h] }
  else .error .readOutside

/-- `send_data` gets all of its bytes; `sdt_size` is a `uint16_t` and wraps. -/
def build (nnb : NetBox) : NetBox :=
  let head := ofWord32 netb
  let tail := ofWord32 bten
  { nnb with
    head
    tail
    sendData := word32 head ++ word64 nnb.bId ++ word16 nnb.idx ++ word16 nnb.cnt ++
      word16 nnb.dataSize ++ nnb.data ++ word32 tail
    sdtSize := nnb.dataSize + 22 }

/-- The datagram of a built fragment: `SendRAW(nnb.send_data, nnb.sdt_size)`. -/
def datagram (nnb : NetBox) : Bytes := nnb.sendData.take nnb.sdtSize.toNat

end NetBox

/-- The loop that `SendRawData` and `SentRawdata` share, with the fragments it builds. The fuel
is more than the number of rounds; a loop that used it up would not end. -/
def sendBoxes (trdt : RawData) (tmpCnt : Nat) :
    Nat → Nat → Nat → Int → Nat → Except Fault (List NetBox)
  | fuel, aidx, bidx, alls, tmpIdx =>
    if bidx < trdt.msgSize - 1 then
      match fuel with
      | 0 => .error .diverges
      | fuel + 1 => do
        let alls := alls - 256
        let bidx := if alls > 256 then aidx + 255 else trdt.msgSize - 1
        let nnb : NetBox := { bId := trdt.rId, cnt := .ofNat tmpCnt, idx := .ofNat tmpIdx }
        let nnb ← nnb.set (trdt.msg.drop aidx) (.ofNat (bidx - aidx + 1))
        let sent ← sendBoxes trdt tmpCnt fuel (bidx + 1) bidx alls (tmpIdx + 1)
        return nnb.build :: sent
    else .ok []

/-- The fragments of a long message. -/
def splitBoxes (trdt : RawData) : Except Fault (List NetBox) :=
  sendBoxes trdt (trdt.msgSize / 256) trdt.msgSize 0 0 trdt.msgSize 0

/-- What the socket is given to send, datagram by datagram. -/
def Client.sendRawData (trdt : RawData) : Except Fault (List Bytes) :=
  if trdt.msgSize > 256 then do
    let boxes ← splitBoxes trdt
    return boxes.map NetBox.datagram
  else do
    let (msg, _) ← readBytes trdt.msgSize trdt.msg
    return [msg]

namespace Server

/-- As the client's function, which returns nothing; this one returns what the last `sendto`
did, as an `int`. `sendto` gives what the call for the k-th datagram returns. -/
def sentRawdata (sendto : Nat → Int) (trdt : RawData) : Except Fault (List Bytes × Int) :=
  if trdt.msgSize > 256 then do
    let boxes ← splitBoxes trdt
    let rtn := if boxes = [] then 0 else sendto (boxes.length - 1)
    return (boxes.map NetBox.datagram, rtn.bmod (2 ^ 32))
  else do
    let (msg, _) ← readBytes trdt.msgSize trdt.msg
    return ([msg], (sendto 0).bmod (2 ^ 32))

def checkNetBox (pNb : Bytes) (size : Nat) : Except Fault Bool := do
  if ← equalsAt pNb 0 netb then equalsAt pNb (size - 4) bten else return false

/-- The size of the datagram is not known here. -/
def processNetBox (tnb : NetBox) (pData : Bytes) : Except Fault NetBox := do
  let (head, idx) ← readWord32 pData
  let (bId, idx) ← readWord64 idx
  let (index, idx) ← readWord16 idx
  let (cnt, idx) ← readWord16 idx
  let (dataSize, idx) ← readWord16 idx
  let tnb ← tnb.set idx dataSize
  let (tail, _) ← readWord32 (idx.drop dataSize.toNat)
  return { tnb with head, bId, idx := index, cnt, tail }

end Server

end NetCpp
