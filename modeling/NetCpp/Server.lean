import NetCpp.NetBox

namespace NetCpp
open Library

/-- What waits for the fragments of one message (`struct box_listener`). `clicks` grows by 5
for each of at most 65535 fragments and so never overflows. -/
structure BoxListener where
  bId : UInt64
  clicks : Int
  cnt : Nat
  nbn : Nat
  address : SockAddr
  boxs : List (Option NetBox)
deriving DecidableEq, Repr

/-- The part of a server that takes datagrams in. `boxls` is a `std::map`. -/
structure Server where
  rawdataIn : List RawData := []
  boxls : Std.TreeMap UInt64 BoxListener := ∅

namespace BoxListener

/-- The listener that the first fragment of a message makes. -/
def new (pnbx : NetBox) (taddr : SockAddr) : Except Fault BoxListener :=
  let boxs := List.replicate pnbx.cnt.toNat none
  if pnbx.idx.toNat < boxs.length then
    .ok { cnt := pnbx.cnt.toNat
          address := taddr
          boxs := boxs.set pnbx.idx.toNat (some pnbx)
          bId := pnbx.bId
          clicks := 15
          nbn := 1 }
  else .error .writeOutside

/-- What a further fragment does to its listener. -/
def put (pnbxl : BoxListener) (pnbx : NetBox) : Except Fault BoxListener :=
  match pnbxl.boxs[pnbx.idx.toNat]? with
  | none => .error .readOutside
  | some (some _) => .ok pnbxl
  | some none =>
    if pnbxl.nbn < pnbxl.cnt then
      .ok { pnbxl with
        boxs := pnbxl.boxs.set pnbx.idx.toNat (some pnbx)
        clicks := pnbxl.clicks + 5
        nbn := pnbxl.nbn + 1 }
    else .ok pnbxl

/-- `boxs[i]` of a fragment that is looked into. -/
def box (l : BoxListener) (i : Nat) : Except Fault NetBox :=
  match l.boxs[i]? with
  | none => .error .readOutside
  | some none => .error .nullPointer
  | some (some pnb) => .ok pnb

/-- `msg_size` is a `uint32_t`; a larger sum would make the block too small. -/
def togtRawData (l : BoxListener) (trdt : RawData) : Except Fault RawData := do
  let boxs ← (List.range l.cnt).mapM l.box
  let msgSize := (boxs.map (fun pnb => pnb.dataSize.toNat)).sum % 2 ^ 32
  let pbyt := boxs.flatMap NetBox.data
  if msgSize < pbyt.length then throw .writeOutside
  if ← Server.checkRawMsg pbyt msgSize then Server.processSignedRawMsg pbyt msgSize trdt
  else return trdt

/-- `free_boxs`: the array is gone. -/
def freeBoxs (l : BoxListener) : BoxListener := { l with boxs := [] }

/-- One round of the first loop of `boxProcessorDeamon`, with the message it pushes, if it
does. The number that `raw_data()` draws for `r_id` is overwritten. -/
def process (pboxl : BoxListener) : Except Fault (BoxListener × Option RawData) :=
  if pboxl.clicks < 0 then .ok (pboxl, none)
  else if pboxl.cnt = pboxl.nbn then do
    let pnrdt ← pboxl.togtRawData (RawData.new pboxl.bId)
    return ({ pboxl.freeBoxs with clicks := -1 },
      some { pnrdt with rId := pboxl.bId, address := some pboxl.address })
  else if pboxl.clicks > 0 then .ok ({ pboxl with clicks := pboxl.clicks - 1 }, none)
  else .ok ({ pboxl.freeBoxs with clicks := -1 }, none)

end BoxListener

namespace Server

/-- A datagram from `taddr` (the body of the loop of `serverDeamon`). `rand64` is the number
that a new `raw_data` draws. -/
def serverDeamon (psvr : Server) (str : Bytes) (taddr : SockAddr) (rand64 : UInt64) :
    Except Fault Server := do
  if str.length = 0 then return psvr
  if ← checkNetBox str str.length then
    let pnbx ← processNetBox {} str
    match psvr.boxls[pnbx.bId]? with
    | some pnbxl =>
      let pnbxl ← pnbxl.put pnbx
      return { psvr with boxls := psvr.boxls.insert pnbx.bId pnbxl }
    | none =>
      let pnbxl ← BoxListener.new pnbx taddr
      return { psvr with boxls := psvr.boxls.insertIfNew pnbxl.bId pnbxl }
  else if ← checkRawMsg str str.length then
    let ptrdt ← processSignedRawMsg str str.length (RawData.new rand64)
    return { psvr with rawdataIn := psvr.rawdataIn ++ [{ ptrdt with address := some taddr }] }
  else return psvr

/-- The listener of one key in the first loop of `boxProcessorDeamon`. -/
def processBoxl (psvr : Server) (bId : UInt64) : Except Fault Server :=
  match psvr.boxls[bId]? with
  | none => .ok psvr
  | some pboxl => do
    let (pboxl, pnrdt) ← pboxl.process
    return { rawdataIn := psvr.rawdataIn ++ pnrdt.toList, boxls := psvr.boxls.insert bId pboxl }

def cleaningBoxs (psvr : Server) : Server :=
  { psvr with boxls := psvr.boxls.filter (fun _ pboxl => pboxl.clicks ≠ -1) }

/-- The second loop does what `CleaningBoxs` does. -/
def boxProcessorDeamon (psvr : Server) : Except Fault Server := do
  let psvr ← run processBoxl psvr psvr.boxls.keys
  return psvr.cleaningBoxs

end Server

/-- What happens to a server: a datagram comes in, or one of the two clocked threads runs. -/
inductive ServerEvent where
  | datagram (str : Bytes) (taddr : SockAddr) (rand64 : UInt64)
  | boxProcessorDeamon
  | boxsCleaningProcessorDeamon
deriving DecidableEq

def Server.step (psvr : Server) : ServerEvent → Except Fault Server
  | .datagram str taddr rand64 => psvr.serverDeamon str taddr rand64
  | .boxProcessorDeamon => psvr.boxProcessorDeamon
  | .boxsCleaningProcessorDeamon => .ok psvr.cleaningBoxs

end NetCpp
