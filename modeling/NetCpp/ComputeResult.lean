import NetCpp.Memory

namespace NetCpp

/-- An argument is the memory it points to. A list of formats that has not been set is `none`. -/
structure ComputeResult where
  name : Bytes := []
  argsIn : List Bytes := []
  argsOut : List Bytes := []
  fargsIn : Option (List Int32) := none
  fargsOut : Option (List Int32) := none
deriving DecidableEq

/-- `INT` -/
def formatInt : Int32 := 0

/-- `DOUBLE` -/
def formatDouble : Int32 := 1

/-- A block of a packet with the memory from its pointer on, which is `none` when it has been given
back. -/
structure PointedBlock where
  first : UInt32
  second : Option Bytes
deriving DecidableEq

structure PointedPacket where
  type : UInt32
  buffs : List PointedBlock
deriving DecidableEq

namespace CNodeServer

def countBlock (args : List Bytes) : PointedBlock where
  first := 4
  second := some (word32 (.ofNat args.length))

/-- Nothing is written for a format that is neither of the two. -/
def writeArg (farg : Int32) (arg : Bytes) : Except Fault (List PointedBlock) :=
  if farg = formatInt then do
    let (value, _) ← readBytes 4 arg
    return [{ first := 4, second := some value }]
  else if farg = formatDouble then do
    let (value, _) ← readBytes 8 arg
    return [{ first := 8, second := some value }]
  else .ok []

/-- The loop over the arguments, with the formats from `count` on. -/
def writeArgs : List Bytes → List Int32 → Except Fault (List PointedBlock)
  | [], _ => .ok []
  | _ :: _, [] => .error .readOutside
  | arg :: args, farg :: fargs => do
    let block ← writeArg farg arg
    let blocks ← writeArgs args fargs
    return block ++ blocks

def formats : Option (List Int32) → Except Fault (List Int32)
  | none => .error .nullPointer
  | some fargs => .ok fargs

/-- The packet while `tcpur` is there: its first block is the memory of the name, with the NUL
behind it. -/
def packetOf (tcpur : ComputeResult) : Except Fault PointedPacket := do
  let name : PointedBlock :=
    { first := .ofNat tcpur.name.length, second := some (tcpur.name ++ [0]) }
  let fargsIn ← formats tcpur.fargsIn
  let argsIn ← writeArgs tcpur.argsIn fargsIn
  let fargsOut ← formats tcpur.fargsOut
  let argsOut ← writeArgs tcpur.argsOut fargsOut
  return {
    type := 0
    buffs := name :: countBlock tcpur.argsIn :: argsIn ++ countBlock tcpur.argsOut :: argsOut }

/-- `CPURS2Packet`. The name is that of a parameter passed by value, which does not outlive the
call. -/
def cpurs2Packet (tcpur : ComputeResult) : Except Fault PointedPacket := do
  let rawpkt ← packetOf tcpur
  return { rawpkt with buffs := rawpkt.buffs.modifyHead fun name => { name with second := none } }

/-- `buffs[i]` -/
def buff (tpkt : PointedPacket) (i : Int) : Except Fault PointedBlock :=
  if i < 0 then .error .readOutside
  else
    match tpkt.buffs[i.toNat]? with
    | none => .error .readOutside
    | some block => .ok block

/-- `n` bytes of the memory of a block. -/
def readBlock (n : Nat) (block : PointedBlock) : Except Fault Bytes :=
  match block.second with
  | none => .error .readOutside
  | some p => do
    let (s, _) ← readBytes n p
    return s

/-- `*(int *)(block.second)` -/
def readInt (block : PointedBlock) : Except Fault Int32 := do
  let s ← readBlock 4 block
  return (ofWord32 s).toInt32

/-- `args[i] = arg` -/
def assign (args : List Bytes) (i : Int) (arg : Bytes) : Except Fault (List Bytes) :=
  if i < 0 ∨ (args.length : Int) ≤ i then .error .writeOutside else .ok (args.set i.toNat arg)

/-- The loop from `i` to `stop`, which assigns to elements of the vector and adds none. -/
def readArgs (tpkt : PointedPacket) (stop : Int) (args : List Bytes) (i : Int) :
    Except Fault (List Bytes) :=
  if i < stop then do
    let block ← buff tpkt (i + 1)
    let arg ← readBlock block.first.toNat block
    let args ← assign args i arg
    readArgs tpkt stop args (i + 1)
  else .ok args
termination_by (stop - i).toNat

/-- `Packet2CPUR`; the sums are sums of `int`. -/
def packet2Cpur (tpkt : PointedPacket) : Except Fault ComputeResult := do
  if tpkt.type = 0 then
    let nargsIn ← readInt (← buff tpkt 0)
    let nargsOut ← readInt (← buff tpkt (nargsIn + 1).toInt)
    let argsIn ← readArgs tpkt nargsIn.toInt [] 0
    let argsOut ← readArgs tpkt (nargsIn + nargsOut + 2).toInt [] (nargsIn + 1).toInt
    return { argsIn, argsOut }
  else return {}

end CNodeServer

end NetCpp
