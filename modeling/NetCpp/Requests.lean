import NetCpp.RawData

namespace NetCpp
open Library

def requsetType : UInt32 := 100

def respondType : UInt32 := 101

def encryptPostType : UInt32 := 102

/-- `Addr::SetPort`: the port is in bytes 2 and 3, the high one first. -/
def setPort (addr : SockAddr) (port : UInt16) : SockAddr :=
  (addr.set 2 (port >>> 8).toUInt8).set 3 port.toUInt8

/-- `*(struct sockaddr_in *)p` -/
def readSockAddr (p : Bytes) : Except Fault SockAddr :=
  if h : 16 ≤ p.length then .ok ⟨(p.take 16).toArray, by simp [h]⟩ else .error .readOutside

/-- `string(p, n)` -/
def readString (n : Nat) (p : Bytes) : Except Fault Bytes := do
  if 2 ^ 63 - 1 < n then throw .lengthError
  let (s, _) ← readBytes n p
  return s

/-- `(const char *)p` as a `string`: what is before the first NUL, in the block or behind it. -/
def readCString (p : Bytes) : Except Fault Bytes :=
  if 0 ∈ p then .ok (p.takeWhile (· ≠ 0)) else .error .readOutside

/-- A packet and where it comes from or goes to. -/
structure AddressedPacket extends Packet where
  address : SockAddr
  ifEncrypt : Bool := false
deriving DecidableEq

/-- `buffs[i].second` -/
def Packet.buff (pkt : Packet) (i : Nat) : Except Fault Bytes :=
  match pkt.buffs[i]? with
  | none => .error .readOutside
  | some b => .ok b.second

/-- Without the JSON document, which `data` is the text of. -/
structure Request where
  rId : UInt64
  type : Bytes
  data : Bytes
  recvPort : UInt32
  ifEncrypt : Bool := false
  tAddr : SockAddr
deriving DecidableEq

structure Respond where
  rId : UInt64
  type : Bytes
  buff : Bytes
  tAddr : SockAddr
deriving DecidableEq

namespace SqeServer

/-- For a packet of `REQUSET_TYPE`; nothing is read of one of another type. -/
def packet2Request (pkt : Packet) : Except Fault (Option Request) :=
  if pkt.type = requsetType then do
    let (rId, _) ← readWord64 (← pkt.buff 0)
    let (typeSize, _) ← readWord64 (← pkt.buff 1)
    let type ← readString typeSize.toNat (← pkt.buff 2)
    let (dataSize, _) ← readWord64 (← pkt.buff 3)
    let data ← readString dataSize.toNat (← pkt.buff 4)
    let tAddr ← readSockAddr (← pkt.buff 5)
    let (recvPort, _) ← readWord32 (← pkt.buff 6)
    return some { rId, type, data, tAddr, recvPort }
  else .ok none

/-- The blocks that a list of texts makes, each with its length as an `uint32_t`. -/
def addBuffs (pkt : Packet) (texts : List Bytes) : Except Fault Packet :=
  run (fun pkt s => pkt.addBuff s (.ofNat s.length)) pkt texts

def request2Packet (req : Request) : Except Fault AddressedPacket := do
  let pkt ← addBuffs { type := requsetType }
    [word64 req.rId, word64 (.ofNat req.type.length), req.type,
      word64 (.ofNat req.data.length), req.data, req.tAddr.toList, word32 req.recvPort]
  return { pkt with address := req.tAddr }

def packet2Respond (pkt : Packet) : Except Fault Respond := do
  let (rId, _) ← readWord64 (← pkt.buff 0)
  let tAddr ← readSockAddr (← pkt.buff 1)
  let type ← readCString (← pkt.buff 2)
  let buff ← pkt.buff 3
  return { rId, type, buff, tAddr }

def respond2Packet (res : Respond) : Except Fault AddressedPacket := do
  let pkt ← addBuffs { type := respondType } [word64 res.rId, res.tAddr.toList, res.type, res.buff]
  return { pkt with address := res.tAddr }

end SqeServer

end NetCpp
