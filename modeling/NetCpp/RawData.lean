import NetCpp.Memory
import NetCpp.Library.Runs

namespace NetCpp
open Library

/-- The 16 bytes of a `struct sockaddr_in`, which the server only copies. -/
abbrev SockAddr := Vector Byte 16

/-- A block of a packet: the size, and the memory of that size it points to. -/
structure Block where
  first : UInt32
  second : Bytes
  sized : second.length = first.toNat
deriving DecidableEq, Repr

structure Packet where
  type : UInt32 := 0
  buffs : List Block := []
deriving DecidableEq, Repr

/-- A byte string and its labels (`class raw_data`). A `NULL` block is the empty one;
what the constructor leaves without a value is `none` until it is written. -/
structure RawData where
  data : Bytes := []
  size : Nat := 0
  rId : UInt64
  head : Option UInt32 := none
  tail : Option UInt32 := none
  info : Option UInt32 := none
  msg : Bytes := []
  msgSize : Nat := 0
  address : Option SockAddr := none
deriving DecidableEq, Repr

/-- `raw_data::raw_data()`, given the number that `rand64` draws. -/
def RawData.new (rand64 : UInt64) : RawData := { rId := rand64 }

def Packet.addBuff (tpkt : Packet) (pbuff : Bytes) (size : UInt32) : Except Fault Packet :=
  if h : size.toNat ≤ pbuff.length then
    .ok { tpkt with buffs := tpkt.buffs ++ [⟨size, pbuff.take size.toNat, by simp [h]⟩] }
  else .error .readOutside

namespace Server

def netc : Bytes := ascii ['N', 'E', 'T', 'C']

def cten : Bytes := ascii ['C', 'T', 'E', 'N']

/-- One round of the loop of `Packet2Rawdata`. -/
def writeBuff (bufsiz : Nat) (data : Bytes) (b : Block) : Except Fault Bytes := do
  let data ← writeBytes bufsiz data (word32 b.first)
  writeBytes bufsiz data b.second

/-- The block has `BUFSIZ` bytes, which is a constant of the system, and starts with zeros. -/
def packet2Rawdata (bufsiz : Nat) (tpkt : Packet) (rdt : RawData) : Except Fault RawData := do
  let data ← writeBytes bufsiz [] (word32 tpkt.type)
  let data ← run (writeBuff bufsiz) data tpkt.buffs
  return { rdt with data := data ++ List.replicate (bufsiz - data.length) 0, size := data.length }

/-- The loop of `Rawdata2Packet`: `left` is what remains of `size` after `idx`. -/
def readBuffs (left : Nat) (idx : Bytes) (tpkt : Packet) : Except Fault Packet :=
  if left = 0 then .ok tpkt
  else
    match readWord32 idx with
    | .error e => .error e
    | .ok (size, idx) =>
      match tpkt.addBuff idx size with
      | .error e => .error e
      | .ok tpkt => readBuffs (left - (4 + size.toNat)) (idx.drop size.toNat) tpkt
termination_by left

def rawdata2Packet (tpkt : Packet) (trdt : RawData) : Except Fault Packet := do
  let (type, idx) ← readWord32 trdt.data
  readBuffs (trdt.size - 4) idx { tpkt with type := type }

/-- `info.data()` has a NUL behind the text. -/
def signedRawdata (trdt : RawData) (info : Bytes) : Except Fault RawData := do
  let head := ofWord32 netc
  let tail := ofWord32 cten
  let (info, _) ← readWord32 (info ++ [0])
  let (data, _) ← readBytes trdt.size trdt.data
  return { trdt with
    head := some head
    tail := some tail
    info := some info
    msg := word32 head ++ word32 info ++ data ++ word32 tail
    msgSize := 12 + trdt.size }

/-- `size - sizeof(uint32_t)` moves the pointer back when the size is below 4. -/
def checkRawMsg (pRdt : Bytes) (size : Nat) : Except Fault Bool := do
  if ← equalsAt pRdt 0 netc then equalsAt pRdt (size - 4) cten else return false

/-- A block of 2^63 bytes or more is one that `malloc` does not give. -/
def processSignedRawMsg (pRdt : Bytes) (size : Nat) (rdt : RawData) : Except Fault RawData := do
  let count := toSizeT (size - 12)
  if 2 ^ 63 ≤ count then throw (.message "malloc error")
  let (head, _) ← readWord32 pRdt
  let (info, _) ← readWord32 (pRdt.drop 4)
  let (data, _) ← readBytes count (pRdt.drop 8)
  let (tail, _) ← readWord32 (pRdt.drop (size - 4))
  return { rdt with data, size := count, head := some head, info := some info, tail := some tail }

end Server

end NetCpp
