import NetCpp.RawData

namespace NetCpp
open Library

def dsat : Bytes := ascii ['D', 'S', 'A', 'T']

def dcst : Bytes := ascii ['D', 'C', 'S', 'T']

def dctn : Bytes := ascii ['D', 'C', 'T', 'N']

def dfsh : Bytes := ascii ['D', 'F', 'S', 'H']

def dget : Bytes := ascii ['D', 'G', 'E', 'T']

/-- A `recv` that gets `piece`: the bytes behind it stay as they were. -/
def recvInto (buff piece : Bytes) : Except Fault Bytes :=
  if buff.length < piece.length then .error .writeOutside
  else .ok (piece ++ buff.drop piece.length)

namespace SocketTCPClient

/-- The chunk that starts at `idx`, in a `vbuff` of 1024 bytes, and the index of its last byte. -/
def chunk (buff : Bytes) (size idx : Nat) : Except Fault (Bytes × Nat) := do
  let vbuff ← writeBytes 1024 [] (if idx = 0 then dsat else dcst)
  let (nidx, trailer) := if idx + 1000 < size - 1 then (idx + 1000, dctn) else (size - 1, dfsh)
  let (data, _) ← readBytes (nidx - idx + 1) (buff.drop idx)
  let vbuff ← writeBytes 1024 vbuff data
  let vbuff ← writeBytes 1024 vbuff trailer
  return (vbuff, nidx)

/-- The loop of `SendRAW`, with the chunks it sends. `recv` gives what the k-th call gets, nothing
if it fails. The fuel is more than the number of rounds. -/
def sendChunks (recv : Nat → Bytes) (buff : Bytes) (size : Nat) :
    Nat → Nat → Nat → Bytes → Except Fault (List Bytes × Int)
  | fuel, k, idx, gbuff =>
    if idx < size - 1 then
      match fuel with
      | 0 => .error .diverges
      | fuel + 1 => do
        let (vbuff, nidx) ← chunk buff size idx
        let gbuff ← recvInto gbuff (recv k)
        if recv k ≠ [] ∧ (← equalsAt gbuff 0 dget) then
          let (sent, rtn) ← sendChunks recv buff size fuel (k + 1) (nidx + 1) gbuff
          return (vbuff :: sent, rtn)
        else return ([vbuff], -1)
    else .ok ([], size)

/-- `sendSize` is what `send` returns for a short message. No block has 2^63 bytes, so `size` fits
the `ssize_t` it is returned as. `gbuff` is the array of 1024 bytes as the call finds it. -/
def sendRaw (recv : Nat → Bytes) (sendSize : Int) (gbuff buff : Bytes) (size : Nat) :
    Except Fault (List Bytes × Int) :=
  if size > 1023 then sendChunks recv buff size size 0 0 gbuff
  else do
    let (data, _) ← readBytes size buff
    return ([data], sendSize)

end SocketTCPClient

namespace SocketTCPCServer

/-- What `RecvRAW_SM` works on: the socket's `buff`, the block `*p_rdt`, whose bytes are `none`
until they are written, and the number of times it has sent "DGET". -/
structure Receiving where
  buff : Bytes
  rdt : Option (List (Option Byte)) := none
  bdtas : Nat := 0
  dsat : Bool := false
  dfsh : Bool := false
  ifSignal : Bool := false
  acks : Nat := 0
deriving DecidableEq, Repr

/-- `realloc`: what is gained is not written yet. -/
def realloc (block : List (Option Byte)) (size : Nat) : List (Option Byte) :=
  block.take size ++ List.replicate (size - block.length) none

namespace Receiving

/-- A chunk without its two labels. Of a shorter one the size wraps around. -/
def payload (s : Receiving) (tmpBdtas : Nat) : Except Fault Bytes :=
  if tmpBdtas < 8 then .error .readOutside
  else do
    let (data, _) ← readBytes (tmpBdtas - 8) (s.buff.drop 4)
    return data

/-- The labels of what `recv` got. -/
def labels (s : Receiving) (tmpBdtas : Nat) : Except Fault Receiving := do
  let s := if ← equalsAt s.buff 0 Server.netc then
    { s with dsat := true, dfsh := true, ifSignal := true } else s
  let s := if ← equalsAt s.buff 0 NetCpp.dsat then { s with dsat := true } else s
  return if ← equalsAt s.buff (tmpBdtas - 4) NetCpp.dfsh then { s with dfsh := true } else s

/-- A round of the loop. -/
def round (s : Receiving) (piece : Bytes) : Except Fault Receiving := do
  let buff ← recvInto s.buff piece
  let s ← labels { s with buff } piece.length
  if s.dsat then
    let s := { s with acks := s.acks + 1 }
    match s.rdt with
    | none =>
      if s.ifSignal then
        return { s with rdt := some (piece.map some), bdtas := s.bdtas + piece.length }
      else
        let data ← s.payload piece.length
        return { s with rdt := some (data.map some), bdtas := s.bdtas + piece.length }
    | some block =>
      let data ← s.payload piece.length
      let block ← copyAt (realloc block (s.bdtas + piece.length - 8)) s.bdtas data
      return { s with rdt := some block, bdtas := s.bdtas + piece.length }
  else return { s with bdtas := s.bdtas + piece.length }

/-- The loop, over what the calls of `recv` get: nothing, when the peer has closed or a call
fails. -/
def loop (s : Receiving) : List Bytes → Except Fault Receiving
  | [] => .ok s
  | piece :: pieces =>
    if s.dfsh ∨ piece = [] then .ok s
    else do
      let s ← s.round piece
      s.loop pieces

end Receiving

/-- It returns `bdtas` and, through its argument, `rdt`. -/
def recvRawSM (buff : Bytes) (pieces : List Bytes) : Except Fault Receiving :=
  Receiving.loop { buff } pieces

end SocketTCPCServer

end NetCpp
