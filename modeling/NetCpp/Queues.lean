import NetCpp.Library.Queues
import NetCpp.NetBox
import NetCpp.SquareServer

namespace NetCpp
open Library

/-- What a call of `ProcessPacket` leaves. An exception goes through the thread of
`packetProcessorDeamonForSquare`, which handles none, and the lock is not given back. -/
structure PacketPass where
  psvr : SqeServer
  packetsIn : List (Option AddressedPacket)
  handled : List AddressedPacket
  mutexRp : Bool := false
  fault : Option Fault := none

namespace SqeServer

/-- At most 2048 packets at a time. -/
def processPacket (crypto : Crypto) (psvr : SqeServer) : PacketPass :=
  let pass := drain (processPacketIn crypto) 2048 psvr (psvr.packetsIn.map some)
  match pass.error with
  | some f =>
    { psvr := pass.state, packetsIn := pass.items, handled := pass.handled, mutexRp := true,
      fault := some f }
  | none =>
    { psvr := pass.state, packetsIn := pass.items.filter Option.isSome, handled := pass.handled }

end SqeServer

/-- `ProcessRawData` in its first section, with what is left of its limit. -/
structure RawPass where
  prm : Nat := 2048
  pos : Nat := 0
deriving DecidableEq

/-- The server with the raw data that it has received, each with its address; what is nulled stays
until it is removed. `removing` threads are between their two sections. What has been handled is
recorded. -/
structure Queues where
  psvr : SqeServer
  rawdataIn : List (Option (RawData × SockAddr)) := []
  rawPass : Option RawPass := none
  removing : Nat := 0
  sent : List (SockAddr × List Bytes) := []
  handledRaw : List (RawData × SockAddr) := []
  handledIn : List AddressedPacket := []
  handledOut : List AddressedPacket := []

/-- Something is put at the end of a list, a thread of `ProcessRawData` gets the lock, goes on with
the next item or removes what is nulled, or one of the other two passes is made, under its lock. The
listeners of the fragments put raw data on the list without the lock of the pass. -/
inductive QueueEvent where
  | enqueueRaw (prdt : RawData × SockAddr)
  | enqueueIn (ppkt : AddressedPacket)
  | enqueueOut (ppkt : AddressedPacket)
  | lockRaw
  | nextRaw
  | removeRaw
  | processPacket
  | processSendPackets
deriving DecidableEq

namespace Queues
variable (crypto : Crypto) (env : Environment) (bufsiz : Nat) (sendto : Nat → Int)

/-- The end of the first section. -/
def unlockRaw (s : Queues) : Queues := { s with rawPass := none, removing := s.removing + 1 }

/-- A round of the loop of `ProcessRawData`. -/
def nextRaw (s : Queues) (pass : RawPass) : Except Fault Queues :=
  match s.rawdataIn[pass.pos]? with
  | none => .ok s.unlockRaw
  | some none => .ok { s with rawPass := some { pass with pos := pass.pos + 1 } }
  | some (some prdt) =>
    if pass.prm = 0 then .ok s.unlockRaw
    else do
      let pnpkt ← SqeServer.processRawDatum s.psvr.prc prdt.1 prdt.2
      return { s with
        psvr := { s.psvr with packetsIn := s.psvr.packetsIn ++ pnpkt.toList }
        rawdataIn := s.rawdataIn.set pass.pos none
        rawPass := some { prm := pass.prm - 1, pos := pass.pos + 1 }
        handledRaw := s.handledRaw ++ [prdt] }

/-- The body of the loop of `ProcessSendPackets`. That `sendto` fails is only reported. -/
def processPacketOut (s : Queues) (ppkt : AddressedPacket) : Except Fault Queues := do
  let nrwd := RawData.new (env.rand64 s.psvr.drawn)
  let nrwd ← Server.packet2Rawdata bufsiz ppkt.toPacket nrwd
  let nrwd ← Server.signedRawdata nrwd SqeServer.spkt
  let (datagrams, _) ← Server.sentRawdata sendto nrwd
  return { s with
    psvr := { s.psvr with drawn := s.psvr.drawn + 1 }
    sent := s.sent ++ [(ppkt.address, datagrams)] }

def processPacket (s : Queues) : Except Fault Queues :=
  let pass := s.psvr.processPacket crypto
  match pass.fault with
  | some f => .error f
  | none => .ok { s with
      psvr := { pass.psvr with packetsIn := pass.packetsIn.reduceOption }
      handledIn := s.handledIn ++ pass.handled }

/-- At most 512 packets at a time. -/
def processSendPackets (s : Queues) : Except Fault Queues :=
  let pass := drain (processPacketOut env bufsiz sendto) 512 s (s.psvr.packetsOut.map some)
  match pass.error with
  | some f => .error f
  | none => .ok { pass.state with
      psvr := { pass.state.psvr with packetsOut := (pass.items.filter Option.isSome).reduceOption }
      handledOut := pass.state.handledOut ++ pass.handled }

def step (s : Queues) : QueueEvent → Except Fault Queues
  | .enqueueRaw prdt => .ok { s with rawdataIn := s.rawdataIn ++ [some prdt] }
  | .enqueueIn ppkt =>
    .ok { s with psvr := { s.psvr with packetsIn := s.psvr.packetsIn ++ [ppkt] } }
  | .enqueueOut ppkt =>
    .ok { s with psvr := { s.psvr with packetsOut := s.psvr.packetsOut ++ [ppkt] } }
  | .lockRaw =>
    match s.rawPass with
    | some _ => .ok s
    | none => .ok { s with rawPass := some {} }
  | .nextRaw =>
    match s.rawPass with
    | none => .ok s
    | some pass => s.nextRaw pass
  | .removeRaw =>
    if s.rawPass = none ∧ 0 < s.removing then
      .ok { s with rawdataIn := s.rawdataIn.filter Option.isSome, removing := s.removing - 1 }
    else .ok s
  | .processPacket => s.processPacket crypto
  | .processSendPackets => s.processSendPackets env bufsiz sendto

end Queues

end NetCpp
