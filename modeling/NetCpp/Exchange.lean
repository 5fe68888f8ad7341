import NetCpp.Client
import NetCpp.Queues

namespace NetCpp
open Library

/-- The body of the loop of `clientRespondDeamon`. -/
def Client.clientRespondDeamon (clt : Client) (str : Bytes) (rand64 : UInt64) :
    Except Fault Client := do
  if str.length = 0 then return clt
  if ← Server.checkRawMsg str str.length then
    let ptrdt ← Server.processSignedRawMsg str str.length (RawData.new rand64)
    if ptrdt.info = some (ofWord32 SqeServer.spkt) then
      let npkt ← Server.rawdata2Packet {} ptrdt
      if npkt.type = respondType then
        let pnres ← SqeServer.packet2Respond npkt
        return { clt with resLst := clt.resLst ++ [pnres] }
      else return clt
    else return clt
  else return clt

/-- The threads of the server that receive are apart from those that pass over its lists: what the
former put on the list of raw data is in `queues`. -/
structure Exchange where
  server : Server := {}
  queues : Queues
  clients : Nat → Client

/-- A client makes a request, goes through its lists or learns the key of the server; a datagram of
a client comes to the server, or one of the server to a client; a clocked thread of the server runs,
one that serves a client goes on, or a pass over the queues does. -/
inductive ExchangeEvent where
  | request (i : Nat) (preq : Request) (timeout : Int32) (rand64 : UInt64)
  | processRequestListener (i : Nat)
  | setPublicKey (i : Nat) (tPbc : PublicKeyClass)
  | toServer (i : Nat) (str : Bytes) (rand64 : UInt64)
  | toClient (i : Nat) (str : Bytes) (rand64 : UInt64)
  | boxProcessorDeamon
  | boxsCleaningProcessorDeamon
  | pass (e : QueueEvent)
  | processRequset
  | wait (i : Nat) (good : Bool)
deriving DecidableEq

namespace Exchange
variable (crypto : Crypto) (env : Environment) (bufsiz : Nat) (sendto : Nat → Int)
  (addr : Nat → SockAddr)

/-- The raw data with the addresses that it has come from. -/
def addressed (prdts : List RawData) : List (RawData × SockAddr) :=
  prdts.filterMap (fun prdt => prdt.address.map (prdt, ·))

def receive (s : Exchange) (e : ServerEvent) : Except Fault Exchange := do
  let server ← s.server.step e
  return { s with
    server := { server with rawdataIn := [] }
    queues := { s.queues with
      rawdataIn := s.queues.rawdataIn ++ (addressed server.rawdataIn).map some } }

def onClient (s : Exchange) (i : Nat) (clt : Except Fault Client) : Except Fault Exchange := do
  let clt ← clt
  return { s with clients := Function.update s.clients i clt }

/-- Client `i` sends from `addr i`. -/
def step (s : Exchange) : ExchangeEvent → Except Fault Exchange
  | .request i preq timeout rand64 =>
    s.onClient i ((s.clients i).newRequestListener bufsiz rand64 preq timeout)
  | .processRequestListener i => s.onClient i (s.clients i).processRequestListener
  | .setPublicKey i tPbc => s.onClient i (.ok { s.clients i with sqePbc := tPbc })
  | .toServer i str rand64 => s.receive (.datagram str (addr i) rand64)
  | .toClient i str rand64 => s.onClient i ((s.clients i).clientRespondDeamon str rand64)
  | .boxProcessorDeamon => s.receive .boxProcessorDeamon
  | .boxsCleaningProcessorDeamon => s.receive .boxsCleaningProcessorDeamon
  | .pass e => do
    let queues ← s.queues.step crypto env bufsiz sendto e
    return { s with queues }
  | .processRequset => do
    let psvr ← s.queues.psvr.processRequset env
    return { s with queues := { s.queues with psvr } }
  | .wait i good => .ok { s with queues := { s.queues with psvr := s.queues.psvr.wait i good } }

end Exchange

end NetCpp
