import NetCpp.SquareServer

namespace NetCpp
open Library

/-- `struct request_listener`. The callback and its argument are the ones of the request. -/
structure RequestListener where
  pReq : Request
  timeout : UInt32
  clicks : UInt32 := 0
  trwd : RawData
  active : Bool := true
deriving DecidableEq

/-- What others see of the client: it gives datagrams to its socket, or invokes a callback. -/
inductive ClientAction where
  | send (preq : Request) (addr : SockAddr) (datagrams : List Bytes)
  | callback (preq : Request) (pres : Option Respond)
deriving DecidableEq

/-- The two lists of the client, its key for the square server and what it has done. -/
structure Client where
  reqLst : List RequestListener := []
  resLst : List Respond := []
  sqePbc : PublicKeyClass
  actions : List ClientAction := []
deriving DecidableEq

namespace RequestListener

/-- `SetSendSockAddr` and `SendRawData` -/
def send (lreq : RequestListener) : Except Fault ClientAction := do
  let datagrams ← Client.sendRawData lreq.trwd
  return .send lreq.pReq lreq.pReq.tAddr datagrams

/-- The body of the inner loop over the responses. -/
def hear (pres : Respond) (lreq : RequestListener) : RequestListener × List ClientAction :=
  if ¬lreq.active then (lreq, [])
  else if lreq.pReq.rId = pres.rId then
    ({ lreq with active := false }, [.callback lreq.pReq (some pres)])
  else (lreq, [])

/-- The body of the loop that counts the clicks. -/
def click (lreq : RequestListener) : Except Fault (RequestListener × List ClientAction) :=
  if ¬lreq.active then .ok (lreq, [])
  else if lreq.clicks < lreq.timeout then
    let lreq := { lreq with clicks := lreq.clicks + 1 }
    if lreq.clicks % 2 = 0 then do
      let sent ← lreq.send
      return (lreq, [sent])
    else .ok (lreq, [])
  else .ok ({ lreq with active := false }, [.callback lreq.pReq none])

end RequestListener

namespace Client

/-- The inner loop of `ProcessRequestListener` for one response. -/
def hear (clt : Client) (pres : Respond) : Client :=
  let heard := clt.reqLst.map (·.hear pres)
  { clt with reqLst := heard.map Prod.fst, actions := clt.actions ++ heard.flatMap Prod.snd }

/-- The loop over the requests and the removal of those that are done. -/
def click (clt : Client) : Except Fault Client := do
  let clicked ← clt.reqLst.mapM RequestListener.click
  return { clt with
    reqLst := (clicked.map Prod.fst).filter RequestListener.active
    actions := clt.actions ++ clicked.flatMap Prod.snd }

def processRequestListener (clt : Client) : Except Fault Client :=
  click { clt.resLst.foldl hear clt with resLst := [] }

/-- What `NewRequestListener` makes of a request, to send it now and again. -/
def requestRawData (bufsiz : Nat) (sqePbc : PublicKeyClass) (rand64 : UInt64) (preq : Request) :
    Except Fault RawData := do
  let npkt ← SqeServer.request2Packet preq
  let trwd ← Server.packet2Rawdata bufsiz npkt.toPacket (RawData.new rand64)
  if preq.ifEncrypt then
    let trwd ← Server.encryptRSARawMsg trwd sqePbc
    Server.signedRawdata trwd SqeServer.rpkt
  else Server.signedRawdata trwd SqeServer.spkt

/-- The timeout is an `int` that the listener keeps as an `uint32_t`. -/
def newRequestListener (bufsiz : Nat) (rand64 : UInt64) (clt : Client) (preq : Request)
    (timeout : Int32) : Except Fault Client := do
  let trwd ← requestRawData bufsiz clt.sqePbc rand64 preq
  let pnrl : RequestListener := { pReq := preq, timeout := timeout.toUInt32, trwd }
  let sent ← pnrl.send
  return { clt with reqLst := clt.reqLst ++ [pnrl], actions := clt.actions ++ [sent] }

end Client

/-- A request is registered, the thread that receives puts a response on the list, the clocked
thread makes its pass, or the key of the square server becomes known. -/
inductive ClientEvent where
  | newRequestListener (preq : Request) (timeout : Int32) (rand64 : UInt64)
  | respond (pres : Respond)
  | processRequestListener
  | setPublicKey (tPbc : PublicKeyClass)
deriving DecidableEq

def Client.step (bufsiz : Nat) (clt : Client) : ClientEvent → Except Fault Client
  | .newRequestListener preq timeout rand64 => clt.newRequestListener bufsiz rand64 preq timeout
  | .respond pres => .ok { clt with resLst := clt.resLst ++ [pres] }
  | .processRequestListener => clt.processRequestListener
  | .setPublicKey tPbc => .ok { clt with sqePbc := tPbc }

end NetCpp
