import NetCpp.Posts
import NetCpp.Rsa
import NetCpp.Server

namespace NetCpp
open Library

/-- The members that a private request's document must have, with an array and texts as
`GetArray`, `GetInt` and `GetString` give them. -/
structure RegisterDoc where
  key : List Int
  name : Bytes
  tag : Bytes
  listenPort : Int
  listenIp : Bytes
deriving DecidableEq

/-- What `rng::rng64` with this seed draws after `n` numbers. -/
def rng64 (seed : UInt64) (n : Nat) : UInt64 :=
  let z := seed + .ofNat (n + 1) * 0x9E3779B97F4A7C15
  let z := (z ^^^ (z >>> 30)) * 0xBF58476D1CE4E5B9
  let z := (z ^^^ (z >>> 27)) * 0x94D049BB133111EB
  z ^^^ (z >>> 31)

/-- `rand64`, the members of a JSON text (`none` where the document lacks one and the access
fails an assertion) and `inet_addr`. -/
structure Environment where
  rand64 : Nat → UInt64
  registerDoc : Bytes → Option RegisterDoc
  loginClientId : Bytes → Option Int
  loginPasswd : Bytes → Option Int
  inetAddr : Bytes → UInt32

/-- `Addr::SetIP`: the address of a text is in bytes 4 to 7. -/
def setIP (addr : SockAddr) (ip : UInt32) : SockAddr :=
  (((addr.set 4 ip.toUInt8).set 5 (ip >>> 8).toUInt8).set 6 (ip >>> 16).toUInt8).set 7
    (ip >>> 24).toUInt8

structure ClientRegister where
  clientId : UInt64
  key : AesKey256
  name : Bytes
  tag : Bytes
  click : UInt32
  passwd : UInt64
  tAddr : SockAddr
deriving DecidableEq

/-- A row of the table `register_info`. -/
structure RegisterInfo where
  name : Bytes
  tag : Bytes
  clientId : UInt64
  key : Vector UInt64 4
  ip : Bytes
  udpPort : UInt32
  tcpPort : Int
  passwd : UInt64
  status : Int
deriving DecidableEq

/-- Where a thread of `clientWaitDeamon` stands: its clock has not run down or it tries to
connect, it waits for the answer, it counts `click` down, or it has nothing left but to end. -/
inductive WaitPhase where
  | scheduled
  | handshake
  | serving
  | closing
deriving DecidableEq

structure WaitDeamon where
  pclr : ClientRegister
  phase : WaitPhase := .scheduled
deriving DecidableEq

/-- The statements that change `register_info`. -/
inductive Statement where
  | insertInfo (row : RegisterInfo)
  | updateStatus (status : Int) (clientId : UInt64)
deriving DecidableEq

/-- What a thread does up to its next statement, where `good` is what it finds out: that it is
connected, that the answer is `DGET`, that the client is still there. With `none` it is over. -/
def WaitDeamon.next (d : WaitDeamon) (good : Bool) : Option WaitDeamon × Option Statement :=
  match d.phase with
  | .scheduled =>
    if good then (some { d with phase := .handshake }, none)
    else (some { d with phase := .closing }, some (.updateStatus 0 d.pclr.clientId))
  | .handshake =>
    if good then (some { d with phase := .serving }, some (.updateStatus 1 d.pclr.clientId))
    else (some { d with phase := .closing }, none)
  | .serving =>
    let left : WaitDeamon := { d with pclr := { d.pclr with click := d.pclr.click - 1 } }
    if d.pclr.click = 0 then (some { left with phase := .closing }, none)
    else if good then (some left, none)
    else (some { left with phase := .closing }, some (.updateStatus 0 d.pclr.clientId))
  | .closing => (none, none)

structure SqeServer extends Server where
  pkc : PublicKeyClass
  prc : PrivateKeyClass
  packetsIn : List AddressedPacket := []
  packetsOut : List AddressedPacket := []
  reqList : List Request := []
  rids : Std.TreeMap UInt64 ClientRegister := ∅
  clientLst : Std.TreeMap UInt64 ClientRegister := ∅
  registerInfo : List RegisterInfo := []
  deamons : List WaitDeamon := []
  drawn : Nat := 0

namespace SqeServer

def spkt : Bytes := ascii ['S', 'P', 'K', 'T']

def rpkt : Bytes := ascii ['R', 'P', 'K', 'T']

/-- The body of the loop of `ProcessRawData`. The raw data of a datagram has an address. -/
def processRawDatum (prc : PrivateKeyClass) (prdt : RawData) (address : SockAddr) :
    Except Fault (Option AddressedPacket) :=
  if prdt.info = some (ofWord32 spkt) then do
    let pnpkt ← Server.rawdata2Packet {} prdt
    return some { pnpkt with ifEncrypt := false, address }
  else if prdt.info = some (ofWord32 rpkt) then do
    let prdt ← Server.decryptRSARawMsg prdt prc
    let pnpkt ← Server.rawdata2Packet {} prdt
    return some { pnpkt with ifEncrypt := true, address }
  else .ok none

/-- The key that `ProcessPacket` decrypts a post with. -/
def postKey (psvr : SqeServer) (ppkt : Packet) : Except Fault (Option AesKey256) := do
  let (clientId, _, _) ← getPostInfo ppkt
  return psvr.clientLst[clientId]?.map ClientRegister.key

/-- The body of the loop of `ProcessPacket`. Nothing takes the decrypted post. -/
def processPacketIn (crypto : Crypto) (psvr : SqeServer) (ppkt : AddressedPacket) :
    Except Fault SqeServer := do
  let pnreq ← packet2Request ppkt.toPacket
  let pnreq := pnreq.map (fun req => { req with tAddr := ppkt.address })
  let psvr := { psvr with reqList := psvr.reqList ++ pnreq.toList }
  if ppkt.type = encryptPostType then
    match ← psvr.postKey ppkt.toPacket with
    | none => return psvr
    | some key =>
      let _ ← packet2Post crypto ppkt.toPacket key
      return psvr
  else return psvr

def publicRequest : Bytes :=
  ascii ['p', 'u', 'b', 'l', 'i', 'c', ' ', 'r', 'e', 'q', 'u', 'e', 's', 't']

def privateRequest : Bytes :=
  ascii ['p', 'r', 'i', 'v', 'a', 't', 'e', ' ', 'r', 'e', 'q', 'u', 'e', 's', 't']

def clientLogin : Bytes := ascii ['c', 'l', 'i', 'e', 'n', 't', ' ', 'l', 'o', 'g', 'i', 'n']

def requestForPublicKey : Bytes :=
  ascii ['r', 'e', 'q', 'u', 'e', 's', 't', ' ', 'f', 'o', 'r', ' ',
  'p', 'u', 'b', 'l', 'i', 'c', ' ', 'k', 'e', 'y']

def squarePublicKey : Bytes :=
  ascii ['s', 'q', 'u', 'a', 'r', 'e', ' ', 'p', 'u', 'b', 'l', 'i', 'c', ' ', 'k', 'e', 'y']

def registerRespond : Bytes :=
  ascii ['r', 'e', 'g', 'i', 's', 't', 'e', 'r', ' ', 'r', 'e', 's', 'p', 'o', 'n', 'd']

def statusOk : Bytes :=
  ascii ['{', '"', 's', 't', 'a', 't', 'u', 's', '"', ':', '"', 'o', 'k', '"', '}']

/-- The answer to a request goes to the port that it names. -/
def respondTo (preq : Request) (type buff : Bytes) : Respond :=
  { rId := preq.rId, type, buff, tAddr := setPort preq.tAddr preq.recvPort.toUInt16 }

/-- `new client_register()`, which draws a key and sets all other members to zero. -/
def newRegister (env : Environment) (drawn : Nat) : ClientRegister where
  clientId := 0
  key := { key := .ofFn (fun i => env.rand64 (drawn + i)) }
  name := []
  tag := []
  click := 0
  passwd := 0
  tAddr := .replicate 16 0

/-- `pkey[idx++]` for each number: the bytes of the key and then those of its vector. -/
def writeKey (key : AesKey256) (items : List Int) : Except Fault AesKey256 :=
  let memory := key.getKey ++ key.getIV
  if memory.length < items.length then .error .writeOutside
  else
    let memory := items.map UInt8.ofInt ++ memory.drop items.length
    .ok { key := AesKey256.ofBytes memory, iv := AesKey256.ofBytes (memory.drop 32) }

/-- `newClock` with `clientWaitDeamon`. -/
def newClock (psvr : SqeServer) (pclr : ClientRegister) : SqeServer :=
  { psvr with deamons := psvr.deamons ++ [{ pclr }] }

/-- What a private request with a new number does, before the row is inserted. -/
def register (env : Environment) (psvr : SqeServer) (preq : Request) :
    Except Fault (SqeServer × Statement) :=
  match env.registerDoc preq.data with
  | none => .error .abort
  | some jdoc => do
    let pclr := newRegister env psvr.drawn
    let clientId := env.rand64 (psvr.drawn + 4)
    let key ← writeKey pclr.key jdoc.key
    let tAddr := setPort (setIP preq.tAddr (env.inetAddr jdoc.listenIp)) (.ofInt jdoc.listenPort)
    let passwd := env.rand64 (psvr.drawn + 5)
    let pclr : ClientRegister :=
      { clientId, key, name := jdoc.name, tag := jdoc.tag, click := 99999, passwd, tAddr }
    let psvr :=
      { psvr with drawn := psvr.drawn + 6, clientLst := psvr.clientLst.insertIfNew clientId pclr }
    let psvr := psvr.newClock pclr
    let psvr := { psvr with rids := psvr.rids.insertIfNew preq.rId pclr }
    return (psvr, .insertInfo
      { name := pclr.name
        tag := pclr.tag
        clientId
        key := pclr.key.key
        ip := jdoc.listenIp
        udpPort := preq.recvPort
        tcpPort := jdoc.listenPort
        passwd
        status := 0 })

/-- The first row that `select * from register_info where client_id = ?1` gives. The number is
bound as a text, which the integers of the column are never equal to from 2^63 on. -/
def selectRegister (psvr : SqeServer) (clientId : UInt64) : Option RegisterInfo :=
  psvr.registerInfo.find? (fun row => clientId < 2 ^ 63 ∧ row.clientId = clientId)

/-- What a login with the right password does to a client with the status 0, before the
status is updated. -/
def login (env : Environment) (psvr : SqeServer) (preq : Request) (row : RegisterInfo)
    (clientId : UInt64) : SqeServer × Statement :=
  let pclr := newRegister env psvr.drawn
  let pclr : ClientRegister := { pclr with
    clientId
    key := { pclr.key with key := row.key }
    name := row.name
    tag := row.tag
    passwd := row.passwd
    tAddr := setPort (setIP pclr.tAddr (env.inetAddr row.ip)) (.ofInt row.tcpPort) }
  let psvr := { psvr with drawn := psvr.drawn + 4 }
  let psvr := psvr.newClock pclr
  ({ psvr with rids := psvr.rids.insertIfNew preq.rId pclr }, .updateStatus 1 clientId)

/-- What is left to do for a request: a statement, and an answer to send. -/
structure Handled where
  psqlsmt : Option Statement := none
  pnr : Option Respond := none
deriving DecidableEq

/-- The branch of a client login. -/
def handleLogin (env : Environment) (psvr : SqeServer) (preq : Request) :
    Except Fault (SqeServer × Handled) :=
  match env.loginClientId preq.data with
  | none => .error .abort
  | some clientId =>
    match psvr.selectRegister (.ofInt clientId) with
    | none => .ok ({ psvr with drawn := psvr.drawn + 4 }, {})
    | some row =>
      match env.loginPasswd preq.data with
      | none => .error .abort
      | some passwd =>
        if row.passwd ≠ .ofInt passwd then .ok ({ psvr with drawn := psvr.drawn + 4 }, {})
        else
          let pnr := some (respondTo preq registerRespond statusOk)
          if row.status = 0 then
            let (psvr, smt) := psvr.login env preq row (.ofInt clientId)
            .ok (psvr, { psqlsmt := some smt, pnr })
          else .ok ({ psvr with drawn := psvr.drawn + 4 }, { pnr })

/-- The body of the loop of `ProcessRequset` up to the statement that changes the table. -/
def handle (env : Environment) (psvr : SqeServer) (preq : Request) :
    Except Fault (SqeServer × Handled) :=
  if preq.type = publicRequest then
    if preq.data = requestForPublicKey then
      let buff := word64 psvr.pkc.modulus ++ word64 psvr.pkc.exponent
      .ok (psvr, { pnr := some (respondTo preq squarePublicKey buff) })
    else .ok (psvr, {})
  else if preq.type = privateRequest then
    let pnr := some (respondTo preq registerRespond statusOk)
    if psvr.rids.contains preq.rId then .ok (psvr, { pnr })
    else do
      let (psvr, smt) ← psvr.register env preq
      return (psvr, { psqlsmt := some smt, pnr })
  else if preq.type = clientLogin then psvr.handleLogin env preq
  else .ok (psvr, {})

/-- `sqlite3_step` of a statement that changes the table. -/
def exec (psvr : SqeServer) : Statement → SqeServer
  | .insertInfo row => { psvr with registerInfo := psvr.registerInfo ++ [row] }
  | .updateStatus status clientId =>
    { psvr with registerInfo := psvr.registerInfo.map (fun row =>
        if row.clientId = clientId then { row with status } else row) }

/-- The rest of the body. -/
def commit (psvr : SqeServer) (handled : Handled) : Except Fault SqeServer := do
  let psvr := match handled.psqlsmt with
    | none => psvr
    | some smt => psvr.exec smt
  match handled.pnr with
  | none => return psvr
  | some res =>
    let pnpkt ← respond2Packet res
    return { psvr with packetsOut := psvr.packetsOut ++ [pnpkt] }

/-- The body of the loop of `ProcessRequset`. -/
def processRequest (env : Environment) (psvr : SqeServer) (preq : Request) :
    Except Fault SqeServer := do
  let (psvr, handled) ← psvr.handle env preq
  psvr.commit handled

/-- At most 2048 requests at a time. -/
def processRequset (env : Environment) (psvr : SqeServer) : Except Fault SqeServer := do
  let batch := psvr.reqList.take 2048
  let rest := psvr.reqList.drop 2048
  let psvr ← run (processRequest env) psvr batch
  return { psvr with reqList := rest }

/-- `ProcessPacket` puts a request on the list, or the clocked thread runs. -/
inductive RequestEvent where
  | arrive (preq : Request)
  | processRequset
deriving DecidableEq

def requestStep (env : Environment) (psvr : SqeServer) : RequestEvent → Except Fault SqeServer
  | .arrive preq => .ok { psvr with reqList := psvr.reqList ++ [preq] }
  | .processRequset => psvr.processRequset env

/-- The thread at a place of the list goes on. -/
def wait (psvr : SqeServer) (i : Nat) (good : Bool) : SqeServer :=
  match psvr.deamons[i]? with
  | none => psvr
  | some d =>
    let (d, smt) := d.next good
    let psvr := match d with
      | none => { psvr with deamons := psvr.deamons.eraseIdx i }
      | some d => { psvr with deamons := psvr.deamons.set i d }
    match smt with
    | none => psvr
    | some smt => psvr.exec smt

end SqeServer

/-- The server while its threads run: with what the one of `ProcessRequset` has yet to do. -/
structure Square where
  psvr : SqeServer
  handled : Option SqeServer.Handled := none

/-- One thread goes on: a request is taken up, its statement is executed, or the thread of a
client takes its next step. -/
inductive SquareEvent where
  | request (preq : Request)
  | commit
  | wait (i : Nat) (good : Bool)
deriving DecidableEq

/-- A request is only taken up when the one before is done. -/
def Square.step (env : Environment) (s : Square) : SquareEvent → Except Fault Square
  | .request preq =>
    match s.handled with
    | some _ => .ok s
    | none => do
      let (psvr, handled) ← s.psvr.handle env preq
      return { psvr, handled := some handled }
  | .commit =>
    match s.handled with
    | none => .ok s
    | some handled => do
      let psvr ← s.psvr.commit handled
      return { psvr, handled := none }
  | .wait i good => .ok { s with psvr := s.psvr.wait i good }

end NetCpp
