import NetCpp.Requests

namespace NetCpp
open Library

structure AesKey256 where
  key : Vector UInt64 4
  iv : Vector UInt64 4 := .replicate 4 0
deriving DecidableEq

namespace AesKey256

def makeIV (k : AesKey256) : AesKey256 :=
  { k with iv := #v[k.key[2], k.key[0], k.key[3], k.key[1]] }

def getKey (k : AesKey256) : Bytes := k.key.toList.flatMap word64

def getIV (k : AesKey256) : Bytes := k.iv.toList.flatMap word64

/-- The four words of a block of 32 bytes. -/
def ofBytes (s : Bytes) : Vector UInt64 4 :=
  .ofFn (fun i => ofWord64 ((s.drop (8 * i)).take 8))

end AesKey256

/-- `AES_CBC_encrypt_buffer` and `AES_CBC_decrypt_buffer`, which work in place and take 16
bytes of the vector, and `MD5EncryptEasy`. -/
structure Crypto where
  aesEncrypt : (key iv s : Bytes) → Bytes
  aesDecrypt : (key iv s : Bytes) → Bytes
  md5 : Bytes → Bytes
  length_aesEncrypt : ∀ key iv s, (aesEncrypt key iv s).length = s.length
  length_aesDecrypt : ∀ key iv s, (aesDecrypt key iv s).length = s.length

/-- What the posts rely on. -/
structure Crypto.Lawful (c : Crypto) : Prop where
  decrypt_encrypt : ∀ key iv s, 16 ∣ s.length → c.aesDecrypt key iv (c.aesEncrypt key iv s) = s
  length_md5 : ∀ s, (c.md5 s).length = 32

/-- `buff` is the buffer with its `buff_size`. -/
structure EncryptPost where
  clientId : UInt64
  tAddr : SockAddr
  pId : UInt64
  type : UInt32
  buff : Block
deriving DecidableEq

/-- The buffer that AES works on: zeros up to the next multiple of 16. -/
def Block.align (b : Block) : Except Fault Block :=
  if b.first % 16 = 0 then .ok b
  else
    let size := (b.first / 16 + 1) * 16
    if h : b.first.toNat ≤ size.toNat then
      .ok ⟨size, b.second ++ List.replicate (size.toNat - b.first.toNat) 0, by
        rw [List.length_append, b.sized, List.length_replicate]
        omega⟩
    else .error .writeOutside

/-- A size that 16 does not divide makes AES work behind the end of the buffer. -/
def Block.inPlace (b : Block) (f : Bytes → Bytes) (h : ∀ s, (f s).length = s.length) :
    Except Fault Block :=
  if b.first % 16 = 0 then .ok ⟨b.first, f b.second, by rw [h, b.sized]⟩ else .error .writeOutside

namespace SqeServer
variable (crypto : Crypto)

/-- With the post, whose buffer is now the encrypted one, and the key with its vector. -/
def post2Packet (pst : EncryptPost) (key : AesKey256) :
    Except Fault (AddressedPacket × EncryptPost × AesKey256) := do
  let pkt ← addBuffs { type := encryptPostType }
    [word64 pst.clientId, word64 pst.pId, pst.tAddr.toList]
  let key := key.makeIV
  let buff ← pst.buff.align
  let md5 := crypto.md5 buff.second
  let buff ← buff.inPlace (crypto.aesEncrypt key.getKey (key.getIV.take 16))
      (crypto.length_aesEncrypt _ _)
  let pkt ← pkt.addBuff buff.second buff.first
  let pkt ← pkt.addBuff (md5 ++ [0]) 32
  let pkt ← pkt.addBuff (word32 pst.type) 4
  return ({ pkt with address := pst.tAddr }, { pst with buff }, key)

/-- What `GetPostInfo` takes: `client_id`, `p_id` and the address. -/
def getPostInfo (pkt : Packet) : Except Fault (UInt64 × UInt64 × SockAddr) := do
  let (clientId, _) ← readWord64 (← pkt.buff 0)
  let (pId, _) ← readWord64 (← pkt.buff 1)
  let tAddr ← readSockAddr (← pkt.buff 2)
  return (clientId, pId, tAddr)

def packet2Post (pkt : Packet) (key : AesKey256) : Except Fault (EncryptPost × AesKey256) := do
  let (clientId, pId, tAddr) ← getPostInfo pkt
  let (type, _) ← readWord32 (← pkt.buff 5)
  let tmd5 ← readString 32 (← pkt.buff 4)
  match pkt.buffs[3]? with
  | none => .error .readOutside
  | some b =>
    let key := key.makeIV
    let buff ← b.inPlace (crypto.aesDecrypt key.getKey (key.getIV.take 16))
        (crypto.length_aesDecrypt _ _)
    if tmd5 ≠ crypto.md5 buff.second then throw (.message "key error")
    return ({ clientId, tAddr, pId, type, buff }, key)

def ecyp : Bytes := ascii ['E', 'C', 'Y', 'P']

def post2SignedRawData (bufsiz : Nat) (ecypst : EncryptPost) (key : AesKey256) (rw : RawData) :
    Except Fault (RawData × EncryptPost × AesKey256) := do
  let (pnpkt, ecypst, key) ← post2Packet crypto ecypst key
  let rw ← Server.packet2Rawdata bufsiz pnpkt.toPacket rw
  let rw ← Server.signedRawdata rw ecyp
  return (rw, ecypst, key)

/-- The post is filled if the label is the one of the posts. -/
def signedRawData2Post (rwd : RawData) (pst : EncryptPost) (key : AesKey256) :
    Except Fault (EncryptPost × AesKey256) :=
  if rwd.info = some (ofWord32 ecyp) then do
    let pnpkt ← Server.rawdata2Packet {} rwd
    packet2Post crypto pnpkt key
  else .ok (pst, key)

end SqeServer

end NetCpp
