import NetCpp.Posts
import NetCpp.Proofs.Packets

namespace NetCpp.Proofs
open Library Server SqeServer

/-- The block that `AddBuff` makes of a text and its length. -/
def textBlock (s : Bytes) : Block where
  first := .ofNat s.length
  second := s.take (UInt32.ofNat s.length).toNat
  sized := by
    rw [List.length_take, UInt32.toNat_ofNat']
    exact Nat.min_eq_left (Nat.mod_le _ _)

theorem textBlock_second {s : Bytes} (h : s.length < 2 ^ 32) : (textBlock s).second = s := by
  have hlen : (UInt32.ofNat s.length).toNat = s.length := by
    rw [UInt32.toNat_ofNat']
    exact Nat.mod_eq_of_lt h
  exact (congrArg s.take hlen).trans List.take_length

theorem addBuff_text (pkt : Packet) (s : Bytes) : pkt.addBuff s (.ofNat s.length) =
    .ok { pkt with buffs := pkt.buffs ++ [textBlock s] } := by
  have hle : (UInt32.ofNat s.length).toNat ≤ s.length := by
    rw [UInt32.toNat_ofNat']
    exact Nat.mod_le _ _
  rw [Packet.addBuff, dif_pos hle]
  rfl

theorem addBuffs_ok (pkt : Packet) (texts : List Bytes) :
    addBuffs pkt texts = .ok { pkt with buffs := pkt.buffs ++ texts.map textBlock } := by
  rw [addBuffs]
  induction texts generalizing pkt with
  | nil => simp
  | cons s texts ih =>
    rw [run_cons_ok (addBuff_text pkt s), ih]
    simp

theorem readSockAddr_toList (addr : SockAddr) : readSockAddr addr.toList = .ok addr := by
  have hlen : addr.toList.length = 16 := Vector.length_toList
  rw [readSockAddr, dif_pos (by omega)]
  congr 1
  apply Vector.toList_inj.mp
  have htake : addr.toList.take 16 = addr.toList := List.take_of_length_le (by omega)
  simp [htake]

/-- How many zeros `Post2Packet` puts behind a buffer. -/
def padding (n : Nat) : Nat := (16 - n % 16) % 16

theorem padding_eq_zero {n : Nat} (h : n % 16 = 0) : padding n = 0 := by
  rw [padding, h]

theorem aligned_iff (n : UInt32) : n % 16 = 0 ↔ n.toNat % 16 = 0 := by
  have hmod : (n % 16).toNat = n.toNat % 16 := UInt32.toNat_mod n 16
  rw [← UInt32.toNat_inj, hmod]
  exact Iff.rfl

theorem align_ok {b : Block} (h : b.first.toNat < 2 ^ 31) : ∃ a : Block, b.align = .ok a ∧
    a.second = b.second ++ List.replicate (padding b.second.length) 0 ∧ a.first % 16 = 0 := by
  rw [b.sized]
  by_cases haligned : b.first % 16 = 0
  · refine ⟨b, by rw [Block.align, if_pos haligned], ?_, haligned⟩
    simp [padding_eq_zero ((aligned_iff _).mp haligned)]
  · have hne : b.first.toNat % 16 ≠ 0 := mt (aligned_iff _).mpr haligned
    have hsize : ((b.first / 16 + 1) * 16).toNat = (b.first.toNat / 16 + 1) * 16 := by
      rw [UInt32.toNat_mul, UInt32.toNat_add, UInt32.toNat_div]
      simp only [UInt32.reduceToNat]
      omega
    rw [Block.align, if_neg haligned]
    simp only
    rw [dif_pos (by omega)]
    refine ⟨_, rfl, ?_, ?_⟩
    · have hpad : (b.first.toNat / 16 + 1) * 16 - b.first.toNat = padding b.first.toNat := by
        rw [padding]
        omega
      simp only [hsize, hpad]
    · apply UInt32.toNat_inj.mp
      rw [UInt32.toNat_mod, hsize]
      simp

theorem inPlace_ok {b : Block} {f : Bytes → Bytes} (hf : ∀ s, (f s).length = s.length)
    (h : b.first % 16 = 0) :
    b.inPlace f hf = .ok ⟨b.first, f b.second, by rw [hf, b.sized]⟩ := by
  rw [Block.inPlace, if_pos h]

/-- The six blocks of a post. -/
def postPacket (pst : EncryptPost) (buff : Block) (md5 : Bytes) (hmd5 : md5.length = 32) :
    Packet where
  type := encryptPostType
  buffs :=
    [textBlock (word64 pst.clientId), textBlock (word64 pst.pId), textBlock pst.tAddr.toList, buff,
    ⟨32, md5, hmd5⟩, ⟨4, word32 pst.type, rfl⟩]

theorem length_postPacket {pst : EncryptPost} {buff : Block} {md5 : Bytes}
    {hmd5 : md5.length = 32} : (packetText (postPacket pst buff md5 hmd5)).length =
      96 + buff.first.toNat := by
  have haddr : pst.tAddr.toList.length = 16 := Vector.length_toList
  rw [length_packetText]
  simp only [postPacket, textBlock, List.map_cons, List.map_nil, List.sum_cons, List.sum_nil,
    length_word64, haddr, UInt32.reduceOfNat, UInt32.reduceToNat]
  omega

/-- What a key encrypts with. -/
def encrypted (crypto : Crypto) (key : AesKey256) (a : Block) : Block where
  first := a.first
  second := crypto.aesEncrypt key.getKey (key.makeIV.getIV.take 16) a.second
  sized := by rw [crypto.length_aesEncrypt, a.sized]

theorem post2Packet_ok {crypto : Crypto} {pst : EncryptPost} {a : Block} (key : AesKey256)
    (hmd5 : (crypto.md5 a.second).length = 32) (ha : pst.buff.align = .ok a)
    (haligned : a.first % 16 = 0) : post2Packet crypto pst key = .ok
      ({ postPacket pst (encrypted crypto key a) (crypto.md5 a.second) hmd5 with
        address := pst.tAddr }, { pst with buff := encrypted crypto key a }, key.makeIV) := by
  have hbuff := fun pkt => @addBuff_append pkt (encrypted crypto key a) []
  have hdigest := fun pkt => @addBuff_append pkt ⟨32, crypto.md5 a.second, hmd5⟩ [0]
  have htype := fun pkt => @addBuff_append pkt ⟨4, word32 pst.type, rfl⟩ []
  simp only [List.append_nil] at hbuff htype
  rw [post2Packet, addBuffs_ok, ha]
  simp only [bind, Except.bind, inPlace_ok _ haligned]
  have hpost := hbuff { type := encryptPostType, buffs :=
    [textBlock (word64 pst.clientId), textBlock (word64 pst.pId), textBlock pst.tAddr.toList] }
  simp only [encrypted, AesKey256.getKey] at hpost
  simp only [List.map_cons, List.map_nil, List.nil_append, AesKey256.getKey,
    AesKey256.makeIV] at hpost ⊢
  rw [hpost]
  simp only [hdigest, htype, List.cons_append, List.nil_append]
  rfl

theorem readString_ok {n : Nat} {s : Bytes} (hn : s.length = n) (hmax : n < 2 ^ 63) :
    readString n s = .ok s := by
  rw [readString, if_neg (by omega), readBytes_all hn]
  rfl

theorem getPostInfo_postPacket {pst : EncryptPost} {buff : Block} {md5 : Bytes}
    (hmd5 : md5.length = 32) :
    getPostInfo (postPacket pst buff md5 hmd5) = .ok (pst.clientId, pst.pId, pst.tAddr) := by
  have haddr : pst.tAddr.toList.length = 16 := Vector.length_toList
  have hword : ∀ n : UInt64, readWord64 (textBlock (word64 n)).second = .ok (n, []) := by
    intro n
    rw [textBlock_second (by rw [length_word64]; omega), readWord64_word64]
  have hsock : readSockAddr (textBlock pst.tAddr.toList).second = .ok pst.tAddr := by
    rw [textBlock_second (by omega), readSockAddr_toList]
  simp [getPostInfo, postPacket, Packet.buff, hword, hsock, bind, Except.bind, pure, Except.pure]

/-- The vector is a part of the key, so that equal keys have equal ones. -/
theorem makeIV_eq {key key' : AesKey256} (hkey : key.key = key'.key) :
    key.makeIV = key'.makeIV := by
  simp only [AesKey256.makeIV, hkey]

theorem packet2Post_ok {crypto : Crypto} (hc : crypto.Lawful) (pst : EncryptPost) {a : Block}
    {key key' : AesKey256} (hkey : key.key = key'.key) (hmd5 : (crypto.md5 a.second).length = 32)
    (haligned : a.first % 16 = 0) :
    packet2Post crypto (postPacket pst (encrypted crypto key a) (crypto.md5 a.second) hmd5) key' =
      .ok ({ pst with buff := a }, key'.makeIV) := by
  have hdvd : 16 ∣ a.second.length := by
    have hmod := congrArg UInt32.toNat haligned
    rw [UInt32.toNat_mod] at hmod
    rw [a.sized]
    exact Nat.dvd_of_mod_eq_zero hmod
  have hback : crypto.aesDecrypt key'.makeIV.getKey (key'.makeIV.getIV.take 16)
      (encrypted crypto key a).second = a.second := by
    rw [← makeIV_eq hkey]
    exact hc.decrypt_encrypt _ _ _ hdvd
  have hin : (encrypted crypto key a).first % 16 = 0 := haligned
  rw [packet2Post, getPostInfo_postPacket]
  simp only [bind, Except.bind, postPacket, Packet.buff, List.getElem?_cons_succ,
    List.getElem?_cons_zero,
    readWord32_word32, readString_ok hmd5 (by omega), inPlace_ok _ hin, hback]
  rw [if_neg (by simp)]
  rfl

/-- The packet is smaller than `BUFSIZ` when the padded buffer leaves 96 bytes of it. -/
theorem signedRawData2Post_post2SignedRawData {crypto : Crypto} (hc : crypto.Lawful) {bufsiz : Nat}
    (hbuf : bufsiz < 2 ^ 31) {ecypst : EncryptPost} {key key' : AesKey256}
    (hkey : key.key = key'.key)
    (hfit : 96 + (ecypst.buff.second.length + padding ecypst.buff.second.length) ≤ bufsiz)
    (rw' trdt : RawData) (pst : EncryptPost) : ∃ sent left used received post used',
      post2SignedRawData crypto bufsiz ecypst key rw' = .ok (sent, left, used) ∧
      checkRawMsg sent.msg sent.msgSize = .ok true ∧
      processSignedRawMsg sent.msg sent.msgSize trdt = .ok received ∧
      signedRawData2Post crypto sent pst key' = .ok (post, used') ∧
      signedRawData2Post crypto received pst key' = .ok (post, used') ∧
      post.clientId = ecypst.clientId ∧ post.pId = ecypst.pId ∧ post.type = ecypst.type ∧
      post.tAddr = ecypst.tAddr ∧
      post.buff.second =
        ecypst.buff.second ++ List.replicate (padding ecypst.buff.second.length) 0 := by
  have hsmall : ecypst.buff.first.toNat < 2 ^ 31 := by
    rw [← ecypst.buff.sized]
    omega
  obtain ⟨a, ha, hsecond, haligned⟩ := align_ok hsmall
  have hmd5 := hc.length_md5 a.second
  have hpost := post2Packet_ok key hmd5 ha haligned
  have hlen :
      (packetText (postPacket ecypst (encrypted crypto key a) (crypto.md5 a.second) hmd5)).length ≤
      bufsiz := by
    have hfirst : (encrypted crypto key a).first.toNat = a.second.length := a.sized.symm
    rw [length_postPacket, hfirst, hsecond, List.length_append, List.length_replicate]
    exact hfit
  have hunpack := packet2Post_ok hc ecypst hkey hmd5 haligned
  generalize postPacket ecypst (encrypted crypto key a) (crypto.md5 a.second) hmd5 = pkt at *
  have hecyp : 4 ≤ ecyp.length := by decide
  obtain ⟨raw, sent, received, hraw, hsigned, hcheck, hreceived, ⟨hlabel, hread⟩, hlabel',
      hread'⟩ :=
    carried hbuf hlen hecyp rw' trdt
  have hopen : ∀ trdt : RawData, trdt.info = some (ofWord32 ecyp) →
      rawdata2Packet {} trdt = .ok pkt →
      signedRawData2Post crypto trdt pst key' = .ok ({ ecypst with buff := a }, key'.makeIV) := by
    intro trdt hinfo hpkt
    rw [signedRawData2Post, if_pos hinfo, hpkt]
    exact hunpack
  refine ⟨sent, { ecypst with buff := encrypted crypto key a }, key.makeIV, received,
    { ecypst with buff := a }, key'.makeIV, ?_, hcheck, hreceived, hopen sent hlabel hread,
    hopen received hlabel' hread', rfl, rfl, rfl, rfl, hsecond⟩
  rw [post2SignedRawData, hpost]
  simp only [bind, Except.bind, hraw, hsigned]
  rfl

def samplePlain : Bytes := ascii ['h', 'e', 'l', 'l', 'o'] ++ List.replicate 11 0

/-- AES-256 in CBC mode of `samplePlain` under the key `sampleKey`. -/
def sampleCipher : Bytes :=
  [199, 107, 11, 163, 234, 177, 173, 141, 205, 6, 44, 34, 102, 57, 216, 55]

def sampleKey : AesKey256 where
  key := #v[1, 2, 3, 4]

/-- The two buffers for each other, and all others as they are. -/
def exchange (key iv s : Bytes) : Bytes :=
  if key = sampleKey.getKey ∧ iv = word64 3 ++ word64 1 then
    if s = samplePlain then sampleCipher else if s = sampleCipher then samplePlain else s
  else s

theorem length_exchange (key iv s : Bytes) : (exchange key iv s).length = s.length := by
  rw [exchange]
  split
  · split
    · rename_i h
      rw [h]
      rfl
    · split
      · rename_i h
        rw [h]
        rfl
      · rfl
  · rfl

theorem exchange_exchange (key iv s : Bytes) : exchange key iv (exchange key iv s) = s := by
  have hne : sampleCipher ≠ samplePlain := by decide
  by_cases hkey : key = sampleKey.getKey ∧ iv = word64 3 ++ word64 1
  · by_cases hplain : s = samplePlain
    · simp [exchange, hkey, hplain, hne]
    · by_cases hcipher : s = sampleCipher
      · simp [exchange, hkey, hcipher, hne]
      · simp [exchange, hkey, hplain, hcipher]
  · simp only [exchange, if_neg hkey]

def sampleCrypto : Crypto where
  aesEncrypt := exchange
  aesDecrypt := exchange
  md5 s :=
    if s = samplePlain then
      ascii ['7', '6', 'f', '4', '7', 'a', '8', 'a', '5', 'f', '5', 'a', '9', '7', '3', 'e',
        '7', 'f', '1', '2', '8', '8', '8', 'c', '7', '0', 'c', 'd', '9', '1', 'a', '9']
    else List.replicate 32 0
  length_aesEncrypt := length_exchange
  length_aesDecrypt := length_exchange

theorem sampleCrypto_lawful : sampleCrypto.Lawful where
  decrypt_encrypt := fun key iv s _ => exchange_exchange key iv s
  length_md5 := by
    intro s
    simp only [sampleCrypto]
    split <;> rfl

def samplePost : EncryptPost where
  clientId := 7
  tAddr := .replicate 16 1
  pId := 9
  type := ofWord32 (ascii ['J', 'R', 'E', 'S'])
  buff := ⟨5, ascii ['h', 'e', 'l', 'l', 'o'], rfl⟩

theorem signedRawData2Post_post2SignedRawData_sample : ∃ sent left used received post used',
    post2SignedRawData sampleCrypto 8192 samplePost sampleKey (RawData.new 1) =
      .ok (sent, left, used) ∧
    checkRawMsg sent.msg sent.msgSize = .ok true ∧
    processSignedRawMsg sent.msg sent.msgSize (RawData.new 2) = .ok received ∧
    signedRawData2Post sampleCrypto sent samplePost sampleKey = .ok (post, used') ∧
    signedRawData2Post sampleCrypto received samplePost sampleKey = .ok (post, used') ∧
    post.clientId = samplePost.clientId ∧ post.pId = samplePost.pId ∧ post.type = samplePost.type ∧
    post.tAddr = samplePost.tAddr ∧
    post.buff.second =
      samplePost.buff.second ++ List.replicate (padding samplePost.buff.second.length) 0 :=
  signedRawData2Post_post2SignedRawData sampleCrypto_lawful (by decide) rfl (by decide)
    (RawData.new 1) (RawData.new 2) samplePost

end NetCpp.Proofs
