import NetCpp.Proofs.Modes
import NetCpp.Proofs.Posts

namespace NetCpp.Proofs
open Library Aes Server SqeServer

def aesCrypto (md5 : Bytes → Bytes) : Crypto where
  aesEncrypt := change cbcEncryptBuffer
  aesDecrypt := change cbcDecryptBuffer
  md5
  length_aesEncrypt := length_change length_cbcEncryptBuffer
  length_aesDecrypt := length_change length_cbcDecryptBuffer

/-- A buffer of whole blocks goes through the block cipher of its key; one that is longer than the
32 bits of the length say keeps its end. -/
theorem change_text {ctx : Ctx} {key iv : Bytes} (hctx : readCtx key iv = some ctx) {s : Bytes}
    (hs : 16 ∣ s.length) : ∃ (bs : List State) (rest : Bytes), s = text bs ++ rest ∧
      blocks (.ofNat s.length) = bs.length ∧
      change cbcEncryptBuffer key iv s =
        text ((aesCipher ctx.roundKey).cbcEncrypt ctx.iv bs).2 ++ rest ∧
      change cbcDecryptBuffer key iv s = text ((aesCipher ctx.roundKey).cbcDecrypt ctx.iv bs).2 ++
        rest := by
  have hle : 16 * blocks (.ofNat s.length) ≤ s.length := by
    have hmod : (UInt32.ofNat s.length).toNat = s.length % 2 ^ 32 := UInt32.toNat_ofNat'
    rw [blocks, hmod]
    omega
  obtain ⟨bs, rest, hbs, hsplit⟩ := exists_blocks hle
  have henc := cbcEncryptBuffer_text ctx bs rest (.ofNat s.length) hbs.symm
  have hdec := cbcDecryptBuffer_text ctx bs rest (.ofNat s.length) hbs.symm
  rw [← hsplit] at henc hdec
  exact ⟨bs, rest, hsplit,
    hbs.symm, by simp only [change, hctx, henc], by simp only [change, hctx, hdec]⟩

/-- The block cipher that belongs to a key, and the vector that it starts with. -/
structure KeyCipher (md5 : Bytes → Bytes) (key : AesKey256) where
  cipher : BlockCipher State
  lawful : cipher.Lawful
  iv : State
  encrypt_eq : ∀ bs, 16 * bs.length < 2 ^ 32 →
    (aesCrypto md5).aesEncrypt key.getKey (key.makeIV.getIV.take 16) (text bs) =
      text (cipher.cbcEncrypt iv bs).2
  decrypt_eq : ∀ bs, 16 * bs.length < 2 ^ 32 →
    (aesCrypto md5).aesDecrypt key.getKey (key.makeIV.getIV.take 16) (text bs) =
      text (cipher.cbcDecrypt iv bs).2

theorem readCtx_key (key : AesKey256) :
    ∃ ctx, readCtx key.getKey (key.makeIV.getIV.take 16) = some ctx := by
  have hwords : ∀ v : Vector UInt64 4, (v.toList.flatMap word64).length = 32 := by
    intro v
    simp [length_word64]
  have hkey : 32 ≤ key.getKey.length := Nat.le_of_eq (hwords key.key).symm
  have hiv : 16 ≤ (key.makeIV.getIV.take 16).length := by
    have hlen := hwords key.makeIV.iv
    rw [List.length_take, AesKey256.getIV, hlen]
    omega
  rw [readCtx, dif_pos ⟨hkey, hiv⟩]
  exact ⟨_, rfl⟩

theorem exists_keyCipher (md5 : Bytes → Bytes) (key : AesKey256) :
    Nonempty (KeyCipher md5 key) := by
  obtain ⟨ctx, hctx⟩ := readCtx_key key
  have hwhole : ∀ bs : List State, 16 * bs.length < 2 ^ 32 → ∃ bs' : List State, bs' = bs ∧
      change cbcEncryptBuffer key.getKey (key.makeIV.getIV.take 16) (text bs) =
        text ((aesCipher ctx.roundKey).cbcEncrypt ctx.iv bs').2 ∧
      change cbcDecryptBuffer key.getKey (key.makeIV.getIV.take 16) (text bs) =
        text ((aesCipher ctx.roundKey).cbcDecrypt ctx.iv bs').2 := by
    intro bs hlt
    obtain ⟨bs', rest, hs, hblocks, henc, hdec⟩ := change_text hctx (s := text bs) (by simp)
    have hlen := blocks_of_dvd (n := (text bs).length) (by rwa [length_text]) (by simp)
    have hrest : rest = [] := by
      have hall := congrArg List.length hs
      rw [List.length_append, length_text bs', ← hblocks, hlen] at hall
      exact List.length_eq_zero_iff.mp (by omega)
    rw [hrest, List.append_nil] at hs henc hdec
    exact ⟨bs', (text_injective hs).symm, henc, hdec⟩
  refine ⟨⟨aesCipher ctx.roundKey, aesCipher_lawful _, ctx.iv, ?_, ?_⟩⟩
  · intro bs hlt
    obtain ⟨_, rfl, henc, -⟩ := hwhole bs hlt
    exact henc
  · intro bs hlt
    obtain ⟨_, rfl, -, hdec⟩ := hwhole bs hlt
    exact hdec

theorem aesCrypto_lawful {md5 : Bytes → Bytes} (hmd5 : ∀ s, (md5 s).length = 32) :
    (aesCrypto md5).Lawful where
  length_md5 := hmd5
  decrypt_encrypt := by
    intro key iv s hs
    cases hctx : readCtx key iv with
    | none => simp only [aesCrypto, change, hctx]
    | some ctx =>
      obtain ⟨bs, rest, hsplit, hblocks, henc, -⟩ := change_text hctx hs
      have hlen : (text ((aesCipher ctx.roundKey).cbcEncrypt ctx.iv bs).2 ++ rest).length =
          s.length := by
        simp [hsplit]
      have hdec := cbcDecryptBuffer_text ctx ((aesCipher ctx.roundKey).cbcEncrypt ctx.iv bs).2 rest
        (.ofNat s.length) (by rw [hblocks, BlockCipher.length_cbcEncrypt])
      simp only [aesCrypto]
      rw [henc, change, hctx]
      simp only [hlen, hdec]
      rw [BlockCipher.cbcDecrypt_cbcEncrypt _ (aesCipher_lawful ctx.roundKey), hsplit]

/-- The buffer of a post with its zeros. -/
def alignedText (pst : EncryptPost) : Bytes :=
  pst.buff.second ++ List.replicate (padding pst.buff.second.length) 0

theorem exists_text {s : Bytes} (h : 16 ∣ s.length) : ∃ bs, s = text bs := by
  obtain ⟨n, hn⟩ := h
  obtain ⟨bs, rest, hbs, rfl⟩ := exists_blocks (Nat.le_of_eq hn.symm)
  refine ⟨bs, ?_⟩
  rw [List.length_append, length_text, hbs] at hn
  rw [List.length_eq_zero_iff.mp (by omega : rest.length = 0), List.append_nil]

theorem take_text (bs : List State) (k : Nat) : (text bs).take (16 * k) = text (bs.take k) := by
  rcases Nat.le_total k bs.length with hle | hge
  · have hlen : (text (bs.take k)).length = 16 * k := by simp [hle]
    conv_lhs => rw [← List.take_append_drop k bs, text_append]
    exact List.take_left' hlen
  · rw [List.take_of_length_le hge, List.take_of_length_le (by rw [length_text]; omega)]

/-- A post leaves with the cipher of its alignedText buffer. -/
theorem post2Packet_text {md5 : Bytes → Bytes} (hmd5 : ∀ s, (md5 s).length = 32) {pst : EncryptPost}
    {key : AesKey256} (kc : KeyCipher md5 key) (hsmall : pst.buff.first.toNat < 2 ^ 31) :
    ∃ (bs : List State) (c : Block), alignedText pst = text bs ∧ 16 * bs.length < 2 ^ 32 ∧
      c.second = text (kc.cipher.cbcEncrypt kc.iv bs).2 ∧
      post2Packet (aesCrypto md5) pst key = .ok
        ({ postPacket pst c (md5 (alignedText pst)) (hmd5 _) with address := pst.tAddr },
          { pst with buff := c }, key.makeIV) := by
  obtain ⟨a, ha, hsecond, haligned⟩ := align_ok hsmall
  have hpadded : alignedText pst = a.second := hsecond.symm
  have hfirst := a.first.toNat_lt
  have hdvd : 16 ∣ a.second.length := by
    rw [a.sized]
    exact Nat.dvd_of_mod_eq_zero ((aligned_iff _).mp haligned)
  obtain ⟨bs, hbs⟩ := exists_text hdvd
  have hlt : 16 * bs.length < 2 ^ 32 := by
    rw [← length_text, ← hbs, a.sized]
    exact hfirst
  refine ⟨bs, encrypted (aesCrypto md5) key a, hpadded.trans hbs, hlt, ?_, ?_⟩
  · have henc := kc.encrypt_eq bs hlt
    rw [← hbs] at henc
    exact henc
  · have hpost := @post2Packet_ok (aesCrypto md5) pst a key (hmd5 a.second) ha haligned
    simp only [hpadded]
    exact hpost

/-- The vector comes from the key, so that two posts under one key show how far their buffers are
equal, and nothing but that. Behind 2^31 - 1 bytes the length with the zeros is not sure to fit the
32 bits that it has. -/
theorem post_prefixes {md5 : Bytes → Bytes} (hmd5 : ∀ s, (md5 s).length = 32)
    {pst pst' : EncryptPost} {key key' : AesKey256} (hkey : key.key = key'.key)
    (hsmall : pst.buff.first.toNat < 2 ^ 31) (hsmall' : pst'.buff.first.toNat < 2 ^ 31) :
    ∃ sent left used sent' left' used',
      post2Packet (aesCrypto md5) pst key = .ok (sent, left, used) ∧
      post2Packet (aesCrypto md5) pst' key' = .ok (sent', left', used') ∧
      sent.buffs[3]? = some left.buff ∧ sent'.buffs[3]? = some left'.buff ∧
      ∀ k, left.buff.second.take (16 * k) = left'.buff.second.take (16 * k) ↔
        (alignedText pst).take (16 * k) = (alignedText pst').take (16 * k) := by
  obtain ⟨kc⟩ := exists_keyCipher md5 key
  let kc' : KeyCipher md5 key' :=
    { kc with
      encrypt_eq := by
        intro bs hbs
        rw [← makeIV_eq hkey, AesKey256.getKey, ← hkey]
        exact kc.encrypt_eq bs hbs
      decrypt_eq := by
        intro bs hbs
        rw [← makeIV_eq hkey, AesKey256.getKey, ← hkey]
        exact kc.decrypt_eq bs hbs }
  obtain ⟨bs, c, hbs, -, hc, hsent⟩ := post2Packet_text hmd5 kc hsmall
  obtain ⟨bs', c', hbs', -, hc', hsent'⟩ := post2Packet_text hmd5 kc' hsmall'
  refine ⟨_, _, _, _, _, _, hsent, hsent', rfl, rfl, ?_⟩
  intro k
  have hiff := kc.cipher.take_cbcEncrypt_eq_iff kc.lawful kc.iv bs bs' k
  simp only [hc, hc', hbs, hbs', take_text]
  constructor
  · intro h
    rw [hiff.mp (text_injective h)]
  · intro h
    exact congrArg text (hiff.mpr (text_injective h))

/-- Buffers that agree in their first block, with their zeros. -/
def sevens (n : Nat) : Bytes := List.replicate n 7 ++ List.replicate (32 - n) 0

/-- The buffer of another post. -/
def otherPlain : Bytes := ascii ['j', 'e', 'l', 'l', 'o'] ++ List.replicate 11 0

def md5Digests : List (Bytes × Bytes) := [
    (samplePlain, ascii
      ['7', '6', 'f', '4', '7', 'a', '8', 'a', '5', 'f', '5', 'a', '9', '7', '3', 'e',
       '7', 'f', '1', '2', '8', '8', '8', 'c', '7', '0', 'c', 'd', '9', '1', 'a', '9']),
    (otherPlain, ascii
      ['c', 'e', '1', 'b', '4', '3', 'c', '0', 'b', 'c', 'b', '5', '3', '9', '7', 'e',
       'c', '5', 'a', 'c', 'a', 'd', 'f', 'd', 'f', '2', 'a', 'e', '4', '8', '5', '1']),
    (sevens 20, ascii
      ['2', 'c', '5', 'f', 'c', '9', 'b', 'f', '2', 'e', 'b', '4', 'c', '9', '1', '2',
       '0', '3', 'f', 'b', '8', 'b', '0', '6', 'c', '2', 'b', 'b', '8', 'a', 'b', '9']),
    (sevens 24, ascii
      ['a', 'f', '8', '9', '5', 'a', '2', '2', 'd', '8', 'b', 'f', '7', '9', '9', 'f',
       'a', '6', '8', '7', 'c', 'b', '0', 'd', 'b', 'f', 'a', 'b', '5', 'e', '5', '1'])]

/-- MD5 at these texts. -/
def md5At (s : Bytes) : Bytes :=
  match md5Digests.find? (·.1 = s) with
  | some (_, digest) => digest
  | none => List.replicate 32 0

theorem length_md5At (s : Bytes) : (md5At s).length = 32 := by
  have hall : ∀ entry ∈ md5Digests, entry.2.length = 32 := by decide
  rw [md5At]
  split
  · rename_i h
    exact hall _ (List.mem_of_find?_eq_some h)
  · exact List.length_replicate

/-- Two posts that differ behind their first block. -/
theorem post_prefixes_sample : ∃ sent left used sent' left' used',
    post2Packet (aesCrypto md5At) { samplePost with buff := ⟨20, List.replicate 20 7, rfl⟩ }
      sampleKey = .ok (sent, left, used) ∧
    post2Packet (aesCrypto md5At) { samplePost with buff := ⟨24, List.replicate 24 7, rfl⟩ }
      sampleKey = .ok (sent', left', used') ∧
    left.buff.second.take 16 = left'.buff.second.take 16 ∧
    left.buff.second.take 32 ≠ left'.buff.second.take 32 := by
  obtain ⟨sent, left, used, sent', left', used', hsent, hsent', -, -, hiff⟩ :=
    @post_prefixes md5At length_md5At
      { samplePost with buff := ⟨20, List.replicate 20 7, rfl⟩ }
      { samplePost with buff := ⟨24, List.replicate 24 7, rfl⟩ } sampleKey sampleKey rfl
      (by decide) (by decide)
  refine ⟨sent, left, used, sent', left', used', hsent, hsent', (hiff 1).mpr (by decide), ?_⟩
  intro h
  exact absurd ((hiff 2).mp h) (by decide)

/-- Block `m` of a text. -/
def blockOf (s : Bytes) (m : Nat) : Bytes := (s.drop (16 * m)).take 16

theorem blockOf_text (bs : List State) (m : Nat) :
    blockOf (text bs) m = text ((bs[m]?).toList) := by
  rcases Nat.lt_or_ge m bs.length with hlt | hge
  · have hpast : (text (bs.take m)).length = 16 * m := by simp [Nat.le_of_lt hlt]
    have hsplit : bs = bs.take m ++ bs[m] :: bs.drop (m + 1) := by simp
    rw [List.getElem?_eq_getElem hlt, blockOf]
    conv_lhs => rw [hsplit, text_append, List.drop_left' hpast]
    exact take_text (bs[m] :: bs.drop (m + 1)) 1
  · rw [List.getElem?_eq_none hge, blockOf, List.drop_of_length_le (by rw [length_text]; omega)]
    rfl

theorem blockOf_eq_iff {bs bs' : List State} {m : Nat} :
    blockOf (text bs) m = blockOf (text bs') m ↔ bs[m]? = bs'[m]? := by
  rw [blockOf_text, blockOf_text]
  constructor
  · intro h
    have hlist := text_injective h
    cases hb : bs[m]? <;> cases hb' : bs'[m]? <;> simp_all
  · intro h
    rw [h]

theorem packet2Post_postPacket {crypto : Crypto} (pst : EncryptPost) {e : Block} {md5 plain : Bytes}
    (hmd5 : md5.length = 32) {key : AesKey256} (haligned : e.first % 16 = 0)
    (hplain : crypto.aesDecrypt key.getKey (key.makeIV.getIV.take 16) e.second = plain) :
    packet2Post crypto (postPacket pst e md5 hmd5) key =
      if md5 ≠ crypto.md5 plain then .error (.message "key error")
      else .ok
        ({ pst with buff := ⟨e.first, plain, by rw [← hplain, crypto.length_aesDecrypt, e.sized]⟩ },
        key.makeIV) := by
  subst hplain
  have hkey : key.makeIV.getKey = key.getKey := rfl
  rw [packet2Post, getPostInfo_postPacket]
  simp only [bind, Except.bind, postPacket, Packet.buff, List.getElem?_cons_succ,
    List.getElem?_cons_zero,
    readWord32_word32, readString_ok hmd5 (by omega), inPlace_ok _ haligned, hkey]
  split <;> rfl

theorem block_ext {b b' : Block} (h : b.second = b'.second) : b = b' := by
  obtain ⟨n, s, hs⟩ := b
  obtain ⟨n', s', hs'⟩ := b'
  subst h
  obtain rfl : n = n' := UInt32.toNat_inj.mp (hs.symm.trans hs')
  rfl

/-- A buffer as `Packet2Post` decrypts it. -/
def opened (md5 : Bytes → Bytes) (key : AesKey256) (e : Block) : Bytes :=
  (aesCrypto md5).aesDecrypt key.getKey (key.makeIV.getIV.take 16) e.second

/-- A changed buffer decrypts to another text, which is the old one wherever neither the block nor
the one before was changed. Only MD5 stands against it. -/
theorem packet2Post_altered {md5 : Bytes → Bytes} (hmd5 : ∀ s, (md5 s).length = 32)
    {pst : EncryptPost} {key key' : AesKey256} (hkey : key.key = key'.key)
    (hsmall : pst.buff.first.toNat < 2 ^ 31) :
    ∃ sent left used, post2Packet (aesCrypto md5) pst key = .ok (sent, left, used) ∧
      left.buff.second.length = (alignedText pst).length ∧
      ∀ e : Block, e.first % 16 = 0 → e ≠ left.buff →
        opened md5 key' e ≠ alignedText pst ∧ (opened md5 key' e).length = e.second.length ∧
        (∀ m, blockOf e.second m = blockOf left.buff.second m →
          (m ≠ 0 → blockOf e.second (m - 1) = blockOf left.buff.second (m - 1)) →
          blockOf (opened md5 key' e) m = blockOf (alignedText pst) m) ∧
        if md5 (opened md5 key' e) = md5 (alignedText pst) then
          ∃ post, packet2Post (aesCrypto md5) { sent.toPacket with buffs := sent.buffs.set 3 e }
            key' = .ok (post, key'.makeIV) ∧ post.buff.second = opened md5 key' e
        else packet2Post (aesCrypto md5) { sent.toPacket with buffs := sent.buffs.set 3 e } key' =
          .error (.message "key error") := by
  obtain ⟨kc⟩ := exists_keyCipher md5 key
  obtain ⟨bs, c, hbs, hlt, hc, hsent⟩ := post2Packet_text hmd5 kc hsmall
  refine ⟨_, _, _, hsent, by simp [hbs, hc], ?_⟩
  intro e haligned hne
  have hefirst := e.first.toNat_lt
  obtain ⟨es, hes⟩ := exists_text (s := e.second) (by
    rw [e.sized]
    exact Nat.dvd_of_mod_eq_zero ((aligned_iff _).mp haligned))
  have helt : 16 * es.length < 2 ^ 32 := by
    rw [← length_text, ← hes, e.sized]
    exact hefirst
  have hdec : (aesCrypto md5).aesDecrypt key'.getKey (key'.makeIV.getIV.take 16) e.second =
      text (kc.cipher.cbcDecrypt kc.iv es).2 := by
    have h := kc.decrypt_eq es helt
    rwa [makeIV_eq hkey, AesKey256.getKey, hkey, ← hes] at h
  have hopen := @packet2Post_postPacket (aesCrypto md5) pst e _ _ (hmd5 (alignedText pst)) key'
    haligned hdec
  rw [opened, hdec]
  refine ⟨?_, by simp [hes], ?_, ?_⟩
  · intro heq
    rw [hbs] at heq
    have hback := kc.cipher.cbcEncrypt_cbcDecrypt kc.lawful kc.iv es
    rw [text_injective heq] at hback
    exact hne (block_ext (by rw [hes, hc, hback]))
  · intro m hm hprev
    simp only [hes, hc, hbs, blockOf_eq_iff] at hm hprev ⊢
    have hround := kc.cipher.cbcDecrypt_cbcEncrypt kc.lawful kc.iv bs
    have hget := kc.cipher.getElem?_cbcDecrypt kc.iv (kc.cipher.cbcEncrypt kc.iv bs).2 m
    rw [hround] at hget
    rw [BlockCipher.getElem?_cbcDecrypt, hm, hget]
    cases m with
    | zero => rfl
    | succ m =>
      have hbefore := hprev (by omega)
      rw [Nat.add_sub_cancel] at hbefore
      simp only [List.getElem?_cons_succ, hbefore]
  · have hset : ({ type := encryptPostType, buffs := (postPacket pst c (md5 (alignedText pst))
        (hmd5 _)).buffs.set 3 e } : Packet) = postPacket pst e (md5 (alignedText pst)) (hmd5 _) :=
          rfl
    split
    · rename_i heq
      exact ⟨_, hopen.trans (if_neg (not_not.mpr heq.symm)), rfl⟩
    · rename_i hne'
      exact hopen.trans (if_pos (Ne.symm hne'))

theorem opened_encrypted (md5 : Bytes → Bytes) (hmd5 : ∀ s, (md5 s).length = 32) (key : AesKey256)
    (a : Block) (haligned : a.first % 16 = 0) :
    opened md5 key (encrypted (aesCrypto md5) key a) = a.second := by
  refine (aesCrypto_lawful hmd5).decrypt_encrypt _ _ _ ?_
  rw [a.sized]
  exact Nat.dvd_of_mod_eq_zero ((aligned_iff _).mp haligned)

/-- The buffer of the other post as it is sent. -/
def otherBuff : Block := encrypted (aesCrypto md5At) sampleKey ⟨16, otherPlain, rfl⟩

/-- A post with the buffer of another one under the same key: MD5 sees it. -/
theorem packet2Post_altered_sample : ∃ sent left used,
    post2Packet (aesCrypto md5At) samplePost sampleKey = .ok (sent, left, used) ∧
    packet2Post (aesCrypto md5At)
      { sent.toPacket with
        buffs := sent.buffs.set 3 otherBuff } sampleKey = .error (.message "key error") := by
  obtain ⟨sent, left, used, hsent, -, halter⟩ := @packet2Post_altered md5At length_md5At samplePost
    sampleKey sampleKey rfl (by decide)
  have halign : samplePost.buff.align = .ok ⟨16, samplePlain, rfl⟩ := by decide +kernel
  have hleft : encrypted (aesCrypto md5At) sampleKey ⟨16, samplePlain, rfl⟩ = left.buff := by
    have hpost := @post2Packet_ok (aesCrypto md5At) samplePost _ sampleKey (length_md5At _) halign
      (by decide)
    rw [hsent] at hpost
    exact congrArg (·.2.1.buff) (Except.ok.inj hpost).symm
  have hopened : opened md5At sampleKey otherBuff = otherPlain :=
    opened_encrypted md5At length_md5At sampleKey ⟨16, otherPlain, rfl⟩ (by decide)
  have hne : otherBuff ≠ left.buff := by
    intro h
    rw [h, ← hleft, opened_encrypted md5At length_md5At _ _ (by decide)] at hopened
    exact absurd hopened (by decide)
  obtain ⟨-, -, -, hresult⟩ := halter otherBuff (by decide) hne
  rw [hopened, if_neg (by decide +kernel)] at hresult
  exact ⟨sent, left, used, hsent, hresult⟩

end NetCpp.Proofs
