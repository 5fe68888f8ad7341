import NetCpp.Proofs.Frames

namespace NetCpp.Proofs
open Library Message MessageFactory

/-- What `encodeMessage` asks of a message: distinct keys, keys and values that survive
the quotes and `c_str`, and the `size` option as `pushData` sets it. -/
structure Sendable (m : Message) : Prop where
  nodup : m.keys.Nodup
  plain : ∀ o ∈ m.options, Plain o
  size : m.getValue keySize = .ok (Decimal.ofNat m.data.length)
  short : m.data.length < 2 ^ 31

theorem not_mem_getHex (signGen : SHA256Generator) {data : Bytes} {c : Byte}
    (hc : isHex c = false) : c ∉ signGen.getHex data := by
  intro hm
  rw [signGen.isHex_getHex data c hm] at hc
  cases hc

theorem plain_sign (signGen : SHA256Generator) (data : Bytes) :
    Plain ⟨keySign, signGen.getHex data⟩ := by
  have hq : quote ∉ keySign := by decide
  have h0 : (0 : Byte) ∉ keySign := by decide
  exact ⟨hq, not_mem_getHex signGen (by decide), h0, not_mem_getHex signGen (by decide)⟩

theorem plain_size (n : Nat) : Plain ⟨keySize, Decimal.ofNat n⟩ := by
  have hq : quote ∉ keySize := by decide
  have h0 : (0 : Byte) ∉ keySize := by decide
  exact ⟨hq, Decimal.not_mem_ofNat (by decide), h0, Decimal.not_mem_ofNat (by decide)⟩

/-- Signing keeps a message sendable. -/
theorem Sendable.sign {m : Message} (hm : Sendable m) (signGen : SHA256Generator) :
    Sendable (signed signGen m) where
  nodup := nodup_insertOption hm.nodup
  plain := by
    intro o ho
    rcases mem_insertOption ho with h | rfl
    · exact hm.plain o h
    · exact plain_sign signGen m.getData
  size := by
    have hne : keySize ≠ keySign := by decide
    rw [signed, getValue_addOption_other m _ hne]
    exact hm.size
  short := hm.short

theorem signed_sign (signGen : SHA256Generator) (m : Message) :
    checkMessageSign signGen (signed signGen m) = .ok true := by
  simp [checkMessageSign, signed, catchRuntimeError, getData, bind, Except.bind, pure, Except.pure]

/-- The decoder on the frame of a sendable message, with any bytes behind it. -/
theorem decodeMessage_frameText {m : Message} (hm : Sendable m) {k : Int16}
    (hk : hashOf (signedText m) = .ok k) (t : Bytes) (m' : Message) :
    decodeMessage (frameText m k ++ t) m' = .ok (true, m) := by
  have hframe : frameText m k ++ t =
      headText m ++
        (optionText m.options ++ (sumText k ++ (m.data ++ (crlf ++ (msgTail ++ t))))) := by
    simp [frameText, signedText]
  have hbody : frameText m k ++ t =
      (signedText m ++ sumText k) ++ (m.data ++ (crlf ++ (msgTail ++ t))) := by
    simp [frameText]
  have htail : frameText m k ++ t =
      (signedText m ++ sumText k ++ m.data ++ crlf) ++ (msgTail ++ t) := by
    simp [frameText]
  have hopts : ((m'.clear.setHead m.tid m.type).addOptions m.options).options = m.options :=
    addOptions_options hm.nodup
  obtain ⟨htid, htype, hdata, -⟩ := addOptions_frame (m'.clear.setHead m.tid m.type) m.options
  have hcome : ((m'.clear.setHead m.tid m.type).addOptions m.options) = { m with data := [] } := by
    cases hx : (m'.clear.setHead m.tid m.type).addOptions m.options
    simp_all [setHead, clear]
  have hsize : ({ m with data := [] } : Message).getValue keySize =
      .ok (Decimal.ofNat m.data.length) :=
    hm.size
  have hback : m.addOption keySize (Decimal.ofNat m.data.length) = m := addOption_self hm.size
  have hhead := decodeHead_text m m'.clear
    (optionText m.options ++ (sumText k ++ (m.data ++ (crlf ++ (msgTail ++ t)))))
  have hoption := decodeOptions_text (Plain.unquoted hm.plain) (headText m) k
    (m.data ++ (crlf ++ (msgTail ++ t))) (m'.clear.setHead m.tid m.type)
  rw [← signedText, hk, map_cut hm.plain, hcome] at hoption
  have hbodyOk : decodeBody (signedText m ++ sumText k ++ (m.data ++ (crlf ++ (msgTail ++ t))))
      (signedText m ++ sumText k).length { m with data := [] } =
        .ok (some ((signedText m ++ sumText k).length + m.data.length + 2), m) := by
    rw [decodeBody_text hm.short hsize, List.nil_append]
    exact congrArg (fun m => Except.ok (some _, m)) hback
  have htailOk := decodeTail_text (signedText m ++ sumText k ++ m.data ++ crlf) t m
  rw [← hframe] at hhead hoption
  rw [← hbody] at hbodyOk
  rw [← htail] at htailOk
  simp only [List.length_append, show crlf.length = 2 from rfl] at hoption hbodyOk htailOk
  simp only [decodeMessage, hhead, hoption, hbodyOk, htailOk, bind, Except.bind, if_true]
  rfl

/-- Decoding what was encoded, with any bytes behind it and into any message, gives back
the message as it was sent, with a signature that checks. -/
theorem decodeMessage_encodeMessage (signGen : SHA256Generator) {m sent : Message} {e : Bytes}
    (hm : Sendable m) (he : encodeMessage signGen m [] = .ok (sent, e)) (t : Bytes) (m' : Message) :
    ∃ received, decodeMessage (e ++ t) m' = .ok (true, received) ∧
      received.tid = m.tid ∧ received.type = m.type ∧ received.data = m.data ∧
      received.options = insertOption keySign (signGen.getHex m.data) m.options ∧
      checkMessageSign signGen received = .ok true := by
  obtain ⟨rfl, k, hk, rfl⟩ := encodeMessage_ok.mp he
  refine ⟨signed signGen m, ?_, rfl, rfl, rfl, rfl, signed_sign signGen m⟩
  exact decodeMessage_frameText (hm.sign signGen) hk t m'

/-- The digest that the test of the generator expects for "Hello World.". -/
def helloDigest : Bytes := ascii
  ['f', '4', 'b', 'b', '1', '9', '7', '5', 'b', 'f', '1', 'f', '8', '1', 'f', '7',
   '6', 'c', 'e', '8', '2', '4', 'f', '7', '5', '3', '6', 'c', '1', 'e', '1', '0',
   '1', 'a', '8', '0', '6', '0', 'a', '6', '3', '2', 'a', '5', '2', '2', '8', '9',
   'd', '5', '3', '0', 'a', '6', 'f', '6', '0', '0', 'd', '5', '2', 'c', '9', '2']

/-- The digest of no data. -/
def emptyDigest : Bytes := ascii
  ['e', '3', 'b', '0', 'c', '4', '4', '2', '9', '8', 'f', 'c', '1', 'c', '1', '4',
   '9', 'a', 'f', 'b', 'f', '4', 'c', '8', '9', '9', '6', 'f', 'b', '9', '2', '4',
   '2', '7', 'a', 'e', '4', '1', 'e', '4', '6', '4', '9', 'b', '9', '3', '4', 'c',
   'a', '4', '9', '5', '9', '9', '1', 'b', '7', '8', '5', '2', 'b', '8', '5', '5']

theorem isHex_helloDigest : ∀ c ∈ helloDigest, isHex c = true := by
  decide +kernel

theorem isHex_emptyDigest : ∀ c ∈ emptyDigest, isHex c = true := by
  decide +kernel

def helloGenerator : SHA256Generator where
  getHex := fun data => if data.isEmpty then emptyDigest else helloDigest
  length_getHex := by
    intro data
    split <;> rfl
  isHex_getHex := by
    intro data
    split
    · exact isHex_emptyDigest
    · exact isHex_helloDigest

def helloMessage : Message where
  tid := 7
  type := 1
  options :=
    [⟨keyDate, ascii ['0', '7', '/', '0', '7', '/', '2', '0']⟩, ⟨keySize, ascii ['1', '2']⟩]
  data := ascii ['H', 'e', 'l', 'l', 'o', ' ', 'W', 'o', 'r', 'l', 'd', '.']

theorem helloMessage_sendable : Sendable helloMessage where
  nodup := by decide
  plain := by decide
  size := by decide
  short := by decide

theorem decodeMessage_encodeMessage_hello :
    ∃ sent e, encodeMessage helloGenerator helloMessage [] = .ok (sent, e) ∧
      ∃ received, decodeMessage (e ++ [quote, cr, 0]) {} = .ok (true, received) ∧
        received.tid = 7 ∧ received.type = 1 ∧ received.data = helloMessage.data ∧
        received.options = insertOption keySign helloDigest helloMessage.options ∧
        checkMessageSign helloGenerator received = .ok true := by
  obtain ⟨sent, e, he⟩ :=
    (encodeMessage_returns helloGenerator helloMessage).mpr (by decide +kernel)
  exact ⟨sent, e, he,
    decodeMessage_encodeMessage helloGenerator helloMessage_sendable he [quote, cr, 0] {}⟩

end NetCpp.Proofs
