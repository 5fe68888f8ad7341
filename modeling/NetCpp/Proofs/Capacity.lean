import NetCpp.Proofs.Requests

namespace NetCpp.Proofs
open Library Server SqeServer

/-- A packet that the server makes, and what from. -/
inductive Producer where
  | request (req : Request)
  | respond (res : Respond)
  | post (pst : EncryptPost) (key : AesKey256)

/-- The packet, without its address. -/
def Producer.packet (crypto : Crypto) : Producer → Except Fault Packet
  | .request req => do
    let pkt ← request2Packet req
    return pkt.toPacket
  | .respond res => do
    let pkt ← respond2Packet res
    return pkt.toPacket
  | .post pst key => do
    let (pkt, _, _) ← post2Packet crypto pst key
    return pkt.toPacket

/-- The size that a text is given as a block. -/
def sizeOfText (s : Bytes) : Nat := s.length % 2 ^ 32

/-- The bytes of the packet: its type, and each block with its size in front. -/
def Producer.size : Producer → Nat
  | .request req => 76 + sizeOfText req.type + sizeOfText req.data
  | .respond res => 44 + sizeOfText res.type + sizeOfText res.buff
  | .post pst _ => 96 + (pst.buff.first.toNat + padding pst.buff.first.toNat)

theorem toNat_textBlock (s : Bytes) : (textBlock s).first.toNat = sizeOfText s :=
  UInt32.toNat_ofNat'

theorem sizeOfText_word32 (n : UInt32) : sizeOfText (word32 n) = 4 := by
  rw [sizeOfText, length_word32]
  rfl

theorem sizeOfText_word64 (n : UInt64) : sizeOfText (word64 n) = 8 := by
  rw [sizeOfText, length_word64]
  rfl

theorem sizeOfText_address (addr : SockAddr) : sizeOfText addr.toList = 16 := by
  rw [sizeOfText, Vector.length_toList]
  rfl

theorem length_request {req : Request} {pkt : AddressedPacket} (h : request2Packet req = .ok pkt) :
    (packetText pkt.toPacket).length = 76 + sizeOfText req.type + sizeOfText req.data := by
  rw [request2Packet, addBuffs_ok] at h
  obtain rfl := Except.ok.inj h
  rw [length_packetText]
  simp only [List.nil_append, List.map_cons, List.map_nil, List.sum_cons, List.sum_nil,
    toNat_textBlock, sizeOfText_word64, sizeOfText_word32, sizeOfText_address]
  omega

theorem length_respond {res : Respond} {pkt : AddressedPacket} (h : respond2Packet res = .ok pkt) :
    (packetText pkt.toPacket).length = 44 + sizeOfText res.type + sizeOfText res.buff := by
  rw [respond2Packet_ok] at h
  obtain rfl := Except.ok.inj h
  rw [length_packetText]
  simp only [answer, List.map_cons, List.map_nil, List.sum_cons, List.sum_nil, toNat_textBlock,
    sizeOfText_word64, sizeOfText_address]
  omega

/-- The aligned buffer, where the size does not wrap around. -/
theorem align_size {b a : Block} (h : b.align = .ok a) :
    a.first.toNat = b.first.toNat + padding b.first.toNat := by
  unfold Block.align at h
  split at h
  · rename_i haligned
    obtain rfl := Except.ok.inj h
    have hzero := padding_eq_zero ((aligned_iff _).mp haligned)
    omega
  · rename_i haligned
    have hne : b.first.toNat % 16 ≠ 0 := mt (aligned_iff _).mpr haligned
    dsimp only at h
    split at h
    · rename_i hle
      obtain rfl := Except.ok.inj h
      have hsize : ((b.first / 16 + 1) * 16).toNat = (b.first.toNat / 16 + 1) * 16 % 2 ^ 32 := by
        rw [UInt32.toNat_mul, UInt32.toNat_add, UInt32.toNat_div]
        simp only [UInt32.reduceToNat]
        omega
      have hlt := b.first.toNat_lt
      rw [hsize] at hle
      show ((b.first / 16 + 1) * 16).toNat = _
      rw [hsize, padding]
      omega
    · cases h

theorem inPlace_first {b a : Block} {f : Bytes → Bytes} {hf : ∀ s, (f s).length = s.length}
    (h : b.inPlace f hf = .ok a) : a.first = b.first := by
  unfold Block.inPlace at h
  split at h
  · obtain rfl := Except.ok.inj h
    rfl
  · cases h

theorem addBuff_eq {pkt t : Packet} {s : Bytes} {size : UInt32} (h : pkt.addBuff s size = .ok t) :
    ∃ b : Block, b.first = size ∧ t = { pkt with buffs := pkt.buffs ++ [b] } := by
  unfold Packet.addBuff at h
  split at h
  · obtain rfl := Except.ok.inj h
    exact ⟨_, rfl, rfl⟩
  · cases h

theorem length_post {crypto : Crypto} {pst pst' : EncryptPost} {key key' : AesKey256}
    {pkt : AddressedPacket} (h : post2Packet crypto pst key = .ok (pkt, pst', key')) :
    (packetText pkt.toPacket).length =
      96 + (pst.buff.first.toNat + padding pst.buff.first.toNat) := by
  rw [post2Packet, addBuffs_ok] at h
  obtain ⟨p₀, hp₀, h⟩ := bind_ok h
  obtain rfl := Except.ok.inj hp₀
  obtain ⟨a, ha, h⟩ := bind_ok h
  obtain ⟨c, hc, h⟩ := bind_ok h
  obtain ⟨p₁, hp₁, h⟩ := bind_ok h
  obtain ⟨p₂, hp₂, h⟩ := bind_ok h
  obtain ⟨p₃, hp₃, h⟩ := bind_ok h
  obtain ⟨b₁, hb₁, rfl⟩ := addBuff_eq hp₁
  obtain ⟨b₂, hb₂, rfl⟩ := addBuff_eq hp₂
  obtain ⟨b₃, hb₃, rfl⟩ := addBuff_eq hp₃
  obtain ⟨rfl, -⟩ := Prod.mk.inj (Except.ok.inj h)
  rw [length_packetText, ← align_size ha, ← inPlace_first hc, ← hb₁]
  simp only [List.nil_append, List.cons_append, List.map_cons, List.map_nil, List.sum_cons,
    List.sum_nil, toNat_textBlock, sizeOfText_word64, sizeOfText_address, hb₂, hb₃]
  simp only [UInt32.reduceToNat]
  omega

theorem Producer.length_packet {crypto : Crypto} {x : Producer} {pkt : Packet}
    (h : x.packet crypto = .ok pkt) : (packetText pkt).length = x.size := by
  cases x with
  | request req =>
    obtain ⟨p, hp, h⟩ := bind_ok h
    obtain rfl := Except.ok.inj h
    exact length_request hp
  | respond res =>
    obtain ⟨p, hp, h⟩ := bind_ok h
    obtain rfl := Except.ok.inj h
    exact length_respond hp
  | post pst key =>
    obtain ⟨⟨p, pst', key'⟩, hp, h⟩ := bind_ok h
    obtain rfl := Except.ok.inj h
    exact length_post hp

/-- The writer stays inside of its buffer just if the size of what the packet is made from is at
most the size of the buffer. -/
theorem packet2Rawdata_size (crypto : Crypto) (bufsiz : Nat) (x : Producer) (pkt : Packet)
    (rdt : RawData) (h : x.packet crypto = .ok pkt) :
    (∃ raw, packet2Rawdata bufsiz pkt rdt = .ok raw) ↔ x.size ≤ bufsiz := by
  rw [packet2Rawdata_iff, x.length_packet h]

/-- An answer with a buffer of some bytes. -/
def answerOf (buff : Bytes) : Respond where
  rId := 7
  type := registerRespond
  buff := buff
  tAddr := .replicate 16 0

theorem packet2Rawdata_size_sample :
    ∃ pkt, (Producer.respond (answerOf [1])).packet sampleCrypto = .ok pkt ∧
    ((∃ raw, packet2Rawdata 8192 pkt (RawData.new 1) = .ok raw) ↔
      (Producer.respond (answerOf [1])).size ≤ 8192) :=
  ⟨_, rfl, packet2Rawdata_size sampleCrypto 8192 (.respond (answerOf [1])) _ (RawData.new 1) rfl⟩

/-- An answer with a buffer as long as the one it is written into. -/
theorem not_packet2Rawdata_full :
    ∃ pkt, respond2Packet (answerOf (List.replicate 8192 1)) = .ok pkt ∧
    ¬∃ raw, packet2Rawdata 8192 pkt.toPacket (RawData.new 1) = .ok raw := by
  refine ⟨_, respond2Packet_ok _, ?_⟩
  rw [packet2Rawdata_iff, length_respond (respond2Packet_ok _)]
  have hbuff : sizeOfText (answerOf (List.replicate 8192 1)).buff = 8192 := by
    rw [answerOf, sizeOfText, List.length_replicate]
    rfl
  omega

end NetCpp.Proofs
