import NetCpp.SquareServer
import NetCpp.Proofs.Listener
import NetCpp.Proofs.Rsa
import NetCpp.Proofs.Words

namespace NetCpp.Proofs
open Library Server SqeServer

theorem readString_eq_ok {n : Nat} {p s : Bytes} :
    readString n p = .ok s ↔ n ≤ 2 ^ 63 - 1 ∧ n ≤ p.length ∧ s = p.take n := by
  rw [readString]
  by_cases hn : 2 ^ 63 - 1 < n
  · rw [if_pos hn]
    constructor
    · intro h
      cases h
    · rintro ⟨hle, -⟩
      omega
  · rw [if_neg hn]
    constructor
    · intro h
      obtain ⟨-, -, h⟩ := bind_ok h
      obtain ⟨r, hr, h⟩ := bind_ok h
      obtain ⟨hlen, rfl⟩ := readBytes_eq_ok.mp hr
      exact ⟨by omega, hlen, (Except.ok.inj h).symm⟩
    · rintro ⟨-, hlen, rfl⟩
      simp only [bind, Except.bind, pure, Except.pure, readBytes_eq_ok.mpr ⟨hlen, rfl⟩]

theorem readSockAddr_returns {p : Bytes} : (∃ addr, readSockAddr p = .ok addr) ↔ 16 ≤ p.length := by
  rw [readSockAddr]
  split
  · rename_i h
    exact ⟨fun _ => h, fun _ => ⟨_, rfl⟩⟩
  · rename_i h
    constructor
    · rintro ⟨addr, haddr⟩
      cases haddr
    · intro hlen
      exact absurd hlen h

theorem buff_eq_ok {pkt : Packet} {i : Nat} {s : Bytes} :
    pkt.buff i = .ok s ↔ ∃ b, pkt.buffs[i]? = some b ∧ b.second = s := by
  rw [Packet.buff]
  split <;> simp_all

/-- The loop returns on nothing but blocks behind each other. -/
theorem readBuffs_ok {idx : Bytes} {tpkt t : Packet} (h : readBuffs idx.length idx tpkt = .ok t) :
    ∃ bs, idx = bs.flatMap blockText ∧ t = { tpkt with buffs := tpkt.buffs ++ bs } := by
  induction hn : idx.length using Nat.strong_induction_on generalizing idx tpkt with
  | _ n ih =>
    rw [readBuffs] at h
    by_cases hzero : idx.length = 0
    · rw [if_pos hzero] at h
      obtain rfl := Except.ok.inj h
      exact ⟨[], List.length_eq_zero_iff.mp hzero, by simp⟩
    · rw [if_neg hzero] at h
      cases hword : readWord32 idx with
      | error e =>
        rw [hword] at h
        cases h
      | ok r =>
        obtain ⟨hlen, rfl⟩ := readWord32_eq_ok.mp hword
        simp only [hword, Packet.addBuff] at h
        by_cases hsize : (ofWord32 (idx.take 4)).toNat ≤ (idx.drop 4).length
        · simp only [dif_pos hsize] at h
          have hdrop : ((idx.drop 4).drop (ofWord32 (idx.take 4)).toNat).length =
              idx.length - (4 + (ofWord32 (idx.take 4)).toNat) := by
            rw [List.drop_drop, List.length_drop]
          rw [← hdrop] at h
          have hless : ((idx.drop 4).drop (ofWord32 (idx.take 4)).toNat).length < n := by
            rw [List.length_drop] at hsize
            omega
          obtain ⟨bs, hbs, rfl⟩ := ih _ hless h rfl
          let b : Block :=
              ⟨ofWord32 (idx.take 4), (idx.drop 4).take (ofWord32 (idx.take 4)).toNat, by
            rw [List.length_take]
            exact Nat.min_eq_left hsize⟩
          refine ⟨b :: bs, ?_, by rw [List.append_assoc]; rfl⟩
          have hfour : (idx.take 4).length = 4 := by
            rw [List.length_take]
            omega
          rw [List.flatMap_cons, ← hbs, blockText, word32_ofWord32 hfour, List.append_assoc,
            List.take_append_drop, List.take_append_drop]
        · simp only [dif_neg hsize] at h
          cases h

/-- A text that is a packet and nothing else. -/
theorem rawdata2Packet_eq_ok {trdt : RawData} {tpkt : Packet}
    (hsize : trdt.size = trdt.data.length) :
    rawdata2Packet {} trdt = .ok tpkt ↔ trdt.data = packetText tpkt := by
  constructor
  · intro h
    obtain ⟨r, hr, h⟩ := bind_ok h
    obtain ⟨hlen, rfl⟩ := readWord32_eq_ok.mp hr
    have hleft : trdt.size - 4 = (trdt.data.drop 4).length := by rw [List.length_drop, hsize]
    simp only [hleft] at h
    obtain ⟨bs, hbs, rfl⟩ := readBuffs_ok h
    have hfour : (trdt.data.take 4).length = 4 := by
      rw [List.length_take]
      omega
    rw [packetText, List.nil_append, ← hbs, word32_ofWord32 hfour, List.take_append_drop]
  · intro h
    refine @rawdata2Packet_text tpkt trdt [] ?_ ?_
    · rw [h, List.append_nil]
    · rw [hsize, h]

/-- The blocks of a request, with the lengths that they give of each other. -/
def RequestBlocks (pkt : Packet) : Prop :=
  match pkt.buffs.map Block.second with
  | rId :: typeSize :: type :: dataSize :: data :: tAddr :: recvPort :: _ =>
    8 ≤ rId.length ∧
    (8 ≤ typeSize.length ∧ (ofWord64 (typeSize.take 8)).toNat ≤ type.length) ∧
    (8 ≤ dataSize.length ∧ (ofWord64 (dataSize.take 8)).toNat ≤ data.length) ∧
    16 ≤ tAddr.length ∧ 4 ≤ recvPort.length
  | _ => False

theorem length_second_lt (b : Block) : b.second.length < 2 ^ 32 := by
  rw [b.sized]
  exact b.first.toNat_lt

theorem packet2Request_returns {pkt : Packet} :
    (∃ r, packet2Request pkt = .ok r) ↔ (pkt.type = requsetType → RequestBlocks pkt) := by
  rw [packet2Request]
  by_cases htype : pkt.type = requsetType
  · simp only [htype, if_true, forall_const]
    constructor
    · rintro ⟨r, h⟩
      obtain ⟨rId, hrId, h⟩ := bind_ok h
      obtain ⟨w0, hw0, h⟩ := bind_ok h
      obtain ⟨typeSize, htypeSize, h⟩ := bind_ok h
      obtain ⟨w1, hw1, h⟩ := bind_ok h
      obtain ⟨type, htype, h⟩ := bind_ok h
      obtain ⟨s2, hs2, h⟩ := bind_ok h
      obtain ⟨dataSize, hdataSize, h⟩ := bind_ok h
      obtain ⟨w3, hw3, h⟩ := bind_ok h
      obtain ⟨data, hdata, h⟩ := bind_ok h
      obtain ⟨s4, hs4, h⟩ := bind_ok h
      obtain ⟨tAddr, htAddr, h⟩ := bind_ok h
      obtain ⟨addr, haddr, h⟩ := bind_ok h
      obtain ⟨recvPort, hrecvPort, h⟩ := bind_ok h
      obtain ⟨w6, hw6, -⟩ := bind_ok h
      obtain ⟨h0, -⟩ := readWord64_eq_ok.mp hw0
      obtain ⟨h1, rfl⟩ := readWord64_eq_ok.mp hw1
      obtain ⟨-, h2, -⟩ := readString_eq_ok.mp hs2
      obtain ⟨h3, rfl⟩ := readWord64_eq_ok.mp hw3
      obtain ⟨-, h4, -⟩ := readString_eq_ok.mp hs4
      have h5 := readSockAddr_returns.mp ⟨addr, haddr⟩
      obtain ⟨h6, -⟩ := readWord32_eq_ok.mp hw6
      simp only [buff_eq_ok] at hrId htypeSize htype hdataSize hdata htAddr hrecvPort
      rw [RequestBlocks]
      match hbuffs : pkt.buffs with
      | [] | [_] | [_, _] | [_, _, _] | [_, _, _, _] | [_, _, _, _, _] | [_, _, _, _, _, _] =>
        simp [hbuffs] at hrecvPort
      | b0 :: b1 :: b2 :: b3 :: b4 :: b5 :: b6 :: more =>
        simp [hbuffs] at hrId htypeSize htype hdataSize hdata htAddr hrecvPort
        subst hrId htypeSize htype hdataSize hdata htAddr hrecvPort
        exact ⟨h0, ⟨h1, h2⟩, ⟨h3, h4⟩, h5, h6⟩
    · intro h
      rw [RequestBlocks] at h
      match hbuffs : pkt.buffs with
      | [] | [_] | [_, _] | [_, _, _] | [_, _, _, _] | [_, _, _, _, _] | [_, _, _, _, _, _] =>
        simp [hbuffs] at h
      | b0 :: b1 :: b2 :: b3 :: b4 :: b5 :: b6 :: more =>
        simp only [hbuffs, List.map_cons] at h
        obtain ⟨h0, ⟨h1, h2⟩, ⟨h3, h4⟩, h5, h6⟩ := h
        have hlt2 := length_second_lt b2
        have hlt4 := length_second_lt b4
        obtain ⟨addr, haddr⟩ := readSockAddr_returns.mpr h5
        simp [Packet.buff, hbuffs, readWord64_eq_ok.mpr ⟨h0, rfl⟩, readWord64_eq_ok.mpr ⟨h1, rfl⟩,
          readString_eq_ok.mpr ⟨by omega, h2, rfl⟩, readWord64_eq_ok.mpr ⟨h3, rfl⟩,
          readString_eq_ok.mpr ⟨by omega, h4, rfl⟩, haddr, readWord32_eq_ok.mpr ⟨h6, rfl⟩,
          bind, Except.bind, pure, Except.pure]
  · simp [htype]

/-- The number that `rsa_modExp` makes in 64-bit arithmetic, for a modulus other than 0. -/
def power (b : UInt64) (e : Nat) (m : UInt64) : UInt64 :=
  let b := b % m
  if e = 0 then 1
  else if e = 1 then b
  else if e % 2 = 0 then power (b * b % m) (e / 2) m % m
  else b * power b (e - 1) m % m
termination_by e

theorem modExp_eq_power {m : UInt64} (hm : m ≠ 0) (b : UInt64) (e : Nat) :
    Rsa.modExp b e m = .ok (power b e m) := by
  induction e using Nat.strong_induction_on generalizing b with
  | _ e ih =>
    rw [Rsa.modExp, power, if_neg hm]
    simp only
    split
    · rfl
    · split
      · rfl
      · split
        · rw [ih _ (by omega)]
          rfl
        · rw [ih _ (by omega)]
          rfl

/-- Eight bytes of the text for each byte of the result. -/
def decrypted (priv : PrivateKeyClass) (message : Bytes) : Bytes :=
  (List.range (message.length / 8)).map (fun i =>
    (power (ofWord64 ((message.drop (8 * i)).take 8)) priv.exponent.toNat priv.modulus).toUInt8)

theorem length_decrypted (priv : PrivateKeyClass) (message : Bytes) :
    (decrypted priv message).length = message.length / 8 := by
  rw [decrypted, List.length_map, List.length_range]

theorem decryptWords_eq {priv : PrivateKeyClass} (hm : priv.modulus ≠ 0) {n : Nat} {message : Bytes}
    (hlen : 8 * n ≤ message.length) : Rsa.decryptWords priv n message =
      .ok ((List.range n).map (fun i =>
        (power (ofWord64 ((message.drop (8 * i)).take 8)) priv.exponent.toNat
          priv.modulus).toUInt8)) := by
  induction n generalizing message with
  | zero => rfl
  | succ n ih =>
    have hrest := @ih (message.drop 8) (by rw [List.length_drop]; omega)
    rw [Rsa.decryptWords, readWord64_eq_ok.mpr ⟨by omega, rfl⟩]
    simp only [bind, Except.bind, modExp_eq_power hm, hrest, List.range_succ_eq_map, List.map_cons,
      List.map_map, List.drop_drop, pure, Except.pure]
    congr 2
    refine List.map_congr_left (fun i _ => ?_)
    rw [Function.comp_apply, Nat.succ_eq_add_one, Nat.mul_add, Nat.add_comm]

/-- A modulus of 0 ends the process at the first number. -/
theorem decryptWords_zero {priv : PrivateKeyClass} (hm : priv.modulus = 0) {n : Nat}
    {message : Bytes} {s : Bytes} (h : Rsa.decryptWords priv n message = .ok s) : n = 0 := by
  cases n with
  | zero => rfl
  | succ n =>
    obtain ⟨r, -, h⟩ := bind_ok h
    obtain ⟨temp, htemp, -⟩ := bind_ok h
    rw [Rsa.modExp, if_pos hm] at htemp
    cases htemp

/-- The stages that a datagram with the labels goes through. -/
def receivePath (prc : PrivateKeyClass) (str : Bytes) (taddr : SockAddr) (rand64 : UInt64) :
    Except Fault (Option Request) := do
  let rdt ← processSignedRawMsg str str.length (RawData.new rand64)
  match ← processRawDatum prc rdt taddr with
  | none => return none
  | some ppkt => packet2Request ppkt.toPacket

/-- A text that is a packet, and a whole request if its type is the one of requests. -/
def PacketIn (data : Bytes) : Prop :=
  ∃ tpkt, data = packetText tpkt ∧ (tpkt.type = requsetType → RequestBlocks tpkt)

/-- What lies between the labels. -/
def content (str : Bytes) : Bytes := (str.drop 8).take (str.length - 12)

structure Intact (prc : PrivateKeyClass) (str : Bytes) : Prop where
  long : 12 ≤ str.length
  plain : (str.drop 4).take 4 = spkt → PacketIn (content str)
  encrypted : (str.drop 4).take 4 = rpkt →
    prc.modulus ≠ 0 ∧ 8 ∣ (content str).length ∧ PacketIn (decrypted prc (content str))

theorem length_content {str : Bytes} (h : 12 ≤ str.length) :
    (content str).length = str.length - 12 := by
  rw [content, List.length_take, List.length_drop]
  omega

/-- What is done with raw data that may be a packet. -/
theorem packetIn_iff {trdt : RawData} (hsize : trdt.size = trdt.data.length) :
    (∃ tpkt r, rawdata2Packet {} trdt = .ok tpkt ∧ packet2Request tpkt = .ok r) ↔
      PacketIn trdt.data := by
  constructor
  · rintro ⟨tpkt, r, htext, hr⟩
    exact ⟨tpkt, (rawdata2Packet_eq_ok hsize).mp htext, packet2Request_returns.mp ⟨r, hr⟩⟩
  · rintro ⟨tpkt, htext, hblocks⟩
    obtain ⟨r, hr⟩ := packet2Request_returns.mpr hblocks
    exact ⟨tpkt, r, (rawdata2Packet_eq_ok hsize).mpr htext, hr⟩

theorem decryptRSARawMsg_packet_iff {prc : PrivateKeyClass} {prdt : RawData}
    (hsize : prdt.size = prdt.data.length) :
    (∃ trdt tpkt r, decryptRSARawMsg prdt prc = .ok trdt ∧ rawdata2Packet {} trdt = .ok tpkt ∧
      packet2Request tpkt = .ok r) ↔
      prc.modulus ≠ 0 ∧ 8 ∣ prdt.data.length ∧ PacketIn (decrypted prc prdt.data) := by
  constructor
  · rintro ⟨trdt, tpkt, r, hdecrypt, htext, hr⟩
    obtain ⟨data, hdata, h⟩ := bind_ok hdecrypt
    obtain rfl := Except.ok.inj h
    obtain ⟨w, hw, -⟩ := bind_ok htext
    obtain ⟨hfour, -⟩ := readWord32_eq_ok.mp hw
    rw [Rsa.decrypt, hsize] at hdata
    by_cases hdvd : prdt.data.length % 8 ≠ 0
    · -- the result is NULL, and reading the type of the packet fails
      rw [if_pos hdvd] at hdata
      obtain rfl := Except.ok.inj hdata
      exact absurd hfour (by simp)
    · rw [if_neg hdvd] at hdata
      have hm : prc.modulus ≠ 0 := by
        intro hz
        have hzero := decryptWords_zero hz hdata
        rw [hzero] at hdata
        obtain rfl := Except.ok.inj hdata
        exact absurd hfour (by simp)
      rw [decryptWords_eq hm (by omega)] at hdata
      obtain rfl := Except.ok.inj hdata
      refine ⟨hm, Nat.dvd_of_mod_eq_zero (by omega), (packetIn_iff ?_).mp ⟨tpkt, r, htext, hr⟩⟩
      simp [hsize]
  · rintro ⟨hm, hdvd, hpacket⟩
    have hdata : Rsa.decrypt prdt.data prdt.size prc = .ok (decrypted prc prdt.data) := by
      rw [Rsa.decrypt, hsize, if_neg (by omega), decryptWords_eq hm (by omega), decrypted]
    have hlen : prdt.size / 8 = (decrypted prc prdt.data).length := by rw [length_decrypted, hsize]
    have hiff := @packetIn_iff
      { prdt with data := decrypted prc prdt.data, size := prdt.size / 8 } hlen
    obtain ⟨tpkt, r, htext, hr⟩ := hiff.mpr hpacket
    refine ⟨_, tpkt, r, ?_, htext, hr⟩
    rw [decryptRSARawMsg, hdata]
    rfl

/-- After the labels are off. -/
theorem processRawDatum_returns {prc : PrivateKeyClass} {prdt : RawData} {address : SockAddr}
    (hsize : prdt.size = prdt.data.length) :
    (∃ r, (do
      match ← processRawDatum prc prdt address with
      | none => return none
      | some ppkt => packet2Request ppkt.toPacket) = Except.ok r) ↔
    (prdt.info = some (ofWord32 spkt) → PacketIn prdt.data) ∧
    (prdt.info = some (ofWord32 rpkt) →
      prc.modulus ≠ 0 ∧ 8 ∣ prdt.data.length ∧ PacketIn (decrypted prc prdt.data)) := by
  have hne : some (ofWord32 spkt) ≠ some (ofWord32 rpkt) := by decide
  rw [processRawDatum]
  by_cases hplain : prdt.info = some (ofWord32 spkt)
  · simp only [hplain, if_true, hne, false_implies, and_true, forall_const]
    rw [← packetIn_iff hsize]
    constructor
    · rintro ⟨r, h⟩
      obtain ⟨ppkt, hppkt, h⟩ := bind_ok h
      obtain ⟨tpkt, htext, hppkt⟩ := bind_ok hppkt
      obtain rfl := Except.ok.inj hppkt
      exact ⟨tpkt, r, htext, h⟩
    · rintro ⟨tpkt, r, htext, hr⟩
      refine ⟨r, ?_⟩
      rw [htext]
      exact hr
  · by_cases hsecret : prdt.info = some (ofWord32 rpkt)
    · simp only [hsecret, hne.symm, if_false, if_true, false_implies, true_and, forall_const]
      rw [← decryptRSARawMsg_packet_iff hsize]
      constructor
      · rintro ⟨r, h⟩
        obtain ⟨ppkt, hppkt, h⟩ := bind_ok h
        obtain ⟨trdt, hdecrypt, hppkt⟩ := bind_ok hppkt
        obtain ⟨tpkt, htext, hppkt⟩ := bind_ok hppkt
        obtain rfl := Except.ok.inj hppkt
        exact ⟨trdt, tpkt, r, hdecrypt, htext, h⟩
      · rintro ⟨trdt, tpkt, r, hdecrypt, htext, hr⟩
        refine ⟨r, ?_⟩
        simp only [bind, Except.bind, hdecrypt, htext, pure, Except.pure]
        exact hr
    · simp only [hplain, hsecret, if_false, false_implies, and_self, iff_true]
      exact ⟨none, rfl⟩

theorem some_ofWord32_eq {s t : Bytes} (hs : s.length = 4) (ht : t.length = 4) :
    some (ofWord32 s) = some (ofWord32 t) ↔ s = t := by
  constructor
  · intro h
    have hword := congrArg word32 (Option.some.inj h)
    rwa [word32_ofWord32 hs, word32_ofWord32 ht] at hword
  · rintro rfl
    rfl

/-- The length of a datagram is an `ssize_t`. -/
theorem receivePath_returns_iff {str : Bytes} (hreceived : str.length < 2 ^ 63)
    (prc : PrivateKeyClass) (taddr : SockAddr) (rand64 : UInt64) :
    (∃ r, receivePath prc str taddr rand64 = .ok r) ↔ Intact prc str := by
  rw [receivePath]
  by_cases hlong : 12 ≤ str.length
  · have hinfo : ((str.drop 4).take 4).length = 4 := by
      rw [List.length_take, List.length_drop]
      omega
    have hspkt : spkt.length = 4 := rfl
    have hrpkt : rpkt.length = 4 := rfl
    have hsize := length_content hlong
    rw [processSignedRawMsg_ok hlong hreceived]
    simp only [bind, Except.bind]
    refine (processRawDatum_returns hsize.symm).trans ?_
    simp only [some_ofWord32_eq hinfo hspkt, some_ofWord32_eq hinfo hrpkt]
    exact ⟨fun h => ⟨hlong, h.1, h.2⟩, fun h => ⟨h.plain, h.encrypted⟩⟩
  · rw [processSignedRawMsg_short (by omega)]
    constructor
    · rintro ⟨r, h⟩
      cases h
    · intro h
      exact absurd h.long hlong

/-- The datagram `NETC`, `SPKT`, a type and the length prefix of a block that is not there. -/
def overlongDatagram : Bytes := netc ++ spkt ++ word32 requsetType ++ word32 0xFFFFFFFF ++ cten

theorem receivePath_returns_iff_overlong :
    (∃ r, receivePath ⟨100160063, 50264849⟩ overlongDatagram (.replicate 16 0) 0 = .ok r) ↔
      Intact ⟨100160063, 50264849⟩ overlongDatagram :=
  receivePath_returns_iff (by decide) ⟨100160063, 50264849⟩ (.replicate 16 0) 0

theorem receivePath_overlongDatagram :
    checkRawMsg overlongDatagram overlongDatagram.length = .ok true ∧
    receivePath ⟨100160063, 50264849⟩ overlongDatagram (.replicate 16 0) 0 =
      .error .readOutside := by
  decide +kernel

end NetCpp.Proofs
