import NetCpp.Client
import NetCpp.Proofs.Fifo
import NetCpp.Proofs.Fragments
import NetCpp.Proofs.Pushes
import NetCpp.Proofs.Received

namespace NetCpp.Proofs
open Library Server SqeServer

def requestPacket (req : Request) : Packet where
  type := requsetType
  buffs :=
    [word64 req.rId, word64 (.ofNat req.type.length), req.type, word64 (.ofNat req.data.length),
    req.data, req.tAddr.toList, word32 req.recvPort].map textBlock

theorem request2Packet_ok (req : Request) :
    request2Packet req = .ok { requestPacket req with address := req.tAddr } := by
  rw [request2Packet, addBuffs_ok]
  rfl

/-- A request whose packet fits the buffer. -/
def FitsBuffer (bufsiz : Nat) (req : Request) : Prop :=
  76 + req.type.length + req.data.length ≤ bufsiz

instance (bufsiz : Nat) (req : Request) : Decidable (FitsBuffer bufsiz req) :=
  inferInstanceAs (Decidable (_ ≤ _))

theorem length_requestPacket {req : Request} (htype : req.type.length < 2 ^ 32)
    (hdata : req.data.length < 2 ^ 32) :
    (packetText (requestPacket req)).length = 76 + req.type.length + req.data.length := by
  have haddr : req.tAddr.toList.length = 16 := Vector.length_toList
  have htype' : (UInt32.ofNat req.type.length).toNat = req.type.length := by
    rw [UInt32.toNat_ofNat']
    exact Nat.mod_eq_of_lt htype
  have hdata' : (UInt32.ofNat req.data.length).toNat = req.data.length := by
    rw [UInt32.toNat_ofNat']
    exact Nat.mod_eq_of_lt hdata
  rw [length_packetText]
  simp only [requestPacket, textBlock, List.map_cons, List.map_nil, List.sum_cons, List.sum_nil,
    length_word64, length_word32, haddr, htype', hdata', UInt32.reduceOfNat, UInt32.reduceToNat]
  omega

/-- The flag for the encryption is no part of what is sent. -/
theorem packet2Request_requestPacket {req : Request} (htype : req.type.length < 2 ^ 32)
    (hdata : req.data.length < 2 ^ 32) :
    packet2Request (requestPacket req) = .ok (some { req with ifEncrypt := false }) := by
  have haddr : req.tAddr.toList.length = 16 := Vector.length_toList
  have hword : ∀ n : UInt64, readWord64 (textBlock (word64 n)).second = .ok (n, []) := by
    intro n
    rw [textBlock_second (by rw [length_word64]; omega), readWord64_word64]
  have hport : readWord32 (textBlock (word32 req.recvPort)).second = .ok (req.recvPort, []) := by
    rw [textBlock_second (by rw [length_word32]; omega), readWord32_word32]
  have hsock : readSockAddr (textBlock req.tAddr.toList).second = .ok req.tAddr := by
    rw [textBlock_second (by omega), readSockAddr_toList]
  have htext : ∀ s : Bytes, s.length < 2 ^ 32 →
      readString (s.length % 18446744073709551616) (textBlock s).second = .ok s := by
    intro s hs
    rw [Nat.mod_eq_of_lt (by omega), textBlock_second hs, readString_ok rfl (by omega)]
  have hkind : (requestPacket req).type = requsetType := rfl
  rw [packet2Request, if_pos hkind]
  simp [requestPacket, Packet.buff, hword, hport, hsock, htext _ htype, htext _ hdata, bind,
    Except.bind, pure, Except.pure]

/-- The request as the server gets it, from the address it has come from. -/
def takenFrom (preq : Request) (address : SockAddr) : Request :=
  { preq with ifEncrypt := false, tAddr := address }

/-- `ProcessRawData` and `ProcessPacket` for one item. -/
def requestFrom (prc : PrivateKeyClass) (prdt : RawData) (address : SockAddr) :
    Except Fault (Option Request) := do
  match ← processRawDatum prc prdt address with
  | none => return none
  | some ppkt => requestOf ppkt

/-- What is between the labels yields the request, whatever message has brought it. -/
structure Yields (prc : PrivateKeyClass) (preq : Request) (label content : Bytes) : Prop where
  four : label.length = 4
  request : ∀ (prdt : RawData) (address : SockAddr), prdt.data = content →
    prdt.size = content.length →
    prdt.info = some (ofWord32 label) →
      requestFrom prc prdt address = .ok (some (takenFrom preq address))

theorem requestOf_requestPacket {preq : Request} (htype : preq.type.length < 2 ^ 32)
    (hdata : preq.data.length < 2 ^ 32) {ppkt : AddressedPacket}
    (hpkt : ppkt.toPacket = requestPacket preq) :
    requestOf ppkt = .ok (some (takenFrom preq ppkt.address)) := by
  rw [requestOf, hpkt, packet2Request_requestPacket htype hdata]
  rfl

theorem yields_plain {prc : PrivateKeyClass} {preq : Request} (htype : preq.type.length < 2 ^ 32)
    (hdata : preq.data.length < 2 ^ 32) :
    Yields prc preq spkt (packetText (requestPacket preq)) where
  four := rfl
  request := by
    intro prdt address hcontent hsize hinfo
    have hread := @rawdata2Packet_text (requestPacket preq) prdt [] (by simpa using hcontent) hsize
    rw [requestFrom, processRawDatum, if_pos hinfo, hread]
    simp only [bind, Except.bind, pure, Except.pure]
    exact requestOf_requestPacket htype hdata rfl

theorem yields_encrypted {prc : PrivateKeyClass} {preq : Request}
    (htype : preq.type.length < 2 ^ 32) (hdata : preq.data.length < 2 ^ 32) {content : Bytes}
    (hcontent : ∀ prdt : RawData, prdt.data = content → prdt.size = content.length → ∃ trdt,
      decryptRSARawMsg prdt prc = .ok trdt ∧ trdt.data = packetText (requestPacket preq) ∧
      trdt.size = trdt.data.length) : Yields prc preq rpkt content where
  four := rfl
  request := by
    intro prdt address hcon hsize hinfo
    have hne : prdt.info ≠ some (ofWord32 spkt) := by
      rw [hinfo]
      decide
    obtain ⟨trdt, hdec, htext, hlen⟩ := hcontent prdt hcon hsize
    have hread :=
      @rawdata2Packet_text (requestPacket preq) trdt [] (by simpa using htext) (by rw [hlen, htext])
    rw [requestFrom, processRawDatum, if_neg hne, if_pos hinfo, hdec]
    simp only [bind, Except.bind, pure, Except.pure, hread]
    exact requestOf_requestPacket htype hdata rfl

theorem length_of_mapM {ε α β : Type} {f : α → Except ε β} {xs : List α} {ys : List β}
    (h : xs.mapM f = .ok ys) : ys.length = xs.length := by
  induction xs generalizing ys with
  | nil =>
    cases h
    rfl
  | cons x xs ih =>
    rw [List.mapM_cons] at h
    obtain ⟨y, -, h⟩ := bind_ok h
    obtain ⟨ys', hrest, h⟩ := bind_ok h
    obtain rfl := Except.ok.inj h
    rw [List.length_cons, List.length_cons, ih hrest]

/-- What a channel without losses takes and gives back. -/
theorem encryptRSARawMsg_lossless {pub : PublicKeyClass} {prc : PrivateKeyClass}
    (hkey : Lossless pub prc) {rdt : RawData} (hsize : rdt.size ≤ rdt.data.length) : ∃ content :
    Bytes, content.length = 8 * rdt.size ∧
      encryptRSARawMsg rdt pub = .ok { rdt with data := content, size := rdt.size * 8 } ∧
      ∀ prdt : RawData, prdt.data = content → prdt.size = content.length → ∃ trdt,
        decryptRSARawMsg prdt prc = .ok trdt ∧ trdt.data = rdt.data.take rdt.size ∧
        trdt.size = trdt.data.length := by
  obtain ⟨sent, back, hsent, hback, hdata, -⟩ := hkey rdt hsize
  obtain ⟨content, hcontent, h⟩ := bind_ok hsent
  obtain rfl := Except.ok.inj h
  have hlen : content.length = 8 * rdt.size := by
    obtain ⟨⟨message, rest⟩, hread, h⟩ := bind_ok hcontent
    obtain ⟨words, hwords, h⟩ := bind_ok h
    obtain rfl := Except.ok.inj h
    rw [readBytes, if_neg (by omega)] at hread
    obtain ⟨rfl, -⟩ := Prod.mk.inj (Except.ok.inj hread)
    have hcount := length_of_mapM hwords
    rw [List.length_take, Nat.min_eq_left hsize] at hcount
    simp [List.length_flatMap, hcount, Nat.mul_comm]
  refine ⟨content, hlen, hsent, ?_⟩
  intro prdt hprdt hpsize
  obtain ⟨data, hdec, h⟩ := bind_ok hback
  obtain rfl := Except.ok.inj h
  have hmul : prdt.size = rdt.size * 8 := by omega
  have hshort : (rdt.data.take rdt.size).length = rdt.size := by
    rw [List.length_take]
    omega
  refine ⟨{ prdt with data := data, size := prdt.size / 8 }, ?_, hdata, ?_⟩
  · rw [decryptRSARawMsg, hprdt, hmul, hdec]
    rfl
  · have hshort' : data.length = rdt.size := (congrArg List.length hdata).trans hshort
    change prdt.size / 8 = data.length
    omega

/-- How many bytes the labelled message of a request has: the encrypted one is eight times as
long. -/
def wireLength (preq : Request) : Nat :=
  12 + (76 + preq.type.length + preq.data.length) * (if preq.ifEncrypt then 8 else 1)

/-- The client's raw data of a request. -/
theorem requestRawData_ok {bufsiz : Nat} (hbuf : bufsiz < 2 ^ 20) {preq : Request}
    (hfit : FitsBuffer bufsiz preq) {pub : PublicKeyClass} {prc : PrivateKeyClass}
    (hkey : preq.ifEncrypt = true → Lossless pub prc) (rand64 : UInt64) : ∃ trwd label content,
      Client.requestRawData bufsiz pub rand64 preq = .ok trwd ∧ trwd.rId = rand64 ∧
      trwd.msg = labelledText label content ∧ trwd.msgSize = trwd.msg.length ∧
      trwd.msg.length = wireLength preq ∧ Yields prc preq label content := by
  rw [FitsBuffer] at hfit
  have htype : preq.type.length < 2 ^ 32 := by omega
  have hdata : preq.data.length < 2 ^ 32 := by omega
  have hlen := length_requestPacket htype hdata
  have hraw := @packet2Rawdata_ok bufsiz (requestPacket preq) (by omega) (RawData.new rand64)
  rw [Client.requestRawData, request2Packet_ok]
  simp only [bind, Except.bind, hraw]
  by_cases hencrypt : preq.ifEncrypt = true
  · obtain ⟨content, hlong, hsealed, hopen⟩ := @encryptRSARawMsg_lossless _ _ (hkey hencrypt)
      { RawData.new rand64 with
        data := packetText (requestPacket preq) ++
          List.replicate (bufsiz - (packetText (requestPacket preq)).length) 0
        size := (packetText (requestPacket preq)).length } (by simp)
    have hsigned := @signedRawdata_ok
      { RawData.new rand64 with
        data := content, size := (packetText (requestPacket preq)).length * 8 }
      rpkt content [] (by decide) (List.append_nil _).symm (by rw [hlong, Nat.mul_comm])
    rw [if_pos hencrypt, hsealed]
    refine ⟨_, rpkt, _, hsigned, rfl, rfl, rfl, ?_, yields_encrypted htype hdata ?_⟩
    · change (labelledText rpkt _).length = _
      rw [length_labelledText rfl, hlong, wireLength, if_pos hencrypt, ← hlen, Nat.mul_comm]
    · intro prdt hcontent hsize
      obtain ⟨trdt, hdec, htext, hsize'⟩ := hopen prdt hcontent hsize
      exact ⟨trdt, hdec, by rw [htext, List.take_left], hsize'⟩
  · have hsigned := @signedRawdata_ok
      { RawData.new rand64 with
        data := packetText (requestPacket preq) ++
          List.replicate (bufsiz - (packetText (requestPacket preq)).length) 0
        size := (packetText (requestPacket preq)).length }
      spkt (packetText (requestPacket preq)) _ (by decide) rfl rfl
    rw [if_neg hencrypt]
    refine ⟨_, spkt, _, hsigned, rfl, rfl, rfl, ?_, yields_plain htype hdata⟩
    change (labelledText spkt _).length = _
    rw [length_labelledText rfl, wireLength, if_neg hencrypt, ← hlen, Nat.mul_one]

theorem build_congr {b b' : NetBox} (hbId : b.bId = b'.bId) (hidx : b.idx = b'.idx)
    (hcnt : b.cnt = b'.cnt) (hdata : b.data = b'.data) : b.build = b'.build := by
  have hsize : b.dataSize = b'.dataSize := by
    apply UInt16.toNat_inj.mp
    rw [← b.sized, ← b'.sized, hdata]
  simp only [NetBox.build, hbId, hidx, hcnt, hdata, hsize]

theorem length_le_of_mem_pieces {msg p : Bytes} (h : p ∈ pieces msg) : p.length ≤ 512 := by
  induction msg using pieces.induct with
  | case1 msg hlong ih =>
    rw [pieces_long hlong, List.mem_cons] at h
    rcases h with rfl | h
    · rw [List.length_take]
      omega
    · exact ih h
  | case2 msg hlast =>
    rw [pieces_last (by omega), List.mem_singleton] at h
    obtain rfl := h
    omega

/-- The message as the receiver of its boxes takes it. -/
def splitOf (trdt : RawData) (hlong : 256 < trdt.msg.length) (hshort : trdt.msg.length < 2 ^ 24) :
    Split where
  bId := trdt.rId
  parts := pieces trdt.msg
  pos := by
    rw [length_pieces hlong]
    omega
  few := by
    rw [length_pieces hlong]
    omega
  short := by
    intro p hp
    have := length_le_of_mem_pieces hp
    omega

theorem datagrams_splitOf {trdt : RawData} (hsize : trdt.msgSize = trdt.msg.length)
    (hlong : 256 < trdt.msg.length) (hshort : trdt.msg.length < 2 ^ 24)
    (hdvd : ¬256 ∣ trdt.msg.length) :
    Client.sendRawData trdt = .ok (List.ofFn (splitOf trdt hlong hshort).datagram) := by
  obtain ⟨boxes, hsplit, hcut⟩ := splitBoxes_cut hsize hlong
  have hcount : boxes.length = (pieces trdt.msg).length := by
    rw [← hcut.data, List.length_map]
  have hmany : trdt.msgSize > 256 := by omega
  rw [Client.sendRawData, if_pos hmany, hsplit]
  refine congrArg Except.ok (List.ext_getElem ?_ ?_)
  · rw [List.length_map, List.length_ofFn, hcount]
    rfl
  · intro i hi hi'
    rw [List.length_map] at hi
    have hin : i < (pieces trdt.msg).length := by omega
    have hdata : boxes[i].data = (pieces trdt.msg)[i] := by
      have h := congrArg (fun xs => xs[i]?) hcut.data
      simpa [hi, hin] using h
    have hidx : boxes[i].idx = .ofNat i := by
      have h := congrArg (fun xs => xs[i]?) hcut.idx
      simpa [hi] using h
    have hcnt : boxes[i].cnt = .ofNat (pieces trdt.msg).length := by
      rw [hcut.cnt _ (List.getElem_mem hi), length_pieces hlong]
      congr 1
      omega
    rw [List.getElem_map, List.getElem_ofFn, Split.datagram, ← hcut.built _ (List.getElem_mem hi)]
    exact congrArg NetBox.datagram (build_congr (hcut.bId _ (List.getElem_mem hi)) hidx hcnt hdata)

end NetCpp.Proofs
