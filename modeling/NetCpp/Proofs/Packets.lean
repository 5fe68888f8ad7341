import NetCpp.RawData

namespace NetCpp.Proofs
open Library Server

/-- A block as `Packet2Rawdata` writes it. -/
def blockText (b : Block) : Bytes := word32 b.first ++ b.second

def packetText (tpkt : Packet) : Bytes := word32 tpkt.type ++ tpkt.buffs.flatMap blockText

theorem length_blockText (b : Block) : (blockText b).length = 4 + b.first.toNat := by
  simp [blockText, b.sized]

theorem length_packetText (tpkt : Packet) :
    (packetText tpkt).length = 4 + (tpkt.buffs.map (fun b => 4 + b.first.toNat)).sum := by
  simp [packetText, List.length_flatMap, length_blockText]

theorem writeBuff_ok {bufsiz : Nat} {data : Bytes} {b : Block}
    (h : (data ++ blockText b).length ≤ bufsiz) :
    writeBuff bufsiz data b = .ok (data ++ blockText b) := by
  rw [blockText, ← List.append_assoc] at h
  have hsize : (data ++ word32 b.first).length ≤ bufsiz := by
    rw [List.length_append] at h
    omega
  rw [writeBuff, writeBytes_ok hsize, blockText, ← List.append_assoc]
  exact writeBytes_ok h

theorem run_writeBuff {bufsiz : Nat} {data : Bytes} {bs : List Block}
    (h : (data ++ bs.flatMap blockText).length ≤ bufsiz) :
    run (writeBuff bufsiz) data bs = .ok (data ++ bs.flatMap blockText) := by
  induction bs generalizing data with
  | nil => simp
  | cons b bs ih =>
    rw [List.flatMap_cons, ← List.append_assoc] at h ⊢
    have hb : (data ++ blockText b).length ≤ bufsiz := by
      rw [List.length_append] at h
      omega
    rw [run_cons_ok (writeBuff_ok hb), ih h]

theorem packet2Rawdata_ok {bufsiz : Nat} {tpkt : Packet} (h : (packetText tpkt).length ≤ bufsiz)
    (rdt : RawData) : packet2Rawdata bufsiz tpkt rdt = .ok { rdt with
      data := packetText tpkt ++ List.replicate (bufsiz - (packetText tpkt).length) 0
      size := (packetText tpkt).length } := by
  have htype : ([] ++ word32 tpkt.type).length ≤ bufsiz := by
    rw [packetText, List.length_append] at h
    simp only [List.nil_append]
    omega
  rw [packet2Rawdata, writeBytes_ok htype]
  simp only [bind, Except.bind, List.nil_append]
  rw [run_writeBuff h]
  rfl

theorem writeBytes_fits {capacity : Nat} {written s data : Bytes}
    (h : writeBytes capacity written s = .ok data) : data = written ++ s ∧
    data.length ≤ capacity := by
  unfold writeBytes at h
  split at h
  · cases h
  · obtain rfl := Except.ok.inj h
    exact ⟨rfl, by omega⟩

theorem writeBuff_fits {bufsiz : Nat} {data t : Bytes} {b : Block}
    (h : writeBuff bufsiz data b = .ok t) : t = data ++ blockText b ∧ t.length ≤ bufsiz := by
  obtain ⟨u, hfirst, hsecond⟩ := bind_ok h
  obtain ⟨rfl, -⟩ := writeBytes_fits hfirst
  obtain ⟨rfl, hfits⟩ := writeBytes_fits hsecond
  exact ⟨by rw [blockText, List.append_assoc], hfits⟩

theorem run_writeBuff_fits {bufsiz : Nat} {data t : Bytes} {bs : List Block}
    (hdata : data.length ≤ bufsiz) (h : run (writeBuff bufsiz) data bs = .ok t) :
    (data ++ bs.flatMap blockText).length ≤ bufsiz := by
  induction bs generalizing data with
  | nil => simpa using hdata
  | cons b bs ih =>
    obtain ⟨u, hu, ht⟩ := run_cons_inv h
    obtain ⟨rfl, hfits⟩ := writeBuff_fits hu
    rw [List.flatMap_cons, ← List.append_assoc]
    exact ih hfits ht

/-- The writer stays inside of its buffer just if the text of the packet does. -/
theorem packet2Rawdata_iff {bufsiz : Nat} {tpkt : Packet} {rdt : RawData} :
    (∃ raw, packet2Rawdata bufsiz tpkt rdt = .ok raw) ↔ (packetText tpkt).length ≤ bufsiz := by
  constructor
  · rintro ⟨raw, h⟩
    obtain ⟨data, htype, h⟩ := bind_ok h
    obtain ⟨t, hbuffs, -⟩ := bind_ok h
    obtain ⟨rfl, hfits⟩ := writeBytes_fits htype
    exact run_writeBuff_fits hfits hbuffs
  · intro h
    exact ⟨_, packet2Rawdata_ok h rdt⟩

theorem addBuff_append {tpkt : Packet} {b : Block} (rest : Bytes) :
    tpkt.addBuff (b.second ++ rest) b.first = .ok { tpkt with buffs := tpkt.buffs ++ [b] } := by
  have hlen : b.first.toNat ≤ (b.second ++ rest).length := by
    rw [List.length_append, b.sized]
    omega
  have htake : (b.second ++ rest).take b.first.toNat = b.second := by
    rw [← b.sized, List.take_left]
  rw [Packet.addBuff, dif_pos hlen]
  simp only [htake]

/-- The read loop stands at the start of a block with just the blocks left to read. What a
block holds is skipped by its length and never looked at. -/
theorem readBuffs_text (bs : List Block) (rest : Bytes) (tpkt : Packet) :
    readBuffs (bs.flatMap blockText).length (bs.flatMap blockText ++ rest) tpkt =
      .ok { tpkt with buffs := tpkt.buffs ++ bs } := by
  induction bs generalizing tpkt with
  | nil =>
    rw [readBuffs]
    simp
  | cons b bs ih =>
    have hleft : ((b :: bs).flatMap blockText).length =
        4 + b.first.toNat + (bs.flatMap blockText).length := by
      rw [List.flatMap_cons, List.length_append, length_blockText]
    have htext : (b :: bs).flatMap blockText ++ rest =
        word32 b.first ++ (b.second ++ (bs.flatMap blockText ++ rest)) := by
      simp [blockText]
    have hdrop : (b.second ++ (bs.flatMap blockText ++ rest)).drop b.first.toNat =
        bs.flatMap blockText ++ rest := by
      rw [← b.sized, List.drop_left]
    rw [readBuffs, hleft, htext, if_neg (by omega), readWord32_append]
    simp only [addBuff_append, hdrop]
    rw [Nat.add_sub_cancel_left, ih]
    simp

theorem rawdata2Packet_text {tpkt : Packet} {trdt : RawData} {rest : Bytes}
    (hdata : trdt.data = packetText tpkt ++ rest) (hsize : trdt.size = (packetText tpkt).length) :
    rawdata2Packet {} trdt = .ok tpkt := by
  have hleft : trdt.size - 4 = (tpkt.buffs.flatMap blockText).length := by
    rw [hsize, packetText, List.length_append, length_word32]
    omega
  rw [rawdata2Packet, hdata, packetText, List.append_assoc, readWord32_append]
  simp only [bind, Except.bind]
  rw [hleft, readBuffs_text]
  rfl

/-- A message as `SignedRawdata` puts it together. -/
def labelledText (info data : Bytes) : Bytes := netc ++ (info ++ (data ++ cten))

theorem length_labelledText {info data : Bytes} (hinfo : info.length = 4) :
    (labelledText info data).length = 12 + data.length := by
  simp only [labelledText, List.length_append, hinfo, netc, cten, ascii, List.length_map,
    List.length_cons, List.length_nil]
  omega

theorem signedRawdata_ok {trdt : RawData} {info data rest : Bytes} (hinfo : 4 ≤ info.length)
    (hdata : trdt.data = data ++ rest) (hsize : trdt.size = data.length) :
    signedRawdata trdt info = .ok { trdt with
      head := some (ofWord32 netc)
      tail := some (ofWord32 cten)
      info := some (ofWord32 (info.take 4))
      msg := labelledText (info.take 4) data
      msgSize := (labelledText (info.take 4) data).length } := by
  have hfour : (info.take 4).length = 4 := by
    rw [List.length_take]
    omega
  have hread : readWord32 (info ++ [0]) = .ok (ofWord32 (info.take 4), info.drop 4 ++ [0]) := by
    have hsplit : info ++ [0] = word32 (ofWord32 (info.take 4)) ++ (info.drop 4 ++ [0]) := by
      rw [word32_ofWord32 hfour, ← List.append_assoc, List.take_append_drop]
    rw [hsplit, readWord32_append]
  rw [length_labelledText hfour, signedRawdata, hread]
  simp only [bind, Except.bind]
  rw [hdata, readBytes_append hsize.symm]
  have hnetc : word32 (ofWord32 netc) = netc := word32_ofWord32 rfl
  have hcten : word32 (ofWord32 cten) = cten := word32_ofWord32 rfl
  simp [labelledText, hnetc, hcten, word32_ofWord32 hfour, hsize, pure, Except.pure]

theorem checkRawMsg_labelledText (info data : Bytes) :
    checkRawMsg (labelledText info data) (labelledText info data).length = .ok true := by
  have hhead : equalsAt (labelledText info data) 0 netc = .ok true := by
    have := @equalsAt_append [] netc (info ++ (data ++ cten)) netc rfl
    simpa [labelledText] using this
  have htail : equalsAt (labelledText info data) ((labelledText info data).length - 4) cten =
      .ok true := by
    have := @equalsAt_append (netc ++ (info ++ data)) cten [] cten rfl
    have hpos : ((netc ++ (info ++ data)).length : Int) = (labelledText info data).length - 4 := by
      simp only [labelledText, List.length_append, netc, cten, ascii, List.length_map,
        List.length_cons, List.length_nil]
      omega
    rw [hpos] at this
    simpa [labelledText] using this
  rw [checkRawMsg, hhead]
  exact htail

/-- What `ProcessSignedRawMsg` takes from a block that is long enough for three labels. -/
theorem processSignedRawMsg_ok {msg : Bytes} (hmin : 12 ≤ msg.length) (hmax : msg.length < 2 ^ 63)
    (rdt : RawData) : processSignedRawMsg msg msg.length rdt = .ok { rdt with
      data := (msg.drop 8).take (msg.length - 12)
      size := msg.length - 12
      head := some (ofWord32 (msg.take 4))
      info := some (ofWord32 ((msg.drop 4).take 4))
      tail := some (ofWord32 ((msg.drop (msg.length - 4)).take 4)) } := by
  have hcount : toSizeT ((msg.length : Int) - 12) = msg.length - 12 := by
    rw [toSizeT]
    omega
  have hword : ∀ p : Bytes, 4 ≤ p.length → readWord32 p = .ok (ofWord32 (p.take 4), p.drop 4) := by
    intro p hp
    rw [readWord32, readBytes, if_neg (by omega)]
    rfl
  have hhead := hword msg (by omega)
  have hinfo := hword (msg.drop 4) (by rw [List.length_drop]; omega)
  have htail := hword (msg.drop (msg.length - 4)) (by rw [List.length_drop]; omega)
  have hdata : readBytes (msg.length - 12) (msg.drop 8) =
      .ok ((msg.drop 8).take (msg.length - 12), (msg.drop 8).drop (msg.length - 12)) := by
    rw [readBytes, if_neg (by rw [List.length_drop]; omega)]
  rw [processSignedRawMsg, hcount, if_neg (by omega)]
  simp only [bind, Except.bind, hhead, hinfo, hdata, htail]
  rfl

theorem processSignedRawMsg_labelledText {info data : Bytes} (hinfo : info.length = 4)
    (hmax : data.length < 2 ^ 62) (rdt : RawData) :
    processSignedRawMsg (labelledText info data) (labelledText info data).length rdt =
      .ok { rdt with
        data := data
        size := data.length
        head := some (ofWord32 netc)
        info := some (ofWord32 info)
        tail := some (ofWord32 cten) } := by
  have hlen := @length_labelledText info data hinfo
  have hsize : (labelledText info data).length - 12 = data.length := by omega
  have hnetc : netc.length = 4 := rfl
  have hhead : (labelledText info data).take 4 = netc := by
    rw [labelledText, ← hnetc, List.take_left]
  have hrest : (labelledText info data).drop 4 = info ++ (data ++ cten) := by
    rw [labelledText, ← hnetc, List.drop_left]
  have hdata : (labelledText info data).drop 8 = data ++ cten := by
    have hdrop := congrArg (List.drop 4) hrest
    rw [List.drop_drop, ← hinfo, List.drop_left, hinfo] at hdrop
    exact hdrop
  have htail : (labelledText info data).drop ((labelledText info data).length - 4) = cten := by
    have hdrop := congrArg (List.drop data.length) hdata
    rw [List.drop_drop, List.drop_left] at hdrop
    rw [hlen, ← hdrop]
    congr 1
    omega
  rw [processSignedRawMsg_ok (by omega) (by omega), hhead, hrest, hdata, htail, hsize,
    List.take_left, ← hinfo, List.take_left, hinfo]
  rfl

/-- A packet that fits the buffer can be read from what is sent and from what is received. -/
theorem carried {bufsiz : Nat} {tpkt : Packet} {info : Bytes} (hbuf : bufsiz < 2 ^ 31)
    (hfit : (packetText tpkt).length ≤ bufsiz) (hinfo : 4 ≤ info.length) (rdt trdt : RawData) :
    ∃ raw signed received,
      packet2Rawdata bufsiz tpkt rdt = .ok raw ∧
      signedRawdata raw info = .ok signed ∧
      checkRawMsg signed.msg signed.msgSize = .ok true ∧
      processSignedRawMsg signed.msg signed.msgSize trdt = .ok received ∧
      (signed.info = some (ofWord32 (info.take 4)) ∧ rawdata2Packet {} signed = .ok tpkt) ∧
      received.info = some (ofWord32 (info.take 4)) ∧ rawdata2Packet {} received = .ok tpkt := by
  have hfour : (info.take 4).length = 4 := by
    rw [List.length_take]
    omega
  refine ⟨_, _, _, packet2Rawdata_ok hfit rdt, signedRawdata_ok hinfo rfl rfl,
    checkRawMsg_labelledText _ _, processSignedRawMsg_labelledText hfour (by omega) trdt,
    ⟨rfl, rawdata2Packet_text rfl rfl⟩, rfl, ?_⟩
  refine @rawdata2Packet_text tpkt _ [] ?_ rfl
  simp

/-- A packet that fits the buffer goes through the four functions unchanged. -/
theorem rawdata2Packet_packet2Rawdata {bufsiz : Nat} {tpkt : Packet} {info : Bytes}
    (hbuf : bufsiz < 2 ^ 31) (hfit : 4 + (tpkt.buffs.map (fun b => 4 + b.first.toNat)).sum ≤ bufsiz)
    (hinfo : 4 ≤ info.length) (rdt trdt : RawData) : ∃ raw signed received,
      packet2Rawdata bufsiz tpkt rdt = .ok raw ∧
      signedRawdata raw info = .ok signed ∧
      checkRawMsg signed.msg signed.msgSize = .ok true ∧
      processSignedRawMsg signed.msg signed.msgSize trdt = .ok received ∧
      received.info.map word32 = some (info.take 4) ∧
      rawdata2Packet {} received = .ok tpkt := by
  rw [← length_packetText] at hfit
  have hfour : (info.take 4).length = 4 := by
    rw [List.length_take]
    omega
  obtain ⟨raw, signed, received, hraw, hsigned, hcheck, hreceived, -, hlabel, hread⟩ :=
    carried hbuf hfit hinfo rdt trdt
  refine ⟨raw, signed, received, hraw, hsigned, hcheck, hreceived, ?_, hread⟩
  rw [hlabel, Option.map_some, word32_ofWord32 hfour]

/-- A block that looks like the labels, an empty one and one that looks like a length. -/
def samplePacket : Packet where
  type := 0xD2A4
  buffs := [⟨8, cten ++ netc, rfl⟩, ⟨0, [], rfl⟩, ⟨4, word32 7, rfl⟩]

theorem rawdata2Packet_packet2Rawdata_sample : ∃ raw signed received,
    packet2Rawdata 8192 samplePacket (RawData.new 1) = .ok raw ∧
    signedRawdata raw (ascii ['S', 'P', 'K', 'T']) = .ok signed ∧
    checkRawMsg signed.msg signed.msgSize = .ok true ∧
    processSignedRawMsg signed.msg signed.msgSize (RawData.new 2) = .ok received ∧
    received.info.map word32 = some ((ascii ['S', 'P', 'K', 'T']).take 4) ∧
    rawdata2Packet {} received = .ok samplePacket :=
  rawdata2Packet_packet2Rawdata (by decide) (by decide) (by decide) (RawData.new 1) (RawData.new 2)

end NetCpp.Proofs
