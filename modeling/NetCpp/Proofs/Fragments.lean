import NetCpp.NetBox

namespace NetCpp.Proofs
open Library

/-- The pieces of a message: 256 bytes each while more than 512 are left, then the rest. -/
def pieces (msg : Bytes) : List Bytes :=
  if 512 < msg.length then msg.take 256 :: pieces (msg.drop 256) else [msg]
termination_by msg.length

theorem pieces_long {msg : Bytes} (h : 512 < msg.length) :
    pieces msg = msg.take 256 :: pieces (msg.drop 256) := by
  rw [pieces, if_pos h]

theorem pieces_last {msg : Bytes} (h : msg.length ≤ 512) : pieces msg = [msg] := by
  rw [pieces, if_neg (by omega)]

theorem flatten_pieces (msg : Bytes) : (pieces msg).flatten = msg := by
  induction msg using pieces.induct with
  | case1 msg h ih => rw [pieces_long h, List.flatten_cons, ih, List.take_append_drop]
  | case2 msg h => rw [pieces_last (by omega), List.flatten_singleton]

/-- The last piece takes the place of two. -/
theorem length_pieces {msg : Bytes} (h : 256 < msg.length) :
    (pieces msg).length = (msg.length - 1) / 256 := by
  induction msg using pieces.induct with
  | case1 msg hlong ih =>
    have hrest : 256 < (msg.drop 256).length := by
      rw [List.length_drop]
      omega
    rw [pieces_long hlong, List.length_cons, ih hrest, List.length_drop]
    omega
  | case2 msg hlast =>
    rw [pieces_last (by omega), List.length_singleton]
    omega

theorem set_ok {nnb : NetBox} {pbuff : Bytes} {n : Nat} (hn : n ≤ pbuff.length) (h16 : n < 2 ^ 16) :
    ∃ hs, nnb.set pbuff (.ofNat n) =
      .ok { nnb with data := pbuff.take n, dataSize := .ofNat n, sized := hs } := by
  have hsize : (UInt16.ofNat n).toNat = n := by
    rw [UInt16.toNat_ofNat']
    exact Nat.mod_eq_of_lt h16
  have hin : (UInt16.ofNat n).toNat ≤ pbuff.length := by omega
  refine ⟨by rw [hsize, List.length_take]; omega, ?_⟩
  rw [NetBox.set, dif_pos hin]
  simp only [hsize]

/-- Fragments with the pieces of a message, numbered from `k` on, all built. -/
structure Cut (trdt : RawData) (cnt k : Nat) (msg : Bytes) (boxes : List NetBox) : Prop where
  data : boxes.map NetBox.data = pieces msg
  idx : boxes.map NetBox.idx = (List.range' k boxes.length).map UInt16.ofNat
  cnt : ∀ b ∈ boxes, b.cnt = .ofNat cnt
  bId : ∀ b ∈ boxes, b.bId = trdt.rId
  built : ∀ b ∈ boxes, b.build = b

theorem sendBoxes_done {trdt : RawData} {c fuel aidx bidx tmpIdx : Nat} {alls : Int}
    (h : ¬bidx < trdt.msgSize - 1) : sendBoxes trdt c fuel aidx bidx alls tmpIdx = .ok [] := by
  unfold sendBoxes
  rw [if_neg h]

/-- The loop stands before the piece `k` of the message, with at least 257 bytes to go: it is
the running remainder `alls` that tells whether two pieces are left. -/
theorem sendBoxes_cut {trdt : RawData} {c fuel k bidx : Nat} {rest : Bytes}
    (hsize : trdt.msgSize = trdt.msg.length) (hrest : trdt.msg.drop (256 * k) = rest)
    (hlen : 256 < rest.length) (hfuel : rest.length ≤ 256 * fuel) (hbidx : bidx ≤ 256 * k) :
    ∃ boxes, sendBoxes trdt c fuel (256 * k) bidx rest.length k = .ok boxes ∧
      Cut trdt c k rest boxes := by
  induction fuel generalizing k bidx rest with
  | zero => omega
  | succ fuel ih =>
    have hn : trdt.msgSize = 256 * k + rest.length := by
      rw [hsize, ← hrest, List.length_drop]
      rw [← hrest, List.length_drop] at hlen
      omega
    have hin : bidx < trdt.msgSize - 1 := by omega
    rw [sendBoxes, if_pos hin]
    dsimp only
    rw [hrest]
    by_cases hlong : 512 < rest.length
    · have halls : (rest.length : Int) - 256 > 256 := by omega
      have hcount : 256 * k + 255 - 256 * k + 1 = 256 := by omega
      obtain ⟨hs, hset⟩ := @set_ok
        { bId := trdt.rId, cnt := .ofNat c, idx := .ofNat k } rest 256 (by omega) (by decide)
      have hdrop : trdt.msg.drop (256 * (k + 1)) = rest.drop 256 := by
        rw [← hrest, List.drop_drop, Nat.mul_succ]
      have hless : (rest.drop 256).length = rest.length - 256 := List.length_drop
      have halls' : ((rest.drop 256).length : Int) = rest.length - 256 := by omega
      obtain ⟨boxes, hsent, hcut⟩ := @ih (k + 1) (256 * k + 255) (rest.drop 256) hdrop (by omega)
        (by omega) (by omega)
      rw [halls', Nat.mul_succ] at hsent
      rw [if_pos halls, hcount, hset]
      simp only [bind, Except.bind, pure, Except.pure, hsent]
      refine ⟨_, rfl, ?_, ?_, ?_, ?_, ?_⟩
      · rw [List.map_cons, hcut.data, pieces_long hlong]
        rfl
      · rw [List.map_cons, hcut.idx, List.length_cons, List.range'_succ, List.map_cons]
        rfl
      · exact List.forall_mem_cons.mpr ⟨rfl, hcut.cnt⟩
      · exact List.forall_mem_cons.mpr ⟨rfl, hcut.bId⟩
      · exact List.forall_mem_cons.mpr ⟨rfl, hcut.built⟩
    · have halls : ¬((rest.length : Int) - 256 > 256) := by omega
      have hcount : trdt.msgSize - 1 - 256 * k + 1 = rest.length := by omega
      obtain ⟨hs, hset⟩ := @set_ok
        { bId := trdt.rId, cnt := .ofNat c, idx := .ofNat k } rest rest.length (by omega) (by omega)
      rw [if_neg halls, hcount, hset]
      simp only [bind, Except.bind, pure, Except.pure, sendBoxes_done (Nat.lt_irrefl _)]
      refine ⟨_, rfl, ?_, rfl, ?_, ?_, ?_⟩
      · rw [pieces_last (by omega)]
        simp [NetBox.build]
      · exact List.forall_mem_singleton.mpr rfl
      · exact List.forall_mem_singleton.mpr rfl
      · exact List.forall_mem_singleton.mpr rfl

theorem splitBoxes_cut {trdt : RawData} (hsize : trdt.msgSize = trdt.msg.length)
    (hlong : 256 < trdt.msg.length) :
    ∃ boxes, splitBoxes trdt = .ok boxes ∧ Cut trdt (trdt.msg.length / 256) 0 trdt.msg boxes := by
  have hstart := @sendBoxes_cut trdt (trdt.msg.length / 256) trdt.msg.length 0 0 trdt.msg hsize
    List.drop_zero hlong (by omega) (Nat.le_refl 0)
  rw [splitBoxes, hsize]
  exact hstart

/-- What the receiver of the fragments relies on: they are numbered without a gap, together
they are the message, and each of them announces how many there are. -/
structure Announced (msg : Bytes) (boxes : List NetBox) : Prop where
  idx : boxes.map (fun b => b.idx.toNat) = List.range boxes.length
  data : boxes.flatMap NetBox.data = msg
  cnt : ∀ b ∈ boxes, b.cnt.toNat = boxes.length

theorem Cut.length {trdt : RawData} {c k : Nat} {msg : Bytes} {boxes : List NetBox}
    (h : Cut trdt c k msg boxes) (hlong : 256 < msg.length) :
    boxes.length = (msg.length - 1) / 256 := by
  rw [← length_pieces hlong, ← h.data, List.length_map]

theorem Cut.idx_toNat {trdt : RawData} {c : Nat} {msg : Bytes} {boxes : List NetBox}
    (h : Cut trdt c 0 msg boxes) (hmax : boxes.length ≤ 2 ^ 16) :
    boxes.map (fun b => b.idx.toNat) = List.range boxes.length := by
  have hidx := congrArg (List.map UInt16.toNat) h.idx
  rw [List.map_map, List.map_map, ← List.range_eq_range'] at hidx
  rw [show (fun b : NetBox => b.idx.toNat) = UInt16.toNat ∘ NetBox.idx from rfl, hidx]
  refine List.map_congr_left (fun i hi => ?_) |>.trans (List.map_id _)
  have hlt := List.mem_range.mp hi
  simp only [Function.comp_apply, UInt16.toNat_ofNat', id_eq]
  omega

theorem Cut.flatMap_data {trdt : RawData} {c k : Nat} {msg : Bytes} {boxes : List NetBox}
    (h : Cut trdt c k msg boxes) : boxes.flatMap NetBox.data = msg := by
  rw [List.flatMap_def, h.data, flatten_pieces]

/-- The count that the fragments announce is right unless 256 divides the length. -/
theorem Cut.announced_iff {trdt : RawData} {msg : Bytes} {boxes : List NetBox}
    (h : Cut trdt (msg.length / 256) 0 msg boxes) (hlong : 256 < msg.length)
    (h16 : msg.length / 256 < 2 ^ 16) : Announced msg boxes ↔ ¬256 ∣ msg.length := by
  have hlen := h.length hlong
  have hcnt : ∀ b ∈ boxes, b.cnt.toNat = msg.length / 256 := by
    intro b hb
    rw [h.cnt b hb, UInt16.toNat_ofNat']
    exact Nat.mod_eq_of_lt h16
  constructor
  · intro ha hdvd
    obtain ⟨b, hb⟩ : ∃ b, b ∈ boxes := by
      apply List.exists_mem_of_length_pos
      omega
    have hsame := ha.cnt b hb
    rw [hcnt b hb, hlen] at hsame
    omega
  · intro hdvd
    refine ⟨h.idx_toNat (by omega), h.flatMap_data, ?_⟩
    intro b hb
    rw [hcnt b hb, hlen]
    omega

/-- The fragments that the two functions send of a long message are the ones the receiver
relies on exactly when 256 does not divide its length. -/
theorem sentRawdata_announced_iff {trdt : RawData} (hsize : trdt.msgSize = trdt.msg.length)
    (hlong : 256 < trdt.msg.length) (h16 : trdt.msg.length / 256 < 2 ^ 16) (sendto : Nat → Int) :
    ∃ boxes rtn, splitBoxes trdt = .ok boxes ∧
      Server.sentRawdata sendto trdt = .ok (boxes.map NetBox.datagram, rtn) ∧
      Client.sendRawData trdt = .ok (boxes.map NetBox.datagram) ∧
      (Announced trdt.msg boxes ↔ ¬256 ∣ trdt.msg.length) := by
  obtain ⟨boxes, hsplit, hcut⟩ := splitBoxes_cut hsize hlong
  have hmany : trdt.msgSize > 256 := by omega
  refine ⟨boxes, (if boxes = [] then 0 else sendto (boxes.length - 1)).bmod (2 ^ 32),
    hsplit, ?_, ?_, hcut.announced_iff hlong h16⟩
  · rw [Server.sentRawdata, if_pos hmany, hsplit]
    rfl
  · rw [Client.sendRawData, if_pos hmany, hsplit]
    rfl

/-- A raw data of a given number of bytes, with its labels on. -/
def zeroRawData (n : Nat) : RawData :=
  let msg := Server.netc ++ ascii ['S', 'P', 'K', 'T'] ++ List.replicate n 0 ++ Server.cten
  { RawData.new 7 with msg, msgSize := msg.length }

theorem length_zeroRawData (n : Nat) : (zeroRawData n).msg.length = 12 + n := by
  simp only [zeroRawData, List.length_append, List.length_replicate, Server.netc,
    Server.cten, ascii, List.length_map, List.length_cons, List.length_nil]
  omega

theorem sentRawdata_announced_iff_513 : ∃ boxes rtn, splitBoxes (zeroRawData 501) = .ok boxes ∧
    Server.sentRawdata (fun _ => 0) (zeroRawData 501) = .ok (boxes.map NetBox.datagram, rtn) ∧
    Client.sendRawData (zeroRawData 501) = .ok (boxes.map NetBox.datagram) ∧
    (Announced (zeroRawData 501).msg boxes ↔ ¬256 ∣ (zeroRawData 501).msg.length) :=
  sentRawdata_announced_iff rfl (by rw [length_zeroRawData]; decide)
    (by rw [length_zeroRawData]; decide) (fun _ => 0)

/-- 512 bytes are sent as one fragment that announces two. -/
theorem announced_counterexample : ∃ b, splitBoxes (zeroRawData 500) = .ok [b] ∧
    Client.sendRawData (zeroRawData 500) = .ok [b.datagram] ∧
    b.cnt = 2 ∧ ¬Announced (zeroRawData 500).msg [b] := by
  have hsize : (zeroRawData 500).msg.length = 512 := length_zeroRawData 500
  obtain ⟨boxes, hsplit, hcut⟩ := @splitBoxes_cut (zeroRawData 500) rfl (by omega)
  have hlen := hcut.length (by omega)
  rw [hsize] at hlen hcut
  obtain ⟨b, rfl⟩ := List.length_eq_one_iff.mp hlen
  have hcnt : b.cnt = 2 := hcut.cnt b (List.mem_singleton_self b)
  refine ⟨b, hsplit, ?_, hcnt, ?_⟩
  · have hmany : (zeroRawData 500).msgSize > 256 := by
      rw [show (zeroRawData 500).msgSize = 512 from hsize]
      decide
    rw [Client.sendRawData, if_pos hmany, hsplit]
    rfl
  · intro h
    have := h.cnt b (List.mem_singleton_self b)
    rw [hcnt, List.length_singleton] at this
    exact absurd this (by decide)

end NetCpp.Proofs
