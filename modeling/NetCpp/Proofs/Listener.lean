import NetCpp.Server
import NetCpp.Library.Slots
import NetCpp.Proofs.Boxes
import NetCpp.Proofs.Packets

namespace NetCpp.Proofs
open Library Server

/-- A message and the parts its boxes carry, as many and as long as a box can say. -/
structure Split where
  bId : UInt64
  parts : List Bytes
  pos : 0 < parts.length
  few : parts.length < 2 ^ 16
  short : ∀ p ∈ parts, p.length < 2 ^ 16

namespace Split
variable (m : Split)

def box (i : Fin m.parts.length) : NetBox where
  bId := m.bId
  cnt := .ofNat m.parts.length
  idx := .ofNat i
  data := m.parts[i]
  dataSize := .ofNat m.parts[i].length
  sized := by
    rw [UInt16.toNat_ofNat']
    exact (Nat.mod_eq_of_lt (m.short _ (List.getElem_mem i.isLt))).symm

def datagram (i : Fin m.parts.length) : Bytes := (m.box i).build.datagram

/-- The boxes of the message as they are received, in order. -/
def boxes : List NetBox := List.ofFn (fun i => received (m.box i))

def msg : Bytes := m.parts.flatten

/-- Each datagram has a length that `sdt_size` holds, and the labels of the message, if it
has them, do not overlap. -/
structure Deliverable : Prop where
  fits : ∀ i, FitsDatagram (m.box i)
  receivable : Receivable m.msg

instance : Decidable m.Deliverable :=
  decidable_of_iff ((∀ i, FitsDatagram (m.box i)) ∧ Receivable m.msg)
    ⟨fun h => ⟨h.1, h.2⟩, fun h => ⟨h.1, h.2⟩⟩

variable {m} {i j : Fin m.parts.length}

theorem length_boxes : m.boxes.length = m.parts.length := List.length_ofFn

theorem boxes_getElem? : m.boxes[i.val]? = some (received (m.box i)) := by
  rw [boxes, List.getElem?_ofFn, dif_pos i.isLt]

theorem box_idx : (received (m.box i)).idx.toNat = i := by
  have hi := i.isLt
  have hfew := m.few
  change (UInt16.ofNat i.val).toNat = i.val
  rw [UInt16.toNat_ofNat']
  exact Nat.mod_eq_of_lt (by omega)

theorem box_cnt : (received (m.box i)).cnt.toNat = m.parts.length := by
  change (UInt16.ofNat m.parts.length).toNat = m.parts.length
  rw [UInt16.toNat_ofNat']
  exact Nat.mod_eq_of_lt m.few

theorem box_bId : (received (m.box i)).bId = m.bId := rfl

theorem map_data_boxes : m.boxes.map NetBox.data = m.parts := by
  rw [boxes, List.map_ofFn]
  exact List.ofFn_getElem

theorem map_dataSize_boxes : m.boxes.map (fun b => b.dataSize.toNat) = m.parts.map List.length := by
  rw [← map_data_boxes, List.map_map]
  exact List.map_congr_left (fun b _ => b.sized.symm)

theorem flatMap_data_boxes : m.boxes.flatMap NetBox.data = m.msg := by
  rw [List.flatMap_def, map_data_boxes, msg]

/-- The datagram tells the message and the part. -/
theorem datagram_inj {m m' : Split} {i : Fin m.parts.length} {j : Fin m'.parts.length}
    (hm : m.Deliverable) (hm' : m'.Deliverable) (h : m.datagram i = m'.datagram j) :
    m.bId = m'.bId ∧ i.val = j.val := by
  have hread := processNetBox_build (hm.fits i)
  have hread' := processNetBox_build (hm'.fits j)
  have hsame : (m.box i).build.datagram = (m'.box j).build.datagram := h
  rw [hsame, hread'] at hread
  have hbox := Except.ok.inj hread
  refine ⟨(congrArg NetBox.bId hbox).symm, ?_⟩
  have hidx := congrArg (fun b => b.idx.toNat) hbox
  simp only [box_idx] at hidx
  exact hidx.symm

/-- The sum of the sizes is below 2^32, so that `msg_size` is the length of the message. -/
theorem length_msg_lt (hm : ∀ i, FitsDatagram (m.box i)) : m.msg.length < 2 ^ 32 := by
  have hpart : ∀ n ∈ m.parts.map List.length, n ≤ 65513 := by
    intro n hn
    obtain ⟨p, hp, rfl⟩ := List.mem_map.mp hn
    obtain ⟨k, hk, rfl⟩ := List.getElem_of_mem hp
    have hfit : FitsDatagram (m.box ⟨k, hk⟩) := hm ⟨k, hk⟩
    rw [FitsDatagram, ← (m.box ⟨k, hk⟩).sized] at hfit
    have : (m.box ⟨k, hk⟩).data = m.parts[k] := rfl
    rw [this] at hfit
    omega
  have hsum := List.sum_le_card_nsmul (m.parts.map List.length) 65513 hpart
  rw [List.length_map, smul_eq_mul] at hsum
  have hfew := m.few
  rw [msg, List.length_flatten]
  omega

end Split

theorem boxs_full {l : BoxListener} {boxes : List NetBox} (hboxs : l.boxs = boxes.map some)
    (hcnt : l.cnt = boxes.length) : (List.range l.cnt).mapM l.box = .ok boxes := by
  have hbox : ∀ i ∈ List.range l.cnt, l.box i = .ok (boxes[i]?.getD {}) := by
    intro i hi
    have hlt : i < boxes.length := by
      rw [← hcnt]
      exact List.mem_range.mp hi
    simp [BoxListener.box, hboxs, List.getElem?_eq_getElem hlt]
  rw [mapM_ok hbox, hcnt]
  congr 1
  apply List.ext_getElem
  · simp
  · intro i hi hi'
    simp [hi']

theorem checkRawMsg_eq {msg : Bytes} (h : 4 ≤ msg.length) :
    checkRawMsg msg msg.length = .ok (decide (Labelled msg)) := by
  have hhead : equalsAt msg 0 netc = .ok (msg.take 4 == netc) := by
    have hlen : (msg.take 4).length = netc.length := by
      rw [List.length_take]
      exact Nat.min_eq_left h
    have hat := @equalsAt_append [] (msg.take 4) (msg.drop 4) netc hlen
    rwa [List.nil_append, List.take_append_drop] at hat
  have htail : equalsAt msg ((msg.length : Int) - 4) cten =
      .ok (msg.drop (msg.length - 4) == cten) := by
    have hlen : (msg.drop (msg.length - 4)).length = cten.length := by
      have hfour : cten.length = 4 := rfl
      rw [List.length_drop, hfour]
      omega
    have hpos : ((msg.take (msg.length - 4)).length : Int) = msg.length - 4 := by
      rw [List.length_take]
      omega
    have hat :=
      @equalsAt_append (msg.take (msg.length - 4)) (msg.drop (msg.length - 4)) [] cten hlen
    rwa [List.append_nil, List.take_append_drop, hpos] at hat
  rw [checkRawMsg, hhead]
  by_cases hnet : msg.take 4 = netc
  · simp [hnet, Labelled, bind, Except.bind, htail, beq_eq_decide]
  · simp [hnet, Labelled, bind, Except.bind, pure, Except.pure]

theorem checkRawMsg_short {msg : Bytes} (h : msg.length < 4) :
    checkRawMsg msg msg.length = .error .readOutside := by
  have hout : (0 : Int) < 0 ∨ (msg.length : Int) < 0 + netc.length := by
    right
    change (msg.length : Int) < 0 + (4 : Nat)
    omega
  rw [checkRawMsg, equalsAt, if_pos hout]
  rfl

/-- The size of the block for the data is negative, which `malloc` takes for a huge one. -/
theorem processSignedRawMsg_short {msg : Bytes} (h : msg.length < 12) (rdt : RawData) :
    processSignedRawMsg msg msg.length rdt = .error (.message "malloc error") := by
  have hcount : 2 ^ 63 ≤ toSizeT ((msg.length : Int) - 12) := by
    rw [toSizeT]
    omega
  rw [processSignedRawMsg, if_pos hcount]
  rfl

/-- What is done with the boxes of a full listener, once they are together. -/
theorem togtRawData_msg {m : Split} {l : BoxListener} (hm : ∀ i, FitsDatagram (m.box i))
    (hboxs : l.boxs = m.boxes.map some) (hcnt : l.cnt = m.parts.length) (trdt : RawData) :
    l.togtRawData trdt = (do
      if ← checkRawMsg m.msg m.msg.length then processSignedRawMsg m.msg m.msg.length trdt
      else return trdt) := by
  have hread := boxs_full hboxs (hcnt.trans Split.length_boxes.symm)
  have hsum : (m.boxes.map (fun b => b.dataSize.toNat)).sum % 2 ^ 32 = m.msg.length := by
    rw [Split.map_dataSize_boxes, ← List.length_flatten, ← Split.msg]
    exact Nat.mod_eq_of_lt (Split.length_msg_lt hm)
  rw [BoxListener.togtRawData, hread]
  simp only [bind, Except.bind, hsum, Split.flatMap_data_boxes]
  rw [if_neg (Nat.lt_irrefl _)]

theorem togtRawData_full {m : Split} {l : BoxListener} (hm : m.Deliverable)
    (hboxs : l.boxs = m.boxes.map some) (hcnt : l.cnt = m.parts.length) :
    l.togtRawData (RawData.new m.bId) = .ok (assembled m.bId m.msg) := by
  have hlt := Split.length_msg_lt hm.fits
  rw [togtRawData_msg hm.fits hboxs hcnt, checkRawMsg_eq hm.receivable.compared]
  by_cases hl : Labelled m.msg
  · have hmin := hm.receivable.labelled hl
    simp only [hl, decide_true, assembled, if_true, bind, Except.bind]
    exact processSignedRawMsg_ok hmin (by omega) (RawData.new m.bId)
  · simp [hl, assembled, bind, Except.bind, pure, Except.pure]

/-- No other message gets through. -/
theorem togtRawData_returns_iff {m : Split} {l : BoxListener} (hm : ∀ i, FitsDatagram (m.box i))
    (hboxs : l.boxs = m.boxes.map some) (hcnt : l.cnt = m.parts.length) (trdt : RawData) :
    (∃ rdt, l.togtRawData trdt = .ok rdt) ↔ Receivable m.msg := by
  rw [togtRawData_msg hm hboxs hcnt]
  have hlt := Split.length_msg_lt hm
  constructor
  · rintro ⟨rdt, h⟩
    obtain ⟨isRaw, hcheck, h⟩ := bind_ok h
    have hfour : 4 ≤ m.msg.length := by
      by_contra hshort
      rw [checkRawMsg_short (by omega)] at hcheck
      cases hcheck
    refine ⟨hfour, fun hl => ?_⟩
    rw [checkRawMsg_eq hfour] at hcheck
    obtain rfl := Except.ok.inj hcheck
    simp only [hl, decide_true, if_true] at h
    by_contra hshort
    rw [processSignedRawMsg_short (by omega)] at h
    cases h
  · intro h
    rw [checkRawMsg_eq h.compared]
    by_cases hl : Labelled m.msg
    · exact ⟨_, by
        simp only [hl, decide_true, if_true, bind, Except.bind]
        exact processSignedRawMsg_ok (h.labelled hl) (by omega) trdt⟩
    · exact ⟨trdt, by simp [hl, bind, Except.bind, pure, Except.pure]⟩

end NetCpp.Proofs
