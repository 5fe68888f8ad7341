import NetCpp.Proofs.Listener

namespace NetCpp.Proofs
open Library Server

section
variable {m : Split} {got : Fin m.parts.length → Prop} {l : BoxListener}

/-- The listener of a message that has `got` some of its boxes: each is in its own slot, and
`nbn` counts them. -/
structure Waits (m : Split) (got : Fin m.parts.length → Prop) (l : BoxListener) : Prop where
  bId : l.bId = m.bId
  cnt : l.cnt = m.parts.length
  nbn : l.nbn = Slots.filled l.boxs
  clicks : 0 ≤ l.clicks
  holds : Slots.Holds m.boxes l.boxs
  got : ∀ i : Fin m.parts.length, l.boxs[i.val]? = some none ↔ ¬got i

/-- The first box of a message. -/
theorem Waits.new (m : Split) (i : Fin m.parts.length) (taddr : SockAddr) :
    ∃ l, BoxListener.new (received (m.box i)) taddr = .ok l ∧ Waits m (fun j => j = i) l := by
  have hin : i.val < (List.replicate m.parts.length (none : Option NetBox)).length := by
    rw [List.length_replicate]
    exact i.isLt
  have hempty : ∀ j : Fin m.parts.length,
      (List.replicate m.parts.length (none : Option NetBox))[j.val]? = some none := by
    intro j
    rw [List.getElem?_replicate, if_pos j.isLt]
  have hholds := Slots.Holds.empty m.boxes
  rw [Split.length_boxes] at hholds
  rw [BoxListener.new, Split.box_idx, Split.box_cnt, if_pos hin]
  refine ⟨_, rfl, rfl, rfl, ?_, Int.natCast_nonneg 15, hholds.put Split.boxes_getElem?, ?_⟩
  · rw [Slots.filled_put (hempty i), Slots.filled_empty]
  · intro j
    simp only [Slots.empty_put, hempty j, and_true, Fin.ext_iff, ne_eq]
    exact not_congr eq_comm

/-- A further box, or one that is there already. -/
theorem Waits.put (h : Waits m got l) (i : Fin m.parts.length) :
    ∃ l', l.put (received (m.box i)) = .ok l' ∧ Waits m (fun j => j = i ∨ got j) l' := by
  have hlen : l.boxs.length = m.parts.length := h.holds.length.trans Split.length_boxes
  have hin : i.val < l.boxs.length := by
    rw [hlen]
    exact i.isLt
  unfold BoxListener.put
  rw [Split.box_idx]
  cases hs : l.boxs[i.val]? with
  | none => exact absurd (List.getElem?_eq_none_iff.mp hs) (by omega)
  | some o =>
    cases o with
    | some b =>
      refine ⟨l, rfl, { h with got := ?_ }⟩
      have hgot : got i := by
        by_contra hnot
        rw [(h.got i).mpr hnot] at hs
        cases hs
      intro j
      rw [h.got j]
      refine not_congr ⟨Or.inr, ?_⟩
      rintro (rfl | hj)
      · exact hgot
      · exact hj
    | none =>
      have hroom : l.nbn < l.cnt := by
        rw [h.nbn, h.cnt, ← hlen]
        exact Slots.filled_lt hs
      dsimp only
      rw [if_pos hroom]
      refine ⟨_, rfl, h.bId, h.cnt, ?_, ?_, h.holds.put Split.boxes_getElem?, ?_⟩
      · rw [Slots.filled_put hs, h.nbn]
      · have := h.clicks
        simp only
        omega
      · intro j
        simp only [Slots.empty_put, h.got j, Fin.ext_iff, ne_eq, not_or]
        exact and_congr_left' (not_congr eq_comm)

/-- `nbn` is `cnt` when all boxes are there. -/
theorem Waits.full_iff (h : Waits m got l) : l.cnt = l.nbn ↔ ∀ i, got i := by
  have hlen : l.boxs.length = m.parts.length := h.holds.length.trans Split.length_boxes
  have hcount : l.cnt = l.nbn ↔ Slots.filled l.boxs = l.boxs.length := by
    rw [h.cnt, h.nbn, hlen]
    exact eq_comm
  rw [hcount]
  constructor
  · intro hfull i
    by_contra hnot
    have := Slots.filled_lt ((h.got i).mpr hnot)
    omega
  · intro hall
    apply Slots.filled_of_all
    intro i hi
    have hgot := hall ⟨i, by omega⟩
    rw [List.getElem?_eq_getElem hi]
    cases hs : l.boxs[i] with
    | some b => exact ⟨b, rfl⟩
    | none =>
      have hnone : l.boxs[i]? = some none := by rw [List.getElem?_eq_getElem hi, hs]
      exact absurd hgot ((h.got ⟨i, by omega⟩).mp hnone)

/-- How far a message is: no box has come, it has a listener, or it has been pushed, once. -/
inductive Stage (m : Split) (got : Fin m.parts.length → Prop) :
    Option BoxListener → List RawData → Prop
  | unseen (h : ∀ i, ¬got i) : Stage m got none []
  | waiting {l : BoxListener} (h : Waits m got l) : Stage m got (some l) []
  | pushed {ol : Option BoxListener} (taddr : SockAddr) (h : ∀ l ∈ ol, l.clicks = -1) :
      Stage m got ol [{ assembled m.bId m.msg with address := some taddr }]

/-- What has been pushed has been pushed once. -/
theorem Stage.once {ol : Option BoxListener} {rds : List RawData} (h : Stage m got ol rds)
    (hne : rds ≠ []) : ∃ taddr, rds = [{ assembled m.bId m.msg with address := some taddr }] := by
  cases h with
  | unseen hnot => exact absurd rfl hne
  | waiting hw => exact absurd rfl hne
  | pushed taddr hc => exact ⟨taddr, rfl⟩

/-- The listener is complete or has a pass left. -/
def Lasting (l : BoxListener) : Prop := l.clicks = 0 → l.nbn = l.cnt

/-- What one round of `boxProcessorDeamon` makes of a listener: with all boxes there the message
is pushed, else one click is over. -/
theorem Waits.process (h : Waits m got l) (hm : m.Deliverable) (hl : Lasting l) :
    ∃ l' prdt, l.process = .ok (l', prdt) ∧ Stage m got (some l') prdt.toList ∧
      ((∀ i, got i) → prdt.toList ≠ []) ∧ ∀ rd ∈ prdt, rd.rId = m.bId := by
  have hclicks := h.clicks
  unfold BoxListener.process
  rw [if_neg (by omega)]
  by_cases hfull : l.cnt = l.nbn
  · have hlen : Slots.filled l.boxs = l.boxs.length := by
      rw [← h.nbn, ← hfull, h.cnt, h.holds.length, Split.length_boxes]
    have hread : l.togtRawData (RawData.new l.bId) = .ok (assembled m.bId m.msg) := by
      rw [h.bId]
      exact togtRawData_full hm (h.holds.full hlen) h.cnt
    rw [if_pos hfull, hread]
    refine ⟨_, _, rfl, ?_, by simp, ?_⟩
    · have hid : l.bId = (assembled m.bId m.msg).rId := by rw [h.bId, assembled_rId]
      rw [hid]
      exact Stage.pushed l.address (by simp)
    · intro rd hrd
      obtain rfl := Option.some.inj hrd
      exact h.bId
  · have hpos : l.clicks > 0 := by
      have hne : l.clicks ≠ 0 := fun hz => hfull (hl hz).symm
      omega
    rw [if_neg hfull, if_pos hpos]
    refine ⟨_, _, rfl, Stage.waiting { h with clicks := ?_ }, ?_, by simp⟩
    · simp only
      omega
    · intro hall
      exact absurd (h.full_iff.mpr hall) hfull

end

end NetCpp.Proofs
