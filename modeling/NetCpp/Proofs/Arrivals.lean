import NetCpp.Proofs.Reassembly
import NetCpp.Library.Maps

namespace NetCpp.Proofs
open Library Server

/-- What has been pushed under an id. -/
def mail (s : Server) (b : UInt64) : List RawData := s.rawdataIn.filter (fun rd => rd.rId = b)

/-- A box of the message is among the datagrams that have come. -/
def Arrived (past : List ServerEvent) (m : Split) (i : Fin m.parts.length) : Prop :=
  ∃ taddr rand64, .datagram (m.datagram i) taddr rand64 ∈ past

section
variable {msgs : List Split} {past : List ServerEvent} {s : Server} {m : Split}

/-- Every message is at a stage of its own, and the server holds nothing else. -/
structure Inv (msgs : List Split) (past : List ServerEvent) (s : Server) : Prop where
  stage : ∀ m ∈ msgs, Stage m (Arrived past m) s.boxls[m.bId]? (mail s m.bId)
  known : ∀ b, b ∉ msgs.map Split.bId → s.boxls[b]? = none ∧ mail s b = []

theorem Inv.start (msgs : List Split) : Inv msgs [] {} where
  stage := by
    intro m hm
    have hnone : (({} : Server).boxls)[m.bId]? = none := Std.TreeMap.getElem?_emptyc
    rw [hnone]
    refine Stage.unseen ?_
    rintro i ⟨taddr, rand64, h⟩
    cases h
  known := by
    intro b hb
    exact ⟨Std.TreeMap.getElem?_emptyc, rfl⟩

/-- The new state is the old one but for what is under `b`: there the listener is `l`, and `rds`
have been pushed. -/
structure Touched (b : UInt64) (l : BoxListener) (rds : List RawData) (s s' : Server) : Prop where
  boxls : s'.boxls[b]? = some l
  mail : mail s' b = mail s b ++ rds
  other : ∀ b', b' ≠ b → s'.boxls[b']? = s.boxls[b']? ∧
    NetCpp.Proofs.mail s' b' = NetCpp.Proofs.mail s b'

/-- A step that only touches one message. -/
theorem Inv.touched {past' : List ServerEvent} {s' : Server} {l : BoxListener} {rds : List RawData}
    (h : Inv msgs past s) (hids : (msgs.map Split.bId).Nodup) (hm : m ∈ msgs)
    (ht : Touched m.bId l rds s s')
    (harr : ∀ m' ∈ msgs, m'.bId ≠ m.bId → ∀ i, Arrived past' m' i ↔ Arrived past m' i)
    (hstage : Stage m (Arrived past' m) (some l) (mail s m.bId ++ rds)) : Inv msgs past' s' where
  stage := by
    intro m' hm'
    by_cases hsame : m'.bId = m.bId
    · obtain rfl := List.inj_on_of_nodup_map hids hm' hm hsame
      rw [ht.boxls, ht.mail]
      exact hstage
    · have hgot : Arrived past' m' = Arrived past m' :=
        funext fun i => propext (harr m' hm' hsame i)
      rw [hgot, (ht.other _ hsame).1, (ht.other _ hsame).2]
      exact h.stage m' hm'
  known := by
    intro b hb
    have hne : b ≠ m.bId := by
      rintro rfl
      exact hb (List.mem_map_of_mem hm)
    rw [(ht.other b hne).1, (ht.other b hne).2]
    exact h.known b hb

theorem arrived_datagram {str : Bytes} {taddr : SockAddr} {rand64 : UInt64}
    {i : Fin m.parts.length} :
    Arrived (past ++ [.datagram str taddr rand64]) m i ↔ m.datagram i = str ∨ Arrived past m i := by
  constructor
  · rintro ⟨a, r, h⟩
    rcases List.mem_append.mp h with h | h
    · exact Or.inr ⟨a, r, h⟩
    · have he := List.mem_singleton.mp h
      exact Or.inl (ServerEvent.datagram.inj he).1
  · rintro (h | ⟨a, r, h⟩)
    · exact ⟨taddr, rand64, List.mem_append_right past (by rw [h]; exact List.mem_singleton_self _)⟩
    · exact ⟨a, r, List.mem_append_left _ h⟩

/-- A pass is no datagram. -/
theorem Inv.pass {e : ServerEvent} (h : Inv msgs past s)
    (he : ∀ str taddr rand64, e ≠ .datagram str taddr rand64) : Inv msgs (past ++ [e]) s where
  stage := by
    intro m hm
    have hgot : Arrived (past ++ [e]) m = Arrived past m := by
      funext i
      apply propext
      constructor
      · rintro ⟨a, r, h⟩
        rcases List.mem_append.mp h with h | h
        · exact ⟨a, r, h⟩
        · exact absurd (List.mem_singleton.mp h).symm (he _ a r)
      · rintro ⟨a, r, h⟩
        exact ⟨a, r, List.mem_append_left _ h⟩
    rw [hgot]
    exact h.stage m hm
  known := h.known

/-- The fragment of a message is read as it was built. -/
theorem serverDeamon_reads (hm : m.Deliverable) (i : Fin m.parts.length) :
    (m.datagram i).length ≠ 0 ∧
      checkNetBox (m.datagram i) (m.datagram i).length = .ok true ∧
      processNetBox {} (m.datagram i) = .ok (received (m.box i)) := by
  refine ⟨?_, checkNetBox_build (hm.fits i), processNetBox_build (hm.fits i)⟩
  intro h
  exact datagram_build_ne_nil (hm.fits i) (List.length_eq_zero_iff.mp h)

theorem serverDeamon_new (hm : m.Deliverable) {i : Fin m.parts.length} {taddr : SockAddr}
    {l : BoxListener} (rand64 : UInt64) (hol : s.boxls[m.bId]? = none)
    (hnew : BoxListener.new (received (m.box i)) taddr = .ok l) (hid : l.bId = m.bId) :
    ∃ s', s.serverDeamon (m.datagram i) taddr rand64 = .ok s' ∧ Touched m.bId l [] s s' := by
  obtain ⟨hne, hcheck, hread⟩ := serverDeamon_reads hm i
  refine ⟨{ s with boxls := s.boxls.insertIfNew m.bId l }, ?_, Maps.getElem?_insertIfNew_self hol,
    (List.append_nil _).symm, fun b hb => ⟨Maps.getElem?_insertIfNew_ne hb, rfl⟩⟩
  unfold serverDeamon
  rw [if_neg hne, hcheck]
  simp only [bind, Except.bind, if_true, hread, Split.box_bId, hol, hnew, hid]
  rfl

theorem serverDeamon_put (hm : m.Deliverable) {i : Fin m.parts.length} {l l' : BoxListener}
    (taddr : SockAddr) (rand64 : UInt64) (hol : s.boxls[m.bId]? = some l)
    (hput : l.put (received (m.box i)) = .ok l') :
    ∃ s', s.serverDeamon (m.datagram i) taddr rand64 = .ok s' ∧ Touched m.bId l' [] s s' := by
  obtain ⟨hne, hcheck, hread⟩ := serverDeamon_reads hm i
  refine ⟨{ s with boxls := s.boxls.insert m.bId l' }, ?_, Std.TreeMap.getElem?_insert_self,
    (List.append_nil _).symm, fun b hb => ⟨Maps.getElem?_insert_ne hb, rfl⟩⟩
  unfold serverDeamon
  rw [if_neg hne, hcheck]
  simp only [bind, Except.bind, if_true, hread, Split.box_bId, hol, hput]
  rfl

theorem processBoxl_ok {b : UInt64} {l l' : BoxListener} {prdt : Option RawData}
    (hol : s.boxls[b]? = some l) (hproc : l.process = .ok (l', prdt))
    (hid : ∀ rd ∈ prdt, rd.rId = b) :
    ∃ s', s.processBoxl b = .ok s' ∧ Touched b l' prdt.toList s s' := by
  refine ⟨{ rawdataIn := s.rawdataIn ++ prdt.toList, boxls := s.boxls.insert b l' }, ?_,
    Std.TreeMap.getElem?_insert_self, ?_, ?_⟩
  · unfold Server.processBoxl
    simp only [hol, hproc, bind, Except.bind]
    rfl
  · have hself : prdt.toList.filter (fun rd => rd.rId = b) = prdt.toList := by
      refine List.filter_eq_self.mpr (fun rd hrd => ?_)
      simpa using hid rd (Option.mem_toList.mp hrd)
    rw [mail, List.filter_append, hself, mail]
  · intro b' hb'
    have hnone : prdt.toList.filter (fun rd => rd.rId = b') = [] := by
      refine List.filter_eq_nil_iff.mpr (fun rd hrd => ?_)
      simpa [hid rd (Option.mem_toList.mp hrd)] using hb'.symm
    refine ⟨Maps.getElem?_insert_ne hb', ?_⟩
    rw [mail, List.filter_append, hnone, List.append_nil, mail]

/-- A box of a message that has not been pushed comes to its place. -/
theorem Inv.datagram (h : Inv msgs past s) (hids : (msgs.map Split.bId).Nodup)
    (hall : ∀ m ∈ msgs, m.Deliverable) (hm : m ∈ msgs) (i : Fin m.parts.length)
    (hlate : ∀ rd ∈ s.rawdataIn, rd.rId ≠ m.bId) (taddr : SockAddr) (rand64 : UInt64) :
    ∃ s', s.serverDeamon (m.datagram i) taddr rand64 = .ok s' ∧
      Inv msgs (past ++ [.datagram (m.datagram i) taddr rand64]) s' := by
  have hmail : mail s m.bId = [] := by
    refine List.filter_eq_nil_iff.mpr (fun rd hrd => ?_)
    simpa using hlate rd hrd
  have hself : Arrived (past ++ [.datagram (m.datagram i) taddr rand64]) m =
      fun j => j = i ∨ Arrived past m j := by
    funext j
    rw [arrived_datagram]
    refine propext (or_congr ⟨fun he => ?_, fun he => by rw [he]⟩ Iff.rfl)
    exact Fin.ext (Split.datagram_inj (hall m hm) (hall m hm) he).2
  have hothers : ∀ m' ∈ msgs, m'.bId ≠ m.bId → ∀ j,
      Arrived (past ++ [.datagram (m.datagram i) taddr rand64]) m' j ↔ Arrived past m' j := by
    intro m' hm' hne j
    rw [arrived_datagram]
    refine or_iff_right (fun he => ?_)
    exact hne (Split.datagram_inj (hall m' hm') (hall m hm) he).1
  have hst := h.stage m hm
  rw [hmail] at hst
  cases hol : s.boxls[m.bId]? with
  | none =>
    rw [hol] at hst
    cases hst with
    | unseen hnone =>
      obtain ⟨l, hnew, hw⟩ := Waits.new m i taddr
      obtain ⟨s', hs', ht⟩ := serverDeamon_new (hall m hm) rand64 hol hnew hw.bId
      have hgot : (fun j => j = i ∨ Arrived past m j) = fun j => j = i := by
        funext j
        exact propext (or_iff_left (hnone j))
      refine ⟨s', hs', h.touched hids hm ht hothers ?_⟩
      rw [hself, hgot, hmail]
      exact Stage.waiting hw
  | some l =>
    rw [hol] at hst
    cases hst with
    | waiting hw =>
      obtain ⟨l', hput, hw'⟩ := hw.put i
      obtain ⟨s', hs', ht⟩ := serverDeamon_put (hall m hm) taddr rand64 hol hput
      refine ⟨s', hs', h.touched hids hm ht hothers ?_⟩
      rw [hself, hmail]
      exact Stage.waiting hw'

/-- One round of `boxProcessorDeamon`. -/
theorem Inv.processBoxl (h : Inv msgs past s) (hids : (msgs.map Split.bId).Nodup)
    (hall : ∀ m ∈ msgs, m.Deliverable) {b : UInt64} {l : BoxListener} (hol : s.boxls[b]? = some l)
    (hl : Lasting l) : ∃ s' l' rds, s.processBoxl b = .ok s' ∧ Touched b l' rds s s' ∧
      Inv msgs past s' ∧ ∀ m ∈ msgs, m.bId = b → (∀ i, Arrived past m i) → mail s' b ≠ [] := by
  obtain ⟨m, hm, rfl⟩ : ∃ m ∈ msgs, m.bId = b := by
    by_contra hnot
    have hb : b ∉ msgs.map Split.bId := by
      intro hmem
      obtain ⟨m, hm, he⟩ := List.mem_map.mp hmem
      exact hnot ⟨m, hm, he⟩
    rw [(h.known b hb).1] at hol
    cases hol
  have hst := h.stage m hm
  rw [hol] at hst
  generalize hmail : mail s m.bId = rds at hst
  cases hst with
  | pushed taddr hc =>
    have hclicks : l.clicks = -1 := hc l rfl
    have hproc : l.process = .ok (l, none) := by
      rw [BoxListener.process, if_pos (by omega)]
    obtain ⟨s', hs', ht⟩ := processBoxl_ok hol hproc (by simp)
    refine ⟨s', l, _, hs', ht, h.touched hids hm ht (fun _ _ _ _ => Iff.rfl) ?_, ?_⟩
    · rw [hmail]
      exact Stage.pushed taddr hc
    · intro m' _ _ _
      rw [ht.mail, hmail]
      simp
  | waiting hw =>
    obtain ⟨l', prdt, hproc, hstage, hfull, hid⟩ := hw.process (hall m hm) hl
    obtain ⟨s', hs', ht⟩ := processBoxl_ok hol hproc hid
    refine ⟨s', l', _, hs', ht, h.touched hids hm ht (fun _ _ _ _ => Iff.rfl) ?_, ?_⟩
    · rw [hmail]
      exact hstage
    · intro m' hm' he hgot
      obtain rfl := List.inj_on_of_nodup_map hids hm' hm he
      rw [ht.mail, hmail]
      exact hfull hgot

/-- Cleaning takes away the listeners of pushed messages only. -/
theorem Inv.cleaningBoxs (h : Inv msgs past s) : Inv msgs past s.cleaningBoxs where
  stage := by
    intro m hm
    have hst := h.stage m hm
    have hget : s.cleaningBoxs.boxls[m.bId]? =
        s.boxls[m.bId]?.filter (fun l => decide (l.clicks ≠ -1)) := Std.TreeMap.getElem?_filter'
    have hmail : mail s.cleaningBoxs m.bId = mail s m.bId := rfl
    rw [hget, hmail]
    generalize s.boxls[m.bId]? = ol at hst
    generalize mail s m.bId = rds at hst
    cases hst with
    | unseen hnone => exact Stage.unseen hnone
    | @waiting l hw =>
      have hkeep : l.clicks ≠ -1 := by
        have := hw.clicks
        omega
      rw [Option.filter_some_pos (by simpa using hkeep)]
      exact Stage.waiting hw
    | pushed taddr hc =>
      refine Stage.pushed taddr (fun l hl => hc l ?_)
      exact (Option.mem_filter_iff.mp hl).1
  known := by
    intro b hb
    have hget : s.cleaningBoxs.boxls[b]? =
        s.boxls[b]?.filter (fun l => decide (l.clicks ≠ -1)) := Std.TreeMap.getElem?_filter'
    obtain ⟨hnone, hmail⟩ := h.known b hb
    rw [hget, hnone]
    exact ⟨rfl, hmail⟩

end

end NetCpp.Proofs
