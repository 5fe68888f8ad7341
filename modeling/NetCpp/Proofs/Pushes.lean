import NetCpp.Proofs.Arrivals

namespace NetCpp.Proofs
open Library Server

section
variable {msgs : List Split} {past : List ServerEvent} {s : Server} {m : Split}

theorem keys_nodup (t : Std.TreeMap UInt64 BoxListener) : t.keys.Nodup := by
  refine Std.TreeMap.distinct_keys.imp (fun hne he => hne ?_)
  rw [he]
  exact Std.ReflCmp.compare_self

/-- A pass pushes every message that has all its boxes. The induction is over the listeners
left to do: these are still as the pass has found them. -/
theorem Inv.boxProcessorDeamon (h : Inv msgs past s) (hids : (msgs.map Split.bId).Nodup)
    (hall : ∀ m ∈ msgs, m.Deliverable)
    (hlast : ∀ (b : UInt64) l, s.boxls[b]? = some l → Lasting l) :
    ∃ s', s.boxProcessorDeamon = .ok s' ∧ Inv msgs past s' ∧
      ∀ m ∈ msgs, (∀ i, Arrived past m i) → mail s' m.bId ≠ [] := by
  have hstep : ∀ done b rest t, s.boxls.keys = done ++ b :: rest →
      (Inv msgs past t ∧ (∀ b, b ∉ done → t.boxls[b]? = s.boxls[b]? ∧ mail t b = mail s b) ∧
        ∀ m ∈ msgs, m.bId ∈ done → (∀ i, Arrived past m i) → mail t m.bId ≠ []) →
      ∃ t', t.processBoxl b = .ok t' ∧ Inv msgs past t' ∧
        (∀ b', b' ∉ done ++ [b] → t'.boxls[b']? = s.boxls[b']? ∧ mail t' b' = mail s b') ∧
        ∀ m ∈ msgs, m.bId ∈ done ++ [b] → (∀ i, Arrived past m i) → mail t' m.bId ≠ [] := by
    rintro done b rest t hkeys ⟨hinv, hleft, hdone⟩
    have hnodup := keys_nodup s.boxls
    rw [hkeys] at hnodup
    have hnew : b ∉ done := by
      intro hmem
      exact (List.nodup_append.mp hnodup).2.2 b hmem b List.mem_cons_self rfl
    have hmem : b ∈ s.boxls := by
      rw [← Std.TreeMap.mem_keys, hkeys]
      exact List.mem_append_right done List.mem_cons_self
    have hol : s.boxls[b]? = some s.boxls[b] := Std.TreeMap.getElem?_eq_some_getElem hmem
    have hol' : t.boxls[b]? = some s.boxls[b] := (hleft b hnew).1.trans hol
    obtain ⟨t', l', rds, ht', htouch, hinv', hpush⟩ :=
      hinv.processBoxl hids hall hol' (hlast b _ hol)
    refine ⟨t', ht', hinv', ?_, ?_⟩
    · intro b' hb'
      simp only [List.mem_append, List.mem_singleton, not_or] at hb'
      rw [(htouch.other b' hb'.2).1, (htouch.other b' hb'.2).2]
      exact hleft b' hb'.1
    · intro m hm hmem' hgot
      by_cases he : m.bId = b
      · rw [he]
        exact hpush m hm he hgot
      · rw [(htouch.other _ he).2]
        have hd : m.bId ∈ done := by
          simpa [he] using hmem'
        exact hdone m hm hd hgot
  obtain ⟨t, hrun, hinv, hleft, hdone⟩ := @run_total _ _ _ Server.processBoxl
    (fun done t => Inv msgs past t ∧
      (∀ b, b ∉ done → t.boxls[b]? = s.boxls[b]? ∧ mail t b = mail s b) ∧
      ∀ m ∈ msgs, m.bId ∈ done → (∀ i, Arrived past m i) → mail t m.bId ≠ [])
    s.boxls.keys hstep [] s.boxls.keys s rfl
      ⟨h, fun _ _ => ⟨rfl, rfl⟩, fun _ _ hmem => by cases hmem⟩
  refine ⟨t.cleaningBoxs, ?_, hinv.cleaningBoxs, ?_⟩
  · rw [Server.boxProcessorDeamon, hrun]
    rfl
  · intro m hm hgot
    by_cases hkey : m.bId ∈ s.boxls.keys
    · exact hdone m hm hkey hgot
    · have hnone : s.boxls[m.bId]? = none := by
        rw [Std.TreeMap.mem_keys] at hkey
        exact Std.TreeMap.getElem?_eq_none hkey
      have hst := h.stage m hm
      have hsame : mail t.cleaningBoxs m.bId = mail s m.bId := (hleft _ hkey).2
      rw [hnone] at hst
      rw [hsame]
      generalize mail s m.bId = rds at hst
      cases hst with
      | unseen hnot => exact absurd (hgot ⟨0, m.pos⟩) (hnot ⟨0, m.pos⟩)
      | pushed taddr hc => exact List.cons_ne_nil _ _

/-- What a datagram does: nothing, a box for a listener or for a new one, or a raw message. -/
inductive DatagramEffect (s : Server) (taddr : SockAddr) : Server → Prop where
  | ignored : DatagramEffect s taddr s
  | box {pnbx : NetBox} {l l' : BoxListener} (hl : s.boxls[pnbx.bId]? = some l)
    (hput : l.put pnbx = .ok l') :
    DatagramEffect s taddr { s with boxls := s.boxls.insert pnbx.bId l' }
  | listener {pnbx : NetBox} {l' : BoxListener} (hnone : s.boxls[pnbx.bId]? = none)
    (hnew : BoxListener.new pnbx taddr = .ok l') :
    DatagramEffect s taddr { s with boxls := s.boxls.insertIfNew l'.bId l' }
  | raw (rdt : RawData) : DatagramEffect s taddr { s with rawdataIn := s.rawdataIn ++ [rdt] }

theorem serverDeamon_effect {s t : Server} {str : Bytes} {taddr : SockAddr} {rand64 : UInt64}
    (h : s.serverDeamon str taddr rand64 = .ok t) : DatagramEffect s taddr t := by
  unfold serverDeamon at h
  split at h
  · obtain rfl := Except.ok.inj h
    exact .ignored
  · obtain ⟨isBox, -, h⟩ := bind_ok h
    split at h
    · obtain ⟨pnbx, -, h⟩ := bind_ok h
      split at h
      · rename_i l hl
        obtain ⟨l', hput, h⟩ := bind_ok h
        obtain rfl := Except.ok.inj h
        exact .box hl hput
      · rename_i hnone
        obtain ⟨l', hnew, h⟩ := bind_ok h
        obtain rfl := Except.ok.inj h
        exact .listener hnone hnew
    · obtain ⟨isRaw, -, h⟩ := bind_ok h
      split at h
      · obtain ⟨ptrdt, -, h⟩ := bind_ok h
        obtain rfl := Except.ok.inj h
        exact .raw _
      · obtain rfl := Except.ok.inj h
        exact .ignored

theorem processBoxl_effect {s t : Server} {b : UInt64} (h : s.processBoxl b = .ok t) : s = t ∨
    ∃ l l' prdt, s.boxls[b]? = some l ∧ l.process = .ok (l', prdt) ∧
      t = { rawdataIn := s.rawdataIn ++ prdt.toList, boxls := s.boxls.insert b l' } := by
  unfold Server.processBoxl at h
  split at h
  · exact Or.inl (Except.ok.inj h)
  · rename_i l hl
    obtain ⟨⟨l', prdt⟩, hproc, h⟩ := bind_ok h
    exact Or.inr ⟨l, l', prdt, hl, hproc, (Except.ok.inj h).symm⟩

theorem serverDeamon_grows {s t : Server} {str : Bytes} {taddr : SockAddr} {rand64 : UInt64}
    (h : s.serverDeamon str taddr rand64 = .ok t) : s.rawdataIn <+: t.rawdataIn := by
  cases serverDeamon_effect h with
  | ignored => exact List.prefix_rfl
  | box hl hput => exact List.prefix_rfl
  | listener hnone hnew => exact List.prefix_rfl
  | raw rdt => exact List.prefix_append _ _

theorem processBoxl_grows {s t : Server} {b : UInt64} (h : s.processBoxl b = .ok t) :
    s.rawdataIn <+: t.rawdataIn := by
  obtain rfl | ⟨l, l', prdt, -, -, rfl⟩ := processBoxl_effect h
  · exact List.prefix_rfl
  · exact List.prefix_append _ _

theorem step_grows {s t : Server} {e : ServerEvent} (h : s.step e = .ok t) :
    s.rawdataIn <+: t.rawdataIn := by
  cases e with
  | datagram str taddr rand64 => exact serverDeamon_grows h
  | boxProcessorDeamon =>
    obtain ⟨u, hrun, h⟩ := bind_ok h
    obtain rfl := Except.ok.inj h
    exact run_invariant (I := fun u => s.rawdataIn <+: u.rawdataIn)
      (fun _ _ _ hp hstep => hp.trans (processBoxl_grows hstep)) List.prefix_rfl hrun
  | boxsCleaningProcessorDeamon =>
    obtain rfl := Except.ok.inj h
    exact List.prefix_rfl

theorem run_grows {s t : Server} {events : List ServerEvent}
    (h : run Server.step s events = .ok t) : s.rawdataIn <+: t.rawdataIn :=
  run_invariant (I := fun u => s.rawdataIn <+: u.rawdataIn)
    (fun _ _ _ hp hstep => hp.trans (step_grows hstep)) List.prefix_rfl h

/-- What the senders and the clocks are trusted with: datagrams are those of boxes, a box does not
come after its message has been pushed, and a pass finds no listener that has waited too long. -/
def Undisturbed (msgs : List Split) (s : Server) : ServerEvent → Prop
  | .datagram str _ _ =>
    ∃ m ∈ msgs, (∃ i, str = m.datagram i) ∧ ∀ rd ∈ s.rawdataIn, rd.rId ≠ m.bId
  | .boxProcessorDeamon => ∀ e ∈ s.boxls.toList, Lasting e.2
  | .boxsCleaningProcessorDeamon => True

instance (l : BoxListener) : Decidable (Lasting l) := inferInstanceAs (Decidable (_ → _))

instance Undisturbed.decide (msgs : List Split) (s : Server) (e : ServerEvent) :
    Decidable (Undisturbed msgs s e) :=
  match e with
  | .datagram str _ _ => inferInstanceAs
    (Decidable (∃ m ∈ msgs, (∃ i, str = m.datagram i) ∧ ∀ rd ∈ s.rawdataIn, rd.rId ≠ m.bId))
  | .boxProcessorDeamon => inferInstanceAs (Decidable (∀ e ∈ s.boxls.toList, Lasting e.2))
  | .boxsCleaningProcessorDeamon => isTrue trivial

theorem Undisturbed.lasting (h : Undisturbed msgs s .boxProcessorDeamon) {b : UInt64}
    {l : BoxListener} (hol : s.boxls[b]? = some l) : Lasting l :=
  h (b, l) (Std.TreeMap.mem_toList_iff_getElem?_eq_some.mpr hol)

theorem Inv.step (hids : (msgs.map Split.bId).Nodup) (hall : ∀ m ∈ msgs, m.Deliverable)
    (past : List ServerEvent) (e : ServerEvent) (s : Server) (h : Inv msgs past s)
    (hu : Undisturbed msgs s e) : ∃ s', s.step e = .ok s' ∧ Inv msgs (past ++ [e]) s' := by
  cases e with
  | datagram str taddr rand64 =>
    obtain ⟨m, hm, ⟨i, rfl⟩, hlate⟩ := hu
    exact h.datagram hids hall hm i hlate taddr rand64
  | boxProcessorDeamon =>
    obtain ⟨s', hs', hinv, -⟩ := h.boxProcessorDeamon hids hall (fun _ _ hol => hu.lasting hol)
    exact ⟨s', hs', hinv.pass (fun _ _ _ he => by cases he)⟩
  | boxsCleaningProcessorDeamon =>
    exact ⟨_, rfl, h.cleaningBoxs.pass (fun _ _ _ he => by cases he)⟩

end

/-- A message of three boxes, with the labels and "SPKT". -/
def sampleSplit : Split where
  bId := 5
  parts := [netc ++ ascii ['S', 'P', 'K', 'T'], [1, 2], cten]
  pos := by decide
  few := by decide
  short := by decide

/-- A message of two boxes without labels, the second of them empty. -/
def plainSplit : Split where
  bId := 3
  parts := [[9, 9, 9, 9], []]
  pos := by decide
  few := by decide
  short := by decide

def localhost : SockAddr := Vector.replicate 16 0

def comes (m : Split) (i : Fin m.parts.length) : ServerEvent := .datagram (m.datagram i) localhost 0

/-- The boxes come in disorder and twice, with passes between them. -/
def sampleEvents : List ServerEvent :=
  [comes sampleSplit ⟨2, by decide⟩, comes plainSplit ⟨1, by decide⟩, .boxProcessorDeamon,
    comes sampleSplit ⟨2, by decide⟩, comes sampleSplit ⟨0, by decide⟩,
    comes plainSplit ⟨0, by decide⟩, .boxsCleaningProcessorDeamon, comes sampleSplit ⟨1, by decide⟩]

/-- A message of two labels and nothing between them. -/
def labelsOnly : Split where
  bId := 1
  parts := [netc ++ cten]
  pos := by decide
  few := by decide
  short := by decide

end NetCpp.Proofs
