import NetCpp.Proofs.Intact

namespace NetCpp.Proofs
open Library Server SqeServer

/-- As `Undisturbed`, for uploads: a datagram does not come after its request has been pushed, and a
pass finds no listener that has waited too long. -/
def Quiet (bufsiz : Nat) (pub : PublicKeyClass) (ups : List Upload) (s : Server) :
    ServerEvent → Prop
  | .datagram str taddr _ => ∃ u ∈ ups, taddr = u.address ∧ u.Sends bufsiz pub str ∧
    ∀ rd ∈ s.rawdataIn, rd.rId ≠ u.rand64
  | .boxProcessorDeamon => ∀ e ∈ s.boxls.toList, Lasting e.2
  | .boxsCleaningProcessorDeamon => True

instance Quiet.decide (bufsiz : Nat) (pub : PublicKeyClass) (ups : List Upload) (s : Server)
    (e : ServerEvent) : Decidable (Quiet bufsiz pub ups s e) :=
  match e with
  | .datagram str taddr _ => inferInstanceAs (Decidable (∃ u ∈ ups, taddr = u.address ∧
    u.Sends bufsiz pub str ∧ ∀ rd ∈ s.rawdataIn, rd.rId ≠ u.rand64))
  | .boxProcessorDeamon => inferInstanceAs (Decidable (∀ e ∈ s.boxls.toList, Lasting e.2))
  | .boxsCleaningProcessorDeamon => isTrue trivial

/-- Every datagram of the upload has come. -/
def AllCome (bufsiz : Nat) (pub : PublicKeyClass) (u : Upload) (past : List ServerEvent) : Prop :=
  ∀ str, u.Sends bufsiz pub str → ∃ taddr rand64, .datagram str taddr rand64 ∈ past

instance : Inhabited Split := ⟨sampleSplit⟩

section
variable {bufsiz : Nat} {pub : PublicKeyClass} {prc : PrivateKeyClass} {ups : List Upload}
  {ms : Upload → Split} {past : List ServerEvent} {s : Server}

/-- The uploads come in boxes, those of these messages. -/
structure Boxed (bufsiz : Nat) (pub : PublicKeyClass) (prc : PrivateKeyClass) (ups : List Upload)
    (ms : Upload → Split) : Prop where
  bId : ∀ u ∈ ups, (ms u).bId = u.rand64
  deliverable : ∀ u ∈ ups, (ms u).Deliverable
  datagrams : ∀ u ∈ ups, u.datagrams bufsiz pub = .ok (List.ofFn (ms u).datagram)
  brings : ∀ u ∈ ups, Brings prc u
    { assembled (ms u).bId (ms u).msg with address := some u.address }

theorem exists_boxed (hbuf : bufsiz < 2 ^ 20) (hups : ∀ u ∈ ups, u.Sound bufsiz pub prc)
    (hlong : ∀ u ∈ ups, 256 < wireLength u.request) : ∃ ms, Boxed bufsiz pub prc ups ms := by
  have hall := fun u (hu : u ∈ ups) => datagrams_boxes hbuf (hups u hu) (hlong u hu)
  choose! ms hbId hdel hsent hbrings using hall
  exact ⟨ms, hbId, hdel, hsent, hbrings⟩

namespace Boxed

theorem carries (h : Boxed bufsiz pub prc ups ms) : ∀ u ∈ ups,
    u.datagrams bufsiz pub = .ok (Carrier.boxes (ms u)).sent ∧ Carries prc u (.boxes (ms u)) :=
  fun u hu => ⟨h.datagrams u hu, h.bId u hu, h.deliverable u hu, h.brings u hu⟩

theorem map_bId (h : Boxed bufsiz pub prc ups ms) :
    (ups.map ms).map Split.bId = ups.map Upload.rand64 := by
  rw [List.map_map]
  exact List.map_congr_left h.bId

theorem nodup (h : Boxed bufsiz pub prc ups ms) (hids : (ups.map Upload.rand64).Nodup) :
    ((ups.map ms).map Split.bId).Nodup := by
  rw [h.map_bId]
  exact hids

theorem all (h : Boxed bufsiz pub prc ups ms) : ∀ m ∈ ups.map ms, m.Deliverable :=
  List.forall_mem_map.mpr h.deliverable

theorem undisturbed (h : Boxed bufsiz pub prc ups ms) {e : ServerEvent}
    (hquiet : Quiet bufsiz pub ups s e) : Undisturbed (ups.map ms) s e := by
  cases e with
  | datagram str taddr rand64 =>
    obtain ⟨u, hu, -, ⟨sent, hsent, hstr⟩, hlate⟩ := hquiet
    obtain rfl := Except.ok.inj ((h.datagrams u hu).symm.trans hsent)
    obtain ⟨i, rfl⟩ := List.mem_ofFn.mp hstr
    refine ⟨ms u, List.mem_map_of_mem hu, ⟨i, rfl⟩, ?_⟩
    rw [h.bId u hu]
    exact hlate
  | boxProcessorDeamon => exact hquiet
  | boxsCleaningProcessorDeamon => trivial

theorem uploaded {e : ServerEvent} (hquiet : Quiet bufsiz pub ups s e) :
    Uploaded bufsiz pub ups e := by
  cases e with
  | datagram str taddr rand64 =>
    obtain ⟨u, hu, haddress, hsent, -⟩ := hquiet
    exact ⟨u, hu, haddress, hsent⟩
  | boxProcessorDeamon => trivial
  | boxsCleaningProcessorDeamon => trivial

end Boxed

/-- Each upload is at its stage, and what has been pushed is whole. -/
structure Going (bufsiz : Nat) (pub : PublicKeyClass) (prc : PrivateKeyClass) (ups : List Upload)
    (ms : Upload → Split) (past : List ServerEvent) (s : Server) : Prop where
  inv : Inv (ups.map ms) past s
  whole : Whole prc ups (fun u => .boxes (ms u)) s
  opened : Open s

theorem Going.step (hboxed : Boxed bufsiz pub prc ups ms) (hids : (ups.map Upload.rand64).Nodup)
    (past : List ServerEvent) (e : ServerEvent) (s : Server)
    (h : Going bufsiz pub prc ups ms past s) (hquiet : Quiet bufsiz pub ups s e) :
    ∃ s', s.step e = .ok s' ∧ Going bufsiz pub prc ups ms (past ++ [e]) s' := by
  obtain ⟨s', hs', hinv⟩ :=
    Inv.step (hboxed.nodup hids) hboxed.all past e s h.inv (hboxed.undisturbed hquiet)
  obtain ⟨t, ht, hwhole, hopen⟩ := h.whole.step h.opened hids hboxed.carries (Boxed.uploaded hquiet)
  obtain rfl := Except.ok.inj (hs'.symm.trans ht)
  exact ⟨s', hs', hinv, hwhole, hopen⟩

theorem Stage.length_le {m : Split} {got : Fin m.parts.length → Prop} {ol : Option BoxListener}
    {rds : List RawData} (h : Stage m got ol rds) : rds.length ≤ 1 := by
  cases h with
  | unseen hnot => exact Nat.zero_le 1
  | waiting hw => exact Nat.zero_le 1
  | pushed taddr hc => exact Nat.le_refl 1

/-- Nothing has been pushed twice. -/
theorem Inv.nodup {msgs : List Split} (h : Inv msgs past s) :
    (s.rawdataIn.map RawData.rId).Nodup := by
  rw [List.nodup_iff_count_le_one]
  intro b
  have hcount : (s.rawdataIn.map RawData.rId).count b = (mail s b).length := by
    rw [List.count, List.countP_map, List.countP_eq_length_filter, mail]
    rfl
  rw [hcount]
  by_cases hb : b ∈ msgs.map Split.bId
  · obtain ⟨m, hm, rfl⟩ := List.mem_map.mp hb
    exact (h.stage m hm).length_le
  · rw [(h.known b hb).2]
    exact Nat.zero_le 1

theorem map_rand64 {us : List Upload} {prdts : List RawData}
    (h : List.Forall₂ (Owns prc fun u => .boxes (ms u)) us prdts) :
    us.map Upload.rand64 = prdts.map RawData.rId := by
  induction h with
  | nil => rfl
  | cons howns h ih => rw [List.map_cons, List.map_cons, ih, howns.2 _ rfl]

end

/-- One of the two boxes comes twice, after the other. -/
def sampleEarlier : List ServerEvent :=
  let coming := (sampleUploads.take 1).flatMap sampleComing
  .boxProcessorDeamon :: coming.reverse ++ .boxsCleaningProcessorDeamon :: coming.take 1

end NetCpp.Proofs
