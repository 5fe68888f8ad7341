import NetCpp.Proofs.Uplink

namespace NetCpp.Proofs
open Library Server SqeServer

/-- A request, the number that the client draws for its message, and where the client sends from. -/
structure Upload where
  request : Request
  rand64 : UInt64
  address : SockAddr
deriving DecidableEq

namespace Upload
variable (bufsiz : Nat) (pub : PublicKeyClass) (prc : PrivateKeyClass) (u : Upload)

/-- What the client gives its socket, each time it sends the request. -/
def datagrams : Except Fault (List Bytes) := do
  let trwd ← Client.requestRawData bufsiz pub u.rand64 u.request
  Client.sendRawData trwd

/-- One of them is this one. -/
def Sends (str : Bytes) : Prop := ∃ sent, u.datagrams bufsiz pub = .ok sent ∧ str ∈ sent

instance (str : Bytes) : Decidable (u.Sends bufsiz pub str) :=
  match h : u.datagrams bufsiz pub with
  | .error e => isFalse (by rintro ⟨sent, hsent, -⟩; rw [h] at hsent; cases hsent)
  | .ok sent => decidable_of_iff (∃ s ∈ sent, s = str) (by simp [Sends, h])

/-- The request as the server is to get it. -/
def taken : Request := takenFrom u.request u.address

/-- The packet fits the buffer, the key loses nothing, and the boxes announce how many there are. -/
structure Sound : Prop where
  fits : FitsBuffer bufsiz u.request
  key : u.request.ifEncrypt = true → Lossless pub prc
  announced : 256 < wireLength u.request → ¬256 ∣ wireLength u.request

end Upload

/-- The request that comes of an item of `rawdata_in`. -/
def requestIn (prc : PrivateKeyClass) (prdt : RawData) : Except Fault (Option Request) :=
  match prdt.address with
  | none => .ok none
  | some address => requestFrom prc prdt address

/-- The item is the upload. -/
def Brings (prc : PrivateKeyClass) (u : Upload) (prdt : RawData) : Prop :=
  requestIn prc prdt = .ok (some u.taken)

theorem assembled_labelledText {label content : Bytes} (hfour : label.length = 4)
    (hshort : content.length < 2 ^ 62) (bId : UInt64) :
    (assembled bId (labelledText label content)).data = content ∧
      (assembled bId (labelledText label content)).size = content.length ∧
      (assembled bId (labelledText label content)).info = some (ofWord32 label) := by
  have hlen := @length_labelledText label content hfour
  have hlabels : Labelled (labelledText label content) := by
    have hcheck := checkRawMsg_labelledText label content
    rw [checkRawMsg_eq (by omega)] at hcheck
    exact of_decide_eq_true (Except.ok.inj hcheck)
  have hread := processSignedRawMsg_labelledText hfour hshort (RawData.new bId)
  rw [processSignedRawMsg_ok (by omega) (by omega)] at hread
  rw [assembled, if_pos hlabels, Except.ok.inj hread]
  exact ⟨rfl, rfl, rfl⟩

theorem receivable_labelledText {label content : Bytes} (hfour : label.length = 4) :
    Receivable (labelledText label content) := by
  have hlen := @length_labelledText label content hfour
  exact ⟨by omega, fun _ => by omega⟩

theorem deliverable_splitOf {trdt : RawData} {hlong : 256 < trdt.msg.length}
    {hshort : trdt.msg.length < 2 ^ 24} (hreceivable : Receivable trdt.msg) :
    (splitOf trdt hlong hshort).Deliverable where
  fits := by
    intro i
    have hin : i.val < (pieces trdt.msg).length := i.isLt
    have hpiece := length_le_of_mem_pieces (List.getElem_mem hin)
    have hsized := ((splitOf trdt hlong hshort).box i).sized
    change (pieces trdt.msg)[i.val].length = _ at hsized
    rw [FitsDatagram]
    omega
  receivable := by
    rw [Split.msg, splitOf, flatten_pieces]
    exact hreceivable

/-- What brings an upload: the boxes of a message, or one that is short enough to need none. -/
inductive Carrier where
  | boxes (m : Split)
  | raw (text : Bytes)

def Carrier.sent : Carrier → List Bytes
  | .boxes m => List.ofFn m.datagram
  | .raw text => [text]

/-- What the server makes of it is the upload. -/
def Carries (prc : PrivateKeyClass) (u : Upload) : Carrier → Prop
  | .boxes m => m.bId = u.rand64 ∧ m.Deliverable ∧
    Brings prc u { assembled m.bId m.msg with address := some u.address }
  | .raw text => ∃ label content, text = labelledText label content ∧ content.length < 2 ^ 62 ∧
    Yields prc u.request label content

section
variable {bufsiz : Nat} {pub : PublicKeyClass} {prc : PrivateKeyClass} {u : Upload}

theorem wireLength_lt (hbuf : bufsiz < 2 ^ 20) (h : FitsBuffer bufsiz u.request) :
    wireLength u.request < 2 ^ 24 := by
  rw [FitsBuffer] at h
  rw [wireLength]
  split <;> omega

/-- A message of more than 256 bytes is sent in boxes. -/
theorem datagrams_boxes (hbuf : bufsiz < 2 ^ 20) (h : u.Sound bufsiz pub prc)
    (hlong : 256 < wireLength u.request) : ∃ m : Split, m.bId = u.rand64 ∧ m.Deliverable ∧
      u.datagrams bufsiz pub = .ok (List.ofFn m.datagram) ∧
      Brings prc u { assembled m.bId m.msg with address := some u.address } := by
  obtain ⟨trwd, label, content, hraw, hrId, hmsg, hsize, hlen, hyields⟩ :=
    requestRawData_ok hbuf h.fits h.key u.rand64
  have hlt := wireLength_lt hbuf h.fits
  have hlong' : 256 < trwd.msg.length := by omega
  have hlt' : trwd.msg.length < 2 ^ 24 := by omega
  have hdvd : ¬256 ∣ trwd.msg.length := by
    rw [hlen]
    exact h.announced hlong
  have hcontent := @length_labelledText label content hyields.four
  rw [← hmsg] at hcontent
  refine ⟨splitOf trwd hlong' hlt', hrId, deliverable_splitOf ?_, ?_, ?_⟩
  · rw [hmsg]
    exact receivable_labelledText hyields.four
  · rw [Upload.datagrams, hraw]
    exact datagrams_splitOf hsize hlong' hlt' hdvd
  · have hwhole : (splitOf trwd hlong' hlt').msg = labelledText label content := by
      rw [← hmsg]
      exact flatten_pieces trwd.msg
    rw [hwhole]
    obtain ⟨hdata, hdsize, hinfo⟩ :=
      assembled_labelledText hyields.four (by omega : content.length < 2 ^ 62)
      (splitOf trwd hlong' hlt').bId
    exact hyields.request _ u.address hdata hdsize hinfo

theorem exists_carrier (hbuf : bufsiz < 2 ^ 20) (h : u.Sound bufsiz pub prc) :
    ∃ c : Carrier, u.datagrams bufsiz pub = .ok c.sent ∧ Carries prc u c := by
  by_cases hlong : 256 < wireLength u.request
  · obtain ⟨m, hbId, hm, hsent, hbrings⟩ := datagrams_boxes hbuf h hlong
    exact ⟨.boxes m, hsent, hbId, hm, hbrings⟩
  · obtain ⟨trwd, label, content, hraw, hrId, hmsg, hsize, hlen, hyields⟩ :=
      requestRawData_ok hbuf h.fits h.key u.rand64
    have hcontent := @length_labelledText label content hyields.four
    rw [← hmsg] at hcontent
    refine ⟨.raw (labelledText label content), ?_, label, content, rfl, by omega, hyields⟩
    have hread : readBytes trwd.msgSize trwd.msg = .ok (trwd.msg, []) := by
      have h := readBytes_append hsize.symm []
      rwa [List.append_nil] at h
    have hfew : ¬trwd.msgSize > 256 := by omega
    rw [Upload.datagrams, hraw]
    simp only [bind, Except.bind]
    rw [Client.sendRawData, if_neg hfew, hread, ← hmsg]
    rfl

end

theorem put_address {l l' : BoxListener} {pnbx : NetBox} (h : l.put pnbx = .ok l') :
    l'.address = l.address := by
  unfold BoxListener.put at h
  split at h
  · cases h
  · obtain rfl := Except.ok.inj h
    rfl
  · split at h
    all_goals
      obtain rfl := Except.ok.inj h
      rfl

theorem new_address {l : BoxListener} {pnbx : NetBox} {taddr : SockAddr}
    (h : BoxListener.new pnbx taddr = .ok l) : l.address = taddr := by
  unfold BoxListener.new at h
  dsimp only at h
  split at h
  · obtain rfl := Except.ok.inj h
    rfl
  · cases h

/-- A listener has given up or pushed its message, or waits. -/
def Resting (m : Split) (l : BoxListener) : Prop := l.clicks = -1 ∨ ∃ got, Waits m got l

/-- Also a listener that has waited too long gives nothing but its message. -/
theorem Waits.process_any {m : Split} {got : Fin m.parts.length → Prop} {l : BoxListener}
    (h : Waits m got l) (hm : m.Deliverable) : ∃ l' prdt, l.process = .ok (l', prdt) ∧
      l'.address = l.address ∧ Resting m l' ∧
      ∀ rd ∈ prdt, rd = { assembled m.bId m.msg with address := some l.address } := by
  have hclicks := h.clicks
  unfold BoxListener.process
  rw [if_neg (by omega)]
  by_cases hfull : l.cnt = l.nbn
  · have hlen : Slots.filled l.boxs = l.boxs.length := by
      rw [← h.nbn, ← hfull, h.cnt, h.holds.length, Split.length_boxes]
    have hread : l.togtRawData (RawData.new l.bId) = .ok (assembled m.bId m.msg) := by
      rw [h.bId]
      exact togtRawData_full hm (h.holds.full hlen) h.cnt
    rw [if_pos hfull, hread]
    refine ⟨_, _, rfl, rfl, .inl rfl, ?_⟩
    rintro rd hrd
    obtain rfl := Option.some.inj hrd
    have hid : l.bId = (assembled m.bId m.msg).rId := by rw [h.bId, assembled_rId]
    rw [hid]
  · rw [if_neg hfull]
    split
    · refine ⟨_, _, rfl, rfl, .inr ⟨got, { h with clicks := ?_ }⟩, by simp⟩
      simp only
      omega
    · exact ⟨_, _, rfl, rfl, .inl rfl, by simp⟩

theorem process_done {l : BoxListener} (h : l.clicks = -1) : l.process = .ok (l, none) := by
  rw [BoxListener.process, if_pos (by omega)]

/-- The item is the upload, and has its number if it came in boxes. -/
def Owns (prc : PrivateKeyClass) (cs : Upload → Carrier) (u : Upload) (prdt : RawData) : Prop :=
  Brings prc u prdt ∧ ∀ m, cs u = .boxes m → prdt.rId = u.rand64

/-- Listeners are those of uploads, and wait for what comes from where these come; only whole
uploads have been pushed. -/
structure Whole (prc : PrivateKeyClass) (ups : List Upload) (cs : Upload → Carrier) (s : Server) :
    Prop where
  listener : ∀ b l, s.boxls[b]? = some l → ∃ u ∈ ups, ∃ m, cs u = .boxes m ∧ u.rand64 = b ∧
    l.address = u.address ∧ Resting m l
  raw : ∀ prdt ∈ s.rawdataIn, ∃ u ∈ ups, Owns prc cs u prdt

/-- No listener is left that is done. -/
def Open (s : Server) : Prop := ∀ (b : UInt64) (l : BoxListener), s.boxls[b]? = some l →
  l.clicks ≠ -1

section
variable {prc : PrivateKeyClass} {ups : List Upload} {cs : Upload → Carrier} {s : Server}

theorem Whole.start : Whole prc ups cs {} ∧ Open {} := by
  have hnone : ∀ b, (({} : Server).boxls)[b]? = none := fun _ => Std.TreeMap.getElem?_emptyc
  refine ⟨⟨?_, ?_⟩, ?_⟩
  · intro b l hl
    rw [hnone] at hl
    cases hl
  · intro prdt h
    cases h
  · intro b l hl
    rw [hnone] at hl
    cases hl

theorem mem_mail {prdt : RawData} {b : UInt64} :
    prdt ∈ mail s b ↔ prdt ∈ s.rawdataIn ∧ prdt.rId = b := by
  simp [mail]

/-- A step that only touches one upload. -/
theorem Whole.touched (h : Whole prc ups cs s) {u : Upload} (hu : u ∈ ups) {m : Split}
    (hm : cs u = .boxes m) {l : BoxListener} {rds : List RawData} {s' : Server}
    (ht : Touched u.rand64 l rds s s') (haddress : l.address = u.address) (hrest : Resting m l)
    (hrds : ∀ rd ∈ rds, Owns prc cs u rd) : Whole prc ups cs s' where
  listener := by
    intro b l' hl'
    by_cases hb : b = u.rand64
    · subst hb
      rw [ht.boxls] at hl'
      obtain rfl := Option.some.inj hl'
      exact ⟨u, hu, m, hm, rfl, haddress, hrest⟩
    · rw [(ht.other b hb).1] at hl'
      exact h.listener b l' hl'
  raw := by
    intro prdt hprdt
    have hmail : prdt ∈ mail s' prdt.rId := mem_mail.mpr ⟨hprdt, rfl⟩
    by_cases hb : prdt.rId = u.rand64
    · rw [hb, ht.mail] at hmail
      rcases List.mem_append.mp hmail with hold | hnew
      · exact h.raw prdt (mem_mail.mp hold).1
      · exact ⟨u, hu, hrds prdt hnew⟩
    · rw [(ht.other _ hb).2] at hmail
      exact h.raw prdt (mem_mail.mp hmail).1

theorem Open.touched (h : Open s) {b : UInt64} {l : BoxListener} {rds : List RawData} {s' : Server}
    (ht : Touched b l rds s s') (hclicks : l.clicks ≠ -1) : Open s' := by
  intro b' l' hl'
  by_cases hb : b' = b
  · subst hb
    rw [ht.boxls] at hl'
    obtain rfl := Option.some.inj hl'
    exact hclicks
  · rw [(ht.other b' hb).1] at hl'
    exact h b' l' hl'

theorem Waits.clicks_ne {m : Split} {got : Fin m.parts.length → Prop} {l : BoxListener}
    (h : Waits m got l) : l.clicks ≠ -1 := by
  have := h.clicks
  omega

/-- The listener of an upload that has one. -/
theorem Whole.own (h : Whole prc ups cs s) (hids : (ups.map Upload.rand64).Nodup) {u : Upload}
    (hu : u ∈ ups) {m : Split} (hm : cs u = .boxes m) {l : BoxListener}
    (hl : s.boxls[u.rand64]? = some l) : l.address = u.address ∧ Resting m l := by
  obtain ⟨u', hu', m', hm', hid, haddress, hrest⟩ := h.listener _ l hl
  obtain rfl := List.inj_on_of_nodup_map hids hu' hu hid
  rw [hm'] at hm
  obtain rfl := Carrier.boxes.inj hm
  exact ⟨haddress, hrest⟩

/-- A box comes, for the first time or again, before its message has been pushed or after that. -/
theorem Whole.box (h : Whole prc ups cs s) (hopen : Open s) (hids : (ups.map Upload.rand64).Nodup)
    {u : Upload} (hu : u ∈ ups) {m : Split} (hm : cs u = .boxes m) (hbId : m.bId = u.rand64)
    (hdel : m.Deliverable) (i : Fin m.parts.length) (rand64 : UInt64) :
    ∃ s', s.serverDeamon (m.datagram i) u.address rand64 = .ok s' ∧ Whole prc ups cs s' ∧
    Open s' := by
  cases hol : s.boxls[m.bId]? with
  | none =>
    obtain ⟨l, hnew, hwaits⟩ := Waits.new m i u.address
    obtain ⟨s', hs', ht⟩ := serverDeamon_new hdel rand64 hol hnew hwaits.bId
    rw [hbId] at ht
    exact ⟨s', hs', h.touched hu hm ht (new_address hnew) (.inr ⟨_, hwaits⟩) (by simp),
      hopen.touched ht hwaits.clicks_ne⟩
  | some l =>
    obtain ⟨haddress, hrest⟩ := h.own hids hu hm (hbId ▸ hol)
    obtain ⟨got, hwaits⟩ := hrest.resolve_left (hopen _ l hol)
    obtain ⟨l', hput, hwaits'⟩ := hwaits.put i
    obtain ⟨s', hs', ht⟩ := serverDeamon_put hdel u.address rand64 hol hput
    rw [hbId] at ht
    exact ⟨s', hs', h.touched hu hm ht ((put_address hput).trans haddress) (.inr ⟨_, hwaits'⟩)
      (by simp), hopen.touched ht hwaits'.clicks_ne⟩

theorem checkNetBox_labelledText (label content : Bytes) (n : Nat) :
    checkNetBox (labelledText label content) n = .ok false := by
  have hhead : equalsAt (labelledText label content) 0 netb = .ok (netc == netb) :=
    @equalsAt_append [] netc (label ++ (content ++ cten)) netb rfl
  have hne : (netc == netb) = false := by decide
  rw [checkNetBox, hhead, hne]
  rfl

/-- A short message comes. -/
theorem Whole.short (h : Whole prc ups cs s) (hopen : Open s) {u : Upload} (hu : u ∈ ups)
    {text : Bytes} (hc : cs u = .raw text) {label content : Bytes}
    (hshort : content.length < 2 ^ 62) (hyields : Yields prc u.request label content)
    (rand64 : UInt64) : ∃ s', s.serverDeamon (labelledText label content) u.address rand64 =
      .ok s' ∧ Whole prc ups cs s' ∧ Open s' := by
  have hlen := @length_labelledText label content hyields.four
  obtain ⟨ptrdt, hread, hdata, hsize, hinfo⟩ :
      ∃ ptrdt, processSignedRawMsg (labelledText label content)
      (labelledText label content).length (RawData.new rand64) = .ok ptrdt ∧ ptrdt.data = content ∧
      ptrdt.size = content.length ∧ ptrdt.info = some (ofWord32 label) :=
    ⟨_, processSignedRawMsg_labelledText hyields.four hshort _, rfl, rfl, rfl⟩
  refine ⟨{ s with rawdataIn := s.rawdataIn ++ [{ ptrdt with address := some u.address }] }, ?_,
    ⟨h.listener, ?_⟩, hopen⟩
  · rw [serverDeamon, if_neg (by omega), checkNetBox_labelledText]
    simp only [bind, Except.bind, checkRawMsg_labelledText, hread]
    rfl
  · intro prdt hprdt
    rcases List.mem_append.mp hprdt with hold | hnew
    · exact h.raw prdt hold
    · rw [List.mem_singleton.mp hnew]
      refine ⟨u, hu, hyields.request _ u.address hdata hsize hinfo, fun m hm => ?_⟩
      rw [hc] at hm
      cases hm

/-- One round of `boxProcessorDeamon`. -/
theorem Whole.processBoxl (h : Whole prc ups cs s) (hcs : ∀ u ∈ ups, Carries prc u (cs u))
    (b : UInt64) : ∃ s', s.processBoxl b = .ok s' ∧ Whole prc ups cs s' := by
  cases hol : s.boxls[b]? with
  | none =>
    refine ⟨s, ?_, h⟩
    rw [Server.processBoxl, hol]
  | some l =>
    obtain ⟨u, hu, m, hm, rfl, haddress, hrest⟩ := h.listener b l hol
    rcases hrest with hdone | ⟨got, hwaits⟩
    · obtain ⟨s', hs', ht⟩ := processBoxl_ok hol (process_done hdone) (by simp)
      exact ⟨s', hs', h.touched hu hm ht haddress (.inl hdone) (by simp)⟩
    · have hcarries := hcs u hu
      rw [hm] at hcarries
      obtain ⟨hbId, hdel, hbrings⟩ := hcarries
      obtain ⟨l', prdt, hproc, haddress', hrest', hgives⟩ := hwaits.process_any hdel
      have hid : ∀ rd ∈ prdt, rd.rId = u.rand64 := by
        intro rd hrd
        rw [hgives rd hrd]
        exact (assembled_rId m.bId m.msg).trans hbId
      obtain ⟨s', hs', ht⟩ := processBoxl_ok hol hproc hid
      refine ⟨s', hs', h.touched hu hm ht (haddress'.trans haddress) hrest' ?_⟩
      intro rd hrd
      refine ⟨?_, fun _ _ => hid rd (Option.mem_toList.mp hrd)⟩
      rw [hgives rd (Option.mem_toList.mp hrd), haddress]
      exact hbrings

theorem Whole.cleaningBoxs (h : Whole prc ups cs s) :
    Whole prc ups cs s.cleaningBoxs ∧ Open s.cleaningBoxs := by
  have hget : ∀ b : UInt64, s.cleaningBoxs.boxls[b]? =
      s.boxls[b]?.filter (fun l => decide (l.clicks ≠ -1)) := fun _ => Std.TreeMap.getElem?_filter'
  refine ⟨⟨?_, h.raw⟩, ?_⟩
  · intro b l hl
    rw [hget] at hl
    exact h.listener b l (Option.mem_filter_iff.mp hl).1
  · intro b l hl
    rw [hget] at hl
    exact of_decide_eq_true (Option.mem_filter_iff.mp hl).2

theorem Whole.boxProcessorDeamon (h : Whole prc ups cs s) (hcs : ∀ u ∈ ups, Carries prc u (cs u)) :
    ∃ s', s.boxProcessorDeamon = .ok s' ∧ Whole prc ups cs s' ∧ Open s' := by
  have hstep : ∀ done b rest t, s.boxls.keys = done ++ b :: rest → Whole prc ups cs t →
      ∃ t', t.processBoxl b = .ok t' ∧ Whole prc ups cs t' :=
    fun _ b _ _ _ ht => ht.processBoxl hcs b
  obtain ⟨t, ht, hwhole⟩ :=
    @run_total _ _ _ Server.processBoxl (fun _ => Whole prc ups cs) _ hstep []
    s.boxls.keys s rfl h
  refine ⟨t.cleaningBoxs, ?_, hwhole.cleaningBoxs⟩
  rw [Server.boxProcessorDeamon, ht]
  rfl

end

/-- A datagram is one that the client sends of an upload; the clocked threads run when they run. -/
def Uploaded (bufsiz : Nat) (pub : PublicKeyClass) (ups : List Upload) : ServerEvent → Prop
  | .datagram str taddr _ => ∃ u ∈ ups, taddr = u.address ∧ u.Sends bufsiz pub str
  | .boxProcessorDeamon | .boxsCleaningProcessorDeamon => True

instance Uploaded.decide (bufsiz : Nat) (pub : PublicKeyClass) (ups : List Upload)
    (e : ServerEvent) : Decidable (Uploaded bufsiz pub ups e) :=
  match e with
  | .datagram str taddr _ => inferInstanceAs
    (Decidable (∃ u ∈ ups, taddr = u.address ∧ u.Sends bufsiz pub str))
  | .boxProcessorDeamon => isTrue trivial
  | .boxsCleaningProcessorDeamon => isTrue trivial

section
variable {bufsiz : Nat} {pub : PublicKeyClass} {prc : PrivateKeyClass} {ups : List Upload}
  {cs : Upload → Carrier}

theorem exists_carriers (hbuf : bufsiz < 2 ^ 20) (hups : ∀ u ∈ ups, u.Sound bufsiz pub prc) :
    ∃ cs : Upload → Carrier, ∀ u ∈ ups, u.datagrams bufsiz pub = .ok (cs u).sent ∧
    Carries prc u (cs u) := by
  have hall : ∀ u : Upload, ∃ c : Carrier, u ∈ ups → u.datagrams bufsiz pub = .ok c.sent ∧
      Carries prc u c := by
    intro u
    by_cases hu : u ∈ ups
    · obtain ⟨c, hc⟩ := exists_carrier hbuf (hups u hu)
      exact ⟨c, fun _ => hc⟩
    · exact ⟨.raw [], fun h => absurd h hu⟩
  choose cs hcs using hall
  exact ⟨cs, hcs⟩

theorem Whole.step {s : Server} (h : Whole prc ups cs s) (hopen : Open s)
    (hids : (ups.map Upload.rand64).Nodup)
    (hcs : ∀ u ∈ ups, u.datagrams bufsiz pub = .ok (cs u).sent ∧ Carries prc u (cs u))
    {e : ServerEvent} (he : Uploaded bufsiz pub ups e) : ∃ s', s.step e = .ok s' ∧
    Whole prc ups cs s' ∧ Open s' := by
  cases e with
  | datagram str taddr rand64 =>
    obtain ⟨u, hu, rfl, sent, hsent, hstr⟩ := he
    obtain ⟨hown, hcarries⟩ := hcs u hu
    obtain rfl := Except.ok.inj (hown.symm.trans hsent)
    cases hc : cs u with
    | boxes m =>
      rw [hc] at hstr hcarries
      obtain ⟨i, rfl⟩ := List.mem_ofFn.mp hstr
      exact h.box hopen hids hu hc hcarries.1 hcarries.2.1 i rand64
    | raw text =>
      rw [hc] at hstr hcarries
      obtain ⟨label, content, rfl, hshort, hyields⟩ := hcarries
      rw [List.mem_singleton.mp hstr]
      exact h.short hopen hu hc hshort hyields rand64
  | boxProcessorDeamon => exact h.boxProcessorDeamon (fun u hu => (hcs u hu).2)
  | boxsCleaningProcessorDeamon => exact ⟨_, rfl, h.cleaningBoxs⟩

theorem Whole.run {events : List ServerEvent} (hids : (ups.map Upload.rand64).Nodup)
    (hcs : ∀ u ∈ ups, u.datagrams bufsiz pub = .ok (cs u).sent ∧ Carries prc u (cs u))
    (hevents : ∀ e ∈ events, Uploaded bufsiz pub ups e) :
    ∃ s, run Server.step {} events = .ok s ∧ Whole prc ups cs s := by
  have hstep : ∀ past e rest s, events = past ++ e :: rest → (Whole prc ups cs s ∧ Open s) →
      ∃ s', s.step e = .ok s' ∧ Whole prc ups cs s' ∧ Open s' := by
    rintro past e rest s rfl ⟨hwhole, hopen⟩
    exact hwhole.step hopen hids hcs (hevents e (List.mem_append_right past List.mem_cons_self))
  obtain ⟨s, hs, hwhole, -⟩ :=
    @run_total _ _ _ Server.step (fun _ s => Whole prc ups cs s ∧ Open s) _ hstep []
    events {} rfl Whole.start
  exact ⟨s, hs, hwhole⟩

end

end NetCpp.Proofs
