import NetCpp.Exchange
import NetCpp.Proofs.Capacity
import NetCpp.Proofs.Registered
import NetCpp.Proofs.Responds
import NetCpp.Proofs.Uploads

namespace NetCpp.Proofs
open Library Server SqeServer

/-- The text of a request has what is asked of it. -/
structure Documented (env : Environment) (preq : Request) : Prop where
  register : preq.type = privateRequest → HasFields env preq
  key : preq.type = privateRequest → KeyFits env preq
  login : preq.type = clientLogin → HasLogin env preq

instance (env : Environment) (preq : Request) : Decidable (Documented env preq) :=
  decidable_of_iff
    ((preq.type = privateRequest → (env.registerDoc preq.data).isSome) ∧
      (preq.type = privateRequest → ∀ jdoc ∈ env.registerDoc preq.data, jdoc.key.length ≤ 64) ∧
      (preq.type = clientLogin →
        (env.loginClientId preq.data).isSome ∧ (env.loginPasswd preq.data).isSome))
    ⟨fun h => ⟨h.1, h.2.1, h.2.2⟩, fun h => ⟨h.register, h.key, h.login⟩⟩

/-- The server keeps its keys, the numbers that it knows and the passwords of its clients. -/
structure Extends (psvr psvr' : SqeServer) : Prop where
  pkc : psvr'.pkc = psvr.pkc
  prc : psvr'.prc = psvr.prc
  rids : ∀ rId, psvr.rids.contains rId = true → psvr'.rids.contains rId = true
  rows : ∀ row ∈ psvr.registerInfo,
    ∃ row' ∈ psvr'.registerInfo, row'.clientId = row.clientId ∧ row'.passwd = row.passwd

/-- What the answers to a request are, and what the server knows when it gives them. -/
inductive Answered (env : Environment) (psvr : SqeServer) (preq : Request) : Respond → Prop where
  | publicKey (htype : preq.type = publicRequest) (hdata : preq.data = requestForPublicKey) :
    Answered env psvr preq
      (respondTo preq squarePublicKey (word64 psvr.pkc.modulus ++ word64 psvr.pkc.exponent))
  | registered (htype : preq.type = privateRequest) (hknown : psvr.rids.contains preq.rId = true) :
    Answered env psvr preq (respondTo preq registerRespond statusOk)
  | login (htype : preq.type = clientLogin) {clientId passwd : Int} {row : RegisterInfo}
    (hclient : env.loginClientId preq.data = some clientId)
    (hpasswd : env.loginPasswd preq.data = some passwd) (hrow : row ∈ psvr.registerInfo)
    (hid : row.clientId = .ofInt clientId) (hsame : row.passwd = .ofInt passwd) :
    Answered env psvr preq (respondTo preq registerRespond statusOk)

section
variable {env : Environment} {psvr t : SqeServer} {preq : Request} {res : Respond}
  {handled : Handled}

theorem Extends.refl (psvr : SqeServer) : Extends psvr psvr :=
  ⟨rfl, rfl, fun _ h => h, fun row h => ⟨row, h, rfl, rfl⟩⟩

theorem Extends.trans {u : SqeServer} (h : Extends psvr t) (h' : Extends t u) : Extends psvr u where
  pkc := h'.pkc.trans h.pkc
  prc := h'.prc.trans h.prc
  rids := fun rId hrId => h'.rids rId (h.rids rId hrId)
  rows := by
    intro row hrow
    obtain ⟨row', hrow', hid, hpasswd⟩ := h.rows row hrow
    obtain ⟨row'', hrow'', hid', hpasswd'⟩ := h'.rows row' hrow'
    exact ⟨row'', hrow'', hid'.trans hid, hpasswd'.trans hpasswd⟩

/-- An answer that was right stays so. -/
theorem Answered.mono (h : Answered env psvr preq res) (hext : Extends psvr t) :
    Answered env t preq res := by
  cases h with
  | publicKey htype hdata =>
    rw [← hext.pkc]
    exact .publicKey htype hdata
  | registered htype hknown => exact .registered htype (hext.rids _ hknown)
  | login htype hclient hpasswd hrow hid hsame =>
    obtain ⟨row', hrow', hid', hsame'⟩ := hext.rows _ hrow
    exact .login htype hclient hpasswd hrow' (hid'.trans hid) (hsame'.trans hsame)

theorem Answered.rId (h : Answered env psvr preq res) : res.rId = preq.rId := by
  cases h <;> rfl

theorem Answered.tAddr (h : Answered env psvr preq res) :
    res.tAddr = setPort preq.tAddr preq.recvPort.toUInt16 := by
  cases h <;> rfl

theorem Answered.length_le (h : Answered env psvr preq res) :
    res.type.length ≤ 17 ∧ res.buff.length ≤ 16 := by
  have hkey : squarePublicKey.length = 17 ∧ registerRespond.length = 16 ∧
      statusOk.length = 15 := by decide
  cases h with
  | publicKey => simp [respondTo, length_word64, hkey]
  | registered => simp [respondTo, hkey]
  | login => simp [respondTo, hkey]

theorem extends_exec (psvr : SqeServer) (smt : Statement) : Extends psvr (psvr.exec smt) := by
  cases smt with
  | insertInfo row =>
    exact ⟨rfl, rfl, fun _ h => h, fun row h => ⟨row, List.mem_append_left _ h, rfl, rfl⟩⟩
  | updateStatus status clientId =>
    refine ⟨rfl, rfl, fun _ h => h, fun row h => ⟨_, List.mem_map.mpr ⟨row, h, rfl⟩, ?_⟩⟩
    split <;> exact ⟨rfl, rfl⟩

theorem extends_executed (psvr : SqeServer) (smt : Option Statement) :
    Extends psvr (executed psvr smt) := by
  cases smt with
  | none => exact .refl psvr
  | some smt => exact extends_exec psvr smt

theorem Effect.extends (h : Effect env psvr preq t handled) : Extends psvr t := by
  have hinsert (rId rId' : UInt64) (pclr : ClientRegister) (hrId : psvr.rids.contains rId = true) :
      (psvr.rids.insertIfNew rId' pclr).contains rId = true := by
    rw [Std.TreeMap.contains_insertIfNew, hrId, Bool.or_true]
  cases h with
  | nothing => exact ⟨rfl, rfl, fun _ h => h, fun row h => ⟨row, h, rfl, rfl⟩⟩
  | register => exact ⟨rfl, rfl, fun rId => hinsert rId _ _, fun row h => ⟨row, h, rfl, rfl⟩⟩
  | login => exact ⟨rfl, rfl, fun rId => hinsert rId _ _, fun row h => ⟨row, h, rfl, rfl⟩⟩

theorem mem_selectRegister {clientId : UInt64} {row : RegisterInfo}
    (h : psvr.selectRegister clientId = some row) :
    row ∈ psvr.registerInfo := List.mem_of_find?_eq_some h

theorem handleLogin_answered (hlogin : preq.type = clientLogin)
    (h : psvr.handleLogin env preq = .ok (t, handled))
    (hres : handled.pnr = some res) : Answered env psvr preq res := by
  rw [handleLogin] at h
  split at h
  · cases h
  rename_i clientId hclient
  split at h
  · obtain ⟨-, rfl⟩ := Prod.mk.inj (Except.ok.inj h)
    cases hres
  rename_i row hrow
  split at h
  · cases h
  rename_i passwd hpasswd
  split at h
  · obtain ⟨-, rfl⟩ := Prod.mk.inj (Except.ok.inj h)
    cases hres
  rename_i hsame
  have hright : Answered env psvr preq (respondTo preq registerRespond statusOk) :=
    .login hlogin hclient hpasswd (mem_selectRegister hrow) (selectRegister_clientId hrow)
      (not_not.mp hsame)
  simp only at h
  split at h
  · obtain ⟨-, rfl⟩ := Prod.mk.inj (Except.ok.inj h)
    obtain rfl := Option.some.inj hres
    exact hright
  · obtain ⟨-, rfl⟩ := Prod.mk.inj (Except.ok.inj h)
    obtain rfl := Option.some.inj hres
    exact hright

theorem register_known {smt : Statement} (h : psvr.register env preq = .ok (t, smt)) :
    t.rids.contains preq.rId = true := by
  rw [register] at h
  split at h
  · cases h
  · obtain ⟨key, -, h⟩ := bind_ok h
    obtain ⟨rfl, -⟩ := Prod.mk.inj (Except.ok.inj h)
    rw [Std.TreeMap.contains_insertIfNew]
    simp

theorem handle_answered (h : psvr.handle env preq = .ok (t, handled))
    (hres : handled.pnr = some res) : Answered env t preq res := by
  have hext := (handle_effect h).extends
  rw [handle] at h
  by_cases hpublic : preq.type = publicRequest
  · rw [if_pos hpublic] at h
    split at h
    · rename_i hdata
      obtain ⟨rfl, rfl⟩ := Prod.mk.inj (Except.ok.inj h)
      obtain rfl := Option.some.inj hres
      exact .publicKey hpublic hdata
    · obtain ⟨rfl, rfl⟩ := Prod.mk.inj (Except.ok.inj h)
      cases hres
  rw [if_neg hpublic] at h
  by_cases hprivate : preq.type = privateRequest
  · rw [if_pos hprivate] at h
    dsimp only at h
    by_cases hknown : psvr.rids.contains preq.rId = true
    · rw [if_pos hknown] at h
      obtain ⟨rfl, rfl⟩ := Prod.mk.inj (Except.ok.inj h)
      obtain rfl := Option.some.inj hres
      exact .registered hprivate hknown
    · rw [if_neg hknown] at h
      obtain ⟨⟨u, smt⟩, hregister, h⟩ := bind_ok h
      obtain ⟨rfl, rfl⟩ := Prod.mk.inj (Except.ok.inj h)
      obtain rfl := Option.some.inj hres
      exact .registered hprivate (register_known hregister)
  rw [if_neg hprivate] at h
  by_cases hlogin : preq.type = clientLogin
  · rw [if_pos hlogin] at h
    exact (handleLogin_answered hlogin h hres).mono hext
  · rw [if_neg hlogin] at h
    obtain ⟨rfl, rfl⟩ := Prod.mk.inj (Except.ok.inj h)
    cases hres

/-- What a pass leaves of the lists: the answers come behind what is to be sent. -/
structure Answers (env : Environment) (psvr t : SqeServer) (preqs : List Request) : Prop where
  extends_ : Extends psvr t
  packetsIn : t.packetsIn = psvr.packetsIn
  reqList : t.reqList = psvr.reqList
  packetsOut : ∀ ppkt ∈ t.packetsOut, ppkt ∈ psvr.packetsOut ∨
    ∃ preq ∈ preqs, ∃ res, Answered env t preq res ∧ ppkt = answer res

theorem processRequest_answers (hdoc : Documented env preq) :
    ∃ t, psvr.processRequest env preq = .ok t ∧ Answers env psvr t [preq] := by
  obtain ⟨u, handled, hhandle⟩ := handle_returns psvr hdoc.register
    (fun hp _ => hdoc.key hp) (fun hl => (hdoc.login hl).read psvr hl)
  have heffect := handle_effect hhandle
  have hext := heffect.extends.trans (extends_executed u handled.psqlsmt)
  have hlists : u.packetsIn = psvr.packetsIn ∧ u.reqList = psvr.reqList ∧
      u.packetsOut = psvr.packetsOut := by
    cases heffect <;> exact ⟨rfl, rfl, rfl⟩
  have hin : (executed u handled.psqlsmt).packetsIn = u.packetsIn := by
    rcases handled.psqlsmt with _ | smt | smt <;> rfl
  have hprocess : psvr.processRequest env preq = .ok { executed u handled.psqlsmt with
      packetsOut := u.packetsOut ++ (handled.pnr.map answer).toList } := by
    rw [processRequest, hhandle]
    exact commit_ok u handled
  refine ⟨_, hprocess, ⟨⟨hext.pkc, hext.prc, hext.rids, hext.rows⟩, hin.trans hlists.1,
    (executed_reqList _).trans hlists.2.1, ?_⟩⟩
  intro ppkt hppkt
  rcases List.mem_append.mp hppkt with hold | hnew
  · rw [hlists.2.2] at hold
    exact .inl hold
  · obtain ⟨res, hres, rfl⟩ := Option.mem_map.mp (Option.mem_toList.mp hnew)
    have hright := (handle_answered hhandle hres).mono (extends_executed u handled.psqlsmt)
    have hsame : Extends (executed u handled.psqlsmt) { executed u handled.psqlsmt with
        packetsOut := u.packetsOut ++ (handled.pnr.map answer).toList } :=
      ⟨rfl, rfl, fun _ h => h, fun row h => ⟨row, h, rfl, rfl⟩⟩
    exact .inr ⟨preq, List.mem_singleton_self _, res, hright.mono hsame, rfl⟩

theorem Answers.append {u : SqeServer} {preqs preqs' : List Request} (h : Answers env psvr t preqs)
    (h' : Answers env t u preqs') : Answers env psvr u (preqs ++ preqs') where
  extends_ := h.extends_.trans h'.extends_
  packetsIn := h'.packetsIn.trans h.packetsIn
  reqList := h'.reqList.trans h.reqList
  packetsOut := by
    intro ppkt hppkt
    rcases h'.packetsOut ppkt hppkt with hold | ⟨preq, hpreq, res, hres, rfl⟩
    · rcases h.packetsOut ppkt hold with hold | ⟨preq, hpreq, res, hres, rfl⟩
      · exact .inl hold
      · exact .inr ⟨preq, List.mem_append_left _ hpreq, res, hres.mono h'.extends_, rfl⟩
    · exact .inr ⟨preq, List.mem_append_right _ hpreq, res, hres, rfl⟩

theorem run_processRequest {preqs : List Request} (hdocs : ∀ preq ∈ preqs, Documented env preq) :
    ∃ t, run (processRequest env) psvr preqs = .ok t ∧ Answers env psvr t preqs := by
  have hstart : Answers env psvr psvr [] := ⟨.refl psvr, rfl, rfl, fun _ h => .inl h⟩
  refine @run_total _ _ _ (processRequest env) (fun past t => Answers env psvr t past) preqs ?_
    [] preqs psvr rfl
    hstart
  intro past preq rest t hin h
  obtain ⟨u, hu, hanswers⟩ := @processRequest_answers env t preq (hdocs preq (by simp [hin]))
  exact ⟨u, hu, h.append hanswers⟩

/-- A pass takes its requests from the list, and answers those of them that it answers. -/
theorem processRequset_answers (hdocs : ∀ preq ∈ psvr.reqList, Documented env preq) :
    ∃ t, psvr.processRequset env = .ok t ∧ Extends psvr t ∧ t.packetsIn = psvr.packetsIn ∧
      t.reqList = psvr.reqList.drop 2048 ∧ ∀ ppkt ∈ t.packetsOut, ppkt ∈ psvr.packetsOut ∨
        ∃ preq ∈ psvr.reqList, ∃ res, Answered env t preq res ∧ ppkt = answer res := by
  obtain ⟨t, ht, hanswers⟩ := @run_processRequest env psvr (psvr.reqList.take 2048)
    (fun preq hpreq => hdocs preq (List.mem_of_mem_take hpreq))
  have hext := hanswers.extends_
  have hsame : Extends t { t with reqList := psvr.reqList.drop 2048 } :=
    ⟨rfl, rfl, fun _ h => h, fun row h => ⟨row, h, rfl, rfl⟩⟩
  refine ⟨{ t with reqList := psvr.reqList.drop 2048 }, ?_, hext.trans hsame,
    hanswers.packetsIn, rfl, ?_⟩
  · rw [processRequset]
    simp only [ht, bind, Except.bind]
    rfl
  · intro ppkt hppkt
    rcases hanswers.packetsOut ppkt hppkt with hold | ⟨preq, hpreq, res, hres, rfl⟩
    · exact .inl hold
    · exact .inr ⟨preq, List.mem_of_mem_take hpreq, res, hres.mono hsame, rfl⟩

theorem extends_wait (psvr : SqeServer) (i : Nat) (good : Bool) :
    Extends psvr (psvr.wait i good) := by
  have hsame (psvr : SqeServer) (deamons : List WaitDeamon) : Extends psvr { psvr with deamons } :=
    ⟨rfl, rfl, fun _ h => h, fun row h => ⟨row, h, rfl, rfl⟩⟩
  rw [wait]
  split
  · exact .refl psvr
  · rename_i d hd
    rcases hnext : d.next good with ⟨_ | d', _ | smt⟩
    · exact hsame psvr _
    · exact (hsame psvr _).trans (extends_exec _ smt)
    · exact hsame psvr _
    · exact (hsame psvr _).trans (extends_exec _ smt)

end

/-- What the server sends for an answer. -/
def answerText (res : Respond) : Bytes := labelledText spkt (packetText (answer res).toPacket)

/-- A short answer is sent in one datagram. Its type is a text without a NUL. -/
structure Short (res : Respond) : Prop where
  named : 0 ∉ res.type
  type : res.type.length ≤ 17
  buff : res.buff.length ≤ 16

theorem Answered.short {env : Environment} {psvr : SqeServer} {preq : Request} {res : Respond}
    (h : Answered env psvr preq res) : Short res where
  named := by
    have hkey : (0 : Byte) ∉ squarePublicKey ∧ (0 : Byte) ∉ registerRespond := by decide
    cases h with
    | publicKey => exact hkey.1
    | registered => exact hkey.2
    | login => exact hkey.2
  type := h.length_le.1
  buff := h.length_le.2

section
variable {res : Respond}

theorem Short.length_packetText (h : Short res) :
    (packetText (answer res).toPacket).length ≤ 77 := by
  have htype := h.type
  have hbuff := h.buff
  have hlen := length_respond (respond2Packet_ok res)
  unfold sizeOfText at hlen
  omega

theorem Short.length_answerText (h : Short res) : (answerText res).length ≤ 89 := by
  have hlen := h.length_packetText
  rw [answerText, length_labelledText rfl]
  omega

theorem processPacketOut_answer (h : Short res) (env : Environment) {bufsiz : Nat}
    (hbuf : 256 ≤ bufsiz) (sendto : Nat → Int) (s : Queues) :
    s.processPacketOut env bufsiz sendto (answer res) = .ok { s with
      psvr := { s.psvr with drawn := s.psvr.drawn + 1 }
      sent := s.sent ++ [(res.tAddr, [answerText res])] } := by
  have hlen := h.length_packetText
  have hraw :=
    @packet2Rawdata_ok bufsiz (answer res).toPacket (by omega)
      (RawData.new (env.rand64 s.psvr.drawn))
  have hsigned := @signedRawdata_ok
    { RawData.new (env.rand64 s.psvr.drawn) with
      data := packetText (answer res).toPacket ++
        List.replicate (bufsiz - (packetText (answer res).toPacket).length) 0
      size := (packetText (answer res).toPacket).length }
    spkt (packetText (answer res).toPacket) _ (by decide) rfl rfl
  have hread : readBytes (answerText res).length (answerText res) = .ok (answerText res, []) := by
    have hall := readBytes_append (rfl : (answerText res).length = _) []
    rwa [List.append_nil] at hall
  have hfew : ¬(answerText res).length > 256 := by
    have := h.length_answerText
    omega
  have hsent (trdt : RawData) (hmsg : trdt.msg = answerText res)
      (hsize : trdt.msgSize = (answerText res).length) :
      sentRawdata sendto trdt = .ok ([answerText res], (sendto 0).bmod (2 ^ 32)) := by
    rw [sentRawdata, hmsg, hsize, if_neg hfew, hread]
    rfl
  rw [Queues.processPacketOut]
  simp only [bind, Except.bind, hraw, hsigned]
  rw [hsent _ rfl rfl]
  rfl

/-- The type of an answer is looked for behind its block. -/
theorem Short.packet2Respond (h : Short res) :
    SqeServer.packet2Respond (answer res).toPacket = .error .readOutside := by
  have htype := h.type
  have hblock : (textBlock res.type).second = res.type := textBlock_second (by omega)
  rw [packet2Respond_answer, hblock, readCString, if_neg h.named]
  rfl

/-- An answer that comes to a client is not read. -/
theorem clientRespondDeamon_answer (h : Short res) (clt : Client) (rand64 : UInt64) :
    clt.clientRespondDeamon (answerText res) rand64 = .error .readOutside := by
  have hlen := h.length_packetText
  have htext := @length_labelledText spkt (packetText (answer res).toPacket) rfl
  have hmsg :=
    @processSignedRawMsg_labelledText spkt (packetText (answer res).toPacket) rfl (by omega)
    (RawData.new rand64)
  have hpkt := @rawdata2Packet_text (answer res).toPacket { RawData.new rand64 with
    data := packetText (answer res).toPacket
    size := (packetText (answer res).toPacket).length
    head := some (ofWord32 netc)
    info := some (ofWord32 spkt)
    tail := some (ofWord32 cten) } [] (List.append_nil _).symm rfl
  have htype : (answer res).toPacket.type = respondType := rfl
  rw [Client.clientRespondDeamon, answerText, if_neg (by omega), checkRawMsg_labelledText]
  simp only [bind, Except.bind, hmsg, if_true, hpkt, htype, h.packet2Respond]

end

end NetCpp.Proofs
