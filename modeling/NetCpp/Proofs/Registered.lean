import NetCpp.Proofs.Square

namespace NetCpp.Proofs
open Library SqeServer

variable {env : Environment} {psvr t : SqeServer} {preq : Request} {handled : Handled}

/-- The members that a private request needs. -/
def HasFields (env : Environment) (preq : Request) : Prop :=
  (env.registerDoc preq.data).isSome

/-- The key of a private request has no more items than its structure has bytes. -/
def KeyFits (env : Environment) (preq : Request) : Prop :=
  ∀ jdoc ∈ env.registerDoc preq.data, jdoc.key.length ≤ 64

/-- The key is only written for a number that is new. -/
def FitsIfNew (env : Environment) (psvr : SqeServer) (preq : Request) : Prop :=
  preq.type = privateRequest → psvr.rids.contains preq.rId = false → KeyFits env preq

def HasLogin (env : Environment) (preq : Request) : Prop :=
  (env.loginClientId preq.data).isSome ∧ (env.loginPasswd preq.data).isSome

/-- A login has the members that are read of it: the password only if the client has a row. -/
def LoginRead (env : Environment) (psvr : SqeServer) (preq : Request) : Prop :=
  preq.type = clientLogin → ∃ clientId, env.loginClientId preq.data = some clientId ∧
    ((psvr.selectRegister (.ofInt clientId)).isSome → (env.loginPasswd preq.data).isSome)

theorem HasLogin.read (h : HasLogin env preq) (psvr : SqeServer) : LoginRead env psvr preq := by
  intro hl
  obtain ⟨clientId, hid⟩ := Option.isSome_iff_exists.mp h.1
  exact ⟨clientId, hid, fun _ => h.2⟩

/-- A request that stops nothing where its turn comes. -/
def Servable (env : Environment) (psvr : SqeServer) (preq : Request) : Prop :=
  FitsIfNew env psvr preq ∧ LoginRead env psvr preq

theorem length_memory (key : AesKey256) : (key.getKey ++ key.getIV).length = 64 := by
  simp [AesKey256.getKey, AesKey256.getIV, List.length_flatMap]

theorem writeKey_ok (key : AesKey256) {items : List Int} :
    (∃ written, writeKey key items = .ok written) ↔ items.length ≤ 64 := by
  rw [writeKey]
  simp only [length_memory]
  split <;> simp <;> omega

/-- What a request needs so that nothing is read of a member that is not there, and nothing is
written outside of a key. -/
theorem handle_returns (psvr : SqeServer)
    (hprivate : preq.type = privateRequest → HasFields env preq)
    (hfits : FitsIfNew env psvr preq) (hlogin : LoginRead env psvr preq) :
    ∃ t handled, psvr.handle env preq = .ok (t, handled) := by
  rw [handle]
  by_cases hpublic : preq.type = publicRequest
  · rw [if_pos hpublic]
    split <;> exact ⟨_, _, rfl⟩
  rw [if_neg hpublic]
  by_cases hp : preq.type = privateRequest
  · obtain ⟨jdoc, hjdoc⟩ := Option.isSome_iff_exists.mp (hprivate hp)
    simp only [if_pos hp]
    split
    · exact ⟨_, _, rfl⟩
    · rename_i hknown
      have hkey := hfits hp (Bool.eq_false_of_not_eq_true hknown) jdoc hjdoc
      obtain ⟨key, hwrite⟩ := (writeKey_ok (newRegister env psvr.drawn).key).mpr hkey
      rw [SqeServer.register, hjdoc]
      simp only [bind, Except.bind, hwrite]
      exact ⟨_, _, rfl⟩
  rw [if_neg hp]
  by_cases hl : preq.type = clientLogin
  · obtain ⟨clientId, hid, hread⟩ := hlogin hl
    rw [if_pos hl, handleLogin, hid]
    simp only
    split
    · exact ⟨_, _, rfl⟩
    · rename_i row hrow
      obtain ⟨passwd, hpasswd⟩ := Option.isSome_iff_exists.mp (hread (by rw [hrow]; rfl))
      rw [hpasswd]
      simp only
      split
      · exact ⟨_, _, rfl⟩
      · split <;> exact ⟨_, _, rfl⟩
  · rw [if_neg hl]
    exact ⟨_, _, rfl⟩

/-- A request that was handled has had a key that fits, if it was written. -/
theorem handle_fits (h : psvr.handle env preq = .ok (t, handled)) : FitsIfNew env psvr preq := by
  intro hp hnew jdoc hjdoc
  have hpublic : preq.type ≠ publicRequest := by
    rw [hp]
    decide
  simp only [handle, if_neg hpublic, if_pos hp, hnew, Bool.false_eq_true, if_false,
    SqeServer.register, Option.mem_def.mp hjdoc] at h
  obtain ⟨r, h, -⟩ := bind_ok h
  obtain ⟨key, hwrite, -⟩ := bind_ok h
  exact (writeKey_ok _).mp ⟨key, hwrite⟩

/-- What was read of a login that was handled has been there. -/
theorem handle_read (h : psvr.handle env preq = .ok (t, handled)) : LoginRead env psvr preq := by
  intro hl
  have hother : preq.type ≠ publicRequest ∧ preq.type ≠ privateRequest := by
    rw [hl]
    decide
  rw [handle, if_neg hother.1, if_neg hother.2, if_pos hl, handleLogin] at h
  cases hid : env.loginClientId preq.data with
  | none =>
    rw [hid] at h
    cases h
  | some clientId =>
    refine ⟨clientId, rfl, fun hrow => ?_⟩
    obtain ⟨row, hrow⟩ := Option.isSome_iff_exists.mp hrow
    cases hpasswd : env.loginPasswd preq.data with
    | none =>
      simp only [hid, hrow, hpasswd] at h
      cases h
    | some passwd => rfl

/-- A private request is answered, whether or not its number is known. -/
theorem handle_private (hprivate : preq.type = privateRequest)
    (h : psvr.handle env preq = .ok (t, handled)) :
    handled.pnr = some (respondTo preq registerRespond statusOk) := by
  have hpublic : preq.type ≠ publicRequest := by
    rw [hprivate]
    decide
  rw [handle, if_neg hpublic, if_pos hprivate] at h
  simp only at h
  split at h
  · obtain ⟨-, rfl⟩ := Prod.mk.inj (Except.ok.inj h)
    rfl
  · obtain ⟨r, -, h⟩ := bind_ok h
    obtain ⟨-, rfl⟩ := Prod.mk.inj (Except.ok.inj h)
    rfl

/-- A respond packet with this number. -/
def AnswerTo (rId : UInt64) (pkt : AddressedPacket) : Prop :=
  pkt.type = respondType ∧ pkt.toPacket.buff 0 = .ok (word64 rId)

theorem answer_respondTo (type buff : Bytes) :
    AnswerTo preq.rId (answer (respondTo preq type buff)) := by
  refine ⟨rfl, ?_⟩
  have hword : (textBlock (word64 preq.rId)).second = word64 preq.rId :=
    textBlock_second (by rw [length_word64]; omega)
  exact congrArg Except.ok hword

/-- The numbers of the private requests among those that have been processed. -/
def privateIds (done : List Request) : List UInt64 :=
  (done.filter (fun preq => preq.type = privateRequest)).map Request.rId

/-- The clients whose threads count down from the start, as those of registrations do. -/
def registeredClients (deamons : List WaitDeamon) : List ClientRegister :=
  (deamons.map WaitDeamon.pclr).filter (fun pclr => pclr.click = 99999)

/-- What has come of the requests processed since a state `s`. -/
structure Tally (s : SqeServer) (done : List Request) (t : SqeServer) : Prop where
  known : ∀ id, t.rids.contains id = true →
    ∃ preq ∈ done, preq.rId = id ∧ (preq.type = privateRequest ∨ preq.type = clientLogin)
  remembered : ∀ id ∈ privateIds done, t.rids.contains id = true
  registered : ∃ clients : List ClientRegister, clients.length = (privateIds done).toFinset.card ∧
    registeredClients t.deamons = registeredClients s.deamons ++ clients ∧
    t.registerInfo.map RegisterInfo.clientId =
      s.registerInfo.map RegisterInfo.clientId ++ clients.map ClientRegister.clientId
  answered : ∃ answers : List (List AddressedPacket), t.packetsOut =
    s.packetsOut ++ answers.flatten ∧
    List.Forall₂ (fun preq pkts => preq.type = privateRequest → ∃ pkt, pkts = [pkt] ∧
      AnswerTo preq.rId pkt)
      done answers

theorem privateIds_append (done : List Request) (preq : Request) : privateIds (done ++ [preq]) =
    privateIds done ++ if preq.type = privateRequest then [preq.rId] else [] := by
  by_cases h : preq.type = privateRequest <;> simp [privateIds, h]

theorem registeredClients_append (deamons : List WaitDeamon) (pclr : ClientRegister) :
    registeredClients (deamons ++ [({ pclr } : WaitDeamon)]) =
      registeredClients deamons ++ if pclr.click = 99999 then [pclr] else [] := by
  by_cases h : pclr.click = 99999 <;> simp [registeredClients, h]

theorem map_clientId_updateStatus (rows : List RegisterInfo) (status : Int) (id : UInt64) :
    (rows.map (fun row => if row.clientId = id then { row with status } else row)).map
      RegisterInfo.clientId = rows.map RegisterInfo.clientId := by
  rw [List.map_map]
  refine List.map_congr_left (fun row _ => ?_)
  simp only [Function.comp_apply]
  split <;> rfl

theorem card_privateIds_old {done : List Request}
    (h : preq.type = privateRequest → preq.rId ∈ privateIds done) :
    (privateIds (done ++ [preq])).toFinset.card = (privateIds done).toFinset.card := by
  rw [privateIds_append]
  split
  · rename_i hp
    rw [List.toFinset_append, List.toFinset_cons, List.toFinset_nil, insert_empty_eq,
      Finset.union_eq_left.mpr (Finset.singleton_subset_iff.mpr (List.mem_toFinset.mpr (h hp)))]
  · rw [List.append_nil]

theorem card_privateIds_new {done : List Request} (hp : preq.type = privateRequest)
    (hnew : preq.rId ∉ privateIds done) :
    (privateIds (done ++ [preq])).toFinset.card = (privateIds done).toFinset.card + 1 := by
  have hdisjoint : Disjoint (privateIds done).toFinset {preq.rId} :=
    Finset.disjoint_singleton_right.mpr (fun hold => hnew (List.mem_toFinset.mp hold))
  rw [privateIds_append, if_pos hp, List.toFinset_append, List.toFinset_cons, List.toFinset_nil,
    insert_empty_eq, Finset.card_union_of_disjoint hdisjoint, Finset.card_singleton]

section
variable {s : SqeServer} {done : List Request}

theorem Tally.known_later (h : Tally s done t) (preq : Request) (id : UInt64)
    (hid : t.rids.contains id = true) :
    ∃ p ∈ done ++ [preq], p.rId = id ∧ (p.type = privateRequest ∨ p.type = clientLogin) := by
  obtain ⟨p, hp, hkind⟩ := h.known id hid
  exact ⟨p, List.mem_append_left _ hp, hkind⟩

/-- Once a request is remembered, what is known of the numbers is still true. -/
theorem Tally.known_insert (h : Tally s done t)
    (hkind : preq.type = privateRequest ∨ preq.type = clientLogin) (pclr : ClientRegister)
    (id : UInt64) (hid : (t.rids.insertIfNew preq.rId pclr).contains id = true) :
    ∃ p ∈ done ++ [preq], p.rId = id ∧ (p.type = privateRequest ∨ p.type = clientLogin) := by
  rcases (contains_insertIfNew t.rids preq.rId id).mp hid with hid | rfl
  · exact h.known_later preq id hid
  · exact ⟨preq, List.mem_append_right _ (List.mem_singleton_self preq), rfl, hkind⟩

theorem Tally.remembered_insert (h : Tally s done t) (pclr : ClientRegister) (id : UInt64)
    (hid : id ∈ privateIds (done ++ [preq])) : (t.rids.insertIfNew preq.rId pclr).contains id =
      true := by
  refine (contains_insertIfNew t.rids preq.rId id).mpr ?_
  rw [privateIds_append] at hid
  rcases List.mem_append.mp hid with hid | hid
  · exact Or.inl (h.remembered id hid)
  · split at hid
    · exact Or.inr (List.mem_singleton.mp hid).symm
    · cases hid

/-- The answer does not depend on what the request has done. -/
theorem Tally.answered_append (h : Tally s done t) {out : List AddressedPacket}
    (hout : preq.type = privateRequest → out = [answer (respondTo preq registerRespond statusOk)]) :
    ∃ answers : List (List AddressedPacket), t.packetsOut ++ out = s.packetsOut ++ answers.flatten ∧
      List.Forall₂ (fun preq pkts => preq.type = privateRequest → ∃ pkt, pkts = [pkt] ∧
        AnswerTo preq.rId pkt) (done ++ [preq]) answers := by
  obtain ⟨answers, hpackets, hall⟩ := h.answered
  have hlast : preq.type = privateRequest → ∃ pkt, out = [pkt] ∧ AnswerTo preq.rId pkt :=
    fun hp => ⟨_, hout hp, answer_respondTo _ _⟩
  refine ⟨answers ++ [out], ?_, List.rel_append hall (List.Forall₂.cons hlast List.Forall₂.nil)⟩
  rw [hpackets, List.flatten_append, List.append_assoc]
  simp

/-- A private request whose number is known is a repeated one. -/
theorem Tally.repeated (h : Tally s done t)
    (hdisjoint : ∀ p ∈ done, p.type = clientLogin → preq.type = privateRequest → p.rId ≠ preq.rId)
    (hp : preq.type = privateRequest) (hknown : t.rids.contains preq.rId = true) :
    preq.rId ∈ privateIds done := by
  obtain ⟨p, hp', hid, hkind⟩ := h.known preq.rId hknown
  rcases hkind with hkind | hkind
  · exact List.mem_map.mpr ⟨p, List.mem_filter.mpr ⟨hp', by simpa using hkind⟩, hid⟩
  · exact absurd hid (hdisjoint p hp' hkind hp)

/-- The clients of a step, in the threads and in the table. -/
theorem Tally.step {u : SqeServer} (h : Tally s done t)
    (hdisjoint : ∀ p ∈ done, p.type = clientLogin → preq.type = privateRequest → p.rId ≠ preq.rId)
    (hstep : processRequest env t preq = .ok u) : Tally s (done ++ [preq]) u := by
  obtain ⟨⟨v, handled⟩, hhandle, hcommit⟩ := bind_ok hstep
  simp only [commit_ok] at hcommit
  obtain rfl := Except.ok.inj hcommit
  obtain ⟨clients, hcard, hthreads, hrows⟩ := h.registered
  have hout : preq.type = privateRequest →
      (handled.pnr.map answer).toList = [answer (respondTo preq registerRespond statusOk)] := by
    intro hp
    rw [handle_private hp hhandle]
    rfl
  have hanswered := h.answered_append hout
  cases handle_effect hhandle with
  | nothing drawn pnr hknown =>
    have hsame : preq.type = privateRequest → preq.rId ∈ privateIds done :=
      fun hp => h.repeated hdisjoint hp (hknown hp)
    refine ⟨h.known_later preq, ?_, ⟨clients, ?_, hthreads, hrows⟩, hanswered⟩
    · intro id hid
      rw [privateIds_append] at hid
      rcases List.mem_append.mp hid with hid | hid
      · exact h.remembered id hid
      · split at hid
        · rename_i hp
          obtain rfl := List.mem_singleton.mp hid
          exact hknown hp
        · cases hid
    · rw [card_privateIds_old hsame, hcard]
  | register drawn pclr row pnr hp hnew hclick hid hstatus =>
    have hfresh : preq.rId ∉ privateIds done := by
      intro hold
      rw [h.remembered _ hold] at hnew
      cases hnew
    refine ⟨h.known_insert (.inl hp) pclr, h.remembered_insert pclr,
      ⟨clients ++ [pclr], ?_, ?_, ?_⟩, hanswered⟩
    · rw [card_privateIds_new hp hfresh, ← hcard, List.length_append, List.length_singleton]
    · rw [executed_deamons, registeredClients_append, if_pos hclick, hthreads, List.append_assoc]
    · simp only [executed, exec, List.map_append, List.map_cons, List.map_nil, hrows, hid,
        List.append_assoc]
  | login drawn pclr row pnr hlogin hfound hid hclick =>
    have hno : preq.type ≠ privateRequest := by
      rw [hlogin]
      decide
    refine ⟨h.known_insert (.inr hlogin) pclr, h.remembered_insert pclr, ⟨clients, ?_, ?_, ?_⟩,
      hanswered⟩
    · rw [card_privateIds_old fun hp => absurd hp hno, hcard]
    · have hzero : pclr.click ≠ 99999 := by
        rw [hclick]
        decide
      rw [executed_deamons, registeredClients_append, if_neg hzero, List.append_nil, hthreads]
    · exact (map_clientId_updateStatus _ 1 pclr.clientId).trans hrows

end

/-- The requests that have arrived. -/
def arrivals (events : List RequestEvent) : List Request :=
  events.filterMap (fun e => match e with
    | .arrive preq => some preq
    | .processRequset => none)

/-- Private requests with all their members, and with numbers that no login uses. -/
structure WellUsed (env : Environment) (preqs : List Request) : Prop where
  fields : ∀ preq ∈ preqs, preq.type = privateRequest → HasFields env preq
  apart : ∀ p ∈ preqs, ∀ l ∈ preqs, p.type = privateRequest → l.type = clientLogin → l.rId ≠ p.rId

theorem WellUsed.subset {preqs preqs' : List Request} (h : WellUsed env preqs)
    (hsub : ∀ preq ∈ preqs', preq ∈ preqs) : WellUsed env preqs' where
  fields := fun preq hpreq => h.fields preq (hsub preq hpreq)
  apart := fun p hp l hl => h.apart p (hsub p hp) l (hsub l hl)

theorem Tally.batch {s u : SqeServer} {done batch : List Request} (h : Tally s done t)
    (hused : WellUsed env (done ++ batch)) (hrun : run (processRequest env) t batch = .ok u) :
    Tally s (done ++ batch) u := by
  induction batch generalizing done t with
  | nil =>
    obtain rfl := Except.ok.inj hrun
    rwa [List.append_nil]
  | cons preq batch ih =>
    obtain ⟨v, hv, hrest⟩ := run_cons_inv hrun
    have hmem : preq ∈ done ++ preq :: batch := List.mem_append_right _ List.mem_cons_self
    have hstep := h.step (fun p hp hlogin hprivate =>
      hused.apart preq hmem p (List.mem_append_left _ hp) hprivate hlogin) hv
    rw [List.append_cons] at hused ⊢
    exact ih hstep hused hrest

/-- The state of the list and of the server after some events. -/
structure Processed (s : SqeServer) (events : List RequestEvent) (t : SqeServer) : Prop where
  tally : ∃ done, arrivals events = done ++ t.reqList ∧ Tally s done t

theorem processRequset_eq (env : Environment) (psvr : SqeServer) : psvr.processRequset env =
    (run (processRequest env) psvr (psvr.reqList.take 2048)).map
      (fun u => { u with reqList := psvr.reqList.drop 2048 }) := by
  rw [processRequset]
  cases run (processRequest env) psvr (psvr.reqList.take 2048) <;> rfl

theorem arrivals_append (past : List RequestEvent) (e : RequestEvent) :
    arrivals (past ++ [e]) = arrivals past ++ (match e with
      | .arrive preq => [preq]
      | .processRequset => []) := by
  cases e <;> simp [arrivals]

theorem Processed.step {s u : SqeServer} {past : List RequestEvent} {e : RequestEvent}
    (h : Processed s past t) (hused : WellUsed env (arrivals past))
    (hstep : requestStep env t e = .ok u) : Processed s (past ++ [e]) u := by
  obtain ⟨done, harrived, htally⟩ := h.tally
  refine ⟨?_⟩
  rw [arrivals_append, harrived]
  cases e with
  | arrive preq =>
    obtain rfl := Except.ok.inj hstep
    exact ⟨done, by simp, htally.known, htally.remembered, htally.registered, htally.answered⟩
  | processRequset =>
    rw [requestStep, processRequset_eq] at hstep
    cases hbatch : run (processRequest env) t (t.reqList.take 2048) with
    | error e =>
      rw [hbatch] at hstep
      cases hstep
    | ok v =>
      rw [hbatch] at hstep
      obtain rfl := Except.ok.inj hstep
      have husedBatch : WellUsed env (done ++ t.reqList.take 2048) := by
        refine hused.subset (fun preq hpreq => ?_)
        rw [harrived]
        rcases List.mem_append.mp hpreq with hpreq | hpreq
        · exact List.mem_append_left _ hpreq
        · exact List.mem_append_right _ (List.mem_of_mem_take hpreq)
      have hall := htally.batch husedBatch hbatch
      refine ⟨done ++ t.reqList.take 2048, ?_, hall.known, hall.remembered, hall.registered,
        hall.answered⟩
      simp

theorem processRequest_returns (hprivate : preq.type = privateRequest → HasFields env preq) :
    (∃ u, processRequest env t preq = .ok u) ↔ Servable env t preq := by
  constructor
  · intro h
    obtain ⟨u, h⟩ := h
    obtain ⟨⟨v, handled⟩, h, -⟩ := bind_ok h
    exact ⟨handle_fits h, handle_read h⟩
  · intro hservable
    obtain ⟨v, handled, h⟩ := handle_returns t hprivate hservable.1 hservable.2
    rw [processRequest, h]
    simp only [bind, Except.bind, commit_ok]
    exact ⟨_, rfl⟩

/-- In a pass over the list each request is servable where its turn comes. -/
def PassServable (env : Environment) (t : SqeServer) : RequestEvent → Prop
  | .arrive _ => True
  | .processRequset => Along (processRequest env) (Servable env) t (t.reqList.take 2048)

/-- Nothing but a key that does not fit and a login without its members stops the server. -/
theorem requestStep_returns {s : SqeServer} {past : List RequestEvent} (h : Processed s past t)
    (hused : WellUsed env (arrivals past)) (e : RequestEvent) :
    (∃ u, requestStep env t e = .ok u) ↔ PassServable env t e := by
  obtain ⟨done, harrived, -⟩ := h.tally
  cases e with
  | arrive preq => exact ⟨fun _ => trivial, fun _ => ⟨_, rfl⟩⟩
  | processRequset =>
    have hmem : ∀ preq ∈ t.reqList.take 2048, preq ∈ arrivals past := by
      intro preq hpreq
      rw [harrived]
      exact List.mem_append_right _ (List.mem_of_mem_take hpreq)
    have hbatch : (∃ u, run (processRequest env) t (t.reqList.take 2048) = .ok u) ↔
        PassServable env t .processRequset :=
      run_iff_along fun preq hpreq v => processRequest_returns (hused.fields preq (hmem preq hpreq))
    rw [← hbatch, requestStep, processRequset_eq]
    cases run (processRequest env) t (t.reqList.take 2048) with
    | error e => simp [Except.map]
    | ok u => simp [Except.map]

theorem mem_arrivals_append {past : List RequestEvent} (rest : List RequestEvent) {preq : Request}
    (h : preq ∈ arrivals past) : preq ∈ arrivals (past ++ rest) := by
  rw [arrivals, List.filterMap_append]
  exact List.mem_append_left _ h

theorem Processed.start {s : SqeServer} (hrids : s.rids = ∅) (hlist : s.reqList = []) :
    Processed s [] s := by
  refine ⟨[], by rw [hlist]; rfl, ?_, ?_, ⟨[], rfl, by simp, by simp⟩, ⟨[], by simp, .nil⟩⟩
  · intro id hid
    rw [hrids] at hid
    simp at hid
  · intro id hid
    cases hid

/-- Each number of a private request registers one client, and each private request is answered
once, in the runs that return. These are the runs in which each request is servable where its turn
comes: a key that is written fits, and a login has what is read of it. -/
theorem registered_once {s : SqeServer} {events : List RequestEvent} (hrids : s.rids = ∅)
    (hlist : s.reqList = []) (hused : WellUsed env (arrivals events)) :
    (∀ t, run (requestStep env) s events = .ok t → Processed s events t) ∧
    ((∃ t, run (requestStep env) s events = .ok t ∧ Processed s events t) ↔
      Along (requestStep env) (PassServable env) s events) := by
  have hpast : ∀ past rest, events = past ++ rest → WellUsed env (arrivals past) := by
    rintro past rest rfl
    exact hused.subset (fun preq hpreq => mem_arrivals_append rest hpreq)
  have hprocessed : ∀ t, run (requestStep env) s events = .ok t → Processed s events t := by
    intro t hrun
    exact run_history (I := fun past t => Processed s past t)
      (fun past e rest u v hin h hv => h.step (hpast past _ hin) hv) rfl
      (Processed.start hrids hlist) hrun
  refine ⟨hprocessed, ?_⟩
  have hreturns : (∃ t, run (requestStep env) s events = .ok t) ↔
      Along (requestStep env) (PassServable env) s events :=
    run_iff_along_history (I := fun past t => Processed s past t)
      (fun past e rest u v hin h hv => h.step (hpast past _ hin) hv)
      (fun past e rest u hin h => requestStep_returns h (hpast past _ hin) e)
      (List.nil_append _).symm (Processed.start hrids hlist)
  rw [← hreturns]
  exact exists_congr fun t => and_iff_left_of_imp (hprocessed t)

/-- The same private request twice, then a login, then the request again. -/
def repeatedEvents : List RequestEvent :=
  [.arrive samplePrivate, .arrive samplePrivate, .processRequset, .arrive sampleLogin,
    .processRequset, .arrive samplePrivate, .processRequset]

theorem wellUsed_repeatedEvents : WellUsed sampleEnvironment (arrivals repeatedEvents) := by
  have hreq : ∀ preq ∈ arrivals repeatedEvents, preq = samplePrivate ∨ preq = sampleLogin := by
    decide
  refine ⟨fun preq hpreq hp => ?_, fun p hp l hl hprivate hlogin => ?_⟩
  · rcases hreq preq hpreq with rfl | rfl
    · exact (rfl : (sampleEnvironment.registerDoc registerText).isSome = true)
    · exact absurd hp (by decide)
  · rcases hreq p hp with rfl | rfl
    · rcases hreq l hl with rfl | rfl
      · exact absurd hlogin (by decide)
      · decide
    · exact absurd hprivate (by decide)

theorem registered_once_repeated : ∃ t,
    run (requestStep sampleEnvironment) sampleSquare.psvr repeatedEvents = .ok t ∧
      Processed sampleSquare.psvr repeatedEvents t ∧
      Along (requestStep sampleEnvironment) (PassServable sampleEnvironment) sampleSquare.psvr
        repeatedEvents := by
  obtain ⟨hprocessed, hreturns⟩ := registered_once (s := sampleSquare.psvr) rfl rfl
    wellUsed_repeatedEvents
  have hok : (run (requestStep sampleEnvironment) sampleSquare.psvr repeatedEvents).isOk = true := by
    decide +kernel
  obtain ⟨t, ht⟩ := exists_of_isOk hok
  exact ⟨t, ht, hprocessed t ht, hreturns.mp ⟨t, ht, hprocessed t ht⟩⟩

/-- A register text whose key has one item more than the structure has bytes. -/
def longText : Bytes :=
  ascii ['{', '"', 'k', 'e', 'y', '"', ':', '['] ++
    (List.replicate 64 (ascii ['7', ','])).flatten ++
    ascii ['7', ']'] ++ registerText.drop 9

/-- The members of that text. -/
def longEnvironment : Environment :=
  { sampleEnvironment with
    registerDoc := fun s =>
      if s = longText then
        some { key := List.replicate 65 7, name := ascii ['a'], tag := ascii ['b'], listenPort := 1
               listenIp := ascii ['0', '.', '0', '.', '0', '.', '0'] }
      else sampleEnvironment.registerDoc s }

def longEvents : List RequestEvent :=
  [.arrive { samplePrivate with data := longText }, .processRequset]

/-- The request has all its members, and its key is written over the end of the structure. -/
theorem not_registered_long : WellUsed longEnvironment (arrivals longEvents) ∧
    run (requestStep longEnvironment) sampleSquare.psvr longEvents = .error .writeOutside := by
  constructor
  · refine ⟨fun preq hpreq hp => ?_, fun p hp l hl hprivate hlogin => ?_⟩
    · obtain rfl := List.mem_singleton.mp hpreq
      simp [HasFields, longEnvironment]
    · obtain rfl := List.mem_singleton.mp hl
      exact absurd hlogin (by decide)
  · have hend : (run (requestStep longEnvironment) sampleSquare.psvr longEvents).map
        (fun _ => ()) = .error .writeOutside := by
      decide +kernel
    cases h : run (requestStep longEnvironment) sampleSquare.psvr longEvents with
    | error e =>
      rw [h] at hend
      exact congrArg Except.error (Except.error.inj hend)
    | ok t =>
      rw [h] at hend
      cases hend

end NetCpp.Proofs
