import NetCpp.Proofs.Answers
import NetCpp.Proofs.Fifo

namespace NetCpp.Proofs
open Library Server SqeServer

/-- The raw data is that of an upload. -/
def Bears (prc : PrivateKeyClass) (u : Upload) (raw : RawData × SockAddr) : Prop :=
  requestFrom prc raw.1 raw.2 = .ok (some u.taken)

/-- The packet has the request of an upload. -/
def Asks (u : Upload) (ppkt : AddressedPacket) : Prop := requestOf ppkt = .ok (some u.taken)

/-- An answer to one of the uploads. -/
def Answering (env : Environment) (ups : List Upload) (psvr : SqeServer) (res : Respond) : Prop :=
  ∃ u ∈ ups, Answered env psvr u.taken res

/-- Everything in the queues is of an upload, or is an answer to one. -/
structure Queued (env : Environment) (prc : PrivateKeyClass) (ups : List Upload) (q : Queues) :
    Prop where
  key : q.psvr.prc = prc
  raw : ∀ prdt, some prdt ∈ q.rawdataIn → ∃ u ∈ ups, Bears prc u prdt
  packetsIn : ∀ ppkt ∈ q.psvr.packetsIn, ∃ u ∈ ups, Asks u ppkt
  reqList : ∀ preq ∈ q.psvr.reqList, ∃ u ∈ ups, preq = u.taken
  packetsOut : ∀ ppkt ∈ q.psvr.packetsOut, ∃ res, Answering env ups q.psvr res ∧ ppkt = answer res
  sent : ∀ p ∈ q.sent, ∀ str ∈ p.2, ∃ res, Answering env ups q.psvr res ∧ str = answerText res

/-- A step of the queues: what is in them stays of uploads, and what the server knows it keeps. -/
structure Onward (env : Environment) (prc : PrivateKeyClass) (ups : List Upload) (q q' : Queues) :
    Prop where
  queued : Queued env prc ups q'
  extends_ : Extends q.psvr q'.psvr

/-- What the receiving threads and the passes do to the queues: raw data that comes in is of an
upload, and nothing else is put in from outside. -/
def Incoming (prc : PrivateKeyClass) (ups : List Upload) : QueueEvent → Prop
  | .enqueueRaw prdt => ∃ u ∈ ups, Bears prc u prdt
  | .enqueueIn _ | .enqueueOut _ => False
  | _ => True

section
variable {env : Environment} {prc : PrivateKeyClass} {ups : List Upload} {q : Queues}
  {psvr psvr' : SqeServer}

theorem Answering.mono {res : Respond} (h : Answering env ups psvr res)
    (hext : Extends psvr psvr') : Answering env ups psvr' res := by
  obtain ⟨u, hu, hanswered⟩ := h
  exact ⟨u, hu, hanswered.mono hext⟩

theorem Answering.short {res : Respond} (h : Answering env ups psvr res) : Short res := by
  obtain ⟨u, -, hanswered⟩ := h
  exact hanswered.short

/-- A step that changes neither the answers nor what the server knows. -/
theorem Queued.onward (h : Queued env prc ups q) {q' : Queues} (hext : Extends q.psvr q'.psvr)
    (hraw : ∀ prdt, some prdt ∈ q'.rawdataIn → ∃ u ∈ ups, Bears prc u prdt)
    (hin : ∀ ppkt ∈ q'.psvr.packetsIn, ∃ u ∈ ups, Asks u ppkt)
    (hreq : ∀ preq ∈ q'.psvr.reqList, ∃ u ∈ ups, preq = u.taken)
    (hout : q'.psvr.packetsOut = q.psvr.packetsOut)
    (hsent : q'.sent = q.sent) : Onward env prc ups q q' where
  queued := by
    refine ⟨hext.prc.trans h.key, hraw, hin, hreq, ?_, ?_⟩
    · intro ppkt hppkt
      obtain ⟨res, hres, rfl⟩ := h.packetsOut ppkt (hout ▸ hppkt)
      exact ⟨res, hres.mono hext, rfl⟩
    · intro p hp str hstr
      obtain ⟨res, hres, rfl⟩ := h.sent p (hsent ▸ hp) str hstr
      exact ⟨res, hres.mono hext, rfl⟩
  extends_ := hext

theorem extends_lists (psvr : SqeServer) (packetsIn packetsOut : List AddressedPacket)
    (reqList : List Request) (drawn : Nat) :
    Extends psvr { psvr with packetsIn, packetsOut, reqList, drawn } :=
  ⟨rfl, rfl, fun _ h => h, fun row h => ⟨row, h, rfl, rfl⟩⟩

theorem Queued.nextRaw (h : Queued env prc ups q) (pass : RawPass) :
    ∃ q', q.nextRaw pass = .ok q' ∧ Onward env prc ups q q' := by
  have hsame := Extends.refl q.psvr
  rw [Queues.nextRaw]
  split
  · exact ⟨_, rfl, h.onward hsame h.raw h.packetsIn h.reqList rfl rfl⟩
  · exact ⟨_, rfl, h.onward hsame h.raw h.packetsIn h.reqList rfl rfl⟩
  rename_i prdt hat
  split
  · exact ⟨_, rfl, h.onward hsame h.raw h.packetsIn h.reqList rfl rfl⟩
  · obtain ⟨u, hu, hbears⟩ := h.raw prdt (List.mem_of_getElem? hat)
    obtain ⟨pnpkt, hdecoded, hrequest⟩ := bind_ok hbears
    rw [h.key, hdecoded]
    have hext :=
      extends_lists q.psvr (q.psvr.packetsIn ++ pnpkt.toList) q.psvr.packetsOut q.psvr.reqList
        q.psvr.drawn
    refine ⟨_, rfl, h.onward hext ?_ ?_ h.reqList rfl rfl⟩
    · intro prdt' hprdt'
      exact h.raw prdt' ((List.mem_or_eq_of_mem_set hprdt').resolve_right (by simp))
    · intro ppkt hppkt
      rcases List.mem_append.mp hppkt with hold | hnew
      · exact h.packetsIn ppkt hold
      · rw [Option.mem_toList.mp hnew] at hrequest
        exact ⟨u, hu, hrequest⟩

/-- A packet that asks has a request in it, and so is not a post. -/
theorem Asks.processPacketIn {u : Upload} {ppkt : AddressedPacket} (h : Asks u ppkt)
    (crypto : Crypto) (psvr : SqeServer) :
    processPacketIn crypto psvr ppkt = .ok { psvr with reqList := psvr.reqList ++ [u.taken] } := by
  have hread : packet2Request ppkt.toPacket = .ok none ∨ ppkt.type = requsetType := by
    rw [packet2Request]
    split
    · rename_i htype
      exact .inr htype
    · exact .inl rfl
  rw [Asks, requestOf] at h
  cases hreq : packet2Request ppkt.toPacket with
  | error e =>
    rw [hreq] at h
    cases h
  | ok pnreq =>
    rw [hreq] at h
    have hmap := Except.ok.inj h
    cases pnreq with
    | none => cases hmap
    | some preq =>
      have htype := hread.resolve_left (by rw [hreq]; simp)
      have hne : ¬ppkt.type = encryptPostType := by
        rw [htype]
        decide
      rw [SqeServer.processPacketIn, hreq]
      simp only [bind, Except.bind, if_neg hne]
      rw [hmap]
      rfl

theorem run_asks {ppkts : List AddressedPacket} (h : ∀ ppkt ∈ ppkts, ∃ u ∈ ups, Asks u ppkt)
    (crypto : Crypto) (psvr : SqeServer) : ∃ us : List Upload, (∀ u ∈ us, u ∈ ups) ∧
      run (processPacketIn crypto) psvr ppkts =
        .ok { psvr with reqList := psvr.reqList ++ us.map Upload.taken } := by
  induction ppkts generalizing psvr with
  | nil => exact ⟨[], by simp, by simp⟩
  | cons ppkt ppkts ih =>
    obtain ⟨u, hu, hasks⟩ := h ppkt List.mem_cons_self
    obtain ⟨us, hus, hrun⟩ := ih (fun ppkt' hppkt' => h ppkt' (List.mem_cons_of_mem _ hppkt'))
      { psvr with reqList := psvr.reqList ++ [u.taken] }
    refine ⟨u :: us, List.forall_mem_cons.mpr ⟨hu, hus⟩, ?_⟩
    rw [run_cons_ok (hasks.processPacketIn crypto psvr), hrun]
    simp

theorem Queued.processPacket (h : Queued env prc ups q) (crypto : Crypto) :
    ∃ q', q.processPacket crypto = .ok q' ∧ Onward env prc ups q q' := by
  have hasks : ∀ ppkt ∈ q.psvr.packetsIn.take 2048, ∃ u ∈ ups, Asks u ppkt :=
    fun ppkt hppkt => h.packetsIn ppkt (List.mem_of_mem_take hppkt)
  obtain ⟨us, hus, hrun⟩ := run_asks hasks crypto q.psvr
  have hpass : ∃ q', q.processPacket crypto = .ok q' := by
    rw [← reduceOption_map_some q.psvr.packetsIn] at hrun
    rw [Queues.processPacket, SqeServer.processPacket, (drain_of_run hrun).1]
    exact ⟨_, rfl⟩
  obtain ⟨q', hq'⟩ := hpass
  obtain ⟨reqs, hreqs, rfl⟩ := processPacket_ok hq'
  refine ⟨_, hq', h.onward (extends_lists q.psvr _ q.psvr.packetsOut _ q.psvr.drawn) h.raw
    (fun ppkt hppkt => h.packetsIn ppkt (List.mem_of_mem_drop hppkt)) ?_ rfl rfl⟩
  intro preq hpreq
  rcases List.mem_append.mp hpreq with hold | hnew
  · exact h.reqList preq hold
  · obtain ⟨reqs', hreqs', hsame⟩ := run_processPacketIn hrun
    obtain rfl := Except.ok.inj (hreqs.symm.trans hreqs')
    have hlist := congrArg SqeServer.reqList hsame
    rw [← List.append_cancel_left hlist] at hnew
    obtain ⟨u, hu, rfl⟩ := List.mem_map.mp hnew
    exact ⟨u, hus u hu, rfl⟩

theorem run_answers {ppkts : List AddressedPacket}
    (h : ∀ ppkt ∈ ppkts, ∃ res, Answering env ups q.psvr res ∧ ppkt = answer res) {bufsiz : Nat}
    (hbuf : 256 ≤ bufsiz) (sendto : Nat → Int) : ∃ drawn sent,
      run (Queues.processPacketOut env bufsiz sendto) q ppkts =
        .ok { q with psvr := { q.psvr with drawn }, sent := q.sent ++ sent } ∧
      ∀ p ∈ sent, ∀ str ∈ p.2, ∃ res, Answering env ups q.psvr res ∧ str = answerText res := by
  induction ppkts generalizing q with
  | nil => exact ⟨q.psvr.drawn, [], by simp, by simp⟩
  | cons ppkt ppkts ih =>
    obtain ⟨res, hres, rfl⟩ := h ppkt List.mem_cons_self
    have hext :=
      extends_lists q.psvr q.psvr.packetsIn q.psvr.packetsOut q.psvr.reqList (q.psvr.drawn + 1)
    have hback : Extends { q.psvr with drawn := q.psvr.drawn + 1 } q.psvr :=
      ⟨rfl, rfl, fun _ h => h, fun row h => ⟨row, h, rfl, rfl⟩⟩
    have hrest : ∀ ppkt' ∈ ppkts, ∃ res',
        Answering env ups { q.psvr with drawn := q.psvr.drawn + 1 } res' ∧ ppkt' = answer res' := by
      intro ppkt' hppkt'
      obtain ⟨res', hres', rfl⟩ := h ppkt' (List.mem_cons_of_mem _ hppkt')
      exact ⟨res', hres'.mono hext, rfl⟩
    obtain ⟨drawn, sent, hrun, hsent⟩ := @ih { q with
      psvr := { q.psvr with drawn := q.psvr.drawn + 1 }
      sent := q.sent ++ [(res.tAddr, [answerText res])] } hrest
    refine ⟨drawn, (res.tAddr, [answerText res]) :: sent, ?_, ?_⟩
    · rw [run_cons_ok (processPacketOut_answer hres.short env hbuf sendto q), hrun]
      simp
    · intro p hp str hstr
      rcases List.mem_cons.mp hp with rfl | hp
      · exact ⟨res, hres, List.mem_singleton.mp hstr⟩
      · obtain ⟨res', hres', rfl⟩ := hsent p hp str hstr
        exact ⟨res', hres'.mono hback, rfl⟩

theorem Queued.processSendPackets (h : Queued env prc ups q) {bufsiz : Nat} (hbuf : 256 ≤ bufsiz)
    (sendto : Nat → Int) :
    ∃ q', q.processSendPackets env bufsiz sendto = .ok q' ∧ Onward env prc ups q q' := by
  have hanswers : ∀ ppkt ∈ q.psvr.packetsOut.take 512, ∃ res, Answering env ups q.psvr res ∧
      ppkt = answer res :=
    fun ppkt hppkt => h.packetsOut ppkt (List.mem_of_mem_take hppkt)
  obtain ⟨drawn, sent, hrun, hsent⟩ := run_answers hanswers hbuf sendto
  rw [← reduceOption_map_some q.psvr.packetsOut] at hrun
  obtain ⟨hnone, hstate⟩ := drain_of_run hrun
  have hitems := (drain_ok hnone).2.1
  rw [Queues.processSendPackets, hnone]
  have hext :=
    extends_lists q.psvr q.psvr.packetsIn (q.psvr.packetsOut.drop 512) q.psvr.reqList drawn
  dsimp only
  rw [reduceOption_filter, hitems, hstate, reduceOption_map_some]
  refine ⟨_, rfl, ⟨⟨h.key, h.raw, h.packetsIn, h.reqList, ?_, ?_⟩, hext⟩⟩
  · intro ppkt hppkt
    obtain ⟨res, hres, rfl⟩ := h.packetsOut ppkt (List.mem_of_mem_drop hppkt)
    exact ⟨res, hres.mono hext, rfl⟩
  · intro p hp str hstr
    rcases List.mem_append.mp hp with hold | hnew
    · obtain ⟨res, hres, rfl⟩ := h.sent p hold str hstr
      exact ⟨res, hres.mono hext, rfl⟩
    · obtain ⟨res, hres, rfl⟩ := hsent p hnew str hstr
      exact ⟨res, hres.mono hext, rfl⟩

/-- A pass over the queues, whichever thread makes it, or raw data of an upload that comes in. -/
theorem Queued.step (h : Queued env prc ups q) (crypto : Crypto) {bufsiz : Nat}
    (hbuf : 256 ≤ bufsiz) (sendto : Nat → Int) {e : QueueEvent} (he : Incoming prc ups e) :
    ∃ q', q.step crypto env bufsiz sendto e = .ok q' ∧ Onward env prc ups q q' := by
  have hsame := Extends.refl q.psvr
  cases e with
  | enqueueRaw prdt =>
    refine ⟨_, rfl, h.onward hsame ?_ h.packetsIn h.reqList rfl rfl⟩
    intro prdt' hprdt'
    rcases List.mem_append.mp hprdt' with hold | hnew
    · exact h.raw prdt' hold
    · obtain rfl := Option.some.inj (List.mem_singleton.mp hnew)
      exact he
  | enqueueIn ppkt => exact he.elim
  | enqueueOut ppkt => exact he.elim
  | lockRaw =>
    rw [Queues.step]
    split <;> exact ⟨_, rfl, h.onward hsame h.raw h.packetsIn h.reqList rfl rfl⟩
  | nextRaw =>
    rw [Queues.step]
    split
    · exact ⟨_, rfl, h.onward hsame h.raw h.packetsIn h.reqList rfl rfl⟩
    · exact h.nextRaw _
  | removeRaw =>
    rw [Queues.step]
    split
    · have hkept : ∀ prdt, some prdt ∈ q.rawdataIn.filter Option.isSome →
          ∃ u ∈ ups, Bears prc u prdt :=
        fun prdt hprdt => h.raw prdt (List.mem_filter.mp hprdt).1
      exact ⟨_, rfl, h.onward hsame hkept h.packetsIn h.reqList rfl rfl⟩
    · exact ⟨_, rfl, h.onward hsame h.raw h.packetsIn h.reqList rfl rfl⟩
  | processPacket => exact h.processPacket crypto
  | processSendPackets => exact h.processSendPackets hbuf sendto

/-- However the passes mix, none of them fails. -/
theorem Queued.run (h : Queued env prc ups q) (crypto : Crypto) {bufsiz : Nat} (hbuf : 256 ≤ bufsiz)
    (sendto : Nat → Int) {events : List QueueEvent} (hincoming : ∀ e ∈ events, Incoming prc ups e) :
    ∃ t, Library.run (Queues.step crypto env bufsiz sendto) q events = .ok t ∧
    Queued env prc ups t := by
  refine @run_total _ _ _ (Queues.step crypto env bufsiz sendto) (fun _ => Queued env prc ups)
    events ?_ [] events q rfl h
  rintro past e rest q rfl hq
  obtain ⟨q', hq', honward⟩ := hq.step crypto hbuf sendto (hincoming e (by simp))
  exact ⟨q', hq', honward.queued⟩

theorem incoming_pass {e : QueueEvent} (hraw : rawArrivals [e] = []) (hin : inArrivals [e] = [])
    (hout : outArrivals [e] = []) : Incoming prc ups e := by
  cases e with
  | enqueueRaw prdt => cases hraw
  | enqueueIn ppkt => cases hin
  | enqueueOut ppkt => cases hout
  | _ => trivial

/-- The raw data that comes in is of uploads, and no packet comes in from outside. -/
theorem incoming_arrivals {events : List QueueEvent}
    (hraw : ∀ prdt ∈ rawArrivals events, ∃ u ∈ ups, Bears prc u prdt)
    (hin : inArrivals events = []) (hout : outArrivals events = []) :
    ∀ e ∈ events, Incoming prc ups e := by
  intro e he
  cases e with
  | enqueueRaw prdt => exact hraw prdt (List.mem_filterMap.mpr ⟨_, he, rfl⟩)
  | enqueueIn ppkt => exact absurd (List.filterMap_eq_nil_iff.mp hin _ he) (by simp)
  | enqueueOut ppkt => exact absurd (List.filterMap_eq_nil_iff.mp hout _ he) (by simp)
  | _ => trivial

theorem Queued.processRequset (h : Queued env prc ups q)
    (hdocs : ∀ u ∈ ups, Documented env u.request) :
    ∃ psvr, q.psvr.processRequset env = .ok psvr ∧ Onward env prc ups q { q with psvr } := by
  have hlist : ∀ preq ∈ q.psvr.reqList, Documented env preq := by
    intro preq hpreq
    obtain ⟨u, hu, rfl⟩ := h.reqList preq hpreq
    exact ⟨(hdocs u hu).register, (hdocs u hu).key, (hdocs u hu).login⟩
  obtain ⟨t, ht, hext, hin, hreq, hout⟩ := processRequset_answers hlist
  refine ⟨t, ht, ⟨⟨hext.prc.trans h.key, h.raw, ?_, ?_, ?_, ?_⟩, hext⟩⟩
  · intro ppkt hppkt
    exact h.packetsIn ppkt (hin ▸ hppkt)
  · intro preq hpreq
    exact h.reqList preq (List.mem_of_mem_drop (hreq ▸ hpreq))
  · intro ppkt hppkt
    rcases hout ppkt hppkt with hold | ⟨preq, hpreq, res, hres, rfl⟩
    · obtain ⟨res, hres, rfl⟩ := h.packetsOut ppkt hold
      exact ⟨res, hres.mono hext, rfl⟩
    · obtain ⟨u, hu, rfl⟩ := h.reqList preq hpreq
      exact ⟨res, ⟨u, hu, hres⟩, rfl⟩
  · intro p hp str hstr
    obtain ⟨res, hres, rfl⟩ := h.sent p hp str hstr
    exact ⟨res, hres.mono hext, rfl⟩

theorem wait_lists (psvr : SqeServer) (i : Nat) (good : Bool) :
    (psvr.wait i good).packetsIn = psvr.packetsIn ∧
    (psvr.wait i good).reqList = psvr.reqList ∧
    (psvr.wait i good).packetsOut = psvr.packetsOut := by
  rw [SqeServer.wait]
  split
  · exact ⟨rfl, rfl, rfl⟩
  · rename_i d hd
    rcases d.next good with ⟨_ | d', _ | smt | smt⟩ <;> exact ⟨rfl, rfl, rfl⟩

theorem Queued.wait (h : Queued env prc ups q) (i : Nat) (good : Bool) :
    Onward env prc ups q { q with psvr := q.psvr.wait i good } := by
  obtain ⟨hin, hreq, hout⟩ := wait_lists q.psvr i good
  exact h.onward (extends_wait q.psvr i good) h.raw
    (fun ppkt hppkt => h.packetsIn ppkt (hin ▸ hppkt))
    (fun preq hpreq => h.reqList preq (hreq ▸ hpreq)) hout rfl

end

end NetCpp.Proofs
