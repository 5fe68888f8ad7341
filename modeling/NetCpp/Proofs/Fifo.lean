import NetCpp.Proofs.Posts
import NetCpp.Proofs.Square
import NetCpp.Queues

namespace NetCpp.Proofs
open Library SqeServer

/-- The request that a packet puts on the list. -/
def requestOf (ppkt : AddressedPacket) : Except Fault (Option Request) :=
  (packet2Request ppkt.toPacket).map (Option.map fun req => { req with tAddr := ppkt.address })

section
variable {crypto : Crypto} {psvr psvr' : SqeServer}

theorem processPacketIn_ok {ppkt : AddressedPacket}
    (h : processPacketIn crypto psvr ppkt = .ok psvr') :
    ∃ req, requestOf ppkt = .ok req ∧
    psvr' = { psvr with reqList := psvr.reqList ++ req.toList } := by
  rw [processPacketIn] at h
  obtain ⟨pnreq, hreq, h⟩ := bind_ok h
  refine ⟨_, by rw [requestOf, hreq]; rfl, ?_⟩
  dsimp only at h
  split at h
  · obtain ⟨key, -, h⟩ := bind_ok h
    cases key with
    | none =>
      cases h
      rfl
    | some key =>
      obtain ⟨post, -, h⟩ := bind_ok h
      cases h
      rfl
  · cases h
    rfl

theorem run_processPacketIn {ppkts : List AddressedPacket}
    (h : run (processPacketIn crypto) psvr ppkts = .ok psvr') : ∃ reqs,
    ppkts.mapM requestOf = .ok reqs ∧
    psvr' = { psvr with reqList := psvr.reqList ++ reqs.reduceOption } := by
  induction ppkts generalizing psvr with
  | nil =>
    cases h
    exact ⟨[], rfl, by rw [List.reduceOption_nil, List.append_nil]⟩
  | cons ppkt ppkts ih =>
    obtain ⟨middle, hfirst, hrest⟩ := run_cons_inv h
    obtain ⟨req, hreq, rfl⟩ := processPacketIn_ok hfirst
    obtain ⟨reqs, hreqs, rfl⟩ := ih hrest
    refine ⟨req :: reqs, ?_, ?_⟩
    · simp only [List.mapM_cons, hreq, hreqs, bind, Except.bind]
      rfl
    · cases req with
      | none => simp
      | some req => simp

theorem processPacket_ok {s t : Queues} (h : s.processPacket crypto = .ok t) : ∃ reqs,
    (s.psvr.packetsIn.take 2048).mapM requestOf = .ok reqs ∧
    t = { s with
      psvr := { s.psvr with
        packetsIn := s.psvr.packetsIn.drop 2048
        reqList := s.psvr.reqList ++ reqs.reduceOption }
      handledIn := s.handledIn ++ s.psvr.packetsIn.take 2048 } := by
  rw [Queues.processPacket, SqeServer.processPacket] at h
  cases hpass : (drain (processPacketIn crypto) 2048 s.psvr (s.psvr.packetsIn.map some)).error with
  | some f =>
    rw [hpass] at h
    cases h
  | none =>
    rw [hpass] at h
    obtain ⟨hhandled, hitems, hrun⟩ := drain_ok hpass
    rw [reduceOption_map_some] at hhandled hitems hrun
    obtain ⟨reqs, hreqs, hstate⟩ := run_processPacketIn hrun
    refine ⟨reqs, hreqs, ?_⟩
    obtain rfl := Except.ok.inj h
    dsimp only
    rw [reduceOption_filter, hitems, hhandled, hstate]

end

section
variable {env : Environment} {bufsiz : Nat} {sendto : Nat → Int}

/-- Sending draws a number. -/
theorem processPacketOut_ok {s t : Queues} {ppkt : AddressedPacket}
    (h : s.processPacketOut env bufsiz sendto ppkt = .ok t) : ∃ datagrams,
    t = { s with
      psvr := { s.psvr with drawn := s.psvr.drawn + 1 }
      sent := s.sent ++ [(ppkt.address, datagrams)] } := by
  rw [Queues.processPacketOut] at h
  obtain ⟨nrwd, -, h⟩ := bind_ok h
  obtain ⟨nrwd', -, h⟩ := bind_ok h
  obtain ⟨⟨datagrams, rtn⟩, -, h⟩ := bind_ok h
  cases h
  exact ⟨datagrams, rfl⟩

theorem run_processPacketOut {s t : Queues} {ppkts : List AddressedPacket}
    (h : run (Queues.processPacketOut env bufsiz sendto) s ppkts = .ok t) : ∃ sent,
    sent.map Prod.fst = ppkts.map AddressedPacket.address ∧
    t = { s with
      psvr := { s.psvr with drawn := s.psvr.drawn + ppkts.length }
      sent := s.sent ++ sent } := by
  induction ppkts generalizing s with
  | nil =>
    cases h
    exact ⟨[], rfl, by simp⟩
  | cons ppkt ppkts ih =>
    obtain ⟨middle, hfirst, hrest⟩ := run_cons_inv h
    obtain ⟨datagrams, rfl⟩ := processPacketOut_ok hfirst
    obtain ⟨sent, haddress, rfl⟩ := ih hrest
    refine ⟨(ppkt.address, datagrams) :: sent, by simp [haddress], ?_⟩
    simp [Nat.add_comm, Nat.add_left_comm]

theorem processSendPackets_ok {s t : Queues} (h : s.processSendPackets env bufsiz sendto = .ok t) :
    ∃ drawn sent, sent.map Prod.fst = (s.psvr.packetsOut.take 512).map AddressedPacket.address ∧
    t = { s with
      psvr := { s.psvr with packetsOut := s.psvr.packetsOut.drop 512, drawn }
      sent := s.sent ++ sent
      handledOut := s.handledOut ++ s.psvr.packetsOut.take 512 } := by
  rw [Queues.processSendPackets] at h
  cases hpass :
    (drain (Queues.processPacketOut env bufsiz sendto) 512 s (s.psvr.packetsOut.map some)).error
      with
  | some f =>
    rw [hpass] at h
    cases h
  | none =>
    rw [hpass] at h
    obtain ⟨hhandled, hitems, hrun⟩ := drain_ok hpass
    rw [reduceOption_map_some] at hhandled hitems hrun
    obtain ⟨sent, haddress, hstate⟩ := run_processPacketOut hrun
    refine ⟨s.psvr.drawn + (s.psvr.packetsOut.take 512).length, sent, haddress, ?_⟩
    obtain rfl := Except.ok.inj h
    dsimp only
    rw [reduceOption_filter, hitems, hhandled, hstate]

end

def rawArrivals (events : List QueueEvent) : List (RawData × SockAddr) :=
  events.filterMap fun e => match e with
    | .enqueueRaw prdt => some prdt
    | _ => none

def inArrivals (events : List QueueEvent) : List AddressedPacket :=
  events.filterMap fun e => match e with
    | .enqueueIn ppkt => some ppkt
    | _ => none

def outArrivals (events : List QueueEvent) : List AddressedPacket :=
  events.filterMap fun e => match e with
    | .enqueueOut ppkt => some ppkt
    | _ => none

section
variable (past : List QueueEvent) (e : QueueEvent)

theorem rawArrivals_append : rawArrivals (past ++ [e]) = rawArrivals past ++ rawArrivals [e] :=
  List.filterMap_append

theorem inArrivals_append : inArrivals (past ++ [e]) = inArrivals past ++ inArrivals [e] :=
  List.filterMap_append

theorem outArrivals_append : outArrivals (past ++ [e]) = outArrivals past ++ outArrivals [e] :=
  List.filterMap_append

variable {e}

theorem rawArrivals_other (h : rawArrivals [e] = []) :
    rawArrivals (past ++ [e]) = rawArrivals past := by
  rw [rawArrivals_append, h, List.append_nil]

theorem inArrivals_other (h : inArrivals [e] = []) :
    inArrivals (past ++ [e]) = inArrivals past := by
  rw [inArrivals_append, h, List.append_nil]

theorem outArrivals_other (h : outArrivals [e] = []) :
    outArrivals (past ++ [e]) = outArrivals past := by
  rw [outArrivals_append, h, List.append_nil]

end

/-- The packet that raw data makes. -/
def decodeRaw (prc : PrivateKeyClass) (prdt : RawData × SockAddr) :
    Except Fault (Option AddressedPacket) :=
  processRawDatum prc prdt.1 prdt.2

/-- What has been handled of the three lists since the server was in a state, with what came of it,
and how it goes with what is there. -/
structure Fifo (s : Queues) (past : List QueueEvent) (t : Queues) (raws : List (RawData × SockAddr))
    (ins outs : List AddressedPacket) : Prop where
  handledRaw : t.handledRaw = s.handledRaw ++ raws
  handledIn : t.handledIn = s.handledIn ++ ins
  handledOut : t.handledOut = s.handledOut ++ outs
  rawdataIn : raws ++ t.rawdataIn.reduceOption = s.rawdataIn.reduceOption ++ rawArrivals past
  packetsIn : ∃ decoded pushed, raws.mapM (decodeRaw s.psvr.prc) = .ok decoded ∧
    Interleaving (inArrivals past) decoded.reduceOption pushed ∧
    ins ++ t.psvr.packetsIn = s.psvr.packetsIn ++ pushed
  packetsOut : outs ++ t.psvr.packetsOut = s.psvr.packetsOut ++ outArrivals past
  reqList : ∃ reqs, ins.mapM requestOf = .ok reqs ∧
    t.psvr.reqList = s.psvr.reqList ++ reqs.reduceOption
  sent : ∃ sent, sent.map Prod.fst = outs.map AddressedPacket.address ∧ t.sent = s.sent ++ sent

/-- The key stays, and what a pass over the raw data has come past is nulled. -/
structure Tidy (prc : PrivateKeyClass) (t : Queues) : Prop where
  prc : t.psvr.prc = prc
  nulled : ∀ pass, t.rawPass = some pass →
    pass.pos ≤ t.rawdataIn.length ∧ (t.rawdataIn.take pass.pos).reduceOption = []

theorem mapM_concat {α β : Type} {f : α → Except Fault β} {xs : List α} {ys : List β}
    {x : α} {y : β} (hxs : xs.mapM f = .ok ys) (hx : f x = .ok y) :
    (xs ++ [x]).mapM f = .ok (ys ++ [y]) := by
  rw [List.mapM_append, hxs]
  simp only [List.mapM_cons, hx, List.mapM_nil, bind, Except.bind]
  rfl

namespace Fifo
variable {s t : Queues} {past : List QueueEvent} {raws : List (RawData × SockAddr)}
  {ins outs : List AddressedPacket}

theorem start (s : Queues) : Fifo s [] s [] [] [] where
  handledRaw := (List.append_nil _).symm
  handledIn := (List.append_nil _).symm
  handledOut := (List.append_nil _).symm
  rawdataIn := (List.append_nil _).symm
  packetsIn := ⟨[], [], rfl, .nil, (List.append_nil _).symm⟩
  packetsOut := (List.append_nil _).symm
  reqList := ⟨[], rfl, (List.append_nil _).symm⟩
  sent := ⟨[], rfl, (List.append_nil _).symm⟩

/-- Nothing comes. -/
theorem quiet (h : Fifo s past t raws ins outs) {e : QueueEvent} (hraw : rawArrivals [e] = [])
    (hin : inArrivals [e] = []) (hout : outArrivals [e] = []) :
    Fifo s (past ++ [e]) t raws ins outs := by
  refine ⟨h.handledRaw, h.handledIn, h.handledOut, ?_, ?_, ?_, h.reqList, h.sent⟩
  · rw [rawArrivals_other past hraw]
    exact h.rawdataIn
  · rw [inArrivals_other past hin]
    exact h.packetsIn
  · rw [outArrivals_other past hout]
    exact h.packetsOut

/-- Only the places are others. -/
theorem place (h : Fifo s past t raws ins outs) {items : List (Option (RawData × SockAddr))}
    (hitems : items.reduceOption = t.rawdataIn.reduceOption) (pass : Option RawPass)
    (removing : Nat) :
    Fifo s past { t with rawdataIn := items, rawPass := pass, removing } raws ins outs := by
  refine ⟨h.handledRaw, h.handledIn, h.handledOut, ?_, h.packetsIn, h.packetsOut, h.reqList, h.sent⟩
  rw [← h.rawdataIn, ← hitems]

theorem enqueueRaw (h : Fifo s past t raws ins outs) (prdt : RawData × SockAddr) :
    Fifo s (past ++ [.enqueueRaw prdt]) { t with rawdataIn := t.rawdataIn ++ [some prdt] } raws ins
      outs := by
  refine ⟨h.handledRaw, h.handledIn, h.handledOut, ?_, ?_, ?_, h.reqList, h.sent⟩
  · rw [rawArrivals_append, List.reduceOption_append, ← List.append_assoc, h.rawdataIn,
      List.append_assoc]
    rfl
  · have hnone : inArrivals [.enqueueRaw prdt] = [] := rfl
    rw [inArrivals_other past hnone]
    exact h.packetsIn
  · have hnone : outArrivals [.enqueueRaw prdt] = [] := rfl
    rw [outArrivals_other past hnone]
    exact h.packetsOut

theorem enqueueIn (h : Fifo s past t raws ins outs) (ppkt : AddressedPacket) :
    Fifo s (past ++ [.enqueueIn ppkt])
      { t with psvr := { t.psvr with packetsIn := t.psvr.packetsIn ++ [ppkt] } } raws ins outs := by
  obtain ⟨decoded, pushed, hdecoded, hmerge, hin⟩ := h.packetsIn
  refine ⟨h.handledRaw, h.handledIn, h.handledOut, ?_,
    ⟨decoded, pushed ++ [ppkt], hdecoded, ?_, ?_⟩, ?_, h.reqList, h.sent⟩
  · have hnone : rawArrivals [.enqueueIn ppkt] = [] := rfl
    rw [rawArrivals_other past hnone]
    exact h.rawdataIn
  · rw [inArrivals_append]
    exact hmerge.left ppkt
  · rw [← List.append_assoc, hin, List.append_assoc]
  · have hnone : outArrivals [.enqueueIn ppkt] = [] := rfl
    rw [outArrivals_other past hnone]
    exact h.packetsOut

theorem enqueueOut (h : Fifo s past t raws ins outs) (ppkt : AddressedPacket) :
    Fifo s (past ++ [.enqueueOut ppkt])
      { t with
        psvr := { t.psvr with packetsOut := t.psvr.packetsOut ++ [ppkt] } } raws ins outs := by
  refine ⟨h.handledRaw, h.handledIn, h.handledOut, ?_, ?_, ?_, h.reqList, h.sent⟩
  · have hnone : rawArrivals [.enqueueOut ppkt] = [] := rfl
    rw [rawArrivals_other past hnone]
    exact h.rawdataIn
  · have hnone : inArrivals [.enqueueOut ppkt] = [] := rfl
    rw [inArrivals_other past hnone]
    exact h.packetsIn
  · rw [outArrivals_append, ← List.append_assoc, h.packetsOut, List.append_assoc]
    rfl

/-- The first of the raw data that is there is handled. -/
theorem handleRaw (h : Fifo s past t raws ins outs) (hprc : t.psvr.prc = s.psvr.prc)
    {prdt : RawData × SockAddr} {rest : List (RawData × SockAddr)} {pnpkt : Option AddressedPacket}
    {items : List (Option (RawData × SockAddr))} (hfirst : t.rawdataIn.reduceOption = prdt :: rest)
    (hdecode : decodeRaw t.psvr.prc prdt = .ok pnpkt) (hitems : items.reduceOption = rest)
    (pass : Option RawPass) :
    Fifo s (past ++ [.nextRaw])
      { t with
        psvr := { t.psvr with packetsIn := t.psvr.packetsIn ++ pnpkt.toList }
        rawdataIn := items
        rawPass := pass
        handledRaw := t.handledRaw ++ [prdt] } (raws ++ [prdt]) ins outs := by
  obtain ⟨decoded, pushed, hdecoded, hmerge, hin⟩ := h.packetsIn
  rw [hprc] at hdecode
  refine ⟨?_, h.handledIn, h.handledOut, ?_, ⟨decoded ++ [pnpkt], pushed ++ pnpkt.toList,
    mapM_concat hdecoded hdecode, ?_, ?_⟩, ?_, h.reqList, h.sent⟩
  · rw [← List.append_assoc, ← h.handledRaw]
  · have hnone : rawArrivals [.nextRaw] = [] := rfl
    rw [rawArrivals_other past hnone, List.append_assoc, List.singleton_append, hitems, ← hfirst,
      h.rawdataIn]
  · have hnone : inArrivals [.nextRaw] = [] := rfl
    rw [inArrivals_other past hnone, List.reduceOption_append]
    cases pnpkt with
    | none => simpa using hmerge
    | some ppkt => exact hmerge.right ppkt
  · rw [← List.append_assoc, hin, List.append_assoc]
  · have hnone : outArrivals [.nextRaw] = [] := rfl
    rw [outArrivals_other past hnone]
    exact h.packetsOut

theorem processPacket (h : Fifo s past t raws ins outs) {crypto : Crypto} {u : Queues}
    (hstep : t.processPacket crypto = .ok u) :
    Fifo s (past ++ [.processPacket]) u raws (ins ++ t.psvr.packetsIn.take 2048) outs := by
  obtain ⟨reqs, hreqs, rfl⟩ := processPacket_ok hstep
  obtain ⟨decoded, pushed, hdecoded, hmerge, hin⟩ := h.packetsIn
  obtain ⟨before, hbefore, hlist⟩ := h.reqList
  refine ⟨h.handledRaw, ?_, h.handledOut, ?_, ⟨decoded, pushed, hdecoded, ?_, ?_⟩, ?_,
    ⟨before ++ reqs, ?_, ?_⟩, h.sent⟩
  · rw [← List.append_assoc, ← h.handledIn]
  · have hnone : rawArrivals [.processPacket] = [] := rfl
    rw [rawArrivals_other past hnone]
    exact h.rawdataIn
  · have hnone : inArrivals [.processPacket] = [] := rfl
    rw [inArrivals_other past hnone]
    exact hmerge
  · rw [List.append_assoc, List.take_append_drop, hin]
  · have hnone : outArrivals [.processPacket] = [] := rfl
    rw [outArrivals_other past hnone]
    exact h.packetsOut
  · rw [List.mapM_append, hbefore, hreqs]
    rfl
  · rw [List.reduceOption_append, ← List.append_assoc, ← hlist]

theorem processSendPackets (h : Fifo s past t raws ins outs) {env : Environment} {bufsiz : Nat}
    {sendto : Nat → Int} {u : Queues} (hstep : t.processSendPackets env bufsiz sendto = .ok u) :
    Fifo s (past ++ [.processSendPackets]) u raws ins (outs ++ t.psvr.packetsOut.take 512) := by
  obtain ⟨drawn, sent, haddress, rfl⟩ := processSendPackets_ok hstep
  obtain ⟨before, hbefore, hsent⟩ := h.sent
  refine ⟨h.handledRaw, h.handledIn, ?_, ?_, ?_, ?_, h.reqList, ⟨before ++ sent, ?_, ?_⟩⟩
  · rw [← List.append_assoc, ← h.handledOut]
  · have hnone : rawArrivals [.processSendPackets] = [] := rfl
    rw [rawArrivals_other past hnone]
    exact h.rawdataIn
  · have hnone : inArrivals [.processSendPackets] = [] := rfl
    rw [inArrivals_other past hnone]
    exact h.packetsIn
  · have hnone : outArrivals [.processSendPackets] = [] := rfl
    rw [outArrivals_other past hnone, List.append_assoc, List.take_append_drop, h.packetsOut]
  · rw [List.map_append, List.map_append, hbefore, haddress]
  · rw [← List.append_assoc, ← hsent]

end Fifo

theorem split_at {α : Type} {xs : List α} {i : Nat} {x : α} (h : xs[i]? = some x) :
    ∃ a b, xs = a ++ x :: b ∧ a.length = i := by
  obtain ⟨hlt, rfl⟩ := List.getElem?_eq_some_iff.mp h
  refine ⟨xs.take i, xs.drop (i + 1), ?_, List.length_take_of_le hlt.le⟩
  rw [← List.drop_eq_getElem_cons hlt, List.take_append_drop]

section
variable {t u : Queues} {pass : RawPass}

/-- A round ends the section, comes past what is nulled, or handles what is first. -/
theorem nextRaw_cases (hnulled : (t.rawdataIn.take pass.pos).reduceOption = [])
    (h : t.nextRaw pass = .ok u) :
    (u = t.unlockRaw ∧ (t.rawdataIn.reduceOption = [] ∨ pass.prm = 0)) ∨
    (u = { t with rawPass := some { pass with pos := pass.pos + 1 } } ∧
      pass.pos < t.rawdataIn.length ∧ (t.rawdataIn.take (pass.pos + 1)).reduceOption = []) ∨
    ∃ prdt rest pnpkt items, pass.prm ≠ 0 ∧ t.rawdataIn.reduceOption = prdt :: rest ∧
      decodeRaw t.psvr.prc prdt = .ok pnpkt ∧ items.reduceOption = rest ∧
      pass.pos < t.rawdataIn.length ∧
      items.length = t.rawdataIn.length ∧ (items.take (pass.pos + 1)).reduceOption = [] ∧
      u = { t with
        psvr := { t.psvr with packetsIn := t.psvr.packetsIn ++ pnpkt.toList }
        rawdataIn := items
        rawPass := some { prm := pass.prm - 1, pos := pass.pos + 1 }
        handledRaw := t.handledRaw ++ [prdt] } := by
  rw [Queues.nextRaw] at h
  cases hitem : t.rawdataIn[pass.pos]? with
  | none =>
    rw [hitem] at h
    refine .inl ⟨(Except.ok.inj h).symm, .inl ?_⟩
    rwa [List.take_of_length_le (List.getElem?_eq_none_iff.mp hitem)] at hnulled
  | some item =>
    obtain ⟨before, after, hsplit, hlen⟩ := split_at hitem
    have hlt : pass.pos < t.rawdataIn.length := (List.getElem?_eq_some_iff.mp hitem).1
    have hbefore : before.reduceOption = [] := by
      rwa [hsplit, ← hlen, List.take_left] at hnulled
    have hnext : ((before ++ none :: after).take (pass.pos + 1)).reduceOption = [] := by
      rw [← hlen, List.append_cons, List.take_left' (by simp), List.reduceOption_append, hbefore]
      rfl
    rw [hitem] at h
    cases item with
    | none =>
      refine .inr (.inl ⟨(Except.ok.inj h).symm, hlt, ?_⟩)
      rw [hsplit]
      exact hnext
    | some prdt =>
      dsimp only at h
      by_cases hprm : pass.prm = 0
      · rw [if_pos hprm] at h
        exact .inl ⟨(Except.ok.inj h).symm, .inr hprm⟩
      · rw [if_neg hprm] at h
        obtain ⟨pnpkt, hdecode, h⟩ := bind_ok h
        have hset : t.rawdataIn.set pass.pos none = before ++ none :: after := by
          rw [hsplit, ← hlen, List.set_append_right _ _ (Nat.le_refl _), Nat.sub_self,
            List.set_cons_zero]
        refine .inr
          (.inr ⟨prdt, after.reduceOption, pnpkt, t.rawdataIn.set pass.pos none, hprm, ?_, hdecode,
          ?_, hlt, List.length_set, ?_, (Except.ok.inj h).symm⟩)
        · rw [hsplit, List.reduceOption_append, hbefore]
          rfl
        · rw [hset, List.reduceOption_append, hbefore]
          rfl
        · rw [hset]
          exact hnext

end

section
variable {crypto : Crypto} {env : Environment} {bufsiz : Nat} {sendto : Nat → Int} {s t u : Queues}

/-- How it goes with the lists, whatever has been handled. -/
def Kept (s : Queues) (past : List QueueEvent) (t : Queues) : Prop :=
  Tidy s.psvr.prc t ∧ ∃ raws ins outs, Fifo s past t raws ins outs

theorem Kept.start (hidle : s.rawPass = none) : Kept s [] s :=
  ⟨⟨rfl, fun _ h => nomatch hidle.symm.trans h⟩, [], [], [], Fifo.start s⟩

theorem Kept.step {past : List QueueEvent} (h : Kept s past t) (e : QueueEvent)
    (hstep : t.step crypto env bufsiz sendto e = .ok u) : Kept s (past ++ [e]) u := by
  obtain ⟨⟨hprc, hnulled⟩, raws, ins, outs, h⟩ := h
  cases e with
  | enqueueRaw prdt =>
    obtain rfl := Except.ok.inj hstep
    refine ⟨⟨hprc, fun pass hpass => ?_⟩, raws, ins, outs, h.enqueueRaw prdt⟩
    obtain ⟨hle, hpast⟩ := hnulled pass hpass
    refine ⟨hle.trans (List.prefix_append _ _).length_le, ?_⟩
    rwa [List.take_append_of_le_length hle]
  | enqueueIn ppkt =>
    obtain rfl := Except.ok.inj hstep
    exact ⟨⟨hprc, hnulled⟩, raws, ins, outs, h.enqueueIn ppkt⟩
  | enqueueOut ppkt =>
    obtain rfl := Except.ok.inj hstep
    exact ⟨⟨hprc, hnulled⟩, raws, ins, outs, h.enqueueOut ppkt⟩
  | lockRaw =>
    rw [Queues.step] at hstep
    have hquiet := @Fifo.quiet _ _ _ _ _ _ h .lockRaw rfl rfl rfl
    cases hpass : t.rawPass with
    | some pass =>
      rw [hpass] at hstep
      obtain rfl := Except.ok.inj hstep
      exact ⟨⟨hprc, hnulled⟩, raws, ins, outs, hquiet⟩
    | none =>
      rw [hpass] at hstep
      obtain rfl := Except.ok.inj hstep
      refine ⟨⟨hprc, fun pass hpass => ?_⟩, raws, ins, outs, hquiet.place rfl _ _⟩
      obtain rfl := Option.some.inj hpass
      exact ⟨Nat.zero_le _, rfl⟩
  | nextRaw =>
    rw [Queues.step] at hstep
    have hquiet := @Fifo.quiet _ _ _ _ _ _ h .nextRaw rfl rfl rfl
    cases hpass : t.rawPass with
    | none =>
      rw [hpass] at hstep
      obtain rfl := Except.ok.inj hstep
      exact ⟨⟨hprc, hnulled⟩, raws, ins, outs, hquiet⟩
    | some pass =>
      rw [hpass] at hstep
      rcases nextRaw_cases (hnulled pass hpass).2 hstep with
        ⟨rfl, -⟩ | ⟨rfl, hlt, hnext⟩ | ⟨prdt, rest, pnpkt, items, -, hfirst, hdecode, hrest, hlt,
          hlen, hnext, rfl⟩
      · exact ⟨⟨hprc, fun _ h => nomatch h⟩, raws, ins, outs, hquiet.place rfl _ _⟩
      · refine ⟨⟨hprc, fun pass' hpass' => ?_⟩, raws, ins, outs, hquiet.place rfl _ _⟩
        obtain rfl := Option.some.inj hpass'
        exact ⟨hlt, hnext⟩
      · refine ⟨⟨hprc, fun pass' hpass' => ?_⟩, _, ins, outs,
          h.handleRaw hprc hfirst hdecode hrest _⟩
        obtain rfl := Option.some.inj hpass'
        exact ⟨hlen.symm ▸ hlt, hnext⟩
  | removeRaw =>
    rw [Queues.step] at hstep
    have hquiet := @Fifo.quiet _ _ _ _ _ _ h .removeRaw rfl rfl rfl
    split at hstep
    · rename_i hcond
      obtain rfl := Except.ok.inj hstep
      exact ⟨⟨hprc, fun pass hpass => nomatch hcond.1.symm.trans hpass⟩, raws, ins, outs,
        hquiet.place (reduceOption_filter _) _ _⟩
    · obtain rfl := Except.ok.inj hstep
      exact ⟨⟨hprc, hnulled⟩, raws, ins, outs, hquiet⟩
  | processPacket =>
    have hfifo := h.processPacket hstep
    obtain ⟨reqs, -, rfl⟩ := processPacket_ok hstep
    exact ⟨⟨hprc, hnulled⟩, raws, _, outs, hfifo⟩
  | processSendPackets =>
    have hfifo := h.processSendPackets hstep
    obtain ⟨drawn, sent, -, rfl⟩ := processSendPackets_ok hstep
    exact ⟨⟨hprc, hnulled⟩, raws, ins, _, hfifo⟩

theorem kept_run {events : List QueueEvent} (hidle : s.rawPass = none)
    (h : run (Queues.step crypto env bufsiz sendto) s events = .ok t) : Kept s events t := by
  have hstep : ∀ past e rest t u, events = past ++ e :: rest → Kept s past t →
      t.step crypto env bufsiz sendto e = .ok u → Kept s (past ++ [e]) u :=
    fun _ e _ _ _ _ hkept hstep => hkept.step e hstep
  exact run_history hstep rfl (Kept.start hidle) h

/-- What has been handled since the lock was taken, and what is left of the limit. -/
def Counted (s t : Queues) : Prop :=
  ∀ pass, t.rawPass = some pass → t.handledRaw.length + pass.prm = s.handledRaw.length + 2048

theorem Counted.step (h : Counted s t) (htidy : Tidy s.psvr.prc t) {e : QueueEvent}
    (he : e ≠ .lockRaw) (hstep : t.step crypto env bufsiz sendto e = .ok u) : Counted s u := by
  cases e with
  | enqueueRaw prdt | enqueueIn ppkt | enqueueOut ppkt =>
    obtain rfl := Except.ok.inj hstep
    exact h
  | lockRaw => exact absurd rfl he
  | nextRaw =>
    rw [Queues.step] at hstep
    cases hpass : t.rawPass with
    | none =>
      rw [hpass] at hstep
      obtain rfl := Except.ok.inj hstep
      exact h
    | some pass =>
      rw [hpass] at hstep
      have hcount := h pass hpass
      rcases nextRaw_cases (htidy.nulled pass hpass).2 hstep with
        ⟨rfl, -⟩ | ⟨rfl, -, -⟩ | ⟨prdt, rest, pnpkt, items, hprm, -, -, -, -, -, -, rfl⟩
      · exact fun _ h => nomatch h
      · intro pass' hpass'
        obtain rfl := Option.some.inj hpass'
        exact hcount
      · intro pass' hpass'
        obtain rfl := Option.some.inj hpass'
        rw [List.length_append, List.length_singleton]
        dsimp only
        omega
  | removeRaw =>
    rw [Queues.step] at hstep
    split at hstep
    · obtain rfl := Except.ok.inj hstep
      exact h
    · obtain rfl := Except.ok.inj hstep
      exact h
  | processPacket =>
    obtain ⟨reqs, -, rfl⟩ := processPacket_ok hstep
    exact h
  | processSendPackets =>
    obtain ⟨drawn, sent, -, rfl⟩ := processSendPackets_ok hstep
    exact h

theorem counted_run {during : List QueueEvent} (hidle : t.rawPass = none)
    (hlock : .lockRaw ∉ during)
    (h : run (Queues.step crypto env bufsiz sendto) t (.lockRaw :: during) = .ok u) :
    Counted t u := by
  obtain ⟨locked, hlocked, hrest⟩ := run_cons_inv h
  have hkept := (Kept.start hidle).step _ hlocked
  rw [Queues.step, hidle] at hlocked
  obtain rfl := Except.ok.inj hlocked
  have hcounted : Counted t { t with rawPass := some {} } := by
    intro pass hpass
    obtain rfl := Option.some.inj hpass
    rfl
  have hstep : ∀ past e rest v w, during = past ++ e :: rest →
      (Kept t (.lockRaw :: past) v ∧ Counted t v) → v.step crypto env bufsiz sendto e = .ok w →
      Kept t (.lockRaw :: (past ++ [e])) w ∧ Counted t w := by
    rintro past e rest v w rfl ⟨hkept, hcounted⟩ hstep
    have hne : e ≠ .lockRaw := by
      rintro rfl
      exact hlock (List.mem_append_right _ List.mem_cons_self)
    exact ⟨hkept.step e hstep, hcounted.step hkept.1 hne hstep⟩
  exact (run_history (I := fun past v => Kept t (.lockRaw :: past) v ∧ Counted t v) hstep rfl
    ⟨hkept, hcounted⟩ hrest).2

/-- A pass handles what is first of the raw data, with what comes in the meantime. -/
theorem raw_pass {during : List QueueEvent} {v : Queues} (hidle : t.rawPass = none)
    (hlock : .lockRaw ∉ during)
    (h : run (Queues.step crypto env bufsiz sendto) t (.lockRaw :: during) = .ok u)
    (hbusy : u.rawPass ≠ none) (hlast : u.step crypto env bufsiz sendto .nextRaw = .ok v)
    (hdone : v.rawPass = none) :
    v.handledRaw = t.handledRaw ++ (t.rawdataIn.reduceOption ++ rawArrivals during).take 2048 ∧
      v.rawdataIn.reduceOption = (t.rawdataIn.reduceOption ++ rawArrivals during).drop 2048 := by
  obtain ⟨htidy, raws, ins, outs, hfifo⟩ := kept_run hidle h
  obtain ⟨pass, hpass⟩ := Option.ne_none_iff_exists'.mp hbusy
  have hcount := counted_run hidle hlock h pass hpass
  have hall : raws ++ u.rawdataIn.reduceOption = t.rawdataIn.reduceOption ++ rawArrivals during :=
    hfifo.rawdataIn
  rw [hfifo.handledRaw, List.length_append] at hcount
  rw [Queues.step, hpass] at hlast
  rcases nextRaw_cases (htidy.nulled pass hpass).2 hlast with
    ⟨rfl, hend⟩ | ⟨rfl, -⟩ | ⟨prdt, rest, pnpkt, items, -, -, -, -, -, -, -, rfl⟩
  · change u.handledRaw = _ ∧ u.rawdataIn.reduceOption = _
    rw [hfifo.handledRaw, ← hall]
    rcases hend with hnil | hprm
    · have hle : (raws ++ []).length ≤ 2048 := by
        rw [List.append_nil]
        omega
      rw [hnil, List.take_of_length_le hle, List.drop_of_length_le hle, List.append_nil]
      exact ⟨rfl, rfl⟩
    · have hlen : raws.length = 2048 := by omega
      rw [List.take_left' hlen, List.drop_left' hlen]
      exact ⟨rfl, rfl⟩
  · cases hdone
  · cases hdone

theorem run_idle (hidle : t.rawPass = none) (n : Nat) :
    run (Queues.step crypto env bufsiz sendto) t (List.replicate n .nextRaw) = .ok t := by
  induction n with
  | zero => rfl
  | succ n ih =>
    have hnext : t.step crypto env bufsiz sendto .nextRaw = .ok t := by
      rw [Queues.step, hidle]
    rw [List.replicate_succ, run_cons_ok hnext, ih]

/-- A pass comes to its end, with one round for each place that is left and one more. -/
theorem raw_rounds {past : List QueueEvent} (hkept : Kept s past t) {pass : RawPass}
    (hpass : t.rawPass = some pass) {n : Nat} (hn : t.rawdataIn.length - pass.pos < n)
    (h : run (Queues.step crypto env bufsiz sendto) t (List.replicate n .nextRaw) = .ok u) :
    u.rawPass = none := by
  induction n generalizing t past pass with
  | zero => omega
  | succ n ih =>
    rw [List.replicate_succ] at h
    obtain ⟨next, hnext, hrest⟩ := run_cons_inv h
    have hkept' := hkept.step _ hnext
    rw [Queues.step, hpass] at hnext
    rcases nextRaw_cases (hkept.1.nulled pass hpass).2 hnext with
      ⟨rfl, -⟩ | ⟨rfl, hlt, -⟩ | ⟨prdt, rest, pnpkt, items, -, -, -, -, hlt, hlen, -, rfl⟩
    · rw [run_idle rfl] at hrest
      obtain rfl := Except.ok.inj hrest
      rfl
    · refine ih hkept' rfl ?_ hrest
      dsimp only
      omega
    · refine ih hkept' rfl ?_ hrest
      dsimp only
      omega

variable (crypto env bufsiz sendto)

/-- What the passes do from a state on. -/
structure Passes (t : Queues) : Prop where
  packetsIn : ∀ u, t.step crypto env bufsiz sendto .processPacket = .ok u →
    u.handledIn = t.handledIn ++ t.psvr.packetsIn.take 2048 ∧
      u.psvr.packetsIn = t.psvr.packetsIn.drop 2048
  packetsOut : ∀ u, t.step crypto env bufsiz sendto .processSendPackets = .ok u →
    u.handledOut = t.handledOut ++ t.psvr.packetsOut.take 512 ∧
      u.psvr.packetsOut = t.psvr.packetsOut.drop 512
  rawdataIn : ∀ during u v, t.rawPass = none → .lockRaw ∉ during →
    run (Queues.step crypto env bufsiz sendto) t (.lockRaw :: during) = .ok u → u.rawPass ≠ none →
    u.step crypto env bufsiz sendto .nextRaw = .ok v → v.rawPass = none →
    v.handledRaw = t.handledRaw ++ (t.rawdataIn.reduceOption ++ rawArrivals during).take 2048 ∧
      v.rawdataIn.reduceOption = (t.rawdataIn.reduceOption ++ rawArrivals during).drop 2048
  rounds : ∀ pass n u, t.rawPass = some pass → t.rawdataIn.length - pass.pos < n →
    run (Queues.step crypto env bufsiz sendto) t (List.replicate n .nextRaw) = .ok u →
      u.rawPass = none

variable {crypto env bufsiz sendto}

/-- In every run the three lists are worked off in their order, and nothing is lost or handled
twice. -/
theorem queues_fifo {events : List QueueEvent} (hidle : s.rawPass = none)
    (h : run (Queues.step crypto env bufsiz sendto) s events = .ok t) :
    (∃ raws ins outs, Fifo s events t raws ins outs) ∧ Passes crypto env bufsiz sendto t := by
  have hkept := kept_run hidle h
  refine ⟨hkept.2, ?_, ?_, ?_, ?_⟩
  · intro u hu
    obtain ⟨reqs, -, rfl⟩ := processPacket_ok hu
    exact ⟨rfl, rfl⟩
  · intro u hu
    obtain ⟨drawn, sent, -, rfl⟩ := processSendPackets_ok hu
    exact ⟨rfl, rfl⟩
  · intro during u v hfree hlock hrun hbusy hlast hdone
    exact raw_pass hfree hlock hrun hbusy hlast hdone
  · intro pass n u hpass hn hrun
    exact raw_rounds hkept hpass hn hrun

end

/-- Raw data of an empty packet. -/
def sampleRaw : RawData × SockAddr :=
  ({ rId := 1, info := some (ofWord32 spkt), data := word32 7, size := 4 }, .replicate 16 0)

/-- Raw data comes before, during and after the first section of a pass, and an answer is sent. -/
def sampleQueueEvents : List QueueEvent :=
  [.enqueueRaw sampleRaw, .lockRaw, .enqueueRaw sampleRaw, .nextRaw, .nextRaw, .nextRaw,
    .enqueueRaw sampleRaw,
    .removeRaw, .processPacket, .enqueueOut { type := 7, address := .replicate 16 0 },
    .processSendPackets]

theorem queues_fifo_sample : ∃ t,
    run (Queues.step sampleCrypto sampleEnvironment 16 fun _ => 0) { psvr := sampleSquare.psvr }
      sampleQueueEvents = .ok t ∧
    ∃ raws ins outs, Fifo { psvr := sampleSquare.psvr } sampleQueueEvents t raws ins outs := by
  obtain ⟨t, h⟩ :=
    exists_of_isOk (show (run (Queues.step sampleCrypto sampleEnvironment 16 fun _ => 0)
    { psvr := sampleSquare.psvr } sampleQueueEvents).isOk = true by decide +kernel)
  exact ⟨t, h, (queues_fifo rfl h).1⟩

end NetCpp.Proofs
