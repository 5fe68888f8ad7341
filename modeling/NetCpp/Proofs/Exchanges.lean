import NetCpp.Proofs.Callbacks
import NetCpp.Proofs.Intact

namespace NetCpp.Proofs
open Library Server SqeServer

/-- The requests that the clients make, with what they draw and where they send from. -/
def uploads (addr : Nat → SockAddr) (events : List ExchangeEvent) : List Upload :=
  events.filterMap (fun
    | .request i preq _ rand64 => some { request := preq, rand64, address := addr i }
    | _ => none)

/-- Those of one client. -/
def uploadsOf (addr : Nat → SockAddr) (i : Nat) (events : List ExchangeEvent) : List Upload :=
  uploads addr (events.filter (fun
    | .request j _ _ _ => j = i
    | _ => false))

/-- Only what a party has sent comes to the other; where a request is to be encrypted the client has
the key. -/
def Possible (pub : PublicKeyClass) (s : Exchange) : ExchangeEvent → Prop
  | .request i preq _ _ => preq.ifEncrypt = true → (s.clients i).sqePbc = pub
  | .toServer i str _ => str ∈ given (s.clients i)
  | .toClient _ str _ => ∃ p ∈ s.queues.sent, str ∈ p.2
  | .pass e => rawArrivals [e] = [] ∧ inArrivals [e] = [] ∧ outArrivals [e] = []
  | _ => True

instance Possible.decide (pub : PublicKeyClass) (s : Exchange) (e : ExchangeEvent) :
    Decidable (Possible pub s e) :=
  match e with
  | .request i preq _ _ =>
    inferInstanceAs (Decidable (preq.ifEncrypt = true → (s.clients i).sqePbc = pub))
  | .processRequestListener _ | .setPublicKey _ _ => isTrue trivial
  | .toServer i str _ =>
    decidable_of_iff (∃ sent ∈ given (s.clients i), sent = str) (by simp [Possible])
  | .toClient _ str _ =>
    decidable_of_iff (∃ p ∈ s.queues.sent, ∃ sent ∈ p.2, sent = str) (by simp [Possible])
  | .boxProcessorDeamon | .boxsCleaningProcessorDeamon => isTrue trivial
  | .pass e =>
    decidable_of_iff ((rawArrivals [e]).isEmpty ∧ (inArrivals [e]).isEmpty ∧
      (outArrivals [e]).isEmpty)
      (by simp [Possible])
  | .processRequset | .wait _ _ => isTrue trivial

/-- Nothing has been received or asked yet. -/
structure Starts (pub : PublicKeyClass) (prc : PrivateKeyClass) (s : Exchange) : Prop where
  server : s.server = {}
  rawdataIn : s.queues.rawdataIn = []
  packetsIn : s.queues.psvr.packetsIn = []
  reqList : s.queues.psvr.reqList = []
  packetsOut : s.queues.psvr.packetsOut = []
  sent : s.queues.sent = []
  pkc : s.queues.psvr.pkc = pub
  prc : s.queues.psvr.prc = prc
  clients : ∀ i, s.clients i = { sqePbc := (s.clients i).sqePbc }

/-- A datagram of the server comes to a client. -/
def Comes : ExchangeEvent → Prop
  | .toClient _ _ _ => True
  | _ => False

instance Comes.decide (e : ExchangeEvent) : Decidable (Comes e) :=
  match e with
  | .toClient _ _ _ => isTrue trivial
  | .request _ _ _ _ | .processRequestListener _ | .setPublicKey _ _ | .toServer _ _ _
  | .boxProcessorDeamon | .boxsCleaningProcessorDeamon | .pass _ | .processRequset
  | .wait _ _ => isFalse id

/-- Whatever is on its way, it is of an upload or of an answer to one. -/
structure Exchanging (bufsiz : Nat) (pub : PublicKeyClass) (prc : PrivateKeyClass)
    (env : Environment) (addr : Nat → SockAddr) (events : List ExchangeEvent)
    (cs : Upload → Carrier) (s : Exchange) : Prop where
  whole : Whole prc (uploads addr events) cs s.server
  unlocked : Open s.server
  handed : s.server.rawdataIn = []
  queued : Queued env prc (uploads addr events) s.queues
  pkc : s.queues.psvr.pkc = pub
  follows : ∀ i, Follows bufsiz pub (uploadsOf addr i events) (addr i) (s.clients i)

section
variable {bufsiz : Nat} {pub : PublicKeyClass} {prc : PrivateKeyClass} {env : Environment}
  {addr : Nat → SockAddr} {events : List ExchangeEvent} {cs : Upload → Carrier} {s : Exchange}
  {crypto : Crypto} {sendto : Nat → Int}

theorem mem_uploadsOf {i : Nat} {u : Upload} : u ∈ uploadsOf addr i events ↔
    u.address = addr i ∧ ∃ timeout, .request i u.request timeout u.rand64 ∈ events := by
  constructor
  · intro h
    obtain ⟨e, hin, hu⟩ := List.mem_filterMap.mp h
    cases e with
    | request j preq timeout rand64 =>
      obtain rfl := of_decide_eq_true (List.mem_filter.mp hin).2
      obtain rfl := Option.some.inj hu
      exact ⟨rfl, timeout, (List.mem_filter.mp hin).1⟩
    | _ => cases hu
  · rintro ⟨haddress, timeout, he⟩
    refine List.mem_filterMap.mpr ⟨_, List.mem_filter.mpr ⟨he, decide_eq_true rfl⟩, ?_⟩
    simp only [← haddress]

theorem uploadsOf_subset {i : Nat} {u : Upload} (h : u ∈ uploadsOf addr i events) :
    u ∈ uploads addr events := by
  obtain ⟨e, he, hu⟩ := List.mem_filterMap.mp h
  exact List.mem_filterMap.mpr ⟨e, (List.mem_filter.mp he).1, hu⟩

namespace Exchanging

theorem start (hs : Starts pub prc s) : Exchanging bufsiz pub prc env addr events cs s := by
  obtain ⟨hwhole, hopen⟩ := @Whole.start prc (uploads addr events) cs
  refine ⟨?_, ?_, ?_, ⟨hs.prc, ?_, ?_, ?_, ?_, ?_⟩, hs.pkc, ?_⟩
  · rw [hs.server]
    exact hwhole
  · rw [hs.server]
    exact hopen
  · rw [hs.server]
  · simp [hs.rawdataIn]
  · simp [hs.packetsIn]
  · simp [hs.reqList]
  · simp [hs.packetsOut]
  · simp [hs.sent]
  · intro i
    rw [hs.clients i]
    exact .start _

/-- A step of the server's queues. -/
theorem queues (h : Exchanging bufsiz pub prc env addr events cs s) {q : Queues}
    (hq : Onward env prc (uploads addr events) s.queues q) :
    Exchanging bufsiz pub prc env addr events cs { s with queues := q } where
  whole := h.whole
  unlocked := h.unlocked
  handed := h.handed
  queued := hq.queued
  pkc := hq.extends_.pkc.trans h.pkc
  follows := h.follows

/-- A step of one client. -/
theorem onClient (h : Exchanging bufsiz pub prc env addr events cs s) {i : Nat}
    {result : Except Fault Client} (hresult : ∃ clt, result = .ok clt ∧
      Follows bufsiz pub (uploadsOf addr i events) (addr i) clt) :
    ∃ s', s.onClient i result = .ok s' ∧ Exchanging bufsiz pub prc env addr events cs s' := by
  obtain ⟨clt, rfl, hclt⟩ := hresult
  refine ⟨{ s with clients := Function.update s.clients i clt }, rfl,
    ⟨h.whole, h.unlocked, h.handed, h.queued, h.pkc, ?_⟩⟩
  intro j
  dsimp only
  by_cases hj : j = i
  · subst hj
    rw [Function.update_self]
    exact hclt
  · rw [Function.update_of_ne hj]
    exact h.follows j

/-- A step of the threads that receive: what they have made goes to the queues. -/
theorem receive (h : Exchanging bufsiz pub prc env addr events cs s)
    (hids : ((uploads addr events).map Upload.rand64).Nodup)
    (hcs : ∀ u ∈ uploads addr events, u.datagrams bufsiz pub = .ok (cs u).sent ∧
      Carries prc u (cs u))
    {e : ServerEvent} (he : Uploaded bufsiz pub (uploads addr events) e) :
    ∃ s', s.receive e = .ok s' ∧ Exchanging bufsiz pub prc env addr events cs s' := by
  obtain ⟨server, hserver, hwhole, hopen⟩ := h.whole.step h.unlocked hids hcs he
  have hreceive : s.receive e = .ok { s with
      server := { server with rawdataIn := [] }
      queues := { s.queues with
        rawdataIn := s.queues.rawdataIn ++ (Exchange.addressed server.rawdataIn).map some } } := by
    rw [Exchange.receive, hserver]
    rfl
  refine ⟨_, hreceive, ⟨⟨hwhole.listener, by simp⟩, hopen, rfl, ?_, h.pkc, h.follows⟩⟩
  refine ⟨h.queued.key, ?_, h.queued.packetsIn, h.queued.reqList, h.queued.packetsOut,
    h.queued.sent⟩
  intro raw hraw
  rcases List.mem_append.mp hraw with hold | hnew
  · exact h.queued.raw raw hold
  · obtain ⟨raw', hin, heq⟩ := List.mem_map.mp hnew
    obtain rfl := Option.some.inj heq
    obtain ⟨prdt, hprdt, hmap⟩ := List.mem_filterMap.mp hin
    obtain ⟨u, hu, howns⟩ := hwhole.raw prdt hprdt
    obtain ⟨address, haddress, hbears⟩ := brings_bears howns.1
    rw [haddress] at hmap
    obtain rfl := Option.some.inj hmap
    exact ⟨u, hu, hbears⟩

theorem step (h : Exchanging bufsiz pub prc env addr events cs s) (hbuf : 256 ≤ bufsiz)
    (hids : ((uploads addr events).map Upload.rand64).Nodup)
    (hcs : ∀ u ∈ uploads addr events, u.datagrams bufsiz pub = .ok (cs u).sent ∧
      Carries prc u (cs u))
    (hdocs : ∀ u ∈ uploads addr events, Documented env u.request) {e : ExchangeEvent}
    (hin : e ∈ events) (he : Possible pub s e) (hleaves : ¬Comes e) :
    ∃ s', s.step crypto env bufsiz sendto addr e = .ok s' ∧
      Exchanging bufsiz pub prc env addr events cs s' := by
  cases e with
  | request i preq timeout rand64 =>
    have hu : { request := preq, rand64, address := addr i } ∈ uploadsOf addr i events :=
      mem_uploadsOf.mpr ⟨rfl, timeout, hin⟩
    exact h.onClient ((h.follows i).request hu (hcs _ (uploadsOf_subset hu)).1 he timeout)
  | processRequestListener i => exact h.onClient (h.follows i).processRequestListener
  | setPublicKey i tPbc => exact h.onClient ⟨_, rfl, (h.follows i).setPublicKey tPbc⟩
  | toServer i str rand64 =>
    obtain ⟨u, hu, haddress, hsends⟩ := (h.follows i).mem_given he
    exact h.receive hids hcs ⟨u, uploadsOf_subset hu, haddress.symm, hsends⟩
  | toClient i str rand64 => exact absurd trivial hleaves
  | boxProcessorDeamon => exact h.receive hids hcs trivial
  | boxsCleaningProcessorDeamon => exact h.receive hids hcs trivial
  | pass e =>
    obtain ⟨q, hq, honward⟩ := h.queued.step crypto hbuf sendto (incoming_pass he.1 he.2.1 he.2.2)
    exact ⟨_, by rw [Exchange.step, hq]; rfl, h.queues honward⟩
  | processRequset =>
    obtain ⟨psvr, hpsvr, honward⟩ := h.queued.processRequset hdocs
    exact ⟨_, by rw [Exchange.step, hpsvr]; rfl, h.queues honward⟩
  | wait i good => exact ⟨_, rfl, h.queues (h.queued.wait i good)⟩

/-- A client that receives an answer looks for the end of its type behind what it has received. -/
theorem comes (h : Exchanging bufsiz pub prc env addr events cs s) {e : ExchangeEvent}
    (he : Possible pub s e) (hcomes : Comes e) :
    s.step crypto env bufsiz sendto addr e = .error .readOutside := by
  cases e with
  | toClient i str rand64 =>
    obtain ⟨p, hp, hstr⟩ := he
    obtain ⟨res, hres, rfl⟩ := h.queued.sent p hp str hstr
    rw [Exchange.step, clientRespondDeamon_answer hres.short]
    rfl
  | _ => exact hcomes.elim

/-- What the server has sent are answers to requests that were made. -/
theorem sent (h : Exchanging bufsiz pub prc env addr events cs s) :
    ∀ p ∈ s.queues.sent, ∀ str ∈ p.2, ∃ i preq timeout rand64 res,
      .request i preq timeout rand64 ∈ events ∧
      Answered env s.queues.psvr (takenFrom preq (addr i)) res ∧ str = answerText res := by
  intro p hp str hstr
  obtain ⟨res, ⟨u, hu, hanswered⟩, rfl⟩ := h.queued.sent p hp str hstr
  obtain ⟨e, he, hu⟩ := List.mem_filterMap.mp hu
  cases e with
  | request i preq timeout rand64 =>
    obtain rfl := Option.some.inj hu
    exact ⟨i, preq, timeout, rand64, res, he, hanswered, rfl⟩
  | _ => cases hu

end Exchanging

end

def samplePublic : Request where
  rId := 2
  type := publicRequest
  data := requestForPublicKey
  recvPort := 9050
  tAddr := localhost

def sampleExchange : Exchange where
  queues := { psvr := { pkc := ⟨100160063, 257⟩, prc := ⟨100160063, 50264849⟩ } }
  clients _ := { sqePbc := ⟨0, 0⟩ }

def sampleAddr (i : Nat) : SockAddr := if i = 0 then localhost else .replicate 16 0

/-- A step where there is one server and every client sends from its own address. -/
def sampleStep : Exchange → ExchangeEvent → Except Fault Exchange :=
  Exchange.step sampleCrypto sampleEnvironment 8192 (fun _ => 0) sampleAddr

def sampleAsked : List ExchangeEvent := [.request 0 samplePublic 5 7, .request 1 samplePrivate 5 8]

/-- What an exchange has given the sockets of the clients and that of the server. -/
def sampleGiven (events : List ExchangeEvent) : List Bytes × List Bytes :=
  match run sampleStep sampleExchange events with
  | .error _ => ([], [])
  | .ok s => (given (s.clients 0) ++ given (s.clients 1), s.queues.sent.flatMap Prod.snd)

/-- One client asks for the key and another registers; the former asks twice. -/
def sampleServed : List ExchangeEvent :=
  sampleAsked ++ [.toServer 1 ((sampleGiven sampleAsked).1.getD 1 []) 1,
    .toServer 0 ((sampleGiven sampleAsked).1.getD 0 []) 2,
    .toServer 0 ((sampleGiven sampleAsked).1.getD 0 []) 3,
    .pass .lockRaw, .pass .nextRaw, .pass .nextRaw, .pass .nextRaw, .pass .nextRaw,
    .pass .removeRaw, .pass .processPacket, .processRequset, .pass .processSendPackets]

/-- Every answer comes to both clients. -/
def sampleHeard : List ExchangeEvent :=
  sampleServed ++ (sampleGiven sampleServed).2.flatMap (fun str =>
    [.toClient 1 str 4, .toClient 0 str 5])

theorem sampleExchange_starts : Starts ⟨100160063, 257⟩ ⟨100160063, 50264849⟩ sampleExchange :=
  ⟨rfl, rfl, rfl, rfl, rfl, rfl, rfl, rfl, fun _ => rfl⟩

theorem uploads_sampleHeard : uploads sampleAddr sampleHeard =
    [⟨samplePublic, 7, localhost⟩, ⟨samplePrivate, 8, .replicate 16 0⟩] := by
  decide +kernel

theorem uploads_sampleServed : uploads sampleAddr sampleServed =
    [⟨samplePublic, 7, localhost⟩, ⟨samplePrivate, 8, .replicate 16 0⟩] := by
  decide +kernel

theorem sound_sample : ∀ u ∈ ([⟨samplePublic, 7, localhost⟩, ⟨samplePrivate, 8, .replicate 16 0⟩] :
    List Upload), u.Sound 8192 ⟨100160063, 257⟩ ⟨100160063, 50264849⟩ ∧
      Documented sampleEnvironment u.request := by
  have hall : ∀ u ∈ ([⟨samplePublic, 7, localhost⟩, ⟨samplePrivate, 8, .replicate 16 0⟩] :
      List Upload), FitsBuffer 8192 u.request ∧ u.request.ifEncrypt = false ∧
        (256 < wireLength u.request → ¬256 ∣ wireLength u.request) ∧
        Documented sampleEnvironment u.request := by
    decide +kernel
  intro u hu
  obtain ⟨hfits, hplain, hannounced, hdoc⟩ := hall u hu
  exact ⟨⟨hfits, fun h => absurd (h.symm.trans hplain) (by decide), hannounced⟩, hdoc⟩

end NetCpp.Proofs
