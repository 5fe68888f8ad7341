import NetCpp.Proofs.Passes

namespace NetCpp.Proofs
open Library Server SqeServer

/-- The raw data as the passes find it. -/
def arriving (s : Server) : List (RawData × SockAddr) :=
  s.rawdataIn.filterMap (fun prdt => prdt.address.map (prdt, ·))

theorem interleaving_nil {α : Type} {ys zs : List α} (h : Interleaving [] ys zs) : zs = ys := by
  generalize hnil : ([] : List α) = xs at h
  induction h with
  | nil => rfl
  | left x h ih => exact absurd hnil (by simp)
  | right y h ih => rw [ih hnil]

section
variable {prc : PrivateKeyClass} {ups us : List Upload} {cs : Upload → Carrier} {s : Server}
  {q : Queues}

theorem brings_bears {u : Upload} {prdt : RawData} (h : Brings prc u prdt) :
    ∃ address, prdt.address = some address ∧ Bears prc u (prdt, address) := by
  rw [Brings, requestIn] at h
  cases haddress : prdt.address with
  | none =>
    rw [haddress] at h
    cases h
  | some address =>
    rw [haddress] at h
    exact ⟨address, rfl, h⟩

theorem forall₂_owns {prdts : List RawData} (h : ∀ prdt ∈ prdts, ∃ u ∈ ups, Owns prc cs u prdt) :
    ∃ us, (∀ u ∈ us, u ∈ ups) ∧ List.Forall₂ (Owns prc cs) us prdts := by
  induction prdts with
  | nil => exact ⟨[], by simp, .nil⟩
  | cons prdt prdts ih =>
    obtain ⟨u, hu, howns⟩ := h prdt List.mem_cons_self
    obtain ⟨us, hus, hrest⟩ := ih (fun prdt hprdt => h prdt (List.mem_cons_of_mem _ hprdt))
    exact ⟨u :: us, List.forall_mem_cons.mpr ⟨hu, hus⟩, .cons howns hrest⟩

theorem forall₂_arriving (h : List.Forall₂ (Owns prc cs) us s.rawdataIn) :
    List.Forall₂ (Bears prc) us (arriving s) := by
  rw [arriving]
  generalize s.rawdataIn = prdts at h
  induction h with
  | nil => exact .nil
  | cons howns h ih =>
    obtain ⟨address, haddress, hbears⟩ := brings_bears howns.1
    rw [List.filterMap_cons, haddress]
    exact .cons hbears ih

theorem exists_bears {raws : List (RawData × SockAddr)} (h : List.Forall₂ (Bears prc) us raws)
    (hus : ∀ u ∈ us, u ∈ ups) : ∀ raw ∈ raws, ∃ u ∈ ups, Bears prc u raw := by
  induction h with
  | nil => simp
  | cons hbears h ih =>
    obtain ⟨hu, hus⟩ := List.forall_mem_cons.mp hus
    exact List.forall_mem_cons.mpr ⟨⟨_, hu, hbears⟩, ih hus⟩

theorem forall₂_asks {raws : List (RawData × SockAddr)} (h : List.Forall₂ (Bears prc) us raws)
    {decoded : List (Option AddressedPacket)} (hdecoded : raws.mapM (decodeRaw prc) = .ok decoded) :
    List.Forall₂ Asks us decoded.reduceOption := by
  induction h generalizing decoded with
  | nil =>
    cases hdecoded
    exact .nil
  | cons hbears h ih =>
    rw [List.mapM_cons] at hdecoded
    obtain ⟨pnpkt, hfirst, hdecoded⟩ := bind_ok hdecoded
    obtain ⟨rest, hrest, hdecoded⟩ := bind_ok hdecoded
    obtain rfl := Except.ok.inj hdecoded
    obtain ⟨pnpkt', hfirst', hbears⟩ := bind_ok hbears
    obtain rfl := Except.ok.inj (hfirst.symm.trans hfirst')
    cases pnpkt with
    | none => cases hbears
    | some ppkt =>
      rw [List.reduceOption_cons_of_some]
      exact .cons hbears (ih hrest)

theorem requests_of_asks {ppkts : List AddressedPacket} (h : List.Forall₂ Asks us ppkts)
    {reqs : List (Option Request)} (hreqs : ppkts.mapM requestOf = .ok reqs) :
    reqs.reduceOption = us.map Upload.taken := by
  induction h generalizing reqs with
  | nil =>
    cases hreqs
    rfl
  | cons hasks h ih =>
    rw [List.mapM_cons] at hreqs
    obtain ⟨pnreq, hfirst, hreqs⟩ := bind_ok hreqs
    obtain ⟨rest, hrest, hreqs⟩ := bind_ok hreqs
    obtain rfl := Except.ok.inj hreqs
    obtain rfl := Except.ok.inj (hfirst.symm.trans hasks)
    rw [List.reduceOption_cons_of_some, ih hrest, List.map_cons]

/-- No pass is going on, and nothing waits for one or has been served. -/
structure IdleQueues (prc : PrivateKeyClass) (q : Queues) : Prop where
  idle : q.rawPass = none
  rawdataIn : q.rawdataIn = []
  packetsIn : q.psvr.packetsIn = []
  reqList : q.psvr.reqList = []
  packetsOut : q.psvr.packetsOut = []
  sent : q.sent = []
  prc : q.psvr.prc = prc

theorem IdleQueues.queued (h : IdleQueues prc q) (env : Environment) (ups : List Upload) :
    Queued env prc ups q where
  key := h.prc
  raw := by simp [h.rawdataIn]
  packetsIn := by simp [h.packetsIn]
  reqList := by simp [h.reqList]
  packetsOut := by simp [h.packetsOut]
  sent := by simp [h.sent]

/-- Whatever the order of the passes, the list of requests grows by those of the first of the raw
data; by all when nothing is left to do. -/
theorem reqList_arriving {crypto : Crypto} {env : Environment} {bufsiz : Nat} {sendto : Nat → Int}
    {t : Queues} {events : List QueueEvent} (hfresh : IdleQueues prc q)
    (hus : List.Forall₂ (Bears prc) us (rawArrivals events)) (hin : inArrivals events = [])
    (hrun : run (Queues.step crypto env bufsiz sendto) q events = .ok t) : ∃ served, served <+: us ∧
      t.psvr.reqList = served.map Upload.taken ∧
      (t.rawdataIn.reduceOption = [] → t.psvr.packetsIn = [] → served = us) := by
  obtain ⟨htidy, raws, ins, outs, hfifo⟩ := kept_run hfresh.idle hrun
  obtain ⟨decoded, pushed, hdecoded, hmerge, hins⟩ := hfifo.packetsIn
  obtain ⟨reqs, hreqs, hlist⟩ := hfifo.reqList
  have hraws : raws ++ t.rawdataIn.reduceOption = rawArrivals events := by
    rw [hfifo.rawdataIn, hfresh.rawdataIn]
    rfl
  rw [hin] at hmerge
  rw [hfresh.packetsIn, interleaving_nil hmerge, List.nil_append] at hins
  rw [hfresh.prc] at hdecoded
  rw [← hraws] at hus
  have hasks := forall₂_asks (List.forall₂_take_append us raws _ hus) hdecoded
  rw [← hins] at hasks
  have hserved := List.forall₂_take_append _ ins _ hasks
  refine ⟨(us.take raws.length).take ins.length,
    (List.take_prefix _ _).trans (List.take_prefix _ _), ?_, ?_⟩
  · rw [hlist, hfresh.reqList, List.nil_append, requests_of_asks hserved hreqs]
  · intro hempty hnone
    rw [hempty, List.append_nil] at hus
    rw [hnone, List.append_nil] at hasks
    rw [← hasks.length_eq, List.take_length, ← hus.length_eq, List.take_length]

end

section
variable {bufsiz : Nat} {pub : PublicKeyClass} {prc : PrivateKeyClass} {ups : List Upload}
  {crypto : Crypto} {env : Environment} {sendto : Nat → Int}

end

/-- A request that takes two boxes, one that takes none, and one that is encrypted. -/
def sampleUploads : List Upload :=
  let asked : Request := { rId := 0, type := [2], data := [], recvPort := 9, tAddr := localhost }
  [⟨{ asked with rId := 1, data := List.replicate 450 7 }, 5, localhost⟩,
    ⟨{ asked with rId := 2, data := [3] }, 6, localhost⟩,
    ⟨{ asked with rId := 3, data := [4], ifEncrypt := true }, 7, localhost⟩]

/-- The keys of the two smallest primes of the list. -/
def samplePub : PublicKeyClass := ⟨100160063, 257⟩

def samplePrc : PrivateKeyClass := ⟨100160063, 50264849⟩

/-- What comes of an upload, in its order. -/
def sampleComing (u : Upload) : List ServerEvent :=
  ((u.datagrams 8192 samplePub).toOption.getD []).map (.datagram · u.address 0)

/-- The datagrams come in disorder and again, with passes between them. -/
def sampleArrivals : List ServerEvent :=
  .boxProcessorDeamon :: (sampleUploads.flatMap sampleComing).reverse ++ .boxProcessorDeamon ::
    sampleUploads.flatMap sampleComing

theorem lossless_sample : Lossless samplePub samplePrc :=
  @lossless_of_le 10007 10009 50264849 (by norm_num [Rsa.PrimeSource])
    (by norm_num [Rsa.PrimeSource])
    (by norm_num) (by norm_num) (by norm_num) (by norm_num) (by norm_num)

theorem sound_sampleUploads : ∀ u ∈ sampleUploads, u.Sound 8192 samplePub samplePrc := by
  have hall : ∀ u ∈ sampleUploads, FitsBuffer 8192 u.request ∧
      (256 < wireLength u.request → ¬256 ∣ wireLength u.request) := by decide +kernel
  intro u hu
  obtain ⟨hfits, hannounced⟩ := hall u hu
  exact ⟨hfits, fun _ => lossless_sample, hannounced⟩

end NetCpp.Proofs
