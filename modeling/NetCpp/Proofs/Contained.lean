import NetCpp.Proofs.Fifo
import NetCpp.Proofs.Received

namespace NetCpp.Proofs
open Library SqeServer

/-- The blocks of a post, each as long as what is read of it. -/
def PostBlocks (pkt : Packet) : Prop :=
  match pkt.buffs with
  | clientId :: pId :: tAddr :: data :: md5 :: type :: _ =>
    8 ≤ clientId.second.length ∧ 8 ≤ pId.second.length ∧ 16 ≤ tAddr.second.length ∧
      data.first % 16 = 0 ∧
    32 ≤ md5.second.length ∧ 4 ≤ type.second.length
  | _ => False

def WellFormed (pkt : Packet) : Prop :=
  (pkt.type = requsetType → RequestBlocks pkt) ∧ (pkt.type = encryptPostType → PostBlocks pkt)

/-- The text of a post, decrypted with a key. -/
def decryptedPost (crypto : Crypto) (key : AesKey256) (data : Block) : Bytes :=
  crypto.aesDecrypt key.makeIV.getKey (key.makeIV.getIV.take 16) data.second

/-- A post for a registered client whose digest is not the one of its text. -/
def badPost (crypto : Crypto) (clientLst : Std.TreeMap UInt64 ClientRegister) (pkt : Packet) :
    Bool :=
  match pkt.buffs with
  | clientId :: _ :: _ :: data :: md5 :: _ =>
    pkt.type == encryptPostType &&
      match clientLst[ofWord64 (clientId.second.take 8)]? with
      | none => false
      | some pclr => md5.second.take 32 != crypto.md5 (decryptedPost crypto pclr.key data)
  | _ => false

section
variable {crypto : Crypto} {psvr : SqeServer} {ppkt : AddressedPacket} {pkt : Packet}
  {clientId pId tAddr data md5 type : Block} {more : List Block}

theorem postBlocks_iff
    (hbuffs : pkt.buffs = clientId :: pId :: tAddr :: data :: md5 :: type :: more) :
    PostBlocks pkt ↔ 8 ≤ clientId.second.length ∧ 8 ≤ pId.second.length ∧ 16 ≤ tAddr.second.length ∧
      data.first % 16 = 0 ∧ 32 ≤ md5.second.length ∧ 4 ≤ type.second.length := by
  rw [PostBlocks, hbuffs]

theorem PostBlocks.exists_blocks (h : PostBlocks pkt) : ∃ clientId pId tAddr data md5 type more,
    pkt.buffs = clientId :: pId :: tAddr :: data :: md5 :: type :: more := by
  rw [PostBlocks] at h
  split at h
  · rename_i hbuffs
    exact ⟨_, _, _, _, _, _, _, hbuffs⟩
  · exact h.elim

theorem getPostInfo_blocks
    (hbuffs : pkt.buffs = clientId :: pId :: tAddr :: data :: md5 :: type :: more)
    (h : PostBlocks pkt) : ∃ addr, getPostInfo pkt =
      .ok (ofWord64 (clientId.second.take 8), ofWord64 (pId.second.take 8), addr) := by
  obtain ⟨h0, h1, h2, -⟩ := (postBlocks_iff hbuffs).mp h
  obtain ⟨addr, haddr⟩ := readSockAddr_returns.mpr h2
  refine ⟨addr, ?_⟩
  simp [getPostInfo, Packet.buff, hbuffs, readWord64_eq_ok.mpr ⟨h0, rfl⟩,
    readWord64_eq_ok.mpr ⟨h1, rfl⟩, haddr, bind, Except.bind, pure, Except.pure]

/-- Only the digest can be wrong. -/
theorem packet2Post_blocks
    (hbuffs : pkt.buffs = clientId :: pId :: tAddr :: data :: md5 :: type :: more)
    (h : PostBlocks pkt) (key : AesKey256) : ∃ r, packet2Post crypto pkt key =
      if md5.second.take 32 ≠ crypto.md5 (decryptedPost crypto key data) then
        .error (.message "key error")
      else .ok r := by
  obtain ⟨addr, hinfo⟩ := getPostInfo_blocks hbuffs h
  obtain ⟨-, -, -, h3, h4, h5⟩ := (postBlocks_iff hbuffs).mp h
  have hsized : (decryptedPost crypto key data).length = data.first.toNat := by
    rw [decryptedPost, crypto.length_aesDecrypt, data.sized]
  refine ⟨(⟨ofWord64 (clientId.second.take 8), addr, ofWord64 (pId.second.take 8),
    ofWord32 (type.second.take 4),
    data.first, decryptedPost crypto key data, hsized⟩, key.makeIV), ?_⟩
  rw [packet2Post, hinfo]
  simp only [Packet.buff, hbuffs, List.getElem?_cons_succ, List.getElem?_cons_zero,
    readWord32_eq_ok.mpr ⟨h5, rfl⟩, readString_eq_ok.mpr ⟨by decide, h4, rfl⟩, inPlace_ok _ h3,
    bind, Except.bind]
  rfl

theorem badPost_iff (hbuffs : pkt.buffs = clientId :: pId :: tAddr :: data :: md5 :: type :: more)
    (htype : pkt.type = encryptPostType) (clientLst : Std.TreeMap UInt64 ClientRegister) :
    badPost crypto clientLst pkt = true ↔
    ∃ pclr, clientLst[ofWord64 (clientId.second.take 8)]? = some pclr ∧
      md5.second.take 32 ≠ crypto.md5 (decryptedPost crypto pclr.key data) := by
  simp only [badPost, hbuffs, htype, beq_self_eq_true, Bool.true_and]
  cases clientLst[ofWord64 (clientId.second.take 8)]? with
  | none => simp
  | some pclr => simp

theorem badPost_type (h : badPost crypto psvr.clientLst pkt = true) :
    pkt.type = encryptPostType := by
  rw [badPost] at h
  split at h
  · exact beq_iff_eq.mp (Bool.and_eq_true_iff.mp h).1
  · cases h

/-- A well-formed packet goes through the loop unless it is a bad post. -/
theorem processPacketIn_eq (hwf : WellFormed ppkt.toPacket) :
    ∃ t, processPacketIn crypto psvr ppkt =
    if badPost crypto psvr.clientLst ppkt.toPacket = true then .error (.message "key error")
      else .ok t := by
  obtain ⟨req, hreq⟩ := packet2Request_returns.mpr hwf.1
  rw [processPacketIn]
  simp only [hreq, bind, Except.bind]
  by_cases htype : ppkt.type = encryptPostType
  · obtain ⟨clientId, pId, tAddr, data, md5, type, more, hbuffs⟩ := (hwf.2 htype).exists_blocks
    obtain ⟨addr, hinfo⟩ := getPostInfo_blocks hbuffs (hwf.2 htype)
    have hbad := @badPost_iff crypto _ _ _ _ _ _ _ _ hbuffs htype psvr.clientLst
    rw [if_pos htype]
    simp only [postKey, hinfo, bind, Except.bind, pure, Except.pure]
    cases hclient : psvr.clientLst[ofWord64 (clientId.second.take 8)]? with
    | none =>
      have hgood : ¬badPost crypto psvr.clientLst ppkt.toPacket = true := by
        rw [hbad, hclient]
        rintro ⟨pclr, hsome, -⟩
        cases hsome
      simp only [if_neg hgood]
      exact ⟨_, rfl⟩
    | some pclr =>
      obtain ⟨r, hpost⟩ := @packet2Post_blocks crypto _ _ _ _ _ _ _ _ hbuffs (hwf.2 htype) pclr.key
      rw [hclient] at hbad
      simp only [Option.map_some, hpost]
      by_cases hdigest : md5.second.take 32 ≠ crypto.md5 (decryptedPost crypto pclr.key data)
      · simp only [if_pos hdigest, if_pos (hbad.mpr ⟨pclr, rfl, hdigest⟩)]
        exact ⟨psvr, trivial⟩
      · have hgood : ¬badPost crypto psvr.clientLst ppkt.toPacket = true := by
          rw [hbad]
          rintro ⟨pclr', hsame, hne⟩
          obtain rfl := Option.some.inj hsame
          exact hdigest hne
        simp only [if_neg hdigest, if_neg hgood]
        exact ⟨_, rfl⟩
  · have hgood : ¬badPost crypto psvr.clientLst ppkt.toPacket = true :=
      fun hbad => htype (badPost_type hbad)
    simp only [if_neg htype, if_neg hgood]
    exact ⟨_, rfl⟩

theorem processPacketIn_good (hwf : WellFormed ppkt.toPacket)
    (hgood : badPost crypto psvr.clientLst ppkt.toPacket = false) :
    ∃ t, processPacketIn crypto psvr ppkt = .ok t ∧ t.clientLst = psvr.clientLst := by
  obtain ⟨t, h⟩ := @processPacketIn_eq crypto psvr ppkt hwf
  rw [if_neg (by rw [hgood]; exact Bool.false_ne_true)] at h
  obtain ⟨req, -, rfl⟩ := processPacketIn_ok h
  exact ⟨_, h, rfl⟩

theorem processPacketIn_bad (hwf : WellFormed ppkt.toPacket)
    (hbad : badPost crypto psvr.clientLst ppkt.toPacket = true) :
    processPacketIn crypto psvr ppkt = .error (.message "key error") := by
  obtain ⟨t, h⟩ := @processPacketIn_eq crypto psvr ppkt hwf
  rwa [if_pos hbad] at h

theorem run_good {ppkts : List AddressedPacket} (hwf : ∀ ppkt ∈ ppkts, WellFormed ppkt.toPacket)
    (hgood : ∀ ppkt ∈ ppkts, badPost crypto psvr.clientLst ppkt.toPacket = false) :
    ∃ t, run (processPacketIn crypto) psvr ppkts = .ok t ∧ t.clientLst = psvr.clientLst := by
  induction ppkts generalizing psvr with
  | nil => exact ⟨psvr, rfl, rfl⟩
  | cons ppkt ppkts ih =>
    obtain ⟨hwf, hwfs⟩ := List.forall_mem_cons.mp hwf
    obtain ⟨hgood, hgoods⟩ := List.forall_mem_cons.mp hgood
    obtain ⟨u, hu, hclients⟩ := processPacketIn_good hwf hgood
    rw [← hclients] at hgoods
    obtain ⟨t, ht, hsame⟩ := ih hwfs hgoods
    exact ⟨t, by rw [run_cons_ok hu, ht], hsame.trans hclients⟩

/-- The first bad post within the limit ends the pass, and the lock is not given back: the packets
before it have been handled, it and those behind it are still on the list. -/
theorem processPacket_bad {before after : List AddressedPacket}
    (hlist : psvr.packetsIn = before ++ ppkt :: after)
    (hlimit : before.length < 2048) (hwf : ∀ ppkt ∈ psvr.packetsIn, WellFormed ppkt.toPacket)
    (hgood : ∀ ppkt ∈ before, badPost crypto psvr.clientLst ppkt.toPacket = false)
    (hbad : badPost crypto psvr.clientLst ppkt.toPacket = true) :
    ∃ t, run (processPacketIn crypto) psvr before = .ok t ∧
      psvr.processPacket crypto =
        { psvr := t
          packetsIn := List.replicate before.length none ++ some ppkt :: after.map some
          handled := before
          mutexRp := true
          fault := some (.message "key error") } := by
  rw [hlist] at hwf
  obtain ⟨t, hrun, hclients⟩ := run_good (fun p hp => hwf p (List.mem_append_left _ hp)) hgood
  rw [← hclients] at hbad
  have hstop := processPacketIn_bad (hwf ppkt (List.mem_append_right _ List.mem_cons_self)) hbad
  refine ⟨t, hrun, ?_⟩
  rw [processPacket, hlist, List.map_append, List.map_cons, drain_stopped hlimit hrun hstop]

/-- A pass with bad posts goes as it would without them, and nothing of it is left. -/
structure Contained (crypto : Crypto) (psvr : SqeServer) : Prop where
  completes : (psvr.processPacket crypto).fault = none
  released : (psvr.processPacket crypto).mutexRp = false
  removed : (psvr.processPacket crypto).packetsIn = (psvr.packetsIn.drop 2048).map some
  others : run (processPacketIn crypto) psvr
    ((psvr.packetsIn.take 2048).filter fun ppkt => !badPost crypto psvr.clientLst ppkt.toPacket) =
    .ok (psvr.processPacket crypto).psvr

theorem first_bad
    (h : ¬∀ ppkt ∈ psvr.packetsIn.take 2048, badPost crypto psvr.clientLst ppkt.toPacket = false) :
    ∃ before bad after, psvr.packetsIn = before ++ bad :: after ∧ before.length < 2048 ∧
      (∀ ppkt ∈ before, badPost crypto psvr.clientLst ppkt.toPacket = false) ∧
      badPost crypto psvr.clientLst bad.toPacket = true := by
  have hsome : ((psvr.packetsIn.take 2048).find? fun ppkt =>
      badPost crypto psvr.clientLst ppkt.toPacket).isSome = true := by
    rw [List.find?_isSome]
    by_contra hnone
    exact h fun ppkt hppkt => Bool.eq_false_iff.mpr fun hbad => hnone ⟨ppkt, hppkt, hbad⟩
  obtain ⟨bad, hfind⟩ := Option.isSome_iff_exists.mp hsome
  obtain ⟨hbad, before, after, hsplit, hgood⟩ := List.find?_eq_some_iff_append.mp hfind
  have hlen := congrArg List.length hsplit
  rw [List.length_take, List.length_append, List.length_cons] at hlen
  refine ⟨before, bad, after ++ psvr.packetsIn.drop 2048, ?_, by omega, fun ppkt hppkt => ?_, hbad⟩
  · conv_lhs => rw [← List.take_append_drop 2048 psvr.packetsIn, hsplit]
    rw [List.append_assoc, List.cons_append]
  · simpa using hgood ppkt hppkt

/-- A pass over well-formed packets is contained just if there is no bad post among the first
2048. -/
theorem processPacket_contained (hwf : ∀ ppkt ∈ psvr.packetsIn, WellFormed ppkt.toPacket) :
    Contained crypto psvr ↔
      ∀ ppkt ∈ psvr.packetsIn.take 2048, badPost crypto psvr.clientLst ppkt.toPacket = false := by
  constructor
  · intro h
    by_contra hnot
    obtain ⟨before, bad, after, hlist, hlimit, hgood, hbad⟩ := first_bad hnot
    obtain ⟨t, -, hpass⟩ := processPacket_bad hlist hlimit hwf hgood hbad
    have hfault := h.completes
    rw [hpass] at hfault
    cases hfault
  · intro hgood
    obtain ⟨t, hrun, -⟩ := run_good (fun p hp => hwf p (List.mem_of_mem_take hp)) hgood
    have hnone : (drain (processPacketIn crypto) 2048 psvr (psvr.packetsIn.map some)).error =
        none := by
      rw [Option.eq_none_iff_forall_not_mem]
      intro f hf
      have herror := drain_error.mp hf
      rw [reduceOption_map_some, hrun] at herror
      cases herror
    obtain ⟨-, hitems, hstate⟩ := drain_ok hnone
    rw [reduceOption_map_some] at hitems hstate
    have hpass :
        let pass := drain (processPacketIn crypto) 2048 psvr (psvr.packetsIn.map some)
        psvr.processPacket crypto =
          { psvr := pass.state
            packetsIn := pass.items.filter Option.isSome
            handled := pass.handled } := by
      rw [processPacket, hnone]
    have hall : (psvr.packetsIn.take 2048).filter
        (fun ppkt => !badPost crypto psvr.clientLst ppkt.toPacket) = psvr.packetsIn.take 2048 := by
      rw [List.filter_eq_self]
      intro ppkt hppkt
      rw [hgood ppkt hppkt]
      rfl
    refine ⟨by rw [hpass], by rw [hpass], ?_, ?_⟩
    · rw [hpass, filter_isSome, hitems]
    · rw [hall, hpass, hstate]

end

def sampleRegister : ClientRegister where
  clientId := 7
  key := sampleKey
  name := []
  tag := []
  click := 0
  passwd := 0
  tAddr := .replicate 16 0

/-- A server with a client, and with these packets. -/
def sampleServer (packetsIn : List AddressedPacket) : SqeServer :=
  { sampleSquare.psvr with clientLst := Std.TreeMap.insert ∅ 7 sampleRegister, packetsIn }

/-- A post for the client, with the digest of another text. -/
def sampleBadPost : AddressedPacket :=
  { type := encryptPostType
    buffs :=
      [⟨8, word64 7, by decide⟩, ⟨8, word64 9, by decide⟩, ⟨16, List.replicate 16 0, by decide⟩,
      ⟨16, List.replicate 16 1, by decide⟩, ⟨32, List.replicate 32 1, by decide⟩,
      ⟨4, word32 0, by decide⟩]
    address := .replicate 16 0 }

theorem sampleBadPost_wellFormed : WellFormed sampleBadPost.toPacket := by
  refine ⟨fun h => absurd h (by decide), fun _ => ?_⟩
  rw [PostBlocks, sampleBadPost]
  decide

/-- The bad post is not contained. -/
theorem processPacket_contained_sample :
    ¬Contained sampleCrypto (sampleServer [sampleBadPost]) := by
  have hwf : ∀ ppkt ∈ [sampleBadPost], WellFormed ppkt.toPacket := by
    intro ppkt hppkt
    rw [List.mem_singleton.mp hppkt]
    exact sampleBadPost_wellFormed
  rw [@processPacket_contained sampleCrypto (sampleServer [sampleBadPost]) hwf]
  decide +kernel

/-- The pass ends at the bad post, the lock is held, and the packet behind is not handled. -/
theorem processPacket_uncontained :
    (processPacket sampleCrypto (sampleServer [sampleBadPost, sampleBadPost])).fault =
      some (.message "key error") ∧
    (processPacket sampleCrypto (sampleServer [sampleBadPost, sampleBadPost])).mutexRp = true ∧
    (processPacket sampleCrypto (sampleServer [sampleBadPost, sampleBadPost])).packetsIn =
      [some sampleBadPost, some sampleBadPost] := by
  decide +kernel

end NetCpp.Proofs
