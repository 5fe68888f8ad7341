import NetCpp.Proofs.Requests

namespace NetCpp.Proofs
open Library Server SqeServer

/-- A packet as it is read: the one that was built, or what its bytes are parsed to. -/
inductive Arrives (tpkt : Packet) : Packet → Prop where
  | direct : Arrives tpkt tpkt
  | parsed {bufsiz : Nat} {rdt raw : RawData} {pkt : Packet}
    (hraw : packet2Rawdata bufsiz tpkt rdt = .ok raw) (hpkt : rawdata2Packet {} raw = .ok pkt) :
    Arrives tpkt pkt

/-- What is written is what is parsed. -/
theorem Arrives.same {tpkt pkt : Packet} (h : Arrives tpkt pkt) : pkt = tpkt := by
  cases h with
  | direct => rfl
  | parsed hraw hpkt =>
    have hfits := packet2Rawdata_iff.mp ⟨_, hraw⟩
    rw [packet2Rawdata_ok hfits] at hraw
    obtain rfl := Except.ok.inj hraw
    rw [rawdata2Packet_text rfl rfl] at hpkt
    exact (Except.ok.inj hpkt).symm

/-- A string is never read back from a block that holds no more than it. -/
theorem readCString_ne {s p : Bytes} (hp : p.length ≤ s.length) : readCString p ≠ .ok s := by
  intro h
  unfold readCString at h
  split at h
  · rename_i hnul
    have hs : p.takeWhile (· ≠ 0) = s := Except.ok.inj h
    have hall : p.takeWhile (· ≠ 0) = p :=
      (List.takeWhile_prefix _).eq_of_length_le (by rw [hs]; exact hp)
    have hne := List.takeWhile_eq_self_iff.mp hall 0 hnul
    simp at hne
  · cases h

theorem packet2Respond_answer (res : Respond) : packet2Respond (answer res).toPacket =
    (readCString (textBlock res.type).second).map fun type =>
      { res with type, buff := (textBlock res.buff).second } := by
  have hid : (textBlock (word64 res.rId)).second = word64 res.rId := by
    apply textBlock_second
    rw [length_word64]
    decide
  have haddr : (textBlock res.tAddr.toList).second = res.tAddr.toList := by
    apply textBlock_second
    rw [Vector.length_toList]
    decide
  have h0 : (answer res).toPacket.buff 0 = .ok (word64 res.rId) := congrArg Except.ok hid
  have h1 : (answer res).toPacket.buff 1 = .ok res.tAddr.toList := congrArg Except.ok haddr
  have h2 : (answer res).toPacket.buff 2 = .ok (textBlock res.type).second := rfl
  have h3 : (answer res).toPacket.buff 3 = .ok (textBlock res.buff).second := rfl
  simp only [packet2Respond, h0, h1, h2, h3, readWord64_word64, readSockAddr_toList, bind,
    Except.bind]
  cases readCString (textBlock res.type).second <;> rfl

/-- No respond is restored: without a NUL in its type the string is looked for behind the block, and
with one it is cut short. -/
theorem packet2Respond_ne (res : Respond) : ∃ pkt, respond2Packet res = .ok pkt ∧
    ∀ tpkt, Arrives pkt.toPacket tpkt → packet2Respond tpkt ≠ .ok res ∧
      (0 ∉ res.type → packet2Respond tpkt = .error .readOutside) := by
  refine ⟨answer res, respond2Packet_ok res, ?_⟩
  intro tpkt h
  rw [h.same, packet2Respond_answer]
  have hstart : (textBlock res.type).second <+: res.type := List.take_prefix _ _
  refine ⟨?_, ?_⟩
  · intro hres
    have htype : readCString (textBlock res.type).second = .ok res.type := by
      cases hread : readCString (textBlock res.type).second with
      | error f =>
        rw [hread] at hres
        cases hres
      | ok type =>
        rw [hread] at hres
        exact congrArg Except.ok (congrArg Respond.type (Except.ok.inj hres))
    exact readCString_ne hstart.length_le htype
  · intro hnul
    have hnot : 0 ∉ (textBlock res.type).second := fun hmem => hnul (hstart.subset hmem)
    rw [readCString, if_neg hnot]
    rfl

/-- The answer to a client that has registered. -/
def sampleRespond : Respond where
  rId := 7
  type := registerRespond
  buff := [1, 2]
  tAddr := .replicate 16 0

theorem packet2Respond_ne_sample :
    packet2Respond (answer sampleRespond).toPacket ≠ .ok sampleRespond := by
  obtain ⟨pkt, hpkt, h⟩ := packet2Respond_ne sampleRespond
  rw [respond2Packet_ok] at hpkt
  obtain rfl := Except.ok.inj hpkt
  exact (h _ Arrives.direct).1

/-- The type is looked for behind its block, and a NUL in a type cuts it short. -/
theorem packet2Respond_strays :
    (∃ pkt, respond2Packet sampleRespond = .ok pkt ∧
      packet2Respond pkt.toPacket = .error .readOutside) ∧
    ∃ pkt, respond2Packet { sampleRespond with type := [65, 0, 66] } = .ok pkt ∧
      packet2Respond pkt.toPacket = .ok { sampleRespond with type := [65] } := by
  refine ⟨⟨answer sampleRespond, respond2Packet_ok _, ?_⟩, answer _, respond2Packet_ok _, ?_⟩
  · decide
  · decide

end NetCpp.Proofs
