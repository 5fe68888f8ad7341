import NetCpp.NetBox

namespace NetCpp.Proofs
open Library Server

/-- A fragment as the receiver reads it from its datagram. -/
def received (b : NetBox) : NetBox :=
  { b with head := ofWord32 netb, tail := ofWord32 bten, sendData := [], sdtSize := 0 }

/-- The size of the datagram of a fragment fits the `uint16_t` it is kept in. -/
def FitsDatagram (b : NetBox) : Prop := b.dataSize.toNat + 22 < 2 ^ 16

instance (b : NetBox) : Decidable (FitsDatagram b) := inferInstanceAs (Decidable (_ < _))

theorem datagram_build {b : NetBox} (hb : FitsDatagram b) : b.build.datagram =
    netb ++
      (word64 b.bId ++
        (word16 b.idx ++ (word16 b.cnt ++ (word16 b.dataSize ++ (b.data ++ bten))))) := by
  have hnetb : word32 (ofWord32 netb) = netb := word32_ofWord32 rfl
  have hbten : word32 (ofWord32 bten) = bten := word32_ofWord32 rfl
  have hsize : (b.dataSize + 22).toNat = b.dataSize.toNat + 22 := by
    rw [UInt16.toNat_add]
    exact Nat.mod_eq_of_lt hb
  have hlen : b.build.sendData.length = b.build.sdtSize.toNat := by
    simp only [NetBox.build, hsize, List.length_append, length_word16, length_word32,
      length_word64, b.sized]
    omega
  rw [NetBox.datagram, ← hlen, List.take_length]
  simp [NetBox.build, hnetb, hbten]

theorem checkNetBox_build {b : NetBox} (hb : FitsDatagram b) :
    checkNetBox b.build.datagram b.build.datagram.length = .ok true := by
  rw [datagram_build hb]
  generalize hmid : word64 b.bId ++ (word16 b.idx ++ (word16 b.cnt ++ (word16 b.dataSize ++
    (b.data ++ bten)))) = mid
  obtain ⟨body, rfl⟩ : ∃ body, mid = body ++ bten := by
    refine ⟨word64 b.bId ++ (word16 b.idx ++ (word16 b.cnt ++ (word16 b.dataSize ++ b.data))), ?_⟩
    rw [← hmid]
    simp
  have hhead : equalsAt (netb ++ (body ++ bten)) 0 netb = .ok true :=
    @equalsAt_append [] netb (body ++ bten) netb rfl
  have htail : equalsAt (netb ++ (body ++ bten)) ((netb ++ (body ++ bten)).length - 4) bten =
      .ok true := by
    have hat := @equalsAt_append (netb ++ body) bten [] bten rfl
    have hpos : ((netb ++ body).length : Int) = (netb ++ (body ++ bten)).length - 4 := by
      have hfour : bten.length = 4 := rfl
      simp only [List.length_append, hfour]
      omega
    rw [List.append_nil, List.append_assoc, hpos] at hat
    exact hat
  rw [checkNetBox, hhead]
  exact htail

theorem set_data {b : NetBox} (rest : Bytes) : NetBox.set {} (b.data ++ rest) b.dataSize =
    .ok { data := b.data, dataSize := b.dataSize, sized := b.sized } := by
  have hin : b.dataSize.toNat ≤ (b.data ++ rest).length := by
    rw [List.length_append, b.sized]
    omega
  have htake : (b.data ++ rest).take b.dataSize.toNat = b.data := by
    rw [← b.sized, List.take_left]
  rw [NetBox.set, dif_pos hin]
  simp only [htake]

/-- A fragment comes out of its datagram as it was built. -/
theorem processNetBox_build {b : NetBox} (hb : FitsDatagram b) :
    processNetBox {} b.build.datagram = .ok (received b) := by
  have hhead : ∀ p, readWord32 (netb ++ p) = .ok (ofWord32 netb, p) := by
    intro p
    have hword := readWord32_append (ofWord32 netb) p
    rwa [word32_ofWord32 rfl] at hword
  have htail : readWord32 bten = .ok (ofWord32 bten, []) := rfl
  have hdrop : (b.data ++ bten).drop b.dataSize.toNat = bten := by
    rw [← b.sized, List.drop_left]
  rw [datagram_build hb, processNetBox, hhead]
  simp only [bind, Except.bind, readWord64_append, readWord16_append, set_data, hdrop, htail]
  rfl

theorem datagram_build_ne_nil {b : NetBox} (hb : FitsDatagram b) : b.build.datagram ≠ [] := by
  rw [datagram_build hb]
  exact fun h => absurd (List.append_eq_nil_iff.mp h).1 (by decide)

/-- The message carries the labels that `CheckRawMsg` looks for. -/
def Labelled (msg : Bytes) : Prop := msg.take 4 = netc ∧ msg.drop (msg.length - 4) = cten

instance (msg : Bytes) : Decidable (Labelled msg) := inferInstanceAs (Decidable (_ ∧ _))

/-- There are four bytes to compare with, and a message with labels has room for all three. -/
structure Receivable (msg : Bytes) : Prop where
  compared : 4 ≤ msg.length
  labelled : Labelled msg → 12 ≤ msg.length

instance (msg : Bytes) : Decidable (Receivable msg) :=
  decidable_of_iff (4 ≤ msg.length ∧ (Labelled msg → 12 ≤ msg.length))
    ⟨fun h => ⟨h.1, h.2⟩, fun h => ⟨h.1, h.2⟩⟩

/-- What becomes of a message: the parts of one with labels, nothing of any other. -/
def assembled (bId : UInt64) (msg : Bytes) : RawData :=
  if Labelled msg then
    { RawData.new bId with
      data := (msg.drop 8).take (msg.length - 12)
      size := msg.length - 12
      head := some (ofWord32 (msg.take 4))
      info := some (ofWord32 ((msg.drop 4).take 4))
      tail := some (ofWord32 ((msg.drop (msg.length - 4)).take 4)) }
  else RawData.new bId

@[simp] theorem assembled_rId (bId : UInt64) (msg : Bytes) : (assembled bId msg).rId = bId := by
  unfold assembled
  split <;> rfl

end NetCpp.Proofs
