import NetCpp.Proofs.RoundTrip

namespace NetCpp.Proofs
open Library Message MessageFactory

/-- The frame of a message goes behind the content of the vector as it goes into an empty one. -/
def Appends (signGen : SHA256Generator) (m : Message) (p : Bytes) : Prop :=
  ∀ sent e, encodeMessage signGen m [] = .ok (sent, e) →
    encodeMessage signGen m p = .ok (sent, p ++ e)

theorem ofInt_injective {a b : Int} (ha : -2 ^ 31 ≤ a) (ha' : a < 2 ^ 31) (hb : -2 ^ 31 ≤ b)
    (hb' : b < 2 ^ 31) (h : Decimal.ofInt a = Decimal.ofInt b) : a = b := by
  have hread := stoi_ofInt ha ha'
  rw [h, stoi_ofInt hb hb'] at hread
  exact (Except.ok.inj hread).symm

/-- The checksum can be read off the frame. -/
theorem frameText_injective {m : Message} {k k' : Int16} (h : frameText m k = frameText m k') :
    k = k' := by
  simp only [frameText, sumText, List.append_assoc, List.append_cancel_left_eq] at h
  have hsum := List.append_cancel_right h
  have hlow := k.le_toInt
  have hhigh := k.toInt_lt
  have hlow' := k'.le_toInt
  have hhigh' := k'.toInt_lt
  exact Int16.toInt_inj.mp (ofInt_injective (by omega) (by omega) (by omega) (by omega) hsum)

theorem appends_hashOf {signGen : SHA256Generator} {m : Message} {p : Bytes} : Appends signGen m p ↔
    (Hashable (signedText (signed signGen m)) →
      hashOf (p ++ signedText (signed signGen m)) = hashOf (signedText (signed signGen m))) := by
  constructor
  · intro h hhash
    obtain ⟨k, hk⟩ := hashOf_ok.mpr hhash
    have hp := h _ _ (encodeMessage_ok.mpr ⟨rfl, k, hk, rfl⟩)
    rw [encodeMessage_behind] at hp
    split at hp
    · cases hp
    · rename_i k' hk'
      obtain ⟨-, hframe⟩ := Prod.mk.inj (Except.ok.inj hp)
      rw [hk', hk, frameText_injective (List.append_cancel_left hframe)]
  · intro h sent e he
    obtain ⟨rfl, k, hk, rfl⟩ := encodeMessage_ok.mp he
    rw [encodeMessage_behind, h (hashOf_ok.mp ⟨k, hk⟩), hk]

/-- The bytes that the checksum of a text goes over. -/
def covered (s : Bytes) : Bytes := s.take (hashLength s)

/-- The checksum of a text does not see what is before it: the index of the last byte is still an
index when it is cut to an `int`, and the bytes before it sum to a multiple of 2^16. -/
structure Unseen (p text : Bytes) : Prop where
  index : Hashable (p ++ text)
  sum : 2 ^ 16 ∣ charSum (covered (p ++ text)) - charSum (covered text)

theorem unseen_iff {p text : Bytes} (h : Hashable text) :
    hashOf (p ++ text) = hashOf text ↔ Unseen p text := by
  rw [hashOf_eq, hashOf_eq, if_pos h]
  by_cases hp : Hashable (p ++ text)
  · rw [if_pos hp, Except.ok.injEq, ofInt_eq_ofInt_iff]
    constructor
    · intro hsum
      exact ⟨hp, hsum⟩
    · intro hu
      exact hu.sum
  · rw [if_neg hp]
    constructor
    · intro he
      cases he
    · intro hu
      exact absurd hu.index hp

theorem covered_short {s : Bytes} (hs : s ≠ []) (h : s.length ≤ 2 ^ 31) :
    Hashable s ∧ covered s = s := by
  have hpos := List.length_pos_iff.mpr hs
  have hidx : (Int32.ofInt ((s.length : Int) - 1)).toInt = s.length - 1 := by
    rw [toInt_ofInt32]
    split <;> omega
  refine ⟨?_, ?_⟩
  · unfold Hashable
    omega
  · apply List.take_of_length_le
    unfold hashLength
    omega

theorem signedText_ne_nil (m : Message) : signedText m ≠ [] := by
  simp [signedText, headText]

/-- Where the index of the last byte fits, the sum is the one of the bytes before the frame. -/
theorem unseen_short {p text : Bytes} (htext : text ≠ []) (h : (p ++ text).length ≤ 2 ^ 31) :
    Unseen p text ↔ 2 ^ 16 ∣ charSum p := by
  have hne : p ++ text ≠ [] := by simp [htext]
  have hle : text.length ≤ 2 ^ 31 := by
    rw [List.length_append] at h
    omega
  obtain ⟨hindex, hall⟩ := covered_short hne h
  have hsum : charSum (covered (p ++ text)) - charSum (covered text) = charSum p := by
    rw [hall, (covered_short htext hle).2, charSum_append]
    omega
  constructor
  · intro hu
    rw [← hsum]
    exact hu.sum
  · intro hdvd
    rw [← hsum] at hdvd
    exact ⟨hindex, hdvd⟩

/-- The encoder appends just if the checksum does not see what is in the vector. -/
theorem appends_iff (signGen : SHA256Generator) (m : Message) (p : Bytes) :
    (Appends signGen m p ↔ (Hashable (signedText (signed signGen m)) →
      Unseen p (signedText (signed signGen m)))) ∧
    ((p ++ signedText (signed signGen m)).length ≤ 2 ^ 31 →
      (Appends signGen m p ↔ 2 ^ 16 ∣ charSum p)) := by
  have hiff : Appends signGen m p ↔ (Hashable (signedText (signed signGen m)) →
      Unseen p (signedText (signed signGen m))) :=
    appends_hashOf.trans (forall_congr' fun h => unseen_iff h)
  refine ⟨hiff, ?_⟩
  intro hlen
  have hne := signedText_ne_nil (signed signGen m)
  have hhash : Hashable (signedText (signed signGen m)) := by
    apply (covered_short hne ?_).1
    rw [List.length_append] at hlen
    omega
  rw [hiff, forall_prop_of_true hhash]
  exact unseen_short hne hlen

/-- The values of these bytes cancel out. -/
theorem appends_iff_hello : Appends helloGenerator helloMessage [1, 255] := by
  have hlen : ([1, 255] ++ signedText (signed helloGenerator helloMessage)).length ≤ 2 ^ 31 := by
    decide +kernel
  exact ((appends_iff helloGenerator helloMessage [1, 255]).2 hlen).mpr (by decide)

/-- Another frame in the vector changes the checksum. -/
theorem not_appends_hello : ∃ sent e, encodeMessage helloGenerator helloMessage [] = .ok (sent, e) ∧
    ¬Appends helloGenerator helloMessage e := by
  have hok : (encodeMessage helloGenerator helloMessage []).isOk = true := by decide +kernel
  obtain ⟨⟨sent, e⟩, he⟩ := exists_of_isOk hok
  refine ⟨sent, e, he, ?_⟩
  intro h
  have hsame : ((encodeMessage helloGenerator helloMessage []).bind fun r =>
      encodeMessage helloGenerator helloMessage r.2) =
      (encodeMessage helloGenerator helloMessage []).map fun r => (r.1, r.2 ++ r.2) := by
    simp only [he, Except.bind, Except.map]
    exact h sent e he
  revert hsame
  decide +kernel

end NetCpp.Proofs
