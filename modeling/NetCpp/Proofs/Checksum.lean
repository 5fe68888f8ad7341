import NetCpp.Factory

namespace NetCpp.Proofs
open Library MessageFactory

/-- The sum of the bytes of a text as the code adds them, before any wrap. -/
def charSum (s : Bytes) : Int := (s.map charValue).sum

@[simp] theorem charSum_nil : charSum [] = 0 := rfl

@[simp] theorem charSum_cons (c : Byte) (s : Bytes) :
    charSum (c :: s) = charValue c + charSum s := by
  simp [charSum]

@[simp] theorem charSum_append (s t : Bytes) : charSum (s ++ t) = charSum s + charSum t := by
  simp [charSum]

/-- The remainder by 65535 does nothing: an `int16_t` is closer to zero. -/
theorem tmod_int16 (s : Int16) : s.toInt.tmod 65535 = s.toInt := by
  have hl := s.le_toInt
  have hu := s.toInt_lt
  by_cases h : 0 ≤ s.toInt
  · exact Int.tmod_eq_of_lt h (by omega)
  · have hn : (-s.toInt).tmod 65535 = -s.toInt := Int.tmod_eq_of_lt (by omega) (by omega)
    rw [Int.neg_tmod] at hn
    omega

/-- What an `int16_t` makes of a sum. -/
theorem ofInt_eq_ofInt_iff {a b : Int} : Int16.ofInt a = Int16.ofInt b ↔ 2 ^ 16 ∣ a - b := by
  rw [← Int16.toInt_inj, Int16.toInt_ofInt, Int16.toInt_ofInt,
    Int.bmod_eq_bmod_iff_bmod_sub_eq_zero, ← Int.dvd_iff_bmod_eq_zero]
  rfl

theorem hashLoop_eq (endIndex : Int) (s : Bytes) (index : Int) (sumHash : Int16)
    (hi : index ≤ endIndex) :
    hashLoop endIndex s index sumHash =
      sumHash + Int16.ofInt (charSum (s.take (endIndex - index + 1).toNat)) := by
  induction s generalizing index sumHash with
  | nil => simp [hashLoop]
  | cons c s ih =>
    simp only [hashLoop, tmod_int16, Int16.ofInt_toInt]
    split
    · have hn : (endIndex - index + 1).toNat = 1 := by omega
      simp [hn]
    · have hn : (endIndex - index + 1).toNat = (endIndex - (index + 1) + 1).toNat + 1 := by omega
      rw [ih _ _ (by omega), hn, List.take_succ_cons, charSum_cons, Int16.ofInt_add,
        Int16.add_assoc]

theorem calculateOptionsHash_eq (s : Bytes) (endIndex : Int32) :
    calculateOptionsHash s endIndex =
      if endIndex.toInt < 0 ∨ s.length < endIndex.toInt then
        .error (.runtimeError "end index out of range")
      else .ok (Int16.ofInt (charSum (s.take (endIndex.toInt.toNat + 1)))) := by
  unfold calculateOptionsHash
  split
  · rfl
  · rename_i h
    rw [hashLoop_eq _ _ _ _ (by omega)]
    have hn : (endIndex.toInt - 0 + 1).toNat = endIndex.toInt.toNat + 1 := by omega
    rw [hn, show (0 : Int16) + Int16.ofInt _ = _ from Int16.zero_add _]

/-- The conversion to `int`, case by case. -/
theorem toInt_ofInt32 (n : Int) : (Int32.ofInt n).toInt =
    if n % 2 ^ 32 < 2 ^ 31 then n % 2 ^ 32 else n % 2 ^ 32 - 2 ^ 32 := by
  rw [Int32.toInt_ofInt, Int.bmod_def]
  simp [Int32.size]

/-- The checksum of a text, as encoder and decoder compute it from the index of its
last byte cut to `int`. -/
def hashOf (s : Bytes) : Except Fault Int16 :=
  calculateOptionsHash s (Int32.ofInt (s.length - 1))

/-- The bytes that count: all of them up to 2^31. -/
def hashLength (s : Bytes) : Nat := (Int32.ofInt (s.length - 1)).toInt.toNat + 1

/-- Whether the index of the last byte, cut to `int`, is still an index. -/
def Hashable (s : Bytes) : Prop := 0 ≤ (Int32.ofInt ((s.length : Int) - 1)).toInt

instance (s : Bytes) : Decidable (Hashable s) := inferInstanceAs (Decidable (_ ≤ _))

theorem hashable_iff {s : Bytes} (hs : s ≠ []) : Hashable s ↔ (s.length - 1) % 2 ^ 32 < 2 ^ 31 := by
  have hpos := List.length_pos_iff.mpr hs
  have he : ((s.length : Int) - 1) = ((s.length - 1 : Nat) : Int) := by omega
  simp only [Hashable, toInt_ofInt32, he]
  split <;> omega

theorem hashable_length_le {s : Bytes} (h : Hashable s) :
    (Int32.ofInt ((s.length : Int) - 1)).toInt ≤ s.length - 1 := by
  simp only [Hashable, toInt_ofInt32] at h ⊢
  split at h <;> omega

/-- Bytes behind the text do not change its checksum. -/
theorem calculateOptionsHash_append (s t : Bytes) :
    calculateOptionsHash (s ++ t) (Int32.ofInt (s.length - 1)) = hashOf s := by
  simp only [hashOf, calculateOptionsHash_eq]
  by_cases h : Hashable s
  · have hle := hashable_length_le h
    have h0 : 0 ≤ (Int32.ofInt ((s.length : Int) - 1)).toInt := h
    have ht : (s ++ t).take ((Int32.ofInt ((s.length : Int) - 1)).toInt.toNat + 1) =
        s.take ((Int32.ofInt ((s.length : Int) - 1)).toInt.toNat + 1) :=
      List.take_append_of_le_length (by omega)
    rw [if_neg (by rw [List.length_append]; push_cast; omega), if_neg (by omega), ht]
  · have h0 : (Int32.ofInt ((s.length : Int) - 1)).toInt < 0 := by
      unfold Hashable at h
      omega
    rw [if_pos (Or.inl h0), if_pos (Or.inl h0)]

theorem hashOf_eq (s : Bytes) : hashOf s =
    if Hashable s then .ok (Int16.ofInt (charSum (s.take (hashLength s))))
    else .error (.runtimeError "end index out of range") := by
  simp only [hashOf, calculateOptionsHash_eq, hashLength]
  by_cases h : Hashable s
  · have hle := hashable_length_le h
    have h0 : 0 ≤ (Int32.ofInt ((s.length : Int) - 1)).toInt := h
    rw [if_pos h, if_neg (by omega)]
  · have h0 : (Int32.ofInt ((s.length : Int) - 1)).toInt < 0 := by
      unfold Hashable at h
      omega
    rw [if_neg h, if_pos (Or.inl h0)]

/-- Up to 2^31 bytes every byte counts. -/
theorem hashOf_short {s : Bytes} (hs : s ≠ []) (h : s.length ≤ 2 ^ 31) :
    hashOf s = .ok (Int16.ofInt (charSum s)) := by
  have hpos := List.length_pos_iff.mpr hs
  have hidx : (Int32.ofInt ((s.length : Int) - 1)).toInt = s.length - 1 := by
    rw [toInt_ofInt32]
    split <;> omega
  have hlen : hashLength s = s.length := by
    unfold hashLength
    omega
  have hok : Hashable s := by
    unfold Hashable
    omega
  rw [hashOf_eq, if_pos hok, hlen, List.take_length]

theorem hashOf_ok {s : Bytes} : (∃ k, hashOf s = .ok k) ↔ Hashable s := by
  rw [hashOf_eq]
  split <;> simp_all

/-- Two checksums that agree, over a text with and without something before it: the
bytes before it sum to a multiple of 2^16. -/
theorem hashOf_behind {s t : Bytes} {k : Int16} (hs : hashOf s = .ok k)
    (hts : hashOf (t ++ s) = .ok k) (ht : t.length < 2 ^ 31) : Int16.ofInt (charSum t) = 0 := by
  have h1 := hashOf_ok.mp ⟨k, hs⟩
  have h2 := hashOf_ok.mp ⟨k, hts⟩
  have hl : hashLength (t ++ s) = t.length + hashLength s := by
    simp only [Hashable, hashLength, toInt_ofInt32, List.length_append] at h1 h2 ⊢
    push_cast at h2 ⊢
    split at h1 <;> split at h2 <;> omega
  rw [hashOf_eq, if_pos h1] at hs
  rw [hashOf_eq, if_pos h2, hl, List.take_length_add_append, charSum_append, Int16.ofInt_add] at hts
  have he : Int16.ofInt (charSum t) + Int16.ofInt (charSum (s.take (hashLength s))) =
      0 + Int16.ofInt (charSum (s.take (hashLength s))) := by
    rw [Int16.zero_add]
    exact (Except.ok.inj hts).trans (Except.ok.inj hs).symm
  exact (Int16.add_left_inj _).mp he

theorem charValue_of_lt {c : Byte} (hc : c.toNat < 128) : charValue c = c.toNat := by
  have hb : c.toBitVec.toNat = c.toNat := rfl
  change c.toBitVec.toInt = c.toNat
  rw [BitVec.toInt_eq_toNat_of_lt (by omega), hb]

/-- Bytes below 128 add up without a sign. -/
theorem charSum_bounds {s : Bytes} {lo hi : Nat} (hhi : hi < 128)
    (hs : ∀ c ∈ s, lo ≤ c.toNat ∧ c.toNat ≤ hi) :
    lo * s.length ≤ charSum s ∧ charSum s ≤ hi * s.length := by
  induction s with
  | nil => simp
  | cons c s ih =>
    obtain ⟨hl, hh⟩ := ih (fun d hd => hs d (List.mem_cons_of_mem c hd))
    obtain ⟨hcl, hch⟩ := hs c List.mem_cons_self
    rw [charSum_cons, charValue_of_lt (by omega), List.length_cons, Nat.cast_succ]
    constructor <;> linarith [mul_add (lo : Int) s.length 1, mul_add (hi : Int) s.length 1]

end NetCpp.Proofs
