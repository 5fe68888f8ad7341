import NetCpp.Proofs.Accepted

namespace NetCpp.Proofs
open Library Message MessageFactory

/-- What the decoder accepts is normalised: duplicate keys are merged, quotes and NULs
are gone and the size is the one of the data. -/
theorem decodeMessage_sendable {raw : Bytes} {m m' : Message}
    (h : decodeMessage raw m' = .ok (true, m)) : Sendable m := by
  obtain ⟨⟨r₁, m₁⟩, hhead, h⟩ := bind_ok h
  cases r₁ with
  | none => cases h
  | some i =>
    obtain ⟨⟨r₂, m₂⟩, hoption, h⟩ := bind_ok h
    cases r₂ with
    | none => cases h
    | some j =>
      obtain ⟨⟨r₃, m₃⟩, hbody, h⟩ := bind_ok h
      cases r₃ with
      | none => cases h
      | some k =>
        obtain ⟨r₄, htail, -⟩ := accepted_ok h
        obtain ⟨hopt₁, hdata₁⟩ := decodeHead_ok hhead
        obtain ⟨os, rfl, hos⟩ := decodeOptions_ok hoption
        obtain ⟨s, data, hget, hsize, -, rfl⟩ := decodeBody_ok hbody
        obtain rfl := decodeTail_ok htail
        obtain ⟨-, -, hdata₂, -⟩ := addOptions_frame m₁ os
        have hkeys₁ : m₁.keys.Nodup := by
          rw [keys, hopt₁]
          exact List.nodup_nil
        have hdata : (m₁.addOptions os).data = [] := hdata₂.trans hdata₁
        have hshort := (stoi_ok hsize).2.2.2
        refine ⟨nodup_insertOption (addOptions_nodup os hkeys₁), ?_, ?_, ?_⟩
        · intro o ho
          rcases mem_insertOption ho with ho | rfl
          · rcases mem_addOptions ho with ho | ho
            · rw [hopt₁] at ho
              cases ho
            · exact hos o ho
          · exact plain_size _
        · exact getValue_addOption_self _ _ _
        · simp only [addOption_data, hdata, List.nil_append]
          omega

theorem filter_insertOption (key value : Bytes) (os : List MessageOption) :
    (insertOption key value os).filter (fun o => o.key ≠ key) =
      os.filter (fun o => o.key ≠ key) := by
  induction os with
  | nil => simp [insertOption]
  | cons p os ih =>
    unfold insertOption
    by_cases hp : p.key = key
    · simp [hp]
    · simpa [hp] using ih

/-- Encoding and decoding once more gives the message back, up to its signature. -/
def Reencodes (signGen : SHA256Generator) (m : Message) : Prop :=
  ∃ sent e, encodeMessage signGen m [] = .ok (sent, e) ∧ ∀ m', ∃ again,
    decodeMessage e m' = .ok (true, again) ∧ again.tid = m.tid ∧ again.type = m.type ∧
      again.data = m.data ∧
      again.options.filter (fun o => o.key ≠ keySign) = m.options.filter (fun o => o.key ≠ keySign)

theorem Sendable.reencodes {m : Message} (hm : Sendable m) {signGen : SHA256Generator}
    (hr : Hashable (signedText (signed signGen m))) : Reencodes signGen m := by
  obtain ⟨k, hk⟩ := hashOf_ok.mpr hr
  refine ⟨_, _, encodeMessage_ok.mpr ⟨rfl, k, hk, rfl⟩, fun m' =>
    ⟨signed signGen m, ?_, rfl, rfl, rfl, ?_⟩⟩
  · have h := decodeMessage_frameText (hm.sign signGen) hk [] m'
    rwa [List.append_nil] at h
  · exact filter_insertOption keySign _ m.options

/-- Every accepted message is in the domain of the encoder, and comes back from a second
round exactly when the last index of its head and option part is an `int` again. -/
theorem decodeMessage_reencodes (signGen : SHA256Generator) {raw : Bytes} {m m' : Message}
    (h : decodeMessage raw m' = .ok (true, m)) :
    (m.keys.Nodup ∧ (∀ o ∈ m.options, Plain o) ∧
        m.getValue keySize = .ok (Decimal.ofNat m.data.length)) ∧
      (Reencodes signGen m ↔ ((signedText (signed signGen m)).length - 1) % 2 ^ 32 < 2 ^ 31) := by
  have hm := decodeMessage_sendable h
  have hne : signedText (signed signGen m) ≠ [] := by
    simp [signedText, headText, msgHead, ascii]
  refine ⟨⟨hm.nodup, hm.plain, hm.size⟩, ?_⟩
  rw [← hashable_iff hne]
  constructor
  · intro hr
    obtain ⟨sent, e, he, -⟩ := hr
    exact (encodeMessage_returns signGen m).mp ⟨sent, e, he⟩
  · exact hm.reencodes

theorem decodeMessage_reencodes_hello : ∃ raw, decodeMessage raw {} = .ok (true, helloMessage) ∧
    (helloMessage.keys.Nodup ∧ (∀ o ∈ helloMessage.options, Plain o) ∧
        helloMessage.getValue keySize = .ok (Decimal.ofNat helloMessage.data.length)) ∧
      (Reencodes helloGenerator helloMessage ↔
        ((signedText (signed helloGenerator helloMessage)).length - 1) % 2 ^ 32 < 2 ^ 31) := by
  obtain ⟨k, hk⟩ := (@hashOf_ok (signedText helloMessage)).mpr (by decide +kernel)
  have h := decodeMessage_frameText helloMessage_sendable hk [] {}
  exact ⟨_, h, decodeMessage_reencodes helloGenerator h⟩

/-- A message with one option of `n` letters. -/
def wideMessage (n : Nat) : Message where
  tid := 0
  type := 1
  options := [⟨keySize, Decimal.ofNat 0⟩, ⟨ascii ['x'], List.replicate n 120⟩]

/-- The frame of a wide message that carries no signature. -/
def wideFrame (n : Nat) : Bytes :=
  frameText (wideMessage n) (Int16.ofInt (charSum (signedText (wideMessage n))))

theorem wideMessage_sendable (n : Nat) : Sendable (wideMessage n) where
  nodup := by simp [keys, wideMessage, keySize, ascii]
  plain := by
    intro o ho
    rcases List.mem_cons.mp ho with rfl | ho
    · exact plain_size 0
    · rw [List.mem_singleton.mp ho]
      have hq : quote ∉ ascii ['x'] := by decide
      have h0 : (0 : Byte) ∉ ascii ['x'] := by decide
      refine ⟨hq, ?_, h0, ?_⟩
      · exact fun h => absurd (List.eq_of_mem_replicate h) (by decide)
      · exact fun h => absurd (List.eq_of_mem_replicate h) (by decide)
  size := rfl
  short := by simp [wideMessage]

theorem length_signedText_wide (n : Nat) : (signedText (wideMessage n)).length = n + 31 := by
  have hhead : (headText (wideMessage n)).length = 11 := by
    change (headText { tid := 0, type := 1 }).length = 11
    decide
  have hsize : (optionLine ⟨keySize, Decimal.ofNat 0⟩).length = 12 := by decide
  have hwide : (optionLine ⟨ascii ['x'], List.replicate n 120⟩).length = n + 8 := by
    simp [optionLine, ascii, crlf]
  have hopts : optionText (wideMessage n).options =
      optionLine ⟨keySize, Decimal.ofNat 0⟩ ++ optionLine ⟨ascii ['x'], List.replicate n 120⟩ := by
    simp [wideMessage, optionText]
  rw [signedText, hopts, List.length_append, List.length_append, hhead, hsize, hwide]
  omega

theorem length_signedText_signed_wide (signGen : SHA256Generator) (n : Nat) :
    (signedText (signed signGen (wideMessage n))).length = n + 106 := by
  have hnew : keySign ∉ (wideMessage n).options.map MessageOption.key := by
    change keySign ∉ [keySize, ascii ['x']]
    decide
  have hopts : (signed signGen (wideMessage n)).options =
      (wideMessage n).options ++ [⟨keySign, signGen.getHex (wideMessage n).data⟩] :=
    insertOption_new hnew
  have hsign : (optionLine ⟨keySign, signGen.getHex (wideMessage n).data⟩).length = 75 := by
    simp [optionLine, signGen.length_getHex, keySign, ascii, crlf]
  have htext : signedText (signed signGen (wideMessage n)) = signedText (wideMessage n) ++
      optionLine ⟨keySign, signGen.getHex (wideMessage n).data⟩ := by
    rw [signedText, hopts]
    simp [signedText, optionText, headText, signed]
  rw [htext, List.length_append, length_signedText_wide, hsign]

/-- Within 75 bytes of 2^31 the frame is accepted, and its message cannot be encoded. -/
theorem wideFrame_reencodes {n : Nat} (hl : 2 ^ 31 < n + 106) (hu : n + 31 ≤ 2 ^ 31) :
    decodeMessage (wideFrame n) {} = .ok (true, wideMessage n) ∧
      ∀ signGen, ¬ Reencodes signGen (wideMessage n) := by
  constructor
  · have hne : signedText (wideMessage n) ≠ [] := by
      simp [signedText, headText, msgHead, ascii]
    have hk := hashOf_short hne (by rw [length_signedText_wide]; exact hu)
    have h := decodeMessage_frameText (wideMessage_sendable n) hk [] {}
    rwa [List.append_nil] at h
  · intro signGen hr
    obtain ⟨sent, e, he, -⟩ := hr
    have hh := (encodeMessage_returns signGen (wideMessage n)).mp ⟨sent, e, he⟩
    have hne : signedText (signed signGen (wideMessage n)) ≠ [] := by
      simp [signedText, headText, msgHead, ascii]
    rw [hashable_iff hne, length_signedText_signed_wide] at hh
    omega

theorem wideFrame_counterexample : ∃ m, decodeMessage (wideFrame (2 ^ 31 - 31)) {} = .ok (true, m) ∧
    ∀ signGen, ¬ Reencodes signGen m :=
  ⟨_, wideFrame_reencodes (by omega) (by omega)⟩

end NetCpp.Proofs
