import NetCpp.Proofs.Accepted

namespace NetCpp.Proofs
open Library Message MessageFactory

/-- What the head and the option lines leave in the message. -/
def takenIn (m m₀ : Message) : Message :=
  (m₀.clear.setHead m.tid m.type).addOptions (m.options.map cut)

/-- The decoders of the body and of the tail, on what follows the options. -/
def decodeRest (m : Message) (rest : Bytes) : Except Fault (Bool × Message) := do
  match ← decodeBody rest 0 m with
  | (none, m) => return (false, m)
  | (some offset, m) => accepted (decodeTail rest offset m)

/-- The body decoder sees nothing of what is before its offset. -/
theorem decodeBody_behind (pre rest : Bytes) (m : Message) :
    decodeBody (pre ++ rest) pre.length m =
      (decodeBody rest 0 m).map (fun (o, m) => (o.map (pre.length + ·), m)) := by
  rw [decodeBody, decodeBody, List.drop_left, List.drop_zero]
  cases hget : catchRuntimeError (m.getValue keySize) with
  | error e => rfl
  | ok r =>
    cases r with
    | none => rfl
    | some sSize =>
      simp only [bind, Except.bind]
      cases hsize : stoi sSize with
      | error e => rfl
      | ok size =>
        simp only
        by_cases hneg : size < 0
        · simp [hneg, throw, throwThe, MonadExceptOf.throw, Except.map]
        · simp only [hneg, if_false]
          cases hpush : m.pushData rest size.toNat with
          | error e => rfl
          | ok m₁ =>
            simp only
            cases hexpect : expect crlf (rest.drop size.toNat) with
            | error e => rfl
            | ok r =>
              cases r with
              | none => rfl
              | some rest' =>
                have hrest := congrArg List.length (expect_some.mp hexpect)
                simp only [List.length_append, List.length_drop] at hrest
                simp only [pure, Except.pure, Except.map, Option.map_some, List.length_append]
                congr 3
                omega

theorem decodeTail_behind (pre rest : Bytes) (i : Nat) (m : Message) :
    accepted (decodeTail (pre ++ rest) (pre.length + i) m) = accepted (decodeTail rest i m) := by
  have hdrop : (pre ++ rest).drop (pre.length + i) = rest.drop i := by
    rw [List.drop_append]
    simp
  rw [decodeTail, decodeTail, hdrop]
  cases expect msgTail (rest.drop i) with
  | error e => rfl
  | ok r =>
    cases r with
    | none => rfl
    | some rest' => rfl

theorem decodeRest_behind (pre rest : Bytes) (m : Message) :
    (do
      match ← decodeBody (pre ++ rest) pre.length m with
      | (none, m) => return (false, m)
      | (some offset, m) => accepted (decodeTail (pre ++ rest) offset m)) = decodeRest m rest := by
  rw [decodeRest, decodeBody_behind]
  cases decodeBody rest 0 m with
  | error e => rfl
  | ok p =>
    obtain ⟨o, m₁⟩ := p
    cases o with
    | none => rfl
    | some i => exact decodeTail_behind pre rest i m₁

/-- The decoder takes the head and the options in, compares the checksum, and goes on with the
data. -/
theorem decodeMessage_frame {m : Message} (hm : ∀ o ∈ m.options, Unquoted o) (k : Int16)
    (m₀ : Message) : decodeMessage (frameText m k) m₀ =
      match hashOf (signedText m) with
      | .error e => .error e
      | .ok k' =>
        if k' = k then decodeRest (takenIn m m₀) (m.data ++ (crlf ++ msgTail))
        else .ok (false, takenIn m m₀) := by
  have hframe : frameText m k =
      headText m ++ (optionText m.options ++ (sumText k ++ (m.data ++ (crlf ++ msgTail)))) := by
    simp [frameText, signedText]
  have hbody : frameText m k = (signedText m ++ sumText k) ++ (m.data ++ (crlf ++ msgTail)) := by
    simp [frameText]
  have hhead := decodeHead_text m m₀.clear
    (optionText m.options ++ (sumText k ++ (m.data ++ (crlf ++ msgTail))))
  have hoption := decodeOptions_text hm (headText m) k (m.data ++ (crlf ++ msgTail))
    (m₀.clear.setHead m.tid m.type)
  rw [← hframe] at hhead hoption
  rw [← signedText] at hoption
  rw [decodeMessage, hhead]
  simp only [bind, Except.bind, hoption]
  cases hashOf (signedText m) with
  | error e => rfl
  | ok k' =>
    by_cases hk : k' = k
    · simp only [if_pos hk]
      rw [← List.length_append, hbody]
      exact decodeRest_behind (signedText m ++ sumText k) _ (takenIn m m₀)
    · simp only [if_neg hk]
      rfl

/-- The data is taken in when the size is its length. -/
theorem decodeRest_ok {m : Message} {data : Bytes} (hd : data.length < 2 ^ 31)
    (hsize : m.getValue keySize = .ok (Decimal.ofNat data.length)) :
    ∃ r, decodeRest m (data ++ (crlf ++ msgTail)) = .ok (true, r) := by
  have hbody := decodeBody_text hd hsize [] msgTail
  have htail := decodeTail_text (data ++ crlf) []
  simp only [List.nil_append, List.length_nil, List.append_nil, Nat.zero_add] at hbody htail
  rw [decodeRest, hbody]
  simp only [bind, Except.bind]
  have hlen : data.length + 2 = (data ++ crlf).length := by
    rw [List.length_append]
    rfl
  rw [hlen, ← List.append_assoc, htail]
  exact ⟨_, rfl⟩

end NetCpp.Proofs
