import NetCpp.Library.Runs
import NetCpp.Proofs.Checksum

namespace NetCpp.Proofs
open Library Message MessageFactory

/-- The head line of a frame. -/
def headText (m : Message) : Bytes :=
  msgHead ++ [space] ++ Decimal.ofInt msgVersion.toInt ++ [space] ++
    Decimal.ofInt m.type.toInt ++ [space] ++ Decimal.ofInt m.tid.toInt ++ crlf

def optionLine (o : MessageOption) : Bytes :=
  [quote] ++ o.key ++ [quote, colon, quote] ++ o.value ++ [quote] ++ crlf

def optionText (os : List MessageOption) : Bytes := os.flatMap optionLine

/-- The checksum line and the empty line that ends the option part. -/
def sumText (k : Int16) : Bytes := Decimal.ofInt k.toInt ++ crlf ++ crlf

/-- Head and option lines, over which the checksum goes. -/
def signedText (m : Message) : Bytes := headText m ++ optionText m.options

def frameText (m : Message) (k : Int16) : Bytes :=
  signedText m ++ sumText k ++ m.data ++ crlf ++ msgTail

@[simp] theorem optionText_cons (o : MessageOption) (os : List MessageOption) :
    optionText (o :: os) = optionLine o ++ optionText os := by
  simp [optionText]

/-- A separator that is in neither of two texts tells where they end. -/
theorem append_cons_inj {a b s t : Bytes} {c : Byte} (ha : c ∉ a) (hb : c ∉ b)
    (h : a ++ c :: s = b ++ c :: t) : a = b ∧ s = t := by
  have hread := readUntil_append ha s
  rw [h, readUntil_append hb] at hread
  obtain ⟨hsame, hrest⟩ := Prod.mk.inj (Except.ok.inj hread)
  exact ⟨hsame.symm, hrest.symm⟩

theorem encodeHead_eq (m : Message) (rawData : Bytes) :
    encodeHead m rawData = rawData ++ headText m := by
  simp [encodeHead, headText, crlf]

theorem foldl_encodeOption (os : List MessageOption) (rawData : Bytes) :
    os.foldl encodeOption rawData = rawData ++ optionText os := by
  induction os generalizing rawData with
  | nil => simp [optionText]
  | cons o os ih =>
    rw [List.foldl_cons, ih, optionText_cons]
    simp [encodeOption, optionLine, crlf]

/-- The message as it is sent. -/
def signed (signGen : SHA256Generator) (m : Message) : Message :=
  m.addOption keySign (signGen.getHex m.getData)

/-- The frame goes behind what is in the vector, and the checksum goes over all of it. -/
theorem encodeMessage_behind (signGen : SHA256Generator) (m : Message) (p : Bytes) :
    encodeMessage signGen m p =
      match hashOf (p ++ signedText (signed signGen m)) with
      | .error e => .error e
      | .ok k => .ok (signed signGen m, p ++ frameText (signed signGen m) k) := by
  have hraw : (signed signGen m).options.foldl encodeOption (encodeHead (signed signGen m) p) =
      p ++ signedText (signed signGen m) := by
    rw [foldl_encodeOption, encodeHead_eq, List.append_assoc]
    rfl
  have he : encodeOptions (signed signGen m) (encodeHead (signed signGen m) p) =
      match hashOf (p ++ signedText (signed signGen m)) with
      | .error e => .error e
      | .ok k => .ok (p ++ signedText (signed signGen m) ++ sumText k) := by
    simp only [encodeOptions, hraw]
    rw [show calculateOptionsHash (p ++ signedText (signed signGen m)) _ =
      hashOf (p ++ signedText (signed signGen m)) from rfl]
    cases hashOf (p ++ signedText (signed signGen m)) with
    | error e => rfl
    | ok k => simp [sumText]
  simp only [encodeMessage]
  rw [show m.addOption keySign (signGen.getHex m.getData) = signed signGen m from rfl, he]
  cases hashOf (p ++ signedText (signed signGen m)) with
  | error e => rfl
  | ok k => simp [encodeTail, encodeBody, frameText]

theorem encodeMessage_eq (signGen : SHA256Generator) (m : Message) :
    encodeMessage signGen m [] =
      match hashOf (signedText (signed signGen m)) with
      | .error e => .error e
      | .ok k => .ok (signed signGen m, frameText (signed signGen m) k) :=
  encodeMessage_behind signGen m []

/-- `encodeMessage` into an empty vector writes the frame of the signed message. -/
theorem encodeMessage_ok {signGen : SHA256Generator} {m m' : Message} {e : Bytes} :
    encodeMessage signGen m [] = .ok (m', e) ↔
      m' = signed signGen m ∧ ∃ k, hashOf (signedText m') = .ok k ∧ e = frameText m' k := by
  rw [encodeMessage_eq]
  constructor
  · intro h
    split at h
    · cases h
    · rename_i k hk
      cases h
      exact ⟨rfl, k, hk, rfl⟩
  · rintro ⟨rfl, k, hk, rfl⟩
    rw [hk]

/-- Encoding returns exactly for a head and option part whose last index fits an `int`,
up to multiples of 2^32. -/
theorem encodeMessage_returns (signGen : SHA256Generator) (m : Message) :
    (∃ m' e, encodeMessage signGen m [] = .ok (m', e)) ↔
    Hashable (signedText (signed signGen m)) := by
  rw [← hashOf_ok]
  constructor
  · rintro ⟨m', e, h⟩
    obtain ⟨rfl, k, hk, -⟩ := encodeMessage_ok.mp h
    exact ⟨k, hk⟩
  · rintro ⟨k, hk⟩
    exact ⟨_, _, encodeMessage_ok.mpr ⟨rfl, k, hk, rfl⟩⟩

theorem not_mem_ofInt {n : Int} {c : Byte} (hd : Decimal.isDigit c = false)
    (hm : c ≠ Decimal.minus) : c ∉ Decimal.ofInt n := by
  intro hc
  rcases Decimal.mem_ofInt hc with h | h
  · rw [hd] at h
    cases h
  · exact hm h

/-- The head line after its first letter, up to its end. -/
def headRest (m : Message) : Bytes :=
  [space] ++ Decimal.ofInt msgVersion.toInt ++ [space] ++ Decimal.ofInt m.type.toInt ++ [space] ++
    Decimal.ofInt m.tid.toInt

theorem headText_eq (m : Message) : headText m = msgHead ++ (headRest m ++ crlf) := by
  simp [headText, headRest]

theorem mem_headRest {m : Message} {c : Byte} (hc : c ∈ headRest m) :
    c = space ∨ Decimal.isDigit c = true ∨ c = Decimal.minus := by
  simp only [headRest, List.mem_append, List.mem_singleton] at hc
  rcases hc with ((((h | h) | h) | h) | h) | h
  · exact Or.inl h
  · exact Or.inr (Decimal.mem_ofInt h)
  · exact Or.inl h
  · exact Or.inr (Decimal.mem_ofInt h)
  · exact Or.inl h
  · exact Or.inr (Decimal.mem_ofInt h)

theorem not_mem_headRest {m : Message} {c : Byte} (hs : c ≠ space) (hd : Decimal.isDigit c = false)
    (hm : c ≠ Decimal.minus) : c ∉ headRest m := by
  intro hc
  rcases mem_headRest hc with h | h | h
  · exact hs h
  · rw [hd] at h
    cases h
  · exact hm h

/-- What each decoder gives on the text the encoder writes for its part, whatever follows. -/
theorem decodeHead_text (m m₀ : Message) (rest : Bytes) :
    decodeHead (headText m ++ rest) m₀ =
      .ok (some (headText m).length, m₀.setHead m.tid m.type) := by
  have hraw : headText m ++ rest =
      (msgHead ++ [space]) ++ (Decimal.ofInt msgVersion.toInt ++ space ::
      (Decimal.ofInt m.type.toInt ++
        space :: (Decimal.ofInt m.tid.toInt ++ cr :: ([lf] ++ rest)))) := by
    simp [headText, crlf]
  have hs (n : Int) : space ∉ Decimal.ofInt n := not_mem_ofInt (by decide) (by decide)
  have hc (n : Int) : cr ∉ Decimal.ofInt n := not_mem_ofInt (by decide) (by decide)
  have hty : stoi (Decimal.ofInt m.type.toInt) = .ok m.type.toInt :=
    stoi_ofInt (by have := m.type.le_toInt; omega) (by have := m.type.toInt_lt; omega)
  have htid : stoi (Decimal.ofInt m.tid.toInt) = .ok m.tid.toInt :=
    stoi_ofInt m.tid.le_toInt m.tid.toInt_lt
  have hv : stoi (Decimal.ofInt msgVersion.toInt) = .ok 0 := by decide
  have hlen : (headText m ++ rest).length - rest.length = (headText m).length := by simp
  rw [← hlen, decodeHead, hraw]
  simp only [expect_append, readUntil_append (hs _), readUntil_append (hc _), hty, htid, hv,
    bind, Except.bind, pure, Except.pure, Int16.ofInt_toInt, Int32.ofInt_toInt]
  rfl

/-- Keys and values that survive quoting and `c_str`. -/
def Plain (o : MessageOption) : Prop :=
  quote ∉ o.key ∧ quote ∉ o.value ∧ (0 : Byte) ∉ o.key ∧ (0 : Byte) ∉ o.value

instance (o : MessageOption) : Decidable (Plain o) :=
  inferInstanceAs (Decidable (_ ∧ _ ∧ _ ∧ _))

/-- Keys and values that survive quoting. -/
def Unquoted (o : MessageOption) : Prop := quote ∉ o.key ∧ quote ∉ o.value

instance (o : MessageOption) : Decidable (Unquoted o) := inferInstanceAs (Decidable (_ ∧ _))

/-- An option as the decoder takes it in. -/
def cut (o : MessageOption) : MessageOption := ⟨cStr o.key, cStr o.value⟩

theorem Plain.unquoted {os : List MessageOption} (h : ∀ o ∈ os, Plain o) :
    ∀ o ∈ os, Unquoted o := by
  intro o ho
  exact ⟨(h o ho).1, (h o ho).2.1⟩

theorem map_cut {os : List MessageOption} (h : ∀ o ∈ os, Plain o) : os.map cut = os := by
  refine (List.map_congr_left (fun o ho => ?_)).trans (List.map_id os)
  obtain ⟨-, -, hk, hv⟩ := h o ho
  rw [cut, cStr_eq_self hk, cStr_eq_self hv]
  rfl

/-- A round of the loop over the option lines: where it stops, and where it goes on with the
rest. -/
inductive LineRead (n : Nat) (m : Message) (r : Option Bytes × Message) : Bytes → Prop where
  | stop {c : Byte} {line : Bytes} (hc : c ≠ quote) (hr : r = (some (c :: line), m)) :
    LineRead n m r (c :: line)
  | separator {key line : Bytes} (hk : quote ∉ key) (h : expect [colon, quote] line = .ok none)
    (hr : r = (none, m)) : LineRead n m r (quote :: (key ++ quote :: line))
  | ending {key value line : Bytes} (hk : quote ∉ key) (hv : quote ∉ value)
    (h : expect crlf line = .ok none) (hr : r = (none, m)) :
    LineRead n m r (quote :: (key ++ quote :: ([colon, quote] ++ (value ++ quote :: line))))
  | line {key value rest : Bytes} (hk : quote ∉ key) (hv : quote ∉ value)
    (h : optionLines n rest (m.addOption (cStr key) (cStr value)) = .ok r) :
    LineRead n m r
      (quote :: (key ++ quote :: ([colon, quote] ++ (value ++ quote :: (crlf ++ rest)))))

theorem LineRead.of_ok {n : Nat} {m : Message} {r : Option Bytes × Message} {raw : Bytes}
    (h : optionLines (n + 1) raw m = .ok r) : LineRead n m r raw := by
  obtain ⟨⟨c, line⟩, hnext, h⟩ := bind_ok h
  obtain rfl : raw = c :: line := by
    cases raw with
    | nil => cases hnext
    | cons b raw => cases hnext; rfl
  by_cases hq : c = quote
  · subst hq
    simp only [ne_eq, not_true, if_false] at h
    obtain ⟨⟨key, line₁⟩, hkey, h⟩ := bind_ok h
    obtain ⟨r₁, hsep, h⟩ := bind_ok h
    obtain ⟨rfl, hk⟩ := readUntil_ok.mp hkey
    cases r₁ with
    | none => exact .separator hk hsep (Except.ok.inj h).symm
    | some line₂ =>
      obtain ⟨⟨value, line₃⟩, hvalue, h⟩ := bind_ok h
      obtain ⟨r₂, hend, h⟩ := bind_ok h
      obtain rfl := expect_some.mp hsep
      obtain ⟨rfl, hv⟩ := readUntil_ok.mp hvalue
      cases r₂ with
      | none => exact .ending hk hv hend (Except.ok.inj h).symm
      | some rest =>
        obtain rfl := expect_some.mp hend
        exact .line hk hv h
  · simp only [ne_eq, hq, not_false_iff, if_true] at h
    exact .stop hq (Except.ok.inj h).symm

theorem LineRead.ok {n : Nat} {m : Message} {r : Option Bytes × Message} {raw : Bytes}
    (h : LineRead n m r raw) : optionLines (n + 1) raw m = .ok r := by
  cases h with
  | stop hc hr =>
    rw [optionLines, hr]
    simp only [next, bind, Except.bind, ne_eq, hc, not_false_iff, if_true]
    rfl
  | separator hk h hr =>
    rw [optionLines, hr]
    simp only [next, readUntil_append hk, h, bind, Except.bind, ne_eq, not_true, if_false]
    rfl
  | ending hk hv h hr =>
    rw [optionLines, hr]
    simp only [next, readUntil_append hk, readUntil_append hv, expect_append, h, bind,
      Except.bind, ne_eq, not_true, if_false]
    rfl
  | line hk hv h =>
    rw [optionLines]
    simp only [next, readUntil_append hk, readUntil_append hv, expect_append, bind,
      Except.bind, ne_eq, not_true, if_false]
    exact h

theorem optionLines_text {os : List MessageOption} (hp : ∀ o ∈ os, Unquoted o) {c : Byte}
    (hc : c ≠ quote) (rest : Bytes) (m : Message) {n : Nat} (hn : os.length < n) :
    optionLines n (optionText os ++ c :: rest) m =
      .ok (some (c :: rest), m.addOptions (os.map cut)) := by
  induction os generalizing m n with
  | nil =>
    obtain ⟨n, rfl⟩ : ∃ k, n = k + 1 := ⟨n - 1, by simp at hn; omega⟩
    exact (LineRead.stop hc rfl).ok
  | cons o os ih =>
    obtain ⟨n, rfl⟩ : ∃ k, n = k + 1 := ⟨n - 1, by simp at hn; omega⟩
    obtain ⟨hk, hv⟩ := hp o List.mem_cons_self
    have hraw : optionText (o :: os) ++ c :: rest = quote :: (o.key ++ quote :: ([colon, quote] ++
        (o.value ++ quote :: (crlf ++ (optionText os ++ c :: rest))))) := by
      simp [optionLine]
    have htail := ih (fun p hp' => hp p (List.mem_cons_of_mem o hp'))
      (m.addOption (cStr o.key) (cStr o.value)) (by simpa using hn)
    rw [hraw]
    exact (LineRead.line hk hv htail).ok

theorem length_optionText_ge (os : List MessageOption) : os.length ≤ (optionText os).length := by
  induction os with
  | nil => simp
  | cons o os ih =>
    simp only [optionText_cons, List.length_append, List.length_cons, optionLine, List.length_nil]
    omega

theorem sumText_head (k : Int16) (rest : Bytes) :
    ∃ c s, sumText k ++ rest = c :: s ∧ c ≠ quote := by
  cases h : Decimal.ofInt k.toInt with
  | nil => exact absurd h (Decimal.ofInt_ne_nil _)
  | cons c s =>
    refine ⟨c, s ++ crlf ++ crlf ++ rest, by simp [sumText, h], ?_⟩
    rintro rfl
    exact not_mem_ofInt (by decide) (by decide) (h ▸ List.mem_cons_self)

theorem decodeChecksum_text (s : Bytes) (k : Int16) (rest : Bytes) (m : Message) :
    decodeChecksum (s ++ (sumText k ++ rest)) (sumText k ++ rest) m =
      match hashOf s with
      | .error e => .error e
      | .ok k' => .ok (if k' = k then some (s.length + (sumText k).length) else none, m) := by
  have hraw : sumText k ++ rest = Decimal.ofInt k.toInt ++ cr :: ([lf] ++ (crlf ++ rest)) := by
    simp [sumText, crlf]
  have hc : cr ∉ Decimal.ofInt k.toInt := not_mem_ofInt (by decide) (by decide)
  have hst : stoi (Decimal.ofInt k.toInt) = .ok k.toInt :=
    stoi_ofInt (by have := k.le_toInt; omega) (by have := k.toInt_lt; omega)
  have hidx : (((s ++ (sumText k ++ rest)).length : Int) - (sumText k ++ rest).length - 1) =
      s.length - 1 := by
    rw [List.length_append]
    push_cast
    omega
  have hlen : (s ++ (sumText k ++ rest)).length - rest.length = s.length + (sumText k).length := by
    simp only [List.length_append]
    omega
  rw [← hlen, decodeChecksum, hidx]
  conv_lhs =>
    rw [show sumText k ++ rest = Decimal.ofInt k.toInt ++ cr :: ([lf] ++ (crlf ++ rest)) from hraw]
  simp only [readUntil_append hc, expect_append, hst, calculateOptionsHash_append, bind,
    Except.bind, pure, Except.pure, Int16.ofInt_toInt]
  cases hashOf s with
  | error e => rfl
  | ok k' => by_cases hk : k' = k <;> simp [hk, hraw]

/-- The option decoder on option lines and a checksum line, from any offset: it takes
the lines in, and accepts when the sum of all that comes before it agrees. -/
theorem decodeOptions_text {os : List MessageOption} (hp : ∀ o ∈ os, Unquoted o) (pre : Bytes)
    (k : Int16) (rest : Bytes) (m : Message) :
    decodeOptions (pre ++ (optionText os ++ (sumText k ++ rest))) pre.length m =
      match hashOf (pre ++ optionText os) with
      | .error e => .error e
      | .ok k' => .ok (if k' = k then some ((pre ++ optionText os).length + (sumText k).length)
          else none, m.addOptions (os.map cut)) := by
  obtain ⟨c, s, hs, hc⟩ := sumText_head k rest
  have hfuel : os.length < (pre ++ (optionText os ++ (sumText k ++ rest))).length + 1 := by
    have := length_optionText_ge os
    simp only [List.length_append]
    omega
  have hlines := optionLines_text hp hc s m hfuel
  rw [← hs] at hlines
  rw [decodeOptions, List.drop_left, hlines]
  simp only [bind, Except.bind]
  rw [← List.append_assoc]
  exact decodeChecksum_text _ k rest _

theorem decodeBody_text {m : Message} {data : Bytes} (hd : data.length < 2 ^ 31)
    (hm : m.getValue keySize = .ok (Decimal.ofNat data.length)) (pre rest : Bytes) :
    decodeBody (pre ++ (data ++ (crlf ++ rest))) pre.length m =
      .ok (some (pre.length + data.length + 2),
        { m with data := m.data ++ data }.addOption keySize
          (Decimal.ofNat (m.data ++ data).length)) := by
  have hlen : (pre ++ (data ++ (crlf ++ rest))).length - rest.length =
      pre.length + data.length + 2 := by
    simp only [List.length_append, crlf, List.length_cons, List.length_nil]
    omega
  rw [← hlen, decodeBody, hm]
  simp only [catchRuntimeError, stoi_ofNat hd, bind, Except.bind, pure, Except.pure, List.drop_left,
    pushData, Int.toNat_natCast, expect_append]
  rw [if_neg (by omega), if_neg (by simp)]
  simp

theorem decodeTail_text (pre rest : Bytes) (m : Message) :
    decodeTail (pre ++ (msgTail ++ rest)) pre.length m = .ok (some (pre.length + 3), m) := by
  have hlen : (pre ++ (msgTail ++ rest)).length - rest.length = pre.length + 3 := by
    simp only [List.length_append, show msgTail.length = 3 from rfl]
    omega
  rw [← hlen, decodeTail, List.drop_left, expect_append]
  rfl

end NetCpp.Proofs
