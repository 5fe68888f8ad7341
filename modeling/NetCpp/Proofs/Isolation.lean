import NetCpp.Proofs.Framed

namespace NetCpp.Proofs
open Library Message MessageFactory

/-- Messages that agree but for the value of this key. -/
structure Agree (k : Bytes) (m₁ m₂ : Message) : Prop where
  tid : m₁.tid = m₂.tid
  type : m₁.type = m₂.type
  data : m₁.data = m₂.data
  value : ∀ key, key ≠ k → m₁.getValue key = m₂.getValue key

/-- Two calls that end in the same way, with messages that agree. -/
def Alike (k : Bytes) : Except Fault (Bool × Message) → Except Fault (Bool × Message) → Prop
  | .error e₁, .error e₂ => e₁ = e₂
  | .ok (b₁, m₁), .ok (b₂, m₂) => b₁ = b₂ ∧ Agree k m₁ m₂
  | _, _ => False

variable {k key v₁ v₂ : Bytes} {m₁ m₂ : Message}

theorem Agree.refl (k : Bytes) (m : Message) : Agree k m m := ⟨rfl, rfl, rfl, fun _ _ => rfl⟩

theorem Agree.addOption (h : Agree k m₁ m₂) (hv : key ≠ k → v₁ = v₂) :
    Agree k (m₁.addOption key v₁) (m₂.addOption key v₂) := by
  refine ⟨h.tid, h.type, h.data, ?_⟩
  intro other hother
  by_cases hkey : other = key
  · subst hkey
    rw [getValue_addOption_self, getValue_addOption_self, hv hother]
  · rw [getValue_addOption_other _ _ hkey, getValue_addOption_other _ _ hkey]
    exact h.value other hother

/-- Options with the same keys, and the same values but for this key. -/
def Related (k : Bytes) (o₁ o₂ : MessageOption) : Prop :=
  o₁.key = o₂.key ∧ (o₁.key ≠ k → o₁.value = o₂.value)

variable {os₁ os₂ : List MessageOption}

theorem Agree.addOptions (h : Agree k m₁ m₂) (hos : List.Forall₂ (Related k) os₁ os₂) :
    Agree k (m₁.addOptions os₁) (m₂.addOptions os₂) := by
  induction hos generalizing m₁ m₂ with
  | nil => exact h
  | @cons o₁ o₂ os₁ os₂ ho hos ih =>
    rw [addOptions_cons, addOptions_cons, ← ho.1]
    exact ih (h.addOption ho.2)

theorem related_refl (k : Bytes) (os : List MessageOption) : List.Forall₂ (Related k) os os :=
  List.forall₂_same.mpr (fun _ _ => ⟨rfl, fun _ => rfl⟩)

theorem related_insertOption (hos : List.Forall₂ (Related k) os₁ os₂) (hv : key ≠ k → v₁ = v₂) :
    List.Forall₂ (Related k) (insertOption key v₁ os₁) (insertOption key v₂ os₂) := by
  induction hos with
  | nil => exact .cons ⟨rfl, hv⟩ .nil
  | @cons o₁ o₂ os₁ os₂ ho hos ih =>
    unfold insertOption
    rw [← ho.1]
    split
    · rename_i hkey
      exact .cons ⟨rfl, fun hne => hv (hkey ▸ hne)⟩ hos
    · exact .cons ho ih

/-- The decoder cuts keys and values at a NUL, and the key that differs has none. -/
theorem related_cut (hk : (0 : Byte) ∉ k) (hos : List.Forall₂ (Related k) os₁ os₂) :
    List.Forall₂ (Related k) (os₁.map cut) (os₂.map cut) := by
  rw [List.forall₂_map_left_iff, List.forall₂_map_right_iff]
  refine hos.imp ?_
  intro o₁ o₂ ho
  refine ⟨congrArg cStr ho.1, ?_⟩
  intro hne
  have hkey : o₁.key ≠ k := by
    intro heq
    apply hne
    rw [cut, heq, cStr_eq_self hk]
  exact congrArg cStr (ho.2 hkey)

theorem Alike.of_ok {b : Bool} (h : Agree k m₁ m₂) : Alike k (.ok (b, m₁)) (.ok (b, m₂)) := ⟨rfl, h⟩

theorem alike_decodeTail (h : Agree k m₁ m₂) (raw : Bytes) (offset : Nat) :
    Alike k (accepted (decodeTail raw offset m₁)) (accepted (decodeTail raw offset m₂)) := by
  rw [decodeTail, decodeTail]
  cases expect msgTail (raw.drop offset) with
  | error e => rfl
  | ok r =>
    cases r with
    | none => exact .of_ok h
    | some rest => exact .of_ok h

/-- What follows the options is decoded alike when the size is not what differs. -/
theorem alike_decodeRest (hsize : k ≠ keySize) (h : Agree k m₁ m₂) (rest : Bytes) :
    Alike k (decodeRest m₁ rest) (decodeRest m₂ rest) := by
  rw [decodeRest, decodeRest, decodeBody, decodeBody, h.value keySize (Ne.symm hsize)]
  cases catchRuntimeError (m₂.getValue keySize) with
  | error e => rfl
  | ok r =>
    cases r with
    | none => exact .of_ok h
    | some sSize =>
      simp only [bind, Except.bind]
      cases stoi sSize with
      | error e => rfl
      | ok size =>
        simp only
        by_cases hneg : size < 0
        · simp only [hneg, if_true]
          rfl
        · simp only [hneg, if_false, pushData, List.drop_zero, h.data]
          by_cases hlen : rest.length < size.toNat
          · simp only [hlen, if_true]
            rfl
          · simp only [hlen, if_false]
            have hpushed : Agree k
                (({ m₁ with data := m₂.data ++ rest.take size.toNat } : Message).addOption keySize
                  (Decimal.ofNat (m₂.data ++ rest.take size.toNat).length))
                (({ m₂ with data := m₂.data ++ rest.take size.toNat } : Message).addOption keySize
                  (Decimal.ofNat (m₂.data ++ rest.take size.toNat).length)) :=
              Agree.addOption ⟨h.tid, h.type, rfl, h.value⟩ (fun _ => rfl)
            cases expect crlf (rest.drop size.toNat) with
            | error e => rfl
            | ok r =>
              cases r with
              | none => exact .of_ok hpushed
              | some rest' =>
                exact alike_decodeTail hpushed rest _

/-- The encodings of two messages with different values of an option are decoded alike. -/
def Isolated (signGen : SHA256Generator) (m : Message) (k v₁ v₂ : Bytes) : Prop :=
  ∀ sent₁ sent₂ e₁ e₂ m₀, encodeMessage signGen (m.addOption k v₁) [] = .ok (sent₁, e₁) →
    encodeMessage signGen (m.addOption k v₂) [] = .ok (sent₂, e₂) →
    Alike k (decodeMessage e₁ m₀) (decodeMessage e₂ m₀)

theorem unquoted_insertOption {os : List MessageOption} {key value : Bytes}
    (hos : ∀ o ∈ os, Unquoted o) (h : Unquoted ⟨key, value⟩) :
    ∀ o ∈ insertOption key value os, Unquoted o := by
  intro o ho
  rcases mem_insertOption ho with hold | rfl
  · exact hos o hold
  · exact h

/-- Without quotes, and without a NUL in the key, the value of an option other than the size is
seen in this option alone. -/
theorem isolated (signGen : SHA256Generator) {m : Message} {k v₁ v₂ : Bytes}
    (hm : ∀ o ∈ m.options, Unquoted o) (hk : quote ∉ k) (hk0 : (0 : Byte) ∉ k) (hsize : k ≠ keySize)
    (hv₁ : quote ∉ v₁) (hv₂ : quote ∉ v₂) : Isolated signGen m k v₁ v₂ := by
  intro sent₁ sent₂ e₁ e₂ m₀ he₁ he₂
  obtain ⟨rfl, k₁, hk₁, rfl⟩ := encodeMessage_ok.mp he₁
  obtain ⟨rfl, k₂, hk₂, rfl⟩ := encodeMessage_ok.mp he₂
  have hsign : Unquoted ⟨keySign, signGen.getHex m.data⟩ :=
    Plain.unquoted (List.forall_mem_singleton.mpr (plain_sign signGen m.data)) _ (by simp)
  have hos₁ : ∀ o ∈ (signed signGen (m.addOption k v₁)).options, Unquoted o :=
    unquoted_insertOption (unquoted_insertOption hm ⟨hk, hv₁⟩) hsign
  have hos₂ : ∀ o ∈ (signed signGen (m.addOption k v₂)).options, Unquoted o :=
    unquoted_insertOption (unquoted_insertOption hm ⟨hk, hv₂⟩) hsign
  have hrelated : List.Forall₂ (Related k) (signed signGen (m.addOption k v₁)).options
      (signed signGen (m.addOption k v₂)).options :=
    related_insertOption
      (related_insertOption (related_refl k m.options) (fun hne => absurd rfl hne))
      (fun _ => rfl)
  have hagree : Agree k (takenIn (signed signGen (m.addOption k v₁)) m₀)
      (takenIn (signed signGen (m.addOption k v₂)) m₀) :=
    Agree.addOptions (Agree.refl k _) (related_cut hk0 hrelated)
  rw [decodeMessage_frame hos₁, decodeMessage_frame hos₂, hk₁, hk₂]
  simp only [if_true]
  exact alike_decodeRest hsize hagree _

def keyK : Bytes := ascii ['k']

/-- The values of the option may hold NULs and line ends. -/
theorem isolated_hello : ∃ sent₁ e₁ sent₂ e₂,
    encodeMessage helloGenerator (helloMessage.addOption keyK []) [] = .ok (sent₁, e₁) ∧
    encodeMessage helloGenerator (helloMessage.addOption keyK [cr, lf, 0, colon]) [] =
      .ok (sent₂, e₂) ∧
    Alike keyK (decodeMessage e₁ {}) (decodeMessage e₂ {}) := by
  have h : Isolated helloGenerator helloMessage keyK [] [cr, lf, 0, colon] :=
    isolated helloGenerator (by decide) (by decide) (by decide) (by decide) (by decide) (by decide)
  obtain ⟨sent₁, e₁, he₁⟩ :=
    (encodeMessage_returns helloGenerator (helloMessage.addOption keyK [])).mpr (by decide +kernel)
  obtain ⟨sent₂, e₂, he₂⟩ :=
    (encodeMessage_returns helloGenerator
      (helloMessage.addOption keyK [cr, lf, 0, colon])).mpr (by decide +kernel)
  exact ⟨sent₁, e₁, sent₂, e₂, he₁, he₂, h sent₁ sent₂ e₁ e₂ {} he₁ he₂⟩

/-- What the decoder returns for the encoding of a message. -/
def returned (signGen : SHA256Generator) (m : Message) : Except Fault Bool := do
  let (_, e) ← encodeMessage signGen m []
  let (b, _) ← decodeMessage e {}
  return b

theorem returned_ok {signGen : SHA256Generator} {m : Message} {b : Bool}
    (h : returned signGen m = .ok b) :
    ∃ sent e r, encodeMessage signGen m [] = .ok (sent, e) ∧ decodeMessage e {} = .ok (b, r) := by
  obtain ⟨⟨sent, e⟩, he, h⟩ := bind_ok h
  obtain ⟨⟨b', r⟩, hr, h⟩ := bind_ok h
  cases h
  exact ⟨sent, e, r, he, hr⟩

theorem not_isolated_of {signGen : SHA256Generator} {m : Message}
    (h₁ : returned signGen (m.addOption k v₁) = .ok true)
    (h₂ : returned signGen (m.addOption k v₂) = .ok false) : ¬Isolated signGen m k v₁ v₂ := by
  intro h
  obtain ⟨sent₁, e₁, r₁, he₁, hr₁⟩ := returned_ok h₁
  obtain ⟨sent₂, e₂, r₂, he₂, hr₂⟩ := returned_ok h₂
  have halike := h sent₁ sent₂ e₁ e₂ {} he₁ he₂
  rw [hr₁, hr₂] at halike
  cases halike.1

/-- A value that ends the option part, with 2091 as the checksum of what comes before. -/
def forgedText : Bytes :=
  ascii ['z', '"'] ++ crlf ++ Decimal.ofNat 2091 ++ crlf ++ crlf ++ crlf ++ msgTail

def forgedMessage : Message where
  tid := 7
  type := 1
  options := [⟨keySize, Decimal.ofNat 0⟩, ⟨keyK, []⟩, ⟨ascii ['y'], forgedText⟩]

/-- A key that holds a whole option line and the start of another one. -/
def forgedKey : Bytes :=
  ascii ['a', '"', ':', '"', 'b', '"'] ++ crlf ++ [quote] ++ keySize

/-- A quote in a value, in the value of another option or in the key, and a NUL in the key. -/
theorem not_isolated : ¬Isolated helloGenerator helloMessage keyK [] [quote] ∧
    ¬Isolated helloGenerator forgedMessage keyK (ascii ['a']) (ascii ['b']) ∧
    ¬Isolated helloGenerator helloMessage forgedKey (ascii ['1', '2']) (ascii ['5']) ∧
    ¬Isolated helloGenerator helloMessage (keySize ++ [0]) (ascii ['1', '2']) (ascii ['5']) := by
  refine ⟨?_, ?_, ?_, ?_⟩
  · exact not_isolated_of (by decide +kernel) (by decide +kernel)
  · exact not_isolated_of (by decide +kernel) (by decide +kernel)
  · exact not_isolated_of (by decide +kernel) (by decide +kernel)
  · exact not_isolated_of (by decide +kernel) (by decide +kernel)

end NetCpp.Proofs
