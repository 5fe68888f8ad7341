import NetCpp.Proofs.Framed
import NetCpp.Proofs.Normal
import NetCpp.Proofs.Stream

namespace NetCpp.Proofs
open Library Message MessageFactory

/-- The positions of the frame that are inside of a key or a value. -/
def InOption (m : Message) (p : Nat) : Prop :=
  ∃ os₁ o os₂ i, m.options = os₁ ++ o :: os₂ ∧
    (i < o.key.length ∧ p = (headText m ++ optionText os₁).length + 1 + i ∨
      i < o.value.length ∧ p = (headText m ++ optionText os₁).length + 4 + o.key.length + i)

/-- No byte of a key or a value can be replaced by another one without the decoder refusing the
frame, when the byte is no quote. -/
def Detects (m : Message) (e : Bytes) : Prop :=
  ∀ p c, InOption m p → c ≠ quote → e[p]? ≠ some c →
    ∀ m₀ r, decodeMessage (e.set p c) m₀ ≠ .ok (true, r)

/-- The options with the byte at a position of the frame, which is the first one, replaced by the
second one. -/
inductive Altered (m : Message) (p : Nat) (b c : Byte) : List MessageOption → Prop where
  | key (os₁ : List MessageOption) (o : MessageOption) (os₂ : List MessageOption) (i : Nat)
      (hsplit : m.options = os₁ ++ o :: os₂) (hb : o.key[i]? = some b)
      (hp : p = (headText m ++ optionText os₁).length + 1 + i) :
      Altered m p b c (os₁ ++ { o with key := o.key.set i c } :: os₂)
  | value (os₁ : List MessageOption) (o : MessageOption) (os₂ : List MessageOption) (i : Nat)
      (hsplit : m.options = os₁ ++ o :: os₂) (hb : o.value[i]? = some b)
      (hp : p = (headText m ++ optionText os₁).length + 4 + o.key.length + i) :
      Altered m p b c (os₁ ++ { o with value := o.value.set i c } :: os₂)

theorem lt_of_getElem?_some {s : Bytes} {i : Nat} {b : Byte} (h : s[i]? = some b) : i < s.length :=
  (List.getElem?_eq_some_iff.mp h).1

theorem InOption.altered {m : Message} {p : Nat} (h : InOption m p) (c : Byte) :
    ∃ b os, Altered m p b c os := by
  obtain ⟨os₁, o, os₂, i, hsplit, ⟨hi, hp⟩ | ⟨hi, hp⟩⟩ := h
  · exact ⟨_, _, .key os₁ o os₂ i hsplit (List.getElem?_eq_getElem hi) hp⟩
  · exact ⟨_, _, .value os₁ o os₂ i hsplit (List.getElem?_eq_getElem hi) hp⟩

variable {m : Message} {p : Nat} {b c : Byte} {os : List MessageOption}

theorem Altered.inOption (h : Altered m p b c os) : InOption m p := by
  cases h with
  | key os₁ o os₂ i hsplit hb hp =>
    exact ⟨os₁, o, os₂, i, hsplit, .inl ⟨lt_of_getElem?_some hb, hp⟩⟩
  | value os₁ o os₂ i hsplit hb hp =>
    exact ⟨os₁, o, os₂, i, hsplit, .inr ⟨lt_of_getElem?_some hb, hp⟩⟩

/-- A text with one byte altered, between two others. -/
theorem set_middle {text pre s post : Bytes} {i : Nat} (htext : text = pre ++ (s ++ post))
    (hp : p = pre.length + i) (hb : s[i]? = some b) :
    text[p]? = some b ∧ text.set p c = pre ++ (s.set i c ++ post) := by
  have hi := lt_of_getElem?_some hb
  rw [htext, hp]
  constructor
  · rw [List.getElem?_append_right (Nat.le_add_right _ _), Nat.add_sub_cancel_left,
      List.getElem?_append_left hi, hb]
  · rw [List.set_append_right _ _ (Nat.le_add_right _ _), Nat.add_sub_cancel_left,
      List.set_append_left _ _ hi]

/-- The altered text is the text of the altered options. -/
theorem Altered.signedText (h : Altered m p b c os) : (signedText m)[p]? = some b ∧
    NetCpp.Proofs.signedText { m with options := os } = (NetCpp.Proofs.signedText m).set p c := by
  cases h with
  | key os₁ o os₂ i hsplit hb hp =>
    have htext (o' : MessageOption) : headText m ++ optionText (os₁ ++ o' :: os₂) =
        (headText m ++ optionText os₁ ++ [quote]) ++
          (o'.key ++ ([quote, colon, quote] ++ o'.value ++ [quote] ++ crlf ++ optionText os₂)) := by
      simp [optionText, optionLine]
    have hpre : p = (headText m ++ optionText os₁ ++ [quote]).length + i := by
      simp only [hp, List.length_append, List.length_singleton]
    have hold : NetCpp.Proofs.signedText m = _ :=
      (congrArg (headText m ++ optionText ·) hsplit).trans (htext o)
    obtain ⟨hbyte, hset⟩ := set_middle (c := c) hold hpre hb
    exact ⟨hbyte, (htext { o with key := o.key.set i c }).trans hset.symm⟩
  | value os₁ o os₂ i hsplit hb hp =>
    have htext (o' : MessageOption) : headText m ++ optionText (os₁ ++ o' :: os₂) =
        (headText m ++ optionText os₁ ++ [quote] ++ o'.key ++ [quote, colon, quote]) ++
          (o'.value ++ ([quote] ++ crlf ++ optionText os₂)) := by
      simp [optionText, optionLine]
    have hpre : p =
        (headText m ++ optionText os₁ ++ [quote] ++ o.key ++ [quote, colon, quote]).length + i := by
      rw [hp]
      simp only [List.length_append, List.length_cons, List.length_nil]
      omega
    have hold : NetCpp.Proofs.signedText m = _ :=
      (congrArg (headText m ++ optionText ·) hsplit).trans (htext o)
    obtain ⟨hbyte, hset⟩ := set_middle (c := c) hold hpre hb
    exact ⟨hbyte, (htext { o with value := o.value.set i c }).trans hset.symm⟩

theorem Altered.frameText (h : Altered m p b c os) (k : Int16) :
    (frameText m k)[p]? = some b ∧
      (NetCpp.Proofs.frameText m k).set p c =
        NetCpp.Proofs.frameText { m with options := os } k := by
  obtain ⟨hb, htext⟩ := h.signedText
  have hlt := lt_of_getElem?_some hb
  simp only [NetCpp.Proofs.frameText, List.append_assoc, htext]
  exact ⟨by rw [List.getElem?_append_left hlt, hb], by rw [List.set_append_left _ _ hlt]⟩

/-- What holds of each option, and of one more in the place of another. -/
theorem each_middle {P : MessageOption → Prop} {os₁ os₂ : List MessageOption}
    {o o' : MessageOption}
    (h : ∀ x ∈ os₁ ++ o :: os₂, P x) (hplace : P o → P o') : ∀ x ∈ os₁ ++ o' :: os₂, P x := by
  intro x hx
  rcases List.mem_append.mp hx with hx | hx
  · exact h x (List.mem_append_left _ hx)
  · rcases List.mem_cons.mp hx with rfl | hx
    · exact hplace (h o (by simp))
    · exact h x (by simp [hx])

/-- What holds of all keys and values, and of each text with one byte altered. -/
theorem Altered.each {P : Bytes → Prop} (h : Altered m p b c os)
    (hm : ∀ o ∈ m.options, P o.key ∧ P o.value) (hset : ∀ s i, P s → P (s.set i c)) :
    ∀ o ∈ os, P o.key ∧ P o.value := by
  cases h with
  | key os₁ o os₂ i hsplit hb hp =>
    rw [hsplit] at hm
    exact each_middle hm (fun ho => ⟨hset _ i ho.1, ho.2⟩)
  | value os₁ o os₂ i hsplit hb hp =>
    rw [hsplit] at hm
    exact each_middle hm (fun ho => ⟨ho.1, hset _ i ho.2⟩)

theorem not_mem_set (hc : c ≠ b) (s : Bytes) (i : Nat) (hs : b ∉ s) : b ∉ s.set i c := by
  intro hmem
  rcases List.mem_or_eq_of_mem_set hmem with hmem | heq
  · exact hs hmem
  · exact hc heq.symm

theorem Altered.unquoted (h : Altered m p b c os) (hm : ∀ o ∈ m.options, Unquoted o)
    (hc : c ≠ quote) : ∀ o ∈ os, Unquoted o := h.each (P := fun s => quote ∉ s) hm (not_mem_set hc)

theorem Altered.plain (h : Altered m p b c os) (hm : ∀ o ∈ m.options, Plain o) (hc : c ≠ quote)
    (hc0 : c ≠ 0) : ∀ o ∈ os, Plain o := by
  intro o ho
  obtain ⟨hk, hv⟩ := h.unquoted (Plain.unquoted hm) hc o ho
  have hnul : ∀ o ∈ m.options, (0 : Byte) ∉ o.key ∧ (0 : Byte) ∉ o.value :=
    fun o ho => (hm o ho).2.2
  exact ⟨hk, hv, h.each (P := fun s => (0 : Byte) ∉ s) hnul (not_mem_set hc0) o ho⟩

theorem charSum_set {s : Bytes} {i : Nat} (h : s[i]? = some b) (c : Byte) :
    charSum (s.set i c) + charValue b = charSum s + charValue c := by
  induction s generalizing i with
  | nil => simp at h
  | cons a s ih =>
    cases i with
    | zero =>
      obtain rfl := Option.some.inj h
      simp only [List.set_cons_zero, charSum_cons]
      omega
    | succ i =>
      have hrest := ih (by simpa using h)
      simp only [List.set_cons_succ, charSum_cons]
      omega

/-- The values of two bytes are less than 2^16 apart. -/
theorem charValue_apart (h : b ≠ c) :
    charValue b ≠ charValue c ∧ -256 < charValue b - charValue c ∧
    charValue b - charValue c < 256 := by
  have hb := b.toInt8.le_toInt
  have hb' := b.toInt8.toInt_lt
  have hc := c.toInt8.le_toInt
  have hc' := c.toInt8.toInt_lt
  simp only [charValue]
  refine ⟨?_, by omega, by omega⟩
  intro heq
  exact h (congrArg Int8.toUInt8 (Int8.toInt_inj.mp heq))

/-- One byte more or less changes the sum, and stays a change when the sum wraps. -/
theorem ofInt_charSum_set {s : Bytes} {i : Nat} (hb : s[i]? = some b) (hne : b ≠ c) :
    Int16.ofInt (charSum (s.set i c)) ≠ Int16.ofInt (charSum s) := by
  have hsum := charSum_set hb c
  obtain ⟨hdiff, hlo, hhi⟩ := charValue_apart hne
  intro heq
  have hdvd := ofInt_eq_ofInt_iff.mp heq
  omega

theorem detects_short {m : Message} {k : Int16} (hm : ∀ o ∈ m.options, Unquoted o)
    (hk : hashOf (signedText m) = .ok k) (hlen : (signedText m).length ≤ 2 ^ 31) :
    Detects m (frameText m k) := by
  intro p c hin hc hother m₀ r haccept
  obtain ⟨b, os, h⟩ := hin.altered c
  obtain ⟨hb, htext⟩ := h.signedText
  obtain ⟨hbyte, hframe⟩ := h.frameText k
  have hne : signedText m ≠ [] :=
    List.ne_nil_of_length_pos (Nat.lt_of_le_of_lt (Nat.zero_le p) (lt_of_getElem?_some hb))
  have hne' : (signedText m).set p c ≠ [] := by simpa using hne
  have hchanged : b ≠ c := by
    intro heq
    rw [hbyte, heq] at hother
    exact hother rfl
  have hsum := hashOf_short hne hlen
  have hsum' := hashOf_short hne' (by rwa [List.length_set])
  rw [hframe, decodeMessage_frame (h.unquoted hm hc), htext, hsum'] at haccept
  have hrefused : Int16.ofInt (charSum ((signedText m).set p c)) ≠ k := by
    rw [← Except.ok.inj (hsum.symm.trans hk)]
    exact ofInt_charSum_set hb hchanged
  simp only [if_neg hrefused] at haccept
  cases haccept

/-- The bytes behind the ones that count. -/
theorem hashOf_set {s : Bytes} {i : Nat} (hi : hashLength s ≤ i) (c : Byte) :
    hashOf (s.set i c) = hashOf s := by
  have hlen : hashLength (s.set i c) = hashLength s := by simp [hashLength]
  have hable : Hashable (s.set i c) ↔ Hashable s := by simp [Hashable]
  rw [hashOf_eq, hashOf_eq, hlen, List.take_set_of_le hi]
  simp only [hable]

theorem addOptions_append (m : Message) (os os' : List MessageOption) :
    m.addOptions (os ++ os') = (m.addOptions os).addOptions os' := List.foldl_append

/-- Options of one key that agree on its value. -/
theorem getValue_addOptions {key value : Bytes} {os : List MessageOption} (m : Message)
    (hmem : ⟨key, value⟩ ∈ os) (hsame : ∀ o ∈ os, o.key = key → o.value = value) :
    (m.addOptions os).getValue key = .ok value := by
  induction os using List.reverseRecOn with
  | nil => cases hmem
  | append_singleton os o ih =>
    rw [addOptions_append, addOptions_cons, addOptions_nil]
    by_cases hkey : o.key = key
    · rw [hkey, getValue_addOption_self, hsame o (by simp) hkey]
    · rw [getValue_addOption_other _ _ (Ne.symm hkey)]
      have hold : ⟨key, value⟩ ∈ os := by
        rcases List.mem_append.mp hmem with hold | hnew
        · exact hold
        · rw [← List.mem_singleton.mp hnew] at hkey
          exact absurd rfl hkey
      exact ih hold (fun x hx => hsame x (List.mem_append_left _ hx))

/-- An option in which nothing can be altered without the body being read in another way, or
nothing at all. -/
def Silent (o : MessageOption) : Prop := o.key = keySize ∨ o.key = [] ∧ o.value = []

/-- The last option that is not silent, if there is one. -/
theorem last_not_silent (os : List MessageOption) : (∀ o ∈ os, Silent o) ∨
    ∃ os₁ o os₂, os = os₁ ++ o :: os₂ ∧ ¬Silent o ∧ ∀ o ∈ os₂, Silent o := by
  induction os with
  | nil => exact .inl (by simp)
  | cons o os ih =>
    rcases ih with hall | ⟨os₁, x, os₂, rfl, hx, hafter⟩
    · by_cases ho : Silent o
      · exact .inl (List.forall_mem_cons.mpr ⟨ho, hall⟩)
      · exact .inr ⟨[], o, os, rfl, ho, hall⟩
    · exact .inr ⟨o :: os₁, x, os₂, rfl, hx, hafter⟩

theorem length_optionLine (o : MessageOption) :
    (optionLine o).length = o.key.length + o.value.length + 7 := by
  simp only [optionLine, crlf, List.length_append, List.length_cons, List.length_nil]
  omega

/-- There are at most two silent options, and their lines are short. -/
theorem length_silent {os : List MessageOption} (hnodup : (os.map MessageOption.key).Nodup)
    (hsilent : ∀ o ∈ os, Silent o) (hsize : ∀ o ∈ os, o.key = keySize → o.value.length ≤ 10) :
    (optionText os).length ≤ 42 := by
  have hcount : os.length ≤ 2 := by
    have hsub : os.map MessageOption.key ⊆ [keySize, []] := by
      intro key hkey
      obtain ⟨o, ho, rfl⟩ := List.mem_map.mp hkey
      rcases hsilent o ho with hk | ⟨hk, -⟩
      · simp [hk]
      · simp [hk]
    have hle := hnodup.length_le_of_subset hsub
    simpa using hle
  have hlines : (optionText os).length ≤ 21 * os.length := by
    clear hnodup hcount
    induction os with
    | nil => simp [optionText]
    | cons o os ih =>
      have hrest := ih (fun x hx => hsilent x (List.mem_cons_of_mem o hx))
        (fun x hx => hsize x (List.mem_cons_of_mem o hx))
      have hline : (optionLine o).length ≤ 21 := by
        rw [length_optionLine]
        rcases hsilent o List.mem_cons_self with hk | ⟨hk, hv⟩
        · have hvalue := hsize o List.mem_cons_self hk
          have hkey : o.key.length = 4 := by rw [hk]; rfl
          omega
        · rw [hk, hv]
          decide
      rw [optionText_cons, List.length_append, List.length_cons]
      omega
  omega

theorem exists_replacement (b : Byte) : ∃ c : Byte, c ≠ b ∧ c ≠ quote ∧ c ≠ 0 ∧ c ∉ keySize := by
  by_cases h : b = 120
  · refine ⟨121, ?_, by decide, by decide, by decide⟩
    rw [h]
    decide
  · exact ⟨120, Ne.symm h, by decide, by decide, by decide⟩

/-- Behind the bytes that count, an option other than the size can be altered unseen. -/
theorem Altered.accepted {k : Int16} {os₁ os₂ : List MessageOption} {o o' : MessageOption}
    (h : Altered m p b c (os₁ ++ o' :: os₂)) (hm : Sendable m)
    (hk : hashOf (NetCpp.Proofs.signedText m) = .ok k)
    (hsplit : m.options = os₁ ++ o :: os₂) (hkey : o.key ≠ keySize) (hkey' : o'.key ≠ keySize)
    (hc : c ≠ quote) (hc0 : c ≠ 0) (hp : hashLength (NetCpp.Proofs.signedText m) ≤ p)
    (m₀ : Message) :
    ∃ r, decodeMessage ((NetCpp.Proofs.frameText m k).set p c) m₀ = .ok (true, r) := by
  have hplain := h.plain hm.plain hc hc0
  have hsize : (takenIn { m with options := os₁ ++ o' :: os₂ } m₀).getValue keySize =
      .ok (Decimal.ofNat m.data.length) := by
    rw [takenIn, map_cut hplain]
    have hentry := getValue_ok hm.size
    apply getValue_addOptions
    · rw [hsplit] at hentry
      rcases List.mem_append.mp hentry with hentry | hentry
      · exact List.mem_append_left _ hentry
      · rcases List.mem_cons.mp hentry with heq | hentry
        · exact absurd (congrArg MessageOption.key heq).symm hkey
        · exact List.mem_append_right _ (List.mem_cons_of_mem _ hentry)
    · intro x hx hxkey
      have hold : x ∈ m.options := by
        rw [hsplit]
        rcases List.mem_append.mp hx with hx | hx
        · exact List.mem_append_left _ hx
        · rcases List.mem_cons.mp hx with rfl | hx
          · exact absurd hxkey hkey'
          · exact List.mem_append_right _ (List.mem_cons_of_mem _ hx)
      have hfind := find_of_mem hm.nodup hold
      have hfind' := find_of_mem hm.nodup hentry
      rw [hxkey] at hfind
      exact congrArg MessageOption.value (Option.some.inj (hfind.symm.trans hfind'))
  obtain ⟨-, htext⟩ := h.signedText
  rw [(h.frameText k).2, decodeMessage_frame (Plain.unquoted hplain), htext, hashOf_set hp, hk]
  simp only [if_true]
  exact decodeRest_ok hm.short hsize

theorem undetected {k : Int16} (hm : Sendable m) (hk : hashOf (signedText m) = .ok k)
    (hlong : 2 ^ 31 < (signedText m).length) :
    ∃ p c, InOption m p ∧ c ≠ quote ∧ (frameText m k)[p]? ≠ some c ∧
      ∀ m₀, ∃ r, decodeMessage ((frameText m k).set p c) m₀ = .ok (true, r) := by
  have hcounted : hashLength (signedText m) + 64 ≤ (signedText m).length := by
    have hable := hashOf_ok.mp ⟨k, hk⟩
    simp only [Hashable, hashLength, toInt_ofInt32] at hable ⊢
    split at hable <;> omega
  have hentry := getValue_ok hm.size
  have hvalue : ∀ o ∈ m.options, o.key = keySize → o.value.length ≤ 10 := by
    intro o ho hkey
    have hfind := find_of_mem hm.nodup ho
    rw [hkey] at hfind
    have heq := Option.some.inj (hfind.symm.trans (find_of_mem hm.nodup hentry))
    rw [heq]
    have hshort := hm.short
    exact Decimal.length_ofNat_le (by decide) (by omega)
  have hhead := length_headText m
  rcases last_not_silent m.options with hall | ⟨os₁, o, os₂, hsplit, ho, hsilent⟩
  · have hopts := length_silent hm.nodup hall hvalue
    rw [signedText, List.length_append] at hlong
    omega
  · have hnodup := hm.nodup
    rw [keys, hsplit, List.map_append, List.map_cons] at hnodup
    have hlast := length_silent ((List.nodup_append.mp hnodup).2.1.of_cons) hsilent
      (fun x hx => hvalue x (by rw [hsplit]; simp [hx]))
    have hkey : o.key ≠ keySize := fun heq => ho (.inl heq)
    have hlen : (signedText m).length =
        (headText m ++ optionText os₁).length + (o.key.length + o.value.length + 7) +
          (optionText os₂).length := by
      rw [signedText, hsplit, ← length_optionLine]
      simp only [optionText, List.flatMap_append, List.flatMap_cons, List.length_append]
      omega
    cases hv : o.value with
    | cons v vs =>
      have hlt : vs.length < o.value.length := by simp [hv]
      have hb := List.getElem?_eq_getElem hlt
      obtain ⟨c, hne, hc, hc0, -⟩ := exists_replacement o.value[vs.length]
      have h := Altered.value (c := c) os₁ o os₂ vs.length hsplit hb rfl
      refine ⟨_, c, h.inOption, hc, ?_, h.accepted hm hk hsplit hkey hkey hc hc0 ?_⟩
      · rw [(h.frameText k).1]
        exact fun heq => hne (Option.some.inj heq).symm
      · rw [hv, List.length_cons] at hlen
        omega
    | nil =>
      cases hkeyText : o.key with
      | nil => exact absurd (.inr ⟨hkeyText, hv⟩) ho
      | cons v vs =>
        have hlt : vs.length < o.key.length := by simp [hkeyText]
        have hb := List.getElem?_eq_getElem hlt
        obtain ⟨c, hne, hc, hc0, hnot⟩ := exists_replacement o.key[vs.length]
        have h := Altered.key (c := c) os₁ o os₂ vs.length hsplit hb rfl
        have hkey' : o.key.set vs.length c ≠ keySize := by
          intro heq
          exact hnot (heq ▸ List.mem_set hlt c)
        refine ⟨_, c, h.inOption, hc, ?_, h.accepted hm hk hsplit hkey hkey' hc hc0 ?_⟩
        · rw [(h.frameText k).1]
          exact fun heq => hne (Option.some.inj heq).symm
        · rw [hv, hkeyText, List.length_cons, List.length_nil] at hlen
          omega

/-- Every change of one byte in an option is detected when the head line and the option lines have
at most 2^31 bytes, and only then if the size is one that the decoder reads. -/
theorem detects_iff {signGen : SHA256Generator} {m sent : Message} {e : Bytes}
    (hnodup : m.keys.Nodup) (hplain : ∀ o ∈ m.options, Plain o)
    (hsize : m.getValue keySize = .ok (Decimal.ofNat m.data.length))
    (he : encodeMessage signGen m [] = .ok (sent, e)) :
    ((signedText sent).length ≤ 2 ^ 31 → Detects sent e) ∧
      (m.data.length < 2 ^ 31 → (Detects sent e ↔ (signedText sent).length ≤ 2 ^ 31)) := by
  obtain ⟨rfl, k, hk, rfl⟩ := encodeMessage_ok.mp he
  have hunquoted : ∀ o ∈ (signed signGen m).options, Unquoted o := by
    intro o ho
    rcases mem_insertOption ho with hold | rfl
    · exact Plain.unquoted hplain o hold
    · exact Plain.unquoted (List.forall_mem_singleton.mpr (plain_sign signGen m.getData))
        _ (by simp)
  refine ⟨detects_short hunquoted hk, fun hshort => ⟨?_, detects_short hunquoted hk⟩⟩
  intro hdetects
  by_contra hlong
  have hsendable : Sendable (signed signGen m) :=
    Sendable.sign ⟨hnodup, hplain, hsize, hshort⟩ signGen
  obtain ⟨p, c, hin, hc, hother, haccept⟩ := undetected hsendable hk (by omega)
  obtain ⟨r, hr⟩ := haccept {}
  exact hdetects p c hin hc hother {} r hr

theorem detects_iff_hello : ∃ sent e, encodeMessage helloGenerator helloMessage [] = .ok (sent, e) ∧
    Detects sent e := by
  obtain ⟨sent, e, he⟩ :=
    (encodeMessage_returns helloGenerator helloMessage).mpr (by decide +kernel)
  have hsent : sent = signed helloGenerator helloMessage := (encodeMessage_ok.mp he).1
  refine ⟨sent, e, he, (detects_iff helloMessage_sendable.nodup helloMessage_sendable.plain
    helloMessage_sendable.size he).1 ?_⟩
  rw [hsent]
  decide +kernel

/-- With an option of 2^32 bytes only the first 106 bytes count. -/
theorem undetected_wide : ∃ sent e p c r,
    encodeMessage helloGenerator (wideMessage (2 ^ 32)) [] = .ok (sent, e) ∧
      InOption sent p ∧ c ≠ quote ∧ e[p]? ≠ some c ∧
      decodeMessage (e.set p c) {} = .ok (true, r) := by
  have hlen := length_signedText_signed_wide helloGenerator (2 ^ 32)
  have hne : signedText (signed helloGenerator (wideMessage (2 ^ 32))) ≠ [] := by
    intro hnil
    rw [hnil] at hlen
    cases hlen
  obtain ⟨k, hk⟩ := hashOf_ok.mpr ((hashable_iff hne).mpr (by omega))
  obtain ⟨p, c, hin, hc, hother, haccept⟩ :=
    undetected ((wideMessage_sendable (2 ^ 32)).sign helloGenerator) hk (by omega)
  obtain ⟨r, hr⟩ := haccept {}
  exact ⟨_, _, p, c, r, encodeMessage_ok.mpr ⟨rfl, k, hk, rfl⟩, hin, hc, hother, hr⟩

end NetCpp.Proofs
