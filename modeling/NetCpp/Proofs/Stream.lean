import NetCpp.Proofs.Delivery

namespace NetCpp.Proofs
open Library Message MessageFactory MessageParser

theorem optionNext_digit {c : Byte} (hc : Decimal.isDigit c = true) :
    optionNext (-4) c = .ok (-3) := by
  obtain ⟨hl, hu⟩ := Decimal.isDigit_iff.mp hc
  have hv : charValue c = c.toNat := charValue_of_lt (by omega)
  have hq : c ≠ quote := by
    rintro rfl
    exact absurd hc (by decide)
  have hr : c ≠ cr := by
    rintro rfl
    exact absurd hc (by decide)
  have hrange : 47 < charValue c ∧ charValue c < 58 := by omega
  simp [optionNext, hq, hr, hrange]

/-- Inside a line the option loop waits for the carriage return. -/
theorem run_line {s : Bytes} (hs : cr ∉ s) : run optionNext (-3) s = .ok (-3) := by
  induction s with
  | nil => rfl
  | cons c s ih =>
    simp only [List.mem_cons, not_or] at hs
    have hn : optionNext (-3) c = .ok (-3) := by
      simp [optionNext, Ne.symm hs.1]
    rw [run_cons_ok hn, ih hs.2]

theorem run_lineEnd : run optionNext (-3) crlf = .ok (-4) := rfl

/-- An option without carriage returns is one line to the loop. -/
def Lined (o : MessageOption) : Prop := cr ∉ o.key ∧ cr ∉ o.value

instance (o : MessageOption) : Decidable (Lined o) := inferInstanceAs (Decidable (_ ∧ _))

/-- The text of an option line up to its end. -/
def lineText (o : MessageOption) : Bytes :=
  [quote] ++ o.key ++ [quote, colon, quote] ++ o.value ++ [quote]

theorem optionLine_eq (o : MessageOption) : optionLine o = lineText o ++ crlf := rfl

theorem not_mem_lineText {o : MessageOption} (ho : Lined o) : cr ∉ lineText o := by
  have hq : cr ≠ quote := by decide
  have hc : cr ≠ colon := by decide
  simp [lineText, ho.1, ho.2, hq, hc]

theorem run_optionText {os : List MessageOption} (hos : ∀ o ∈ os, Lined o) :
    run optionNext (-4) (optionText os) = .ok (-4) := by
  induction os with
  | nil => rfl
  | cons o os ih =>
    have hline := not_mem_lineText (hos o List.mem_cons_self)
    have hsplit : lineText o = quote :: (o.key ++ [quote, colon, quote] ++ o.value ++ [quote]) := by
      simp [lineText]
    have hrest : cr ∉ o.key ++ [quote, colon, quote] ++ o.value ++ [quote] := by
      intro h
      exact hline (hsplit ▸ List.mem_cons_of_mem quote h)
    have hfirst : optionNext (-4) quote = .ok (-3) := rfl
    have hrun : run optionNext (-4) (lineText o) = .ok (-3) := by
      rw [hsplit, run_cons_ok hfirst, run_line hrest]
    rw [optionText_cons, optionLine_eq, run_append_ok (run_append_ok hrun crlf ▸ run_lineEnd)]
    exact ih (fun p hp => hos p (List.mem_cons_of_mem o hp))

theorem run_digits {n : Nat} : run optionNext (-4) (Decimal.ofNat n) = .ok (-3) := by
  cases h : Decimal.ofNat n with
  | nil => exact absurd h (Decimal.ofNat_ne_nil n)
  | cons c s =>
    have hd : ∀ b ∈ c :: s, Decimal.isDigit b = true := by
      intro b hb
      exact Decimal.isDigit_of_mem_ofNat (h ▸ hb)
    rw [run_cons_ok (optionNext_digit (hd c List.mem_cons_self))]
    refine run_line (fun hcr => ?_)
    exact absurd (hd cr (List.mem_cons_of_mem c hcr)) (by decide)

theorem run_sumText (k : Int16) : run optionNext (-4) (sumText k) = .ok 0 := by
  have hnum : run optionNext (-4) (Decimal.ofInt k.toInt) = .ok (-3) := by
    unfold Decimal.ofInt
    split
    · have hminus : optionNext (-4) Decimal.minus = .ok (-4) := rfl
      rw [run_cons_ok hminus, run_digits]
    · exact run_digits
  have hends : run optionNext (-3) (crlf ++ crlf) = .ok 0 := rfl
  rw [sumText, List.append_assoc, run_append_ok hnum, hends]

/-- The option part that the encoder writes is one to the parser. -/
theorem optionPart_text {os : List MessageOption} (hos : ∀ o ∈ os, Lined o) (k : Int16) :
    OptionPart (optionText os ++ sumText k) := by
  rw [OptionPart, run_append_ok (run_optionText hos), run_sumText]

theorem length_headText (m : Message) :
    5 ≤ (headText m).length ∧ (headText m).length ≤ 27 := by
  have htype : (Decimal.ofInt m.type.toInt).length ≤ 6 := by
    have := m.type.le_toInt
    have := m.type.toInt_lt
    exact Decimal.length_ofInt_le (k := 5) (by omega) (by omega)
  have htid : (Decimal.ofInt m.tid.toInt).length ≤ 11 := by
    have := m.tid.le_toInt
    have := m.tid.toInt_lt
    exact Decimal.length_ofInt_le (k := 10) (by omega) (by omega)
  have hversion : (Decimal.ofInt msgVersion.toInt).length = 1 := by decide
  simp only [headText, List.length_append, List.length_singleton, hversion,
    show msgHead.length = 3 from rfl, show crlf.length = 2 from rfl]
  omega

/-- The bytes of a head line add up to a number between 0 and 2^16. -/
theorem charSum_headText (m : Message) : Int16.ofInt (charSum (headText m)) ≠ 0 := by
  have hbytes : ∀ c ∈ headText m, 10 ≤ c.toNat ∧ c.toNat ≤ 83 := by
    intro c hc
    rw [headText_eq, List.mem_append, List.mem_append] at hc
    have hhead : ∀ b ∈ msgHead, 10 ≤ b.toNat ∧ b.toNat ≤ 83 := by decide +kernel
    have hend : ∀ b ∈ crlf, 10 ≤ b.toNat ∧ b.toNat ≤ 83 := by decide +kernel
    rcases hc with h | h | h
    · exact hhead c h
    · rcases mem_headRest h with rfl | h | rfl
      · decide
      · have := Decimal.isDigit_iff.mp h
        omega
      · decide
    · exact hend c h
  obtain ⟨hmin, hmax⟩ := length_headText m
  obtain ⟨hlo, hhi⟩ := charSum_bounds (by omega) hbytes
  intro h0
  have hmod := congrArg Int16.toInt h0
  have hsize : Int16.size = 2 ^ 16 := rfl
  rw [Int16.toInt_ofInt, Int.bmod_eq_of_le (by omega) (by omega)] at hmod
  have hzero : (0 : Int16).toInt = 0 := rfl
  omega

theorem not_mem_sumText (k : Int16) : (77 : Byte) ∉ sumText k := by
  intro hc
  simp only [sumText, List.mem_append] at hc
  rcases hc with (h | h) | h
  · exact not_mem_ofInt (by decide) (by decide) h
  · exact absurd h (by decide)
  · exact absurd h (by decide)

theorem not_mem_headTail (m : Message) : (77 : Byte) ∉ [83, 71] ++ (headRest m ++ crlf) := by
  intro hc
  rw [List.mem_append, List.mem_append] at hc
  rcases hc with h | h | h
  · exact absurd h (by decide)
  · exact not_mem_headRest (by decide) (by decide) (by decide) h
  · exact absurd h (by decide)

/-- Options added without a loss are all new. -/
theorem addOptions_full {m : Message} {os : List MessageOption}
    (h : m.options.length + os.length ≤ (m.addOptions os).options.length) :
    (m.addOptions os).options = m.options ++ os := by
  induction os generalizing m with
  | nil => simp
  | cons o os ih =>
    obtain ⟨-, -, -, hle⟩ := addOptions_frame (m.addOption o.key o.value) os
    simp only [addOptions_cons, List.length_cons] at h
    have hone : (m.addOption o.key o.value).options.length ≤ m.options.length + 1 :=
      length_insertOption_le
    have hnew : o.key ∉ m.options.map MessageOption.key := by
      intro hk
      have hkeys := congrArg List.length (@keys_insertOption o.key o.value m.options)
      rw [if_pos hk, List.length_map, List.length_map] at hkeys
      have : (m.addOption o.key o.value).options.length = m.options.length := hkeys
      omega
    have hadd : (m.addOption o.key o.value).options = m.options ++ [o] := insertOption_new hnew
    rw [addOptions_cons, ih (by omega), hadd, List.append_assoc]
    rfl

section
variable {os : List MessageOption} {k : Int16} {m₀ m₁ d : Message}

/-- What an accepted option part of the encoder leaves in the message, and its checksum. -/
theorem decodeMessageOption_text (hp : ∀ o ∈ os, Plain o)
    (h : decodeMessageOption (optionText os ++ sumText k) m₀ = .ok (true, m₁)) :
    hashOf (optionText os) = .ok k ∧ m₁ = m₀.addOptions os := by
  obtain ⟨r, hr, hsome⟩ := accepted_ok h
  have htext := decodeOptions_text (Plain.unquoted hp) [] k [] m₀
  simp only [List.nil_append, List.append_nil, List.length_nil, map_cut hp] at htext
  rw [htext] at hr
  cases hh : hashOf (optionText os) with
  | error e => rw [hh] at hr; cases hr
  | ok k' =>
    rw [hh] at hr
    obtain ⟨hif, rfl⟩ := Prod.mk.inj (Except.ok.inj hr)
    by_cases hk : k' = k
    · exact ⟨by rw [hk], rfl⟩
    · rw [if_neg hk] at hif
      rw [← hif] at hsome
      cases hsome

theorem not_mem_dateLine (t : Clock) : (83 : Byte) ∉ lineText ⟨keyDate, t.text⟩ := by
  have htwo : ∀ n : Fin 100, (83 : Byte) ∉ [Decimal.digit (n / 10), Decimal.digit (n % 10)] := by
    decide +kernel
  simp only [lineText, Clock.text, List.mem_append, not_or]
  and_intros
  all_goals first | exact htwo _ | decide

/-- The option lines from some line on do not make up the options of the whole. -/
theorem suffix_refused {os₁ os₂ : List MessageOption} {o : MessageOption} {a y : Bytes}
    (hp : ∀ p ∈ os₂, Plain p) (hb : Blank m₀)
    (hdec : decodeMessageOption (optionText os₂ ++ sumText k) m₀ = .ok (true, m₁))
    (hsize : SizeOnly m₁ d) (hopt : d.options = os₁ ++ o :: os₂)
    (hline : lineText o = a ++ (msgHead ++ y)) : False := by
  obtain ⟨-, rfl⟩ := decodeMessageOption_text hp hdec
  have hlen := hsize.length
  rw [hopt] at hlen
  obtain ⟨-, -, -, hle⟩ := addOptions_frame m₀ os₂
  simp only [List.length_append, List.length_cons] at hlen
  rcases hb.2 with hnone | ⟨t, hdate⟩
  · rw [hnone] at hle
    simp only [List.length_nil] at hle
    omega
  · have hfull : (m₀.addOptions os₂).options = m₀.options ++ os₂ := by
      refine addOptions_full ?_
      rw [hdate]
      simp only [List.length_singleton]
      omega
    rw [hdate] at hfull hle
    simp only [List.length_singleton] at hle
    have hos₁ : os₁ = [] := List.length_eq_zero_iff.mp (by omega)
    obtain ⟨os', hd⟩ := hsize.date hfull
    rw [hopt, hos₁] at hd
    have ho : o = ⟨keyDate, t.text⟩ := (List.cons.inj hd).1
    have hletter : (83 : Byte) ∈ msgHead := by decide
    refine not_mem_dateLine t ?_
    rw [← ho, hline]
    exact List.mem_append_right a (List.mem_append_left y hletter)

/-- The first frame is refused: its checksum is not the one of the options alone. -/
theorem first_refused {s : Message} (hp : ∀ o ∈ s.options, Plain o)
    (hk : hashOf (signedText s) = .ok k)
    (hdec : decodeMessageOption (optionText s.options ++ sumText k) m₀ = .ok (true, m₁)) :
    False := by
  obtain ⟨hsum, -⟩ := decodeMessageOption_text hp hdec
  have hlen : (headText s).length < 2 ^ 31 := by
    have := length_headText s
    omega
  exact charSum_headText s (hashOf_behind hsum hk hlen)

/-- A "MSG" begins behind the first of two texts, or with a letter of it. -/
theorem msg_inside {u x a b : Bytes} (h : u ++ (msgHead ++ x) = a ++ b) :
    (∃ u', u = a ++ u' ∧ u' ++ (msgHead ++ x) = b) ∨
      ∃ t, a = u ++ 77 :: t ∧ [83, 71] ++ x = t ++ b := by
  rcases List.append_eq_append_iff.mp h with ⟨t, ha, hx⟩ | ⟨t, hu, hb⟩
  · cases t with
    | nil => exact Or.inl ⟨[], by simpa using ha.symm, hx⟩
    | cons c t =>
      obtain ⟨hc, ht⟩ := List.cons.inj hx
      exact Or.inr ⟨t, by rw [ha, ← hc]; rfl, ht⟩
  · exact Or.inl ⟨t, hu, hb.symm⟩

/-- Where "MSG" can stand in the option part that the encoder writes: in a line, with the
lines behind it as the option part that follows; or else only behind the checksum. -/
theorem inside_options (hl : ∀ o ∈ os, Lined o) {u y s r w : Bytes} (hy : cr ∉ y)
    (hs : OptionPart s)
    (h : u ++ (msgHead ++ (y ++ (crlf ++ (s ++ r)))) = optionText os ++ (sumText k ++ w)) :
    (optionText os ++ sumText k).length ≤ u.length ∨
      ∃ os₁ o os₂ a, os = os₁ ++ o :: os₂ ∧ lineText o = a ++ (msgHead ++ y) ∧
        s = optionText os₂ ++ sumText k := by
  induction os generalizing u with
  | nil =>
    left
    simp only [optionText, List.flatMap_nil, List.nil_append] at h ⊢
    rcases msg_inside h with ⟨u', rfl, -⟩ | ⟨t, hsum, -⟩
    · simp
    · exact absurd (by simp [hsum]) (not_mem_sumText k)
  | cons o os ih =>
    have hline := not_mem_lineText (hl o List.mem_cons_self)
    have hrest : ∀ p ∈ os, Lined p := fun p hp => hl p (List.mem_cons_of_mem o hp)
    rw [optionText_cons, List.append_assoc] at h
    rcases msg_inside h with ⟨u', rfl, hu'⟩ | ⟨t, ht, -⟩
    · rcases ih hrest hu' with hle | ⟨os₁, p, os₂, a, rfl, hp, hs₂⟩
      · left
        simp only [optionText_cons, List.length_append] at hle ⊢
        omega
      · exact Or.inr ⟨o :: os₁, p, os₂, a, rfl, hp, hs₂⟩
    · right
      -- the "MSG" stands in this line, and the line ends where the forged head ends
      have hu : cr ∉ u := by
        rw [optionLine_eq] at ht
        rcases List.append_eq_append_iff.mp ht with ⟨z, hz, hends⟩ | ⟨z, hz, -⟩
        · exact absurd (show (77 : Byte) ∈ crlf by rw [hends]; simp) (by decide)
        · intro hc
          exact hline (by rw [hz]; exact List.mem_append_left z hc)
      have hhead : cr ∉ u ++ (msgHead ++ y) := by
        have hmsg : cr ∉ msgHead := by decide
        simp [hu, hmsg, hy]
      have hcut : (u ++ (msgHead ++ y)) ++ cr :: (lf :: (s ++ r)) =
          lineText o ++ cr :: (lf :: (optionText os ++ (sumText k ++ w))) := by
        rw [optionLine_eq] at h
        simpa [crlf] using h
      obtain ⟨hsame, htail⟩ := append_cons_inj hhead hline hcut
      have hpart : s ++ r = (optionText os ++ sumText k) ++ w := by
        rw [List.append_assoc]
        exact (List.cons.inj htail).2
      exact ⟨[], o, os, u, rfl, hsame.symm, (hs.unique (optionPart_text hrest k) hpart).1⟩

/-- No frame that the parser delivers for a message ends inside of that message's encoding:
it is too late for the encoding that it starts in, and the encoding's own start is
refused. -/
theorem frame_late {s : Message} (hp : ∀ o ∈ s.options, Plain o) (hl : ∀ o ∈ s.options, Lined o)
    (hk : hashOf (signedText s) = .ok k) {u f v z : Bytes} (hf : Frame f d)
    (hopt : d.options = s.options) (hdata : d.data = s.data)
    (h : u ++ (f ++ v) = frameText s k ++ z) : (frameText s k).length < u.length + f.length := by
  obtain ⟨y, part, rest, m₀, m₁, rfl, hy, hpart, hb, hdec, hsize, hlen⟩ := hf
  have htext : u ++ (msgHead ++ (y ++ (crlf ++ (part ++ (rest ++ v))))) = headText s ++
      (optionText s.options ++ (sumText k ++ (s.data ++ (crlf ++ (msgTail ++ z))))) := by
    simpa [frameText, signedText] using h
  rcases msg_inside htext with ⟨u', rfl, hu'⟩ | ⟨t, ht, hx⟩
  · rcases inside_options hl hy hpart hu' with hle | ⟨os₁, o, os₂, a, hos, hline, rfl⟩
    · rw [hdata] at hlen
      simp only [frameText, signedText, List.length_append, show msgHead.length = 3 from rfl,
        show crlf.length = 2 from rfl, show msgTail.length = 3 from rfl] at hle ⊢
      have hne : part ≠ [] := by
        rintro rfl
        cases hpart
      have := List.length_pos_iff.mpr hne
      omega
    · have hp₂ : ∀ p ∈ os₂, Plain p := fun p hp' => hp p (by rw [hos]; simp [hp'])
      exact (suffix_refused hp₂ hb hdec hsize (hopt.trans hos) hline).elim
  · -- the only 'M' of the head line is its first letter
    have hu : u = [] := by
      cases u with
      | nil => rfl
      | cons b u =>
        rw [headText_eq] at ht
        have hin : [83, 71] ++ (headRest s ++ crlf) = u ++ 77 :: t := (List.cons.inj ht).2
        exact absurd (by rw [hin]; simp) (not_mem_headTail s)
    subst hu
    rw [headText_eq] at htext
    have hcut : y ++ cr :: (lf :: (part ++ (rest ++ v))) = headRest s ++ cr :: (lf ::
        (optionText s.options ++ (sumText k ++ (s.data ++ (crlf ++ (msgTail ++ z)))))) := by
      simpa [crlf] using htext
    have hhead : cr ∉ headRest s := not_mem_headRest (by decide) (by decide) (by decide)
    obtain ⟨-, htail⟩ := append_cons_inj hy hhead hcut
    have hparts : part ++ (rest ++ v) = (optionText s.options ++ sumText k) ++
        (s.data ++ (crlf ++ (msgTail ++ z))) := by
      rw [List.append_assoc]
      exact (List.cons.inj htail).2
    obtain ⟨rfl, -⟩ := hpart.unique (optionPart_text hl k) hparts
    exact (first_refused hp hk hdec).elim

end

/-- Messages for the stream: keys and values without quotes, carriage returns and NULs,
and the size as `pushData` sets it. -/
structure Streamable (m : Message) : Prop where
  plain : ∀ o ∈ m.options, Plain o
  lined : ∀ o ∈ m.options, Lined o
  size : m.getValue keySize = .ok (Decimal.ofNat m.data.length)

/-- The message as it should come out: the one that was encoded, with its signature. -/
def SameMessage (signGen : SHA256Generator) (d m : Message) : Prop :=
  d.tid = m.tid ∧ d.type = m.type ∧
    d.options = insertOption keySign (signGen.getHex m.data) m.options ∧ d.data = m.data

theorem Streamable.signed_plain {m : Message} (hm : Streamable m) (signGen : SHA256Generator) :
    ∀ o ∈ (signed signGen m).options, Plain o ∧ Lined o := by
  intro o ho
  rcases mem_insertOption ho with h | rfl
  · exact ⟨hm.plain o h, hm.lined o h⟩
  · have hk : cr ∉ keySign := by decide
    exact ⟨plain_sign signGen m.getData, hk, not_mem_getHex signGen (by decide)⟩

/-- The messages cannot all be delivered: each comes later than its own encoding, so that
in the end a delivery is behind the input. -/
theorem no_deliveries {signGen : SHA256Generator} {ms ds : List Message} {es : List Bytes}
    {c h : Bytes} (hms : ∀ m ∈ ms, Streamable m)
    (hes : List.Forall₂ (fun m e => ∃ sent, encodeMessage signGen m [] = .ok (sent, e)) ms es)
    (hd : Deliveries h ds) (hsame : List.Forall₂ (SameMessage signGen) ds ms)
    (hc : c ≠ [] ∨ ms ≠ []) (hin : c ++ h = es.flatten) : False := by
  induction hes generalizing c h ds with
  | nil =>
    have hc' : c = [] := (List.append_eq_nil_iff.mp hin).1
    exact hc.elim (fun h => h hc') (fun h => h rfl)
  | @cons m e ms es he hes ih =>
    cases hsame with
    | cons hdm hsame =>
      cases hd with
      | @cons u f h d ds hf hd =>
        obtain ⟨sent, he⟩ := he
        obtain ⟨rfl, k, hk, rfl⟩ := encodeMessage_ok.mp he
        have hopts := (hms m List.mem_cons_self).signed_plain signGen
        have hcut : (c ++ u) ++ (f ++ h) = frameText (signed signGen m) k ++ es.flatten := by
          simpa using hin
        have hlate := frame_late (fun o ho => (hopts o ho).1) (fun o ho => (hopts o ho).2) hk hf
          hdm.2.2.1 hdm.2.2.2 hcut
        rw [← List.append_assoc] at hcut
        rcases List.append_eq_append_iff.mp hcut with ⟨t, hframe, -⟩ | ⟨t, hframe, hrest⟩
        · have := congrArg List.length hframe
          simp only [List.length_append] at this hlate
          omega
        · have ht : t ≠ [] := by
            rintro rfl
            have := congrArg List.length hframe
            simp only [List.length_append, List.length_nil] at this hlate
            omega
          exact ih (fun m' hm' => hms m' (List.mem_cons_of_mem m hm')) hd hsame
            (Or.inl ht) hrest.symm

theorem parseAll_empty (clock : Nat → Clock) {chunks : List Bytes} (h : chunks.flatten = [])
    (p : MessageParser) : parseAll clock p chunks = .ok p := by
  induction chunks with
  | nil => rfl
  | cons w chunks ih =>
    obtain ⟨rfl, hrest⟩ := List.append_eq_nil_iff.mp h
    have hw : parse clock p [] = .ok p := parse_ok.mpr ⟨by simp, rfl⟩
    exact (run_cons_ok hw chunks).trans (ih hrest)

/-- Encodings of messages, one after the other and in any chunks, come out of the parser as these
messages if and only if there are none: the checksum that the encoder writes goes over head and
options, the one that the parser compares with over the options only. -/
theorem stream_iff (clock : Nat → Clock) (signGen : SHA256Generator) {ms : List Message}
    {es chunks : List Bytes} (hms : ∀ m ∈ ms, Streamable m)
    (hes : List.Forall₂ (fun m e => ∃ sent, encodeMessage signGen m [] = .ok (sent, e)) ms es)
    (hchunks : chunks.flatten = es.flatten) :
    (∃ p, parseAll clock {} chunks = .ok p ∧ List.Forall₂ (SameMessage signGen) p.msgs ms) ↔
      ms = [] := by
  constructor
  · intro h
    obtain ⟨p, hp, hsame⟩ := h
    by_contra hne
    have hd := parseAll_deliveries hp
    rw [hchunks] at hd
    exact no_deliveries (c := []) hms hes hd hsame (Or.inr hne) rfl
  · rintro rfl
    cases hes
    exact ⟨{}, parseAll_empty clock hchunks {}, List.Forall₂.nil⟩

theorem helloMessage_streamable : Streamable helloMessage where
  plain := by decide
  lined := by decide
  size := by decide

theorem stream_iff_hello : ∃ sent e, encodeMessage helloGenerator helloMessage [] = .ok (sent, e) ∧
    ((∃ p, parseAll sampleClock {} [e] = .ok p ∧
      List.Forall₂ (SameMessage helloGenerator) p.msgs [helloMessage]) ↔ [helloMessage] = []) := by
  obtain ⟨sent, e, he⟩ :=
    (encodeMessage_returns helloGenerator helloMessage).mpr (by decide +kernel)
  refine ⟨sent, e, he, stream_iff sampleClock helloGenerator ?_ (.cons ⟨sent, he⟩ .nil) rfl⟩
  intro m hm
  rw [List.mem_singleton.mp hm]
  exact helloMessage_streamable

/-- The parser takes in the encoding of a single message and delivers nothing. -/
theorem stream_counterexample :
    ((encodeMessage helloGenerator helloMessage []).bind
      (fun r => (parseAll sampleClock {} [r.2]).map msgs)) = .ok [] := by
  decide +kernel

end NetCpp.Proofs
