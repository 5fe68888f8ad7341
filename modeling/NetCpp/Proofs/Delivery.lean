import NetCpp.Proofs.Readable
import NetCpp.Proofs.Scan

namespace NetCpp.Proofs
open Library Message MessageFactory MessageParser

/-- An option part as the option loop cuts it out. -/
def OptionPart (s : Bytes) : Prop := run optionNext (-4) s = .ok 0

theorem optionNext_stuck (c : Byte) : optionNext 0 c = .error () := rfl

/-- No option part goes on behind another one. -/
theorem OptionPart.unique {s t x y : Bytes} (hs : OptionPart s) (ht : OptionPart t)
    (h : s ++ x = t ++ y) : s = t ∧ x = y := by
  have hextend : ∀ {s t : Bytes}, OptionPart s → OptionPart (s ++ t) → t = [] := by
    intro s t hs ht
    unfold OptionPart at ht
    rw [run_append_ok hs] at ht
    cases t with
    | nil => rfl
    | cons c t => rw [run_cons_error (optionNext_stuck c)] at ht; cases ht
  rcases List.append_eq_append_iff.mp h with ⟨u, rfl, rfl⟩ | ⟨u, rfl, rfl⟩
  · obtain rfl := hextend hs ht
    simp
  · obtain rfl := hextend ht hs
    simp

/-- A message that nothing but a head has gone into: without options, or with the date
that the constructor sets. -/
def Blank (m : Message) : Prop :=
  m.data = [] ∧ (m.options = [] ∨ ∃ t : Clock, m.options = [⟨keyDate, t.text⟩])

theorem Blank.new (t : Clock) : Blank (Message.new t) := ⟨rfl, Or.inr ⟨t, rfl⟩⟩

theorem Blank.clear (m : Message) : Blank m.clear := ⟨rfl, Or.inl rfl⟩

/-- The options are the decoded ones, but that a size may have been written anew. -/
def SizeOnly (m₁ m : Message) : Prop :=
  m.options = m₁.options ∨
    keySize ∈ m₁.keys ∧ ∃ v, m.options = insertOption keySize v m₁.options

theorem SizeOnly.length {m₁ m : Message} (h : SizeOnly m₁ m) :
    m.options.length = m₁.options.length := by
  rcases h with h | ⟨hk, v, h⟩
  · rw [h]
  · have hkeys := congrArg List.length (@keys_insertOption keySize v m₁.options)
    rw [if_pos (show keySize ∈ m₁.options.map MessageOption.key from hk), List.length_map,
      List.length_map] at hkeys
    rw [h, hkeys]

theorem SizeOnly.date {m₁ m : Message} {v : Bytes} {os : List MessageOption} (h : SizeOnly m₁ m)
    (hd : m₁.options = ⟨keyDate, v⟩ :: os) : ∃ os', m.options = ⟨keyDate, v⟩ :: os' := by
  rcases h with h | ⟨-, s, h⟩
  · exact ⟨os, h.trans hd⟩
  · have hne : keyDate ≠ keySize := by decide
    exact ⟨insertOption keySize s os, by rw [h, hd, insertOption, if_neg hne]⟩

/-- The bytes of a frame, as far as they are needed for its message. -/
def Frame (f : Bytes) (d : Message) : Prop :=
  ∃ y s rest m₀ m₁, f = msgHead ++ (y ++ (crlf ++ (s ++ rest))) ∧ cr ∉ y ∧ OptionPart s ∧ Blank m₀ ∧
    decodeMessageOption s m₀ = .ok (true, m₁) ∧ SizeOnly m₁ d ∧ d.data.length ≤ rest.length

/-- Messages delivered from an input, one frame after the other. -/
inductive Deliveries : Bytes → List Message → Prop where
  | nil (h : Bytes) : Deliveries h []
  | cons {u f h : Bytes} {d : Message} {ds : List Message} (hf : Frame f d)
      (hd : Deliveries h ds) : Deliveries (u ++ (f ++ h)) (d :: ds)

theorem Deliveries.append {h : Bytes} {ds : List Message} (hd : Deliveries h ds) (x : Bytes) :
    Deliveries (h ++ x) ds := by
  induction hd with
  | nil h => exact .nil _
  | cons hf hd ih =>
    rw [List.append_assoc, List.append_assoc]
    exact .cons hf ih

theorem Deliveries.snoc {h f : Bytes} {ds : List Message} {d : Message} (hd : Deliveries h ds)
    (hf : Frame f d) : Deliveries (h ++ f) (ds ++ [d]) := by
  induction hd with
  | nil h =>
    have := Deliveries.cons (u := h) hf (.nil [])
    rwa [List.append_nil] at this
  | cons hf' hd ih =>
    rw [List.append_assoc, List.append_assoc]
    exact .cons hf' ih

/-- Where the parser stands in a frame, by its part. -/
inductive Pending (past : Bytes) (p : MessageParser) : Prop where
  | head {h : Bytes} (hh : p.headState < 0) (hd : Deliveries h p.msgs)
      (hpast : past = h ++ p.tempBuffer) (hshape : HeadShape p.headState p.tempBuffer)
      (hm : ∀ m, p.tempMsg = some m → Blank m) : Pending past p
  | option {h y : Bytes} {m : Message} (hh : p.headState = 0) (ho : p.optionState < 0)
      (hd : Deliveries h p.msgs) (hpast : past = h ++ (msgHead ++ (y ++ (crlf ++ p.tempBuffer))))
      (hy : cr ∉ y) (hrun : run optionNext (-4) p.tempBuffer = .ok p.optionState)
      (hm : p.tempMsg = some m) (hb : Blank m) : Pending past p
  | body {h y s rest : Bytes} {m₀ m₁ m : Message} (hh : p.headState = 0) (ho : p.optionState = 0)
      (hd : Deliveries h p.msgs) (hpast : past = h ++ (msgHead ++ (y ++ (crlf ++ (s ++ rest)))))
      (hy : cr ∉ y) (hs : OptionPart s) (hb : Blank m₀)
      (hdec : decodeMessageOption s m₀ = .ok (true, m₁)) (hm : p.tempMsg = some m)
      (hsize : SizeOnly m₁ m) (hdata : m.data.length ≤ rest.length)
      (hwait : p.bodyState ≠ 0 →
        m.options = m₁.options ∧ m.data = [] ∧ p.tempBuffer.length ≤ rest.length) : Pending past p

theorem Pending.start {past : Bytes} {p : MessageParser} (hd : Deliveries past p.msgs) :
    Pending past p.resetState := by
  refine .head (by simp [resetState]) (h := past) hd (by simp [resetState]) HeadShape.start ?_
  intro m hm
  simp only [resetState, Option.map_eq_some_iff] at hm
  obtain ⟨m', -, rfl⟩ := hm
  exact Blank.clear m'

theorem Pending.deliveries {past : Bytes} {p : MessageParser} (h : Pending past p) :
    Deliveries past p.msgs := by
  cases h with
  | head hh hd hpast => rw [hpast]; exact hd.append _
  | option hh ho hd hpast => rw [hpast]; exact hd.append _
  | body hh ho hd hpast => rw [hpast]; exact hd.append _

section
variable {clock : Nat → Clock} {p p' : MessageParser} {q' : Option Part} {c : Byte} {past : Bytes}

theorem blank_created {m : Message} (hb : ∀ m, p.tempMsg = some m → Blank m)
    (hm : (create clock p).tempMsg = some m) : Blank m := by
  unfold create at hm
  split at hm
  · exact hb m hm
  · rw [← Option.some.inj hm]
    exact Blank.new _

/-- The decoder accepts a buffer that has nothing before its "MSG". -/
theorem Pending.headDone {m m' : Message} (hs : Sound p) (h : Pending past p)
    (hh : p.headState < 0) (hn : headNext p.headState c = .ok 0)
    (hm : (create clock p).tempMsg = some m)
    (hd : decodeMessageHead (p.tempBuffer ++ [c]) m = .ok (true, m')) :
    Pending (past ++ [c])
      { taken clock p c with headState := 0, tempMsg := some m', tempBuffer := [] } := by
  cases h with
  | option hh' => omega
  | body hh' => omega
  | head hh' hdel hpast hshape hblank =>
    rename_i h₀
    obtain ⟨-, -, junk, y, hj, hy, hbuf⟩ := hshape.done hn
    obtain ⟨r, hr, hsome⟩ := accepted_ok hd
    obtain ⟨i, rfl⟩ := Option.isSome_iff_exists.mp hsome
    obtain ⟨hopt, hdata⟩ := decodeHead_ok hr
    obtain ⟨rest, hrest⟩ := decodeHead_start hr
    have hjunk : junk = [] := by
      cases junk with
      | nil => rfl
      | cons b junk =>
        rw [hbuf] at hrest
        have hb : (77 : Byte) = b := (List.cons.inj hrest).1
        exact absurd (by simp [hb]) hj
    obtain ⟨ho, -⟩ := hs.inHead hh
    have hbm := blank_created hblank hm
    refine .option (h := h₀) (y := y) (m := m') rfl (by simp [ho]) (by simpa using hdel) ?_ hy
      (by simp [ho]) rfl ⟨hdata.trans hbm.1, ?_⟩
    · rw [hpast, List.append_assoc, hbuf, hjunk]
      simp
    · rw [hopt]
      exact hbm.2

theorem Pending.optionDone {m m' : Message} (h : Pending past p) (hh : p.headState = 0)
    (ho : p.optionState < 0) (hn : optionNext p.optionState c = .ok 0)
    (hm : (create clock p).tempMsg = some m)
    (hd : decodeMessageOption (p.tempBuffer ++ [c]) m = .ok (true, m')) :
    Pending (past ++ [c])
      { taken clock p c with optionState := 0, tempMsg := some m', tempBuffer := [] } := by
  cases h with
  | head hh' => omega
  | body hh' ho' => omega
  | option hh' ho' hdel hpast hy hrun hmsg hblank =>
    rename_i h₀ y m₀
    have hsame : m₀ = m := by
      rw [create_self clock (by simp [hmsg]), hmsg] at hm
      exact Option.some.inj hm
    subst hsame
    obtain ⟨r, hr, -⟩ := accepted_ok hd
    obtain ⟨os, rfl, -⟩ := decodeOptions_ok hr
    have hdata : (m₀.addOptions os).data = [] := (addOptions_frame m₀ os).2.2.1.trans hblank.1
    have hpart : OptionPart (p.tempBuffer ++ [c]) := by
      rw [OptionPart, run_append_ok hrun, run_singleton, hn]
    refine @Pending.body (past ++ [c]) _ h₀ y (p.tempBuffer ++ [c]) [] m₀ (m₀.addOptions os)
      (m₀.addOptions os) (by simp [hh]) rfl (by simpa using hdel) ?_ hy hpart hblank hd rfl
        (Or.inl rfl) (by simp [hdata]) (fun _ => ⟨rfl, hdata, by simp⟩)
    rw [hpast]
    simp

theorem Pending.bodyDone {m m' : Message} (h : Pending past p) (hh : p.headState = 0)
    (ho : p.optionState = 0) (hb : p.bodyState ≠ 0) (hm : (create clock p).tempMsg = some m)
    (hd : decodeMessageBody (p.tempBuffer ++ [c]) m = .ok (true, m')) :
    Pending (past ++ [c])
      { taken clock p c with bodyState := 0, tempMsg := some m', tempBuffer := [] } := by
  cases h with
  | head hh' => omega
  | option hh' ho' => omega
  | body hh' ho' hdel hpast hy hs hblank hdec hmsg hsize hdata hwait =>
    rename_i h₀ y s rest m₀ m₁ m₂
    have hsame : m₂ = m := by
      rw [create_self clock (by simp [hmsg]), hmsg] at hm
      exact Option.some.inj hm
    subst hsame
    obtain ⟨hopt, hempty, hlen⟩ := hwait hb
    obtain ⟨r, hr, hsome⟩ := accepted_ok hd
    obtain ⟨i, rfl⟩ := Option.isSome_iff_exists.mp hsome
    obtain ⟨v, data, hget, -, hprefix, rfl⟩ := decodeBody_ok hr
    have hkey : keySize ∈ m₁.keys := by
      have := mem_keys_of_getValue hget
      rwa [keys, hopt] at this
    have hle := hprefix.length_le
    refine @Pending.body (past ++ [c]) _ h₀ y s (rest ++ [c]) m₀ m₁ _ (by simp [hh]) (by simp [ho])
      (by simpa using hdel) ?_ hy hs hblank hdec rfl
      (Or.inr ⟨hkey, Decimal.ofNat (m₂.data ++ data).length, by simp only [addOption, hopt]⟩) ?_
        (fun hb' => absurd rfl hb')
    · rw [hpast]
      simp
    · simp only [List.drop_zero, List.length_append, List.length_singleton] at hle
      simp only [addOption_data, hempty, List.nil_append, List.length_append, List.length_singleton]
      omega

/-- In the body and the tail a byte that completes nothing goes to the rest of the frame. -/
theorem Pending.more {t : MessageParser} (h : Pending past p) (hh : p.headState = 0)
    (ho : p.optionState = 0) (hth : t.headState = 0) (hto : t.optionState = 0)
    (htm : t.tempMsg = p.tempMsg) (hmsgs : t.msgs = p.msgs)
    (hbuf : t.tempBuffer = p.tempBuffer ++ [c]) (hb : t.bodyState ≠ 0 → p.bodyState ≠ 0) :
    Pending (past ++ [c]) t := by
  cases h with
  | head hh' => omega
  | option hh' ho' => omega
  | body hh' ho' hdel hpast hy hs hblank hdec hmsg hsize hdata hwait =>
    rename_i h₀ y s rest m₀ m₁ m
    refine @Pending.body (past ++ [c]) _ h₀ y s (rest ++ [c]) m₀ m₁ m hth hto
      (by rw [hmsgs]; exact hdel) ?_ hy hs hblank hdec (htm.trans hmsg) hsize ?_ ?_
    · rw [hpast]
      simp
    · simp only [List.length_append, List.length_singleton]
      omega
    · intro hb'
      obtain ⟨hopt, hempty, hlen⟩ := hwait (hb hb')
      refine ⟨hopt, hempty, ?_⟩
      rw [hbuf]
      simp only [List.length_append, List.length_singleton]
      omega

theorem Pending.tailDone {m m' : Message} (h : Pending past p) (hh : p.headState = 0)
    (ho : p.optionState = 0) (hm : (create clock p).tempMsg = some m)
    (hd : decodeMessageTail (p.tempBuffer ++ [c]) m = .ok (true, m')) :
    Deliveries (past ++ [c]) (p.msgs ++ [m']) := by
  cases h with
  | head hh' => omega
  | option hh' ho' => omega
  | body hh' ho' hdel hpast hy hs hblank hdec hmsg hsize hdata hwait =>
    rename_i h₀ y s rest m₀ m₁ m₂
    have hsame : m₂ = m := by
      rw [create_self clock (by simp [hmsg]), hmsg] at hm
      exact Option.some.inj hm
    subst hsame
    obtain ⟨r, hr, -⟩ := accepted_ok hd
    obtain rfl := decodeTail_ok hr
    have hframe : Frame (msgHead ++ (y ++ (crlf ++ (s ++ (rest ++ [c]))))) m' := by
      refine ⟨y, s, rest ++ [c], m₀, m₁, rfl, hy, hs, hblank, hdec, hsize, ?_⟩
      simp only [List.length_append, List.length_singleton]
      omega
    have := hdel.snoc hframe
    rw [hpast]
    simpa using this

/-- One byte of a frame, or of what is between frames. -/
theorem Pending.step (hs : Sound p) (h : Pending past p) (hstep : Step clock p c p' q') :
    Pending (past ++ [c]) p' := by
  have hreset (t : MessageParser) (ht : t.msgs = p.msgs) : Pending (past ++ [c]) t.resetState := by
    refine Pending.start ?_
    rw [ht]
    exact h.deliveries.append [c]
  cases hstep with
  | head hh hn h0 =>
    cases h with
    | option hh' => omega
    | body hh' => omega
    | head hh' hdel hpast hshape hblank =>
      have hmove := headNext_ok hn
      refine .head (by simp only; omega) (by simpa using hdel) ?_ ?_
        (fun _ hm => blank_created hblank hm)
      · rw [hpast]
        simp
      · simpa using hshape.next hn h0
  | headBroken hh hn => exact hreset _ (by simp)
  | headDone hh hn hm hd => exact h.headDone hs hh hn hm hd
  | headFailed hh hn hm hd => exact hreset _ (by simp)
  | option hh ho hn h0 =>
    cases h with
    | head hh' => omega
    | body hh' ho' => omega
    | option hh' ho' hdel hpast hy hrun hmsg hblank =>
      rename_i h₀ y m
      have hcreate := create_self clock (hs.message hh)
      have hmove := optionNext_ok hn
      refine .option (h := h₀) (y := y) (m := m) (by simp [hh]) (by simp only; omega)
        (by simpa using hdel) ?_ hy ?_ (by simp [hcreate, hmsg]) hblank
      · rw [hpast]
        simp
      · simp only [taken_tempBuffer, run_append_ok hrun, run_singleton, hn]
  | optionBroken hh ho hn => exact hreset _ (by simp)
  | optionDone hh ho hn hm hd => exact h.optionDone hh ho hn hm hd
  | optionFailed hh ho hn hm hd => exact hreset _ (by simp)
  | body hh ho hb hm hn h1 =>
    have hcreate := create_self clock (hs.message hh)
    exact h.more hh ho (by simp [hh]) (by simp [ho]) (by simp [hcreate]) (by simp) (by simp)
      (fun _ => hb)
  | bodyBroken hh ho hb hm hn hc => exact hreset _ (by simp)
  | bodyDone hh ho hb hm hn hc hd => exact h.bodyDone hh ho hb hm hd
  | bodyFailed hh ho hb hm hn hc hd => exact hreset _ (by simp)
  | tail hh ho hb hn h0 =>
    have hcreate := create_self clock (hs.message hh)
    exact h.more hh ho (by simp [hh]) (by simp [ho]) (by simp [hcreate]) (by simp) (by simp)
      (fun hb' => absurd hb (by simpa using hb'))
  | tailBroken hh ho hb hn => exact hreset _ (by simp)
  | tailDone hh ho hb hn hm hd => exact Pending.start (h.tailDone hh ho hm hd)
  | tailFailed hh ho hb hn hm hd => exact hreset _ (by simp)

/-- Over whole runs: what is delivered are frames of the input, in their order. -/
theorem parseAll_deliveries {chunks : List Bytes} (h : parseAll clock {} chunks = .ok p) :
    Deliveries chunks.flatten p.msgs := by
  obtain ⟨q, hrun⟩ := (loops clock).run_exec_ok.mp (parseAll_ok.mp h).2
  have hend : Good (p, q) ∧ Pending (Loops.feed chunks).reduceOption p := by
    refine run_history (I := fun past st => Good st ∧
      Pending past.reduceOption st.1) ?_ (List.nil_append _).symm ⟨Good.start sound_initial,
      ?_⟩ hrun
    · intro past o rest st st' _ hst hf
      obtain ⟨hgood, hpend⟩ := hst
      refine ⟨hgood.step hf, ?_⟩
      obtain ⟨s, k⟩ := st
      obtain ⟨s', k'⟩ := st'
      cases o with
      | none =>
        have hclose := hgood.close clock
        cases hf
        rw [hclose]
        simpa [List.reduceOption_append] using hpend
      | some c =>
        have hpast : (past ++ [some c]).reduceOption = past.reduceOption ++ [c] := by
          simp [List.reduceOption_append, List.reduceOption_cons_of_some]
        rw [hpast]
        rcases hgood.2 with hq | hq
        · exact hpend.step hgood.1 (step_of_flat hgood.1 hq hf)
        · have hover := hq
          obtain ⟨-, hh, ho, hb⟩ := hq
          rw [flat_overrun hover] at hf
          cases hf
          exact hpend.more hh ho hh ho rfl rfl rfl (fun hb' => hb')
    · have hstart : Pending [] (({} : MessageParser).resetState) := Pending.start (.nil [])
      exact hstart
  rw [Loops.reduceOption_feed] at hend
  exact hend.2.deliveries

end

end NetCpp.Proofs
