import NetCpp.Proofs.Chunking

namespace NetCpp.Proofs
open Library Message MessageFactory MessageParser

/-- The state of a fresh parser, but for what it has delivered and the message it writes to. -/
def Idle (p : MessageParser) : Prop :=
  p.headState = -5 ∧ p.optionState = -4 ∧ p.bodyState = -1 ∧ p.tailState = -4 ∧ p.tempBuffer = []

/-- In the body with a count below -1, or before a body for which no count from 0 on can
be read: the `size` option is missing or no number, or as a number it is so close below
2^63 or 2^64 that the count comes out negative. -/
def Wedged (p : MessageParser) : Prop :=
  p.headState = 0 ∧ p.optionState = 0 ∧
    (p.bodyState < -1 ∨ p.bodyState = -1 ∧ ∀ m v n, p.tempMsg = some m →
      m.getValue keySize = .ok v → stoul v = .ok n → 2 ^ 63 - 2 ≤ n ∧ n < 2 ^ 64 - 2)

theorem toSSizeT_neg {n : Nat} (hn : n < 2 ^ 64) :
    toSSizeT ((n : Int) + 2) < 0 ↔ 2 ^ 63 - 2 ≤ n ∧ n < 2 ^ 64 - 2 := by
  rw [toSSizeT, Int.bmod_def]
  split <;> omega

/-- The count a wedged parser works with is negative, and stays what it is. -/
theorem Wedged.count {p : MessageParser} {m : Message} {n : Int} (hp : Wedged p)
    (hm : p.tempMsg = some m) (hn : bodyCount p m = .ok n) :
    n < 0 ∧ (n = -1 → p.bodyState = -1) := by
  obtain ⟨-, -, hb | ⟨hb, hsize⟩⟩ := hp
  · have hne : p.bodyState ≠ -1 := by omega
    simp only [bodyCount, ne_eq, hne, not_false_iff, if_true, pure, Except.pure] at hn
    have := Except.ok.inj hn
    omega
  · simp only [bodyCount, hb, ne_eq, not_true, if_false] at hn
    obtain ⟨v, hget, hn⟩ := bind_ok hn
    obtain ⟨k, hk, hn⟩ := bind_ok hn
    obtain rfl : toSSizeT ((k : Int) + 2) = n := Except.ok.inj hn
    have hneg := (toSSizeT_neg (stoul_lt hk)).mpr (hsize m v k hm hget hk)
    exact ⟨hneg, fun _ => hb⟩

section
variable {clock : Nat → Clock} {p p' : MessageParser} {q' : Option Part} {c : Byte}

theorem Wedged.step (hs : Sound p) (hp : Wedged p) (h : Step clock p c p' q') : Wedged p' := by
  obtain ⟨hh, ho, hb⟩ := hp
  have hcreate := create_self clock (hs.message hh)
  have hb0 : p.bodyState ≠ 0 := by omega
  have hcount : ∀ m n, (create clock p).tempMsg = some m → bodyCount p m = .ok n →
      n < 0 ∧ (n = -1 → p.bodyState = -1) := by
    intro m n hm hn
    rw [hcreate] at hm
    exact Wedged.count ⟨hh, ho, hb⟩ hm hn
  cases h with
  | body hh' ho' hb' hm hn h1 =>
    obtain ⟨hneg, hone⟩ := hcount _ _ hm hn
    refine ⟨by simpa using hh, by simpa using ho, ?_⟩
    rename_i m n
    have hle : ¬ 1 < n := by omega
    by_cases hn1 : n = -1
    · right
      have hb1 := hone hn1
      rcases hb with hlt | ⟨-, hsize⟩
      · omega
      · refine ⟨by simp [hn1], ?_⟩
        intro m' v k hm'
        exact hsize m' v k (by rw [← hcreate]; exact hm')
    · left
      simp only [hle, if_false]
      omega
  | bodyBroken hh' ho' hb' hm hn hc => exact absurd (hcount _ _ hm hn).1 (by decide)
  | bodyDone hh' ho' hb' hm hn hc hd => exact absurd (hcount _ _ hm hn).1 (by decide)
  | bodyFailed hh' ho' hb' hm hn hc hd => exact absurd (hcount _ _ hm hn).1 (by decide)
  | head hh' | headBroken hh' | headDone hh' | headFailed hh' => omega
  | option hh' ho' | optionBroken hh' ho' | optionDone hh' ho' | optionFailed hh' ho' => omega
  | tail hh' ho' hb' | tailBroken hh' ho' hb' | tailDone hh' ho' hb' | tailFailed hh' ho' hb' =>
    exact absurd hb' hb0

/-- One call with a wedged parser, whatever it is given. -/
theorem Wedged.parse (hs : Sound p) (hp : Wedged p) {w : Bytes} (h : parse clock p w = .ok p') :
    Wedged p' := by
  obtain ⟨q', hr⟩ := (consume_ok hs).mp (parse_ok.mp h).2
  have hinv : Good (p', q') ∧ Wedged p' := by
    refine run_invariant (I := fun st : (loops clock).Point => Good st ∧ Wedged st.1) ?_
      ⟨Good.start hs, hp⟩ hr
    intro st o st' hst hf
    obtain ⟨q, r⟩ := st
    obtain ⟨q', r'⟩ := st'
    refine ⟨hst.1.step hf, ?_⟩
    cases o with
    | none =>
      have hclose := hst.1.close clock
      cases hf
      rw [hclose]
      exact hst.2
    | some c =>
      have hstand : Standing q r := by
        apply hst.1.stands
        have hb := hst.2.2.2
        simp only at hb
        omega
      exact hst.2.step hst.1.1 (step_of_flat hst.1.1 hstand hf)
  exact hinv.2

theorem Wedged.parseAll (hs : Sound p) (hp : Wedged p) {chunks : List Bytes}
    (h : parseAll clock p chunks = .ok p') : Wedged p' := by
  have hinv : Sound p' ∧ Wedged p' :=
    run_invariant (I := fun p => Sound p ∧ Wedged p)
      (fun _ _ _ hi ht => ⟨parse_sound hi.1 ht, hi.2.parse hi.1 ht⟩) ⟨hs, hp⟩ h
  exact hinv.2

/-- Some bytes bring the parser back to the idle state. -/
def Recovers (clock : Nat → Clock) (p : MessageParser) : Prop :=
  ∃ chunks p', parseAll clock p chunks = .ok p' ∧ Idle p'

theorem Recovers.reset (p : MessageParser) : Recovers clock p.resetState :=
  ⟨[], _, rfl, rfl, rfl, rfl, rfl, rfl⟩

theorem Recovers.step (hs : Sound p) (h : Step clock p c p' q') (hr : Recovers clock p') :
    Recovers clock p := by
  obtain ⟨chunks, t, ht, hidle⟩ := hr
  have hflat := flat_of_step hs (Or.inl rfl) h
  have hone : MessageParser.parse clock p [c] = .ok p' := by
    refine parse_ok.mpr ⟨by simp, (consume_ok hs).mpr ⟨q', ?_⟩⟩
    rw [List.map_singleton, run_singleton]
    exact hflat
  exact ⟨[c] :: chunks, t, (run_cons_ok hone chunks).trans ht, hidle⟩

theorem recovers_head (hs : Sound p) (hp : p.headState < 0) : Recovers clock p := by
  have hl := hs.head.1
  have hx : ∀ {p}, Sound p → p.headState = -4 ∨ p.headState = -3 ∨ p.headState = -1 →
      Recovers clock p := by
    intro p hs h
    have hn : headNext p.headState 88 = .error () := by
      rcases h with h | h | h <;> rw [h] <;> rfl
    exact Recovers.step hs (.headBroken (by omega) hn) (Recovers.reset _)
  have hstate : p.headState = -5 ∨ p.headState = -2 ∨
      (p.headState = -4 ∨ p.headState = -3 ∨ p.headState = -1) := by omega
  rcases hstate with h | h | h
  · have hstep : Step clock p 77 _ _ := .head (s := -4) hp (by rw [h]; rfl) (by decide)
    exact Recovers.step hs hstep (hx (hstep.sound hs) (Or.inl rfl))
  · have hstep : Step clock p cr _ _ := .head (s := -1) hp (by rw [h]; rfl) (by decide)
    exact Recovers.step hs hstep (hx (hstep.sound hs) (Or.inr (Or.inr rfl)))
  · exact hx hs h

theorem recovers_option (hs : Sound p) (hp : p.headState = 0) (ho : p.optionState < 0) :
    Recovers clock p := by
  have hl := hs.option.1
  have hx : ∀ {p}, Sound p → p.headState = 0 → p.optionState = -2 ∨ p.optionState = -1 →
      Recovers clock p := by
    intro p hs hp h
    have hn : optionNext p.optionState 88 = .error () := by
      rcases h with h | h <;> rw [h] <;> rfl
    exact Recovers.step hs (.optionBroken hp (by omega) hn) (Recovers.reset _)
  have hstate : p.optionState = -4 ∨ p.optionState = -3 ∨
      (p.optionState = -2 ∨ p.optionState = -1) := by omega
  rcases hstate with h | h | h
  · have hstep : Step clock p cr _ _ := .option (s := -1) hp ho (by rw [h]; rfl) (by decide)
    exact Recovers.step hs hstep (hx (hstep.sound hs) (by simpa using hp) (Or.inr rfl))
  · have hstep : Step clock p cr _ _ := .option (s := -2) hp ho (by rw [h]; rfl) (by decide)
    exact Recovers.step hs hstep (hx (hstep.sound hs) (by simpa using hp) (Or.inl rfl))
  · exact hx hs hp h

theorem recovers_tail (hs : Sound p) (hp : p.headState = 0) (ho : p.optionState = 0)
    (hb : p.bodyState = 0) : Recovers clock p := by
  have ht := hs.tail
  have hstate : p.tailState = -4 ∨ p.tailState = -3 ∨ p.tailState = -2 := by omega
  have hn : tailNext p.tailState 88 = .error () := by
    rcases hstate with h | h | h <;> rw [h] <;> rfl
  exact Recovers.step hs (.tailBroken hp ho hb hn) (Recovers.reset _)

/-- A body is read to its end, and the byte after it is made wrong. -/
theorem recovers_body (hs : Sound p) (hp : p.headState = 0) (ho : p.optionState = 0) {n : Nat}
    {m : Message} (hm : p.tempMsg = some m) (hn : bodyCount p m = .ok (n : Int)) :
    Recovers clock p := by
  induction n generalizing p with
  | zero =>
    by_cases hb : p.bodyState = 0
    · exact recovers_tail hs hp ho hb
    · have hm' : (create clock p).tempMsg = some m := by rw [create_self clock (by simp [hm]), hm]
      have hstep : Step clock p 88 _ _ := .body hp ho hb hm' hn (by decide)
      exact Recovers.step hs hstep
        (recovers_tail (hstep.sound hs) (by simpa using hp) (by simpa using ho) (by simp))
  | succ n ih =>
    have hm' : (create clock p).tempMsg = some m := by rw [create_self clock (by simp [hm]), hm]
    have hb : p.bodyState ≠ 0 := by
      intro hb
      simp only [bodyCount, hb, pure, Except.pure] at hn
      have := Except.ok.inj hn
      omega
    cases n with
    | zero =>
      exact Recovers.step hs (.bodyBroken (c := 88) hp ho hb hm' hn (by decide)) (Recovers.reset _)
    | succ n =>
      have hstep : Step clock p 88 _ _ := .body hp ho hb hm' hn (by omega)
      refine Recovers.step hs hstep
        (ih (hstep.sound hs) (by simpa using hp) (by simpa using ho) hm' ?_)
      have h1 : (1 : Int) < ((n + 1 + 1 : Nat) : Int) := by omega
      have hne : ((n + 1 + 1 : Nat) : Int) - 1 ≠ -1 := by omega
      simp only [bodyCount, h1, if_true, ne_eq, hne, not_false_iff, pure, Except.pure]
      congr 1
      omega

theorem Wedged.not_recovers (hs : Sound p) (hw : Wedged p) : ¬ Recovers clock p := by
  intro hr
  obtain ⟨chunks, p', hp', hidle⟩ := hr
  have hend := (hw.parseAll hs hp').1
  rw [hidle.1] at hend
  exact absurd hend (by decide)

theorem bodyCount_of_not_wedged (hw : ¬ Wedged p) (hh : p.headState = 0) (ho : p.optionState = 0)
    {m : Message} (hm : p.tempMsg = some m) : ∃ n : Nat, bodyCount p m = .ok (n : Int) := by
  by_cases hb : p.bodyState = -1
  · have hsize : ∃ v k, m.getValue keySize = .ok v ∧ stoul v = .ok k ∧
        ¬ (2 ^ 63 - 2 ≤ k ∧ k < 2 ^ 64 - 2) := by
      by_contra hno
      refine hw ⟨hh, ho, Or.inr ⟨hb, ?_⟩⟩
      intro m' v k hm' hget hk
      obtain rfl : m = m' := Option.some.inj (hm.symm.trans hm')
      by_contra hk'
      exact hno ⟨v, k, hget, hk, hk'⟩
    obtain ⟨v, k, hget, hk, hsafe⟩ := hsize
    have hpos : ¬ toSSizeT ((k : Int) + 2) < 0 := by
      rw [toSSizeT_neg (stoul_lt hk)]
      exact hsafe
    refine ⟨(toSSizeT ((k : Int) + 2)).toNat, ?_⟩
    simp only [bodyCount, hb, ne_eq, not_true, if_false, hget, hk, bind, Except.bind, pure,
      Except.pure]
    exact congrArg Except.ok (Int.toNat_of_nonneg (Int.not_lt.mp hpos)).symm
  · have hge : ¬ p.bodyState < -1 := fun hlt => hw ⟨hh, ho, Or.inl hlt⟩
    refine ⟨p.bodyState.toNat, ?_⟩
    simp only [bodyCount, ne_eq, hb, not_false_iff, if_true, pure, Except.pure]
    congr 1
    omega

/-- From a reachable state some bytes bring the parser back to the idle one if and only
if it is not wedged. -/
theorem recovers_iff (h : Reachable clock p) : Recovers clock p ↔ ¬ Wedged p := by
  have hs := reachable_sound h
  constructor
  · intro hr hw
    exact hw.not_recovers hs hr
  · intro hw
    rcases part_cases hs with ⟨-, hh⟩ | ⟨-, hh, ho⟩ | ⟨-, hh, ho, hb⟩ | ⟨-, hh, ho, hb⟩
    · exact recovers_head hs hh
    · exact recovers_option hs hh ho
    · obtain ⟨m, hm⟩ := Option.ne_none_iff_exists'.mp (hs.message hh)
      obtain ⟨n, hn⟩ := bodyCount_of_not_wedged hw hh ho hm
      exact recovers_body hs hh ho hm hn
    · exact recovers_tail hs hh ho hb

end

/-- Head and option part of a frame that announces `n` bytes of data. -/
def announcement (n : Nat) : Bytes :=
  headText { tid := 7, type := 1 } ++ optionText [⟨keySize, Decimal.ofNat n⟩] ++
    sumText (Int16.ofInt (charSum (optionText [⟨keySize, Decimal.ofNat n⟩])))

/-- The parser behind it. -/
def announced (n : Nat) : MessageParser where
  headState := 0
  optionState := 0
  tempMsg := some { tid := 7, type := 1, options :=
    [⟨keyDate, (sampleClock 0).text⟩, ⟨keySize, Decimal.ofNat n⟩] }
  made := 1

theorem wedged_announced {n : Nat} (hn : stoul (Decimal.ofNat n) = .ok n) :
    Wedged (announced n) ↔ 2 ^ 63 - 2 ≤ n ∧ n < 2 ^ 64 - 2 := by
  have hget : ({ tid := 7, type := 1, options :=
      [⟨keyDate, (sampleClock 0).text⟩, ⟨keySize, Decimal.ofNat n⟩] } : Message).getValue keySize =
      .ok (Decimal.ofNat n) := rfl
  constructor
  · intro h
    obtain ⟨-, -, hb | ⟨-, hsize⟩⟩ := h
    · exact absurd hb (show ¬(-1 : Int) < -1 by decide)
    · exact hsize _ _ n rfl hget hn
  · intro h
    refine ⟨rfl, rfl, Or.inr ⟨rfl, ?_⟩⟩
    intro m v k hm hv hk
    cases hm
    obtain rfl := Except.ok.inj (hget.symm.trans hv)
    obtain rfl := Except.ok.inj (hn.symm.trans hk)
    exact h

/-- The largest size that is waited for, in the midst of its frame. -/
theorem recovers_iff_announced :
    parseAll sampleClock {} [announcement (2 ^ 63 - 3)] = .ok (announced (2 ^ 63 - 3)) ∧
      Recovers sampleClock (announced (2 ^ 63 - 3)) := by
  have hparse : parseAll sampleClock {} [announcement (2 ^ 63 - 3)] =
      .ok (announced (2 ^ 63 - 3)) := by
    decide +kernel
  refine ⟨hparse, (recovers_iff ⟨_, hparse⟩).mpr ?_⟩
  rw [wedged_announced (by decide +kernel)]
  omega

/-- A size that is too large to be waited for. -/
theorem wedge_counterexample : ∃ p, parseAll sampleClock {} [announcement (2 ^ 63)] = .ok p ∧
    ¬ Recovers sampleClock p := by
  have hparse : parseAll sampleClock {} [announcement (2 ^ 63)] = .ok (announced (2 ^ 63)) := by
    decide +kernel
  have hwedged : Wedged (announced (2 ^ 63)) := by
    rw [wedged_announced (by decide +kernel)]
    omega
  exact ⟨_, hparse, hwedged.not_recovers (parseAll_sound sound_initial hparse)⟩

end NetCpp.Proofs
