import NetCpp.Proofs.Steps

namespace NetCpp.Proofs
open Library Message MessageFactory MessageParser

/-- A decimal numeral below 2^31, as `pushData` writes the size. -/
def SizeNumeral (s : Bytes) : Prop :=
  s ≠ [] ∧ (∀ c ∈ s, Decimal.isDigit c = true) ∧ Decimal.value s < 2 ^ 31

theorem stoul_numeral {s : Bytes} (hs : SizeNumeral s) : stoul s = .ok (Decimal.value s) := by
  obtain ⟨hne, hd, hv⟩ := hs
  simp only [stoul, Decimal.readNumeral_digits hd, if_neg hne]
  rw [if_neg (by omega)]
  rfl

/-- A size in range is waited for byte by byte, with the two bytes of the line end. -/
theorem bodyCount_numeral {p : MessageParser} {m : Message} {s : Bytes} (hp : p.bodyState = -1)
    (hget : m.getValue keySize = .ok s) (hs : SizeNumeral s) :
    bodyCount p m = .ok (Decimal.value s + 2 : Nat) := by
  have hv := hs.2.2
  have hn : toSSizeT ((Decimal.value s : Int) + 2) = (Decimal.value s + 2 : Nat) := by
    rw [toSSizeT, Int.bmod_eq_of_le (by omega) (by omega)]
    rfl
  simp only [bodyCount, hp, hget, stoul_numeral hs, bind, Except.bind, pure, Except.pure, hn]
  rfl

theorem bodyCount_start {p : MessageParser} {m : Message} {n : Int} (hp : p.bodyState = -1)
    (h : bodyCount p m = .ok n) : ∃ s, m.getValue keySize = .ok s := by
  simp only [bodyCount, hp, ne_eq, not_true, if_false] at h
  obtain ⟨s, hget, -⟩ := bind_ok h
  exact ⟨s, hget⟩

section
variable {clock : Nat → Clock} {s : MessageParser}

/-- The size that the body loop reads with the next byte, if it reads one. -/
def sizeRead (p : MessageParser) : Option Bytes :=
  if p.headState = 0 ∧ p.optionState = 0 ∧ p.bodyState = -1 then
    p.tempMsg.bind (fun m => (m.getValue keySize).toOption)
  else none

/-- Each size that the body loop reads while the bytes go through is as it should be. -/
def SizesRead (clock : Nat → Clock) (s : MessageParser) (w : Bytes) (ok : Bytes → Prop) : Prop :=
  ∀ past c rest p v, w = past ++ c :: rest → consume clock s past = .ok p → sizeRead p = some v →
    ok v

theorem SizesRead.left {a b : Bytes} {ok : Bytes → Prop} (h : SizesRead clock s (a ++ b) ok) :
    SizesRead clock s a ok := by
  intro past c rest p v ha
  exact h past c (rest ++ b) p v (by simp [ha])

/-- With sizes in range the body loop is never overrun. -/
theorem no_overrun (hs : Sound s) {w : Bytes} (hw : SizesRead clock s w SizeNumeral)
    {st : (loops clock).Point} (hr : run (loops clock).flat (s, none) (w.map some) = .ok st) :
    Standing st.1 st.2 := by
  induction w using List.reverseRecOn generalizing st with
  | nil =>
    cases hr
    exact Or.inl rfl
  | append_singleton w c ih =>
    rw [List.map_append] at hr
    obtain ⟨⟨p, q⟩, hpast, hstep⟩ := run_append_inv hr
    rw [List.map_singleton, run_singleton] at hstep
    have hstand : Standing p q := ih hw.left hpast
    have hgood := (Good.start hs).run hpast
    obtain ⟨p', q'⟩ := st
    have hmove := step_of_flat hgood.1 hstand hstep
    rcases hmove.standing with h | ⟨-, hh, ho, hb, m, hm, hn⟩
    · exact h
    · exfalso
      have hm1 : p.bodyState = -1 := by
        by_contra hne
        simp only [bodyCount, ne_eq, hne, not_false_iff, if_true, pure, Except.pure] at hn
        exact hb (Except.ok.inj hn)
      have hmsg : p.tempMsg = some m := by
        rwa [create_self clock (hgood.1.message hh)] at hm
      obtain ⟨v, hget⟩ := bodyCount_start hm1 hn
      have hpast' : consume clock s w = .ok p := (consume_ok hs).mpr ⟨q, hpast⟩
      have hread : sizeRead p = some v := by
        rw [sizeRead, if_pos ⟨hh, ho, hm1⟩, hmsg, Option.bind_some, hget]
        rfl
      have hv := hw w c [] p v rfl hpast' hread
      rw [bodyCount_numeral hm1 hget hv] at hn
      have := Except.ok.inj hn
      omega

/-- A cut of the queue does not show: emptied in two parts it leaves the parser as it does in
one, or fails as it does. -/
theorem consume_append (hs : Reachable clock s) (a b : Bytes)
    (hsize : SizesRead clock s (a ++ b) SizeNumeral) :
    consume clock s (a ++ b) = (consume clock s a).bind (fun p => consume clock p b) := by
  apply Loops.exec_append
  intro st hr
  obtain ⟨p, q⟩ := st
  have hsound := reachable_sound hs
  have hstand : Standing p q := no_overrun hsound hsize.left hr
  have hgood := (Good.start hsound).run hr
  rcases hstand with rfl | ⟨hm, rfl⟩
  · trivial
  · obtain ⟨k, hk⟩ := part_some hgood.1
    rw [hk]
    have ht := hgood.1.tail
    exact ⟨release_self (by simp only at ht; omega), create_self clock hm, hk⟩

/-- One call and two calls on its parts return, and leave the same parser. -/
def CutUnseen (clock : Nat → Clock) (s : MessageParser) (a b : Bytes) : Prop :=
  ∃ p, parse clock s (a ++ b) = .ok p ∧ parseAll clock s [a, b] = .ok p

/-- Where decoding does not fail, a cut of the input does not show if and only if the one call
can count the bytes of both. -/
theorem parse_append_iff (hs : Reachable clock s) (a b : Bytes)
    (hsize : SizesRead clock s (a ++ b) SizeNumeral)
    (hdecoded : ∃ p, consume clock s (a ++ b) = .ok p) :
    CutUnseen clock s a b ↔ (a ++ b).length < 2 ^ 31 := by
  constructor
  · intro h
    obtain ⟨p, hone, -⟩ := h
    exact (parse_ok.mp hone).1
  · intro hlen
    obtain ⟨p, hp⟩ := hdecoded
    refine ⟨p, parse_ok.mpr ⟨hlen, hp⟩, parseAll_ok.mpr ⟨?_, ?_⟩⟩
    · rw [List.length_append] at hlen
      intro w hw
      rcases List.mem_cons.mp hw with rfl | hw
      · omega
      · obtain rfl := List.mem_singleton.mp hw
        omega
    · rw [consume_append hs a b hsize] at hp
      obtain ⟨t, ha, hb⟩ := bind_ok hp
      rw [run_cons_ok ha, run_singleton, hb]

end

def sampleClock (_ : Nat) : Clock where
  month := 7
  day := 7
  year := 20
  hour := 12
  minute := 30
  second := 0

/-- The two pieces of a frame, cut inside an option line. Its checksum is the one of the
option lines alone, which is what the parser compares with. -/
def firstPiece : Bytes :=
  headText { tid := 7, type := 1 } ++ ascii ['"', 's', 'i', 'z']

def secondPiece : Bytes :=
  ascii ['e', '"', ':', '"', '2', '"', '\r', '\n', '7', '1', '0', '\r', '\n', '\r', '\n',
    'h', 'i', '\r', '\n', 'G', 'S', 'M']

theorem pieces_sizes : SizesRead sampleClock {} (firstPiece ++ secondPiece) SizeNumeral := by
  intro past c rest p v hw hp hv
  have hpast : past = (firstPiece ++ secondPiece).take past.length := by
    rw [hw, List.take_left]
  have hlen : past.length < 37 := by
    have := congrArg List.length hw
    simp only [List.length_append, List.length_cons] at this
    have h37 : firstPiece.length + secondPiece.length = 37 := by decide +kernel
    omega
  have hall : ∀ i < 37, ((consume sampleClock {} ((firstPiece ++ secondPiece).take i)).toOption.bind
      sizeRead) ∈ [none, some (ascii ['2'])] := by
    decide +kernel
  have hv2 := hall past.length hlen
  rw [← hpast, hp] at hv2
  simp only [Except.toOption, Option.bind_some, hv, List.mem_cons, reduceCtorEq, false_or,
    Option.some.injEq, List.not_mem_nil, or_false] at hv2
  rw [hv2]
  exact ⟨by decide, by decide +kernel, by decide +kernel⟩

theorem parse_append_iff_pieces : CutUnseen sampleClock {} firstPiece secondPiece ↔
    (firstPiece ++ secondPiece).length < 2 ^ 31 := by
  have hdecoded : (consume sampleClock {} (firstPiece ++ secondPiece)).isOk = true := by
    decide +kernel
  exact parse_append_iff ⟨[], rfl⟩ firstPiece secondPiece pieces_sizes (exists_of_isOk hdecoded)

/-- A parser that waits for an 'M' puts other bytes aside. -/
theorem run_waiting (clock : Nat → Clock) {p : MessageParser} (hhead : p.headState = -5) {c : Byte}
    (hc : c ≠ 77) (n : Nat) :
    run (loops clock).flat (p, some .head) ((List.replicate n c).map some) =
      .ok ({ p with tempBuffer := p.tempBuffer ++ List.replicate n c }, some .head) := by
  induction n generalizing p with
  | zero => simp
  | succ n ih =>
    have hbody : (loops clock).body .head p c = .ok (p.push c, false) := by
      simp [loops, locate, locateHead, push, hhead, hc, pure, Except.pure]
    have hflat : (loops clock).flat (p, some .head) (some c) = .ok (p.push c, some .head) := by
      simp only [Loops.flat, Loops.enter, hbody]
    rw [List.replicate_succ, List.map_cons, run_cons_ok hflat, ih (p := p.push c) hhead]
    simp [push]

/-- The parser after a first 'x' and `n` more. -/
def waiting (n : Nat) : MessageParser where
  tempBuffer := 120 :: List.replicate n 120
  tempMsg := some (Message.new (sampleClock 0))
  made := 1

theorem run_initial (n : Nat) :
    run (loops sampleClock).flat ({}, none) ((120 :: List.replicate n 120).map some) =
      .ok (waiting n, some .head) := by
  have hfirst : (loops sampleClock).flat ({}, none) (some 120) = .ok (waiting 0, some .head) := rfl
  rw [List.map_cons, run_cons_ok hfirst, run_waiting sampleClock rfl (by decide)]
  rfl

theorem consume_waiting (n : Nat) : consume sampleClock {} (120 :: List.replicate n 120) =
    .ok (waiting n) :=
  (consume_ok sound_initial).mpr ⟨some .head, run_initial n⟩

theorem consume_found (n : Nat) : consume sampleClock (waiting n) [120, 77] =
    .ok { ((waiting n).push 120).push 77 with headState := -4 } := rfl

theorem waiting_sizes (n : Nat) :
    SizesRead sampleClock {} (120 :: List.replicate n 120 ++ [77]) SizeNumeral := by
  intro past c rest p v hw hp hread
  have hhead : p.headState = -5 := by
    cases past with
    | nil =>
      cases hp
      rfl
    | cons d past =>
      obtain ⟨hd, htail⟩ := List.cons.inj hw
      have hpast : past <+: List.replicate n 120 := by
        rcases List.eq_nil_or_concat rest with rfl | ⟨rest, e, rfl⟩
        · exact ⟨[], by simpa using (List.append_inj' htail rfl).1.symm⟩
        · have htail' : List.replicate n 120 ++ [77] = (past ++ c :: rest) ++ [e] := by
            simpa using htail
          exact ⟨c :: rest, (List.append_inj' htail' rfl).1.symm⟩
      obtain ⟨-, hpast⟩ := List.prefix_replicate_iff.mp hpast
      rw [← hd, hpast, consume_waiting] at hp
      cases hp
      rfl
  rw [sizeRead, if_neg (fun h => absurd (hhead.symm.trans h.1) (by decide))] at hread
  cases hread

/-- 2^31 - 1 times 'x' and then one more and an 'M': two calls end behind the 'M', the one call has
two bytes more than it can count. -/
theorem not_cutUnseen : ∃ a b,
    SizesRead sampleClock {} (a ++ b) SizeNumeral ∧ (∃ p, consume sampleClock {} (a ++ b) = .ok p) ∧
    (∃ p, parseAll sampleClock {} [a, b] = .ok p ∧ p.headState = -4) ∧
    parse sampleClock {} (a ++ b) = .error .overflow ∧ ¬CutUnseen sampleClock {} a b := by
  obtain ⟨n, hn⟩ : ∃ n, n + 2 = 2 ^ 31 := ⟨2 ^ 31 - 2, rfl⟩
  have hsizes : SizesRead sampleClock {}
      (120 :: List.replicate n 120 ++ [120, 77]) SizeNumeral := by
    have hwhole : 120 :: List.replicate n 120 ++ [120, 77] =
        (120 : Byte) :: List.replicate (n + 1) 120 ++ [77] := by
      rw [List.replicate_succ']
      simp
    rw [hwhole]
    exact waiting_sizes (n + 1)
  have hover : parse sampleClock {} (120 :: List.replicate n 120 ++ [120, 77]) =
      .error .overflow := by
    apply parse_overflow
    simp only [List.length_append, List.length_cons, List.length_replicate, List.length_nil]
    omega
  have hcount : ∀ w ∈ [(120 : Byte) :: List.replicate n 120, [120, 77]], w.length < 2 ^ 31 := by
    rw [List.forall_mem_cons, List.length_cons, List.length_replicate, List.forall_mem_singleton]
    exact ⟨by omega, by decide⟩
  have hrun : run (consume sampleClock) {} [120 :: List.replicate n 120, [120, 77]] =
      .ok { ((waiting n).push 120).push 77 with headState := -4 } := by
    rw [run_cons_ok (consume_waiting n), run_singleton, consume_found]
  refine ⟨120 :: List.replicate n 120, [120, 77], hsizes, ?_,
    ⟨_, parseAll_ok.mpr ⟨hcount, hrun⟩, rfl⟩, hover, ?_⟩
  · rw [consume_append ⟨[], rfl⟩ _ _ hsizes, consume_waiting]
    exact ⟨_, consume_found n⟩
  · intro h
    obtain ⟨p, hone, -⟩ := h
    rw [hover] at hone
    cases hone

end NetCpp.Proofs
