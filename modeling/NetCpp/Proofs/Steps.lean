import NetCpp.Parser
import NetCpp.Proofs.Accepted

namespace NetCpp.Proofs
open Library Message MessageFactory MessageParser

/-- The letters a `locate_*` loop waits for make a small machine of their own: the next state, or an
error where the loop resets. -/
def headNext (s : Int) (c : Byte) : Except Unit Int :=
  if s = -5 then .ok (if c = 77 then -4 else -5)
  else if s = -4 then (if c = 83 then .ok (-3) else .error ())
  else if s = -3 then (if c = 71 then .ok (-2) else .error ())
  else if s = -2 then .ok (if c = cr then -1 else -2)
  else if s = -1 then (if c = lf then .ok 0 else .error ())
  else .error ()

def optionNext (s : Int) (c : Byte) : Except Unit Int :=
  if s = -4 then
    .ok (if c = quote then -3 else if c = cr then -1
      else if 47 < charValue c ∧ charValue c < 58 then -3 else -4)
  else if s = -3 then .ok (if c = cr then -2 else -3)
  else if s = -2 then (if c = lf then .ok (-4) else .error ())
  else if s = -1 then (if c = lf then .ok 0 else .error ())
  else .error ()

def tailNext (s : Int) (c : Byte) : Except Unit Int :=
  if s = -4 then (if c = 71 then .ok (-3) else .error ())
  else if s = -3 then (if c = 83 then .ok (-2) else .error ())
  else if s = -2 then (if c = 77 then .ok 0 else .error ())
  else .error ()

/-- The bytes the body loop still waits for, read from the `size` option at its start. -/
def bodyCount (p : MessageParser) (m : Message) : Except Fault Int := do
  if p.bodyState ≠ -1 then return p.bodyState
  return toSSizeT ((← stoul (← m.getValue keySize)) + 2)

/-- The moves of the three machines. -/
theorem headNext_ok {s t : Int} {c : Byte} (h : headNext s c = .ok t) :
    (s = -5 ∧ c = 77 ∧ t = -4) ∨ (s = -5 ∧ c ≠ 77 ∧ t = -5) ∨ (s = -4 ∧ c = 83 ∧ t = -3) ∨
      (s = -3 ∧ c = 71 ∧ t = -2) ∨ (s = -2 ∧ c = cr ∧ t = -1) ∨ (s = -2 ∧ c ≠ cr ∧ t = -2) ∨
      (s = -1 ∧ c = lf ∧ t = 0) := by
  unfold headNext at h
  split_ifs at h <;> cases h <;> simp [*]

/-- A head line ends with its line feed and nowhere else. -/
theorem headNext_zero {s : Int} {c : Byte} : headNext s c = .ok 0 ↔ s = -1 ∧ c = lf := by
  constructor
  · intro h
    rcases headNext_ok h with ⟨-, -, h0⟩ | ⟨-, -, h0⟩ | ⟨-, -, h0⟩ | ⟨-, -, h0⟩ | ⟨-, -, h0⟩ |
      ⟨-, -, h0⟩ | ⟨hs, hc, -⟩
    all_goals first | omega | exact ⟨hs, hc⟩
  · intro h
    rw [h.1, h.2]
    rfl

theorem optionNext_ok {s t : Int} {c : Byte} (h : optionNext s c = .ok t) :
    (s = -4 ∧ c = cr ∧ t = -1) ∨
    (s = -4 ∧ (c = quote ∨ 47 < charValue c ∧ charValue c < 58) ∧ t = -3) ∨
      (s = -4 ∧ c ≠ cr ∧ c ≠ quote ∧ t = -4) ∨ (s = -3 ∧ c = cr ∧ t = -2) ∨
      (s = -3 ∧ c ≠ cr ∧ t = -3) ∨ (s = -2 ∧ c = lf ∧ t = -4) ∨ (s = -1 ∧ c = lf ∧ t = 0) := by
  unfold optionNext at h
  split_ifs at h <;> cases h <;> simp [*]

theorem optionNext_zero {s : Int} {c : Byte} : optionNext s c = .ok 0 ↔ s = -1 ∧ c = lf := by
  constructor
  · intro h
    rcases optionNext_ok h with ⟨-, -, h0⟩ | ⟨-, -, h0⟩ | ⟨-, -, -, h0⟩ | ⟨-, -, h0⟩ | ⟨-, -, h0⟩ |
      ⟨-, -, h0⟩ | ⟨hs, hc, -⟩
    all_goals first | omega | exact ⟨hs, hc⟩
  · intro h
    rw [h.1, h.2]
    rfl

theorem tailNext_ok {s t : Int} {c : Byte} (h : tailNext s c = .ok t) :
    (s = -4 ∧ c = 71 ∧ t = -3) ∨ (s = -3 ∧ c = 83 ∧ t = -2) ∨ (s = -2 ∧ c = 77 ∧ t = 0) := by
  unfold tailNext at h
  split_ifs at h <;> cases h <;> simp [*]

section Fields
variable (p : MessageParser) (c : Byte) (clock : Nat → Clock)

@[simp] theorem push_headState : (p.push c).headState = p.headState := rfl
@[simp] theorem push_optionState : (p.push c).optionState = p.optionState := rfl
@[simp] theorem push_bodyState : (p.push c).bodyState = p.bodyState := rfl
@[simp] theorem push_tailState : (p.push c).tailState = p.tailState := rfl
@[simp] theorem push_tempMsg : (p.push c).tempMsg = p.tempMsg := rfl
@[simp] theorem push_msgs : (p.push c).msgs = p.msgs := rfl
@[simp] theorem push_tempBuffer : (p.push c).tempBuffer = p.tempBuffer ++ [c] := rfl

@[simp] theorem create_headState : (create clock p).headState = p.headState := by
  unfold create; split <;> rfl
@[simp] theorem create_optionState : (create clock p).optionState = p.optionState := by
  unfold create; split <;> rfl
@[simp] theorem create_bodyState : (create clock p).bodyState = p.bodyState := by
  unfold create; split <;> rfl
@[simp] theorem create_tailState : (create clock p).tailState = p.tailState := by
  unfold create; split <;> rfl
@[simp] theorem create_msgs : (create clock p).msgs = p.msgs := by
  unfold create; split <;> rfl
@[simp] theorem create_tempBuffer : (create clock p).tempBuffer = p.tempBuffer := by
  unfold create; split <;> rfl

end Fields

theorem create_some (clock : Nat → Clock) (p : MessageParser) :
    ∃ m, (create clock p).tempMsg = some m := by
  unfold create
  split
  · rename_i m hm
    exact ⟨m, hm⟩
  · exact ⟨_, rfl⟩

theorem create_self (clock : Nat → Clock) {p : MessageParser} (h : p.tempMsg ≠ none) :
    create clock p = p := by
  unfold create
  split
  · rfl
  · contradiction

@[simp] theorem part_create (clock : Nat → Clock) (p : MessageParser) :
    (create clock p).part = p.part := by
  simp [part]

theorem release_self {p : MessageParser} (h : p.tailState ≠ 0) : p.release = p := by
  simp [release, h]

section Located
variable {p : MessageParser} {c : Byte} {m : Message}

theorem locateHead_eq (hm : p.tempMsg = some m) (hl : -5 ≤ p.headState) (hu : p.headState < 0) :
    locateHead p c = match headNext p.headState c with
      | .error _ => .ok (p.resetState, false)
      | .ok s =>
        if s ≠ 0 then .ok ({ p with headState := s }, false)
        else match decodeMessageHead p.tempBuffer m with
          | .error e => .error e
          | .ok (true, m') =>
            .ok ({ p with headState := 0, tempMsg := some m', tempBuffer := [] }, true)
          | .ok (false, m') => .ok ({ p with tempMsg := some m' }.resetState, true) := by
  have hs : p.headState = -5 ∨ p.headState = -4 ∨ p.headState = -3 ∨ p.headState = -2 ∨
      p.headState = -1 := by omega
  rcases hs with hs | hs | hs | hs | hs
  · by_cases hc : c = 77 <;> simp [locateHead, headNext, hs, hc, pure, Except.pure]
    cases p; simp_all
  · by_cases hc : c = 83 <;> simp [locateHead, headNext, hs, hc, pure, Except.pure]
  · by_cases hc : c = 71 <;> simp [locateHead, headNext, hs, hc, pure, Except.pure]
  · by_cases hc : c = cr <;> simp [locateHead, headNext, hs, hc, pure, Except.pure]
    cases p; simp_all
  · by_cases hc : c = lf
    · simp only [locateHead, headNext, hs, hc, message, hm, bind, Except.bind]
      rcases decodeMessageHead p.tempBuffer m with e | ⟨_ | _, m'⟩ <;>
        simp [resetState, pure, Except.pure]
    · simp [locateHead, headNext, hs, hc, pure, Except.pure]

theorem locateOption_eq (hm : p.tempMsg = some m) (hl : -4 ≤ p.optionState)
    (hu : p.optionState < 0) :
    locateOption p c = match optionNext p.optionState c with
      | .error _ => .ok (p.resetState, true)
      | .ok s =>
        if s ≠ 0 then .ok ({ p with optionState := s }, false)
        else match decodeMessageOption p.tempBuffer m with
          | .error e => .error e
          | .ok (true, m') =>
            .ok ({ p with optionState := 0, tempMsg := some m', tempBuffer := [] }, true)
          | .ok (false, m') => .ok ({ p with tempMsg := some m' }.resetState, true) := by
  have hs : p.optionState = -4 ∨ p.optionState = -3 ∨ p.optionState = -2 ∨
      p.optionState = -1 := by omega
  rcases hs with hs | hs | hs | hs
  · by_cases hq : c = quote
    · simp [locateOption, optionNext, hs, hq, pure, Except.pure]
    · by_cases hc : c = cr
      · subst hc
        simp [locateOption, optionNext, hs, hq, pure, Except.pure]
      · by_cases hd : 47 < charValue c ∧ charValue c < 58
        · simp [locateOption, optionNext, hs, hq, hc, hd, pure, Except.pure]
        · simp only [locateOption, optionNext, hs, hq, hc, hd, pure, Except.pure]
          cases p; simp_all
  · by_cases hc : c = cr <;> simp [locateOption, optionNext, hs, hc, pure, Except.pure]
    cases p; simp_all
  · by_cases hc : c = lf <;> simp [locateOption, optionNext, hs, hc, pure, Except.pure]
  · by_cases hc : c = lf
    · simp only [locateOption, optionNext, hs, hc, message, hm, bind, Except.bind]
      rcases decodeMessageOption p.tempBuffer m with e | ⟨_ | _, m'⟩ <;>
        simp [resetState, pure, Except.pure]
    · simp [locateOption, optionNext, hs, hc, pure, Except.pure]

/-- A `size` option that is missing is not caught: the handler is for an exception, and
what is thrown is a pointer. -/
theorem catch_getValue (m : Message) (key : Bytes) :
    catchRuntimeError (m.getValue key) = (m.getValue key).map some := by
  unfold getValue
  split <;> rfl

theorem locateSize_eq (hm : p.tempMsg = some m) :
    locateSize p = (bodyCount p m).map (fun n => some { p with bodyState := n }) := by
  by_cases hs : p.bodyState = -1
  · simp only [locateSize, bodyCount, hs, message, hm, catch_getValue, bind, Except.bind]
    cases m.getValue keySize with
    | error e => rfl
    | ok s =>
      simp only [Except.map]
      cases stoul s <;> rfl
  · simp only [locateSize, bodyCount, ne_eq, hs, not_false_iff, if_true, pure, Except.pure,
      Except.map]

theorem locateBody_eq (hm : p.tempMsg = some m) :
    locateBody p c = match bodyCount p m with
      | .error e => .error e
      | .ok n =>
        if 1 < n then .ok ({ p with bodyState := n - 1 }, false)
        else if n < 1 then .ok ({ p with bodyState := n }, false)
        else if c ≠ lf then .ok (p.resetState, true)
        else match decodeMessageBody p.tempBuffer m with
          | .error e => .error e
          | .ok (true, m') =>
            .ok ({ p with bodyState := 0, tempMsg := some m', tempBuffer := [] }, true)
          | .ok (false, m') => .ok ({ p with tempMsg := some m' }.resetState, true) := by
  rw [locateBody, locateSize_eq hm]
  cases bodyCount p m with
  | error e => rfl
  | ok n =>
    simp only [Except.map, bind, Except.bind]
    by_cases h1 : 1 < n
    · simp [h1, pure, Except.pure]
    · by_cases h2 : n < 1
      · have hn2 : n ≠ 2 := by omega
        have hn1 : n ≠ 1 := by omega
        simp [h1, h2, hn1, hn2, pure, Except.pure]
      · obtain rfl : n = 1 := by omega
        by_cases hc : c = lf
        · simp only [hc, message, hm]
          rcases decodeMessageBody p.tempBuffer m with e | ⟨_ | _, m'⟩ <;>
            simp [resetState, pure, Except.pure]
        · simp [hc, resetState, pure, Except.pure]

theorem locateTail_eq (hm : p.tempMsg = some m) (hl : -4 ≤ p.tailState) (hu : p.tailState < -1) :
    locateTail p c = match tailNext p.tailState c with
      | .error _ => .ok (p.resetState, true)
      | .ok s =>
        if s ≠ 0 then .ok ({ p with tailState := s }, false)
        else match decodeMessageTail p.tempBuffer m with
          | .error e => .error e
          | .ok (true, m') =>
            .ok ({ p with tailState := 0, tempMsg := some m', tempBuffer := [] }, true)
          | .ok (false, m') => .ok ({ p with tempMsg := some m' }.resetState, true) := by
  have hs : p.tailState = -4 ∨ p.tailState = -3 ∨ p.tailState = -2 := by omega
  rcases hs with hs | hs | hs
  · by_cases hc : c = 71 <;> simp [locateTail, tailNext, hs, hc, pure, Except.pure]
  · by_cases hc : c = 83 <;> simp [locateTail, tailNext, hs, hc, pure, Except.pure]
  · by_cases hc : c = 77
    · simp only [locateTail, tailNext, hs, hc, message, hm, bind, Except.bind]
      rcases hd : decodeMessageTail p.tempBuffer m with e | ⟨_ | _, m'⟩ <;>
        simp [hd, resetState, pure, Except.pure]
    · simp [locateTail, tailNext, hs, hc, pure, Except.pure]

end Located

/-- What holds of the four counters between two bytes. -/
structure Sound (p : MessageParser) : Prop where
  head : -5 ≤ p.headState ∧ p.headState ≤ 0
  option : -4 ≤ p.optionState ∧ p.optionState ≤ 0
  tail : -4 ≤ p.tailState ∧ p.tailState < -1
  inHead : p.headState < 0 → p.optionState = -4 ∧ p.bodyState = -1
  inOption : p.optionState < 0 → p.bodyState = -1
  inBody : p.bodyState ≠ 0 → p.tailState = -4
  message : p.headState = 0 → p.tempMsg ≠ none

/-- A body loop that found its count at 0: it is not left before the buffer is empty,
and takes every byte up to there. -/
def Overrun (p : MessageParser) (q : Option Part) : Prop :=
  q = some .body ∧ p.headState = 0 ∧ p.optionState = 0 ∧ p.bodyState = 0

/-- The parser stands between two rounds, or in the loop that a new round would enter. -/
def Standing (p : MessageParser) (q : Option Part) : Prop :=
  q = none ∨ (p.tempMsg ≠ none ∧ q = p.part)

/-- The parser with the byte in its buffer and a message to write to. -/
def taken (clock : Nat → Clock) (p : MessageParser) (c : Byte) : MessageParser :=
  (create clock p).push c

/-- A byte that is taken without a fault, case by case. -/
inductive Step (clock : Nat → Clock) (p : MessageParser) (c : Byte) :
    MessageParser → Option Part → Prop where
  | head {s : Int} (hp : p.headState < 0) (hn : headNext p.headState c = .ok s) (hs : s ≠ 0) :
      Step clock p c { taken clock p c with headState := s } (some .head)
  | headBroken {e : Unit} (hp : p.headState < 0) (hn : headNext p.headState c = .error e) :
      Step clock p c (taken clock p c).resetState (some .head)
  | headDone {m m' : Message} (hp : p.headState < 0) (hn : headNext p.headState c = .ok 0)
      (hm : (create clock p).tempMsg = some m)
      (hd : decodeMessageHead (p.tempBuffer ++ [c]) m = .ok (true, m')) :
      Step clock p c
        { taken clock p c with headState := 0, tempMsg := some m', tempBuffer := [] } none
  | headFailed {m m' : Message} (hp : p.headState < 0) (hn : headNext p.headState c = .ok 0)
      (hm : (create clock p).tempMsg = some m)
      (hd : decodeMessageHead (p.tempBuffer ++ [c]) m = .ok (false, m')) :
      Step clock p c { taken clock p c with tempMsg := some m' }.resetState none
  | option {s : Int} (hp : p.headState = 0) (ho : p.optionState < 0)
      (hn : optionNext p.optionState c = .ok s) (hs : s ≠ 0) :
      Step clock p c { taken clock p c with optionState := s } (some .option)
  | optionBroken {e : Unit} (hp : p.headState = 0) (ho : p.optionState < 0)
      (hn : optionNext p.optionState c = .error e) :
      Step clock p c (taken clock p c).resetState none
  | optionDone {m m' : Message} (hp : p.headState = 0) (ho : p.optionState < 0)
      (hn : optionNext p.optionState c = .ok 0) (hm : (create clock p).tempMsg = some m)
      (hd : decodeMessageOption (p.tempBuffer ++ [c]) m = .ok (true, m')) :
      Step clock p c
        { taken clock p c with optionState := 0, tempMsg := some m', tempBuffer := [] } none
  | optionFailed {m m' : Message} (hp : p.headState = 0) (ho : p.optionState < 0)
      (hn : optionNext p.optionState c = .ok 0) (hm : (create clock p).tempMsg = some m)
      (hd : decodeMessageOption (p.tempBuffer ++ [c]) m = .ok (false, m')) :
      Step clock p c { taken clock p c with tempMsg := some m' }.resetState none
  | body {m : Message} {n : Int} (hp : p.headState = 0) (ho : p.optionState = 0)
      (hb : p.bodyState ≠ 0) (hm : (create clock p).tempMsg = some m)
      (hn : bodyCount p m = .ok n) (h1 : n ≠ 1) :
      Step clock p c { taken clock p c with bodyState := if 1 < n then n - 1 else n } (some .body)
  | bodyBroken {m : Message} (hp : p.headState = 0) (ho : p.optionState = 0)
      (hb : p.bodyState ≠ 0) (hm : (create clock p).tempMsg = some m)
      (hn : bodyCount p m = .ok 1) (hc : c ≠ lf) :
      Step clock p c (taken clock p c).resetState none
  | bodyDone {m m' : Message} (hp : p.headState = 0) (ho : p.optionState = 0)
      (hb : p.bodyState ≠ 0) (hm : (create clock p).tempMsg = some m)
      (hn : bodyCount p m = .ok 1) (hc : c = lf)
      (hd : decodeMessageBody (p.tempBuffer ++ [c]) m = .ok (true, m')) :
      Step clock p c
        { taken clock p c with bodyState := 0, tempMsg := some m', tempBuffer := [] } none
  | bodyFailed {m m' : Message} (hp : p.headState = 0) (ho : p.optionState = 0)
      (hb : p.bodyState ≠ 0) (hm : (create clock p).tempMsg = some m)
      (hn : bodyCount p m = .ok 1) (hc : c = lf)
      (hd : decodeMessageBody (p.tempBuffer ++ [c]) m = .ok (false, m')) :
      Step clock p c { taken clock p c with tempMsg := some m' }.resetState none
  | tail {s : Int} (hp : p.headState = 0) (ho : p.optionState = 0) (hb : p.bodyState = 0)
      (hn : tailNext p.tailState c = .ok s) (hs : s ≠ 0) :
      Step clock p c { taken clock p c with tailState := s } (some .tail)
  | tailBroken {e : Unit} (hp : p.headState = 0) (ho : p.optionState = 0) (hb : p.bodyState = 0)
      (hn : tailNext p.tailState c = .error e) :
      Step clock p c (taken clock p c).resetState none
  | tailDone {m m' : Message} (hp : p.headState = 0) (ho : p.optionState = 0)
      (hb : p.bodyState = 0) (hn : tailNext p.tailState c = .ok 0)
      (hm : (create clock p).tempMsg = some m)
      (hd : decodeMessageTail (p.tempBuffer ++ [c]) m = .ok (true, m')) :
      Step clock p c
        { taken clock p c with msgs := p.msgs ++ [m'], tempMsg := none }.resetState none
  | tailFailed {m m' : Message} (hp : p.headState = 0) (ho : p.optionState = 0)
      (hb : p.bodyState = 0) (hn : tailNext p.tailState c = .ok 0)
      (hm : (create clock p).tempMsg = some m)
      (hd : decodeMessageTail (p.tempBuffer ++ [c]) m = .ok (false, m')) :
      Step clock p c { taken clock p c with tempMsg := some m' }.resetState none

theorem part_cases {p : MessageParser} (hp : Sound p) :
    (p.part = some .head ∧ p.headState < 0) ∨
      (p.part = some .option ∧ p.headState = 0 ∧ p.optionState < 0) ∨
      (p.part = some .body ∧ p.headState = 0 ∧ p.optionState = 0 ∧ p.bodyState ≠ 0) ∨
      (p.part = some .tail ∧ p.headState = 0 ∧ p.optionState = 0 ∧ p.bodyState = 0) := by
  have hh := hp.head.2
  have ho := hp.option.2
  have ht := hp.tail.2
  unfold part
  by_cases h1 : p.headState < 0
  · exact Or.inl ⟨if_pos h1, h1⟩
  · rw [if_neg h1]
    by_cases h2 : p.optionState < 0
    · exact Or.inr (Or.inl ⟨if_pos h2, by omega, h2⟩)
    · rw [if_neg h2]
      by_cases h3 : p.bodyState = 0
      · refine Or.inr (Or.inr (Or.inr ⟨?_, by omega, by omega, h3⟩))
        rw [if_neg (by omega), if_pos (by omega)]
      · exact Or.inr (Or.inr (Or.inl ⟨if_pos h3, by omega, by omega, h3⟩))

theorem part_some {p : MessageParser} (hp : Sound p) : ∃ k, p.part = some k := by
  rcases part_cases hp with h | h | h | h <;> exact ⟨_, h.1⟩

/-- From where it stands, the parser enters the loop of its part. -/
theorem flat_enter {clock : Nat → Clock} {p : MessageParser} {q : Option Part}
    (hq : Standing p q) {k : Part} (hk : p.part = some k) (c : Byte) :
    (loops clock).flat (p, q) (some c) =
      match locate k (taken clock p c) c with
      | .error e => .error e
      | .ok (t, true) => .ok (t.release, none)
      | .ok (t, false) => .ok (t, some k) := by
  have henter : (loops clock).flat (p, q) (some c) = (loops clock).enter k (create clock p) c := by
    rcases hq with rfl | ⟨hm, rfl⟩
    · have hphase : (loops clock).phase ((loops clock).prepare p) = some k :=
        (part_create clock p).trans hk
      simp only [Loops.flat, hphase]
      rfl
    · rw [hk, create_self clock hm]
      rfl
  rw [henter, Loops.enter, show (loops clock).body k (create clock p) c =
    locate k (taken clock p c) c from rfl]
  rcases locate k (taken clock p c) c with e | ⟨t, _ | _⟩ <;> rfl

section Step
variable {clock : Nat → Clock} {p p' : MessageParser} {q q' : Option Part} {c : Byte} {m : Message}

@[simp] theorem taken_headState : (taken clock p c).headState = p.headState := by simp [taken]
@[simp] theorem taken_optionState : (taken clock p c).optionState = p.optionState := by simp [taken]
@[simp] theorem taken_bodyState : (taken clock p c).bodyState = p.bodyState := by simp [taken]
@[simp] theorem taken_tailState : (taken clock p c).tailState = p.tailState := by simp [taken]
@[simp] theorem taken_msgs : (taken clock p c).msgs = p.msgs := by simp [taken]
@[simp] theorem taken_tempBuffer : (taken clock p c).tempBuffer = p.tempBuffer ++ [c] := by
  simp [taken]
@[simp] theorem taken_tempMsg : (taken clock p c).tempMsg = (create clock p).tempMsg := rfl

theorem release_resetState (p : MessageParser) : p.resetState.release = p.resetState :=
  release_self (by simp [resetState])

/-- The end of a part: what its decoder gives decides whether the parser goes on or
starts over. -/
def settle (t : MessageParser) (done : Message → MessageParser) :
    Except Fault (Bool × Message) → Except Fault (MessageParser × Option Part)
  | .error e => .error e
  | .ok (true, m') => .ok (done m', none)
  | .ok (false, m') => .ok ({ t with tempMsg := some m' }.resetState, none)

theorem flat_head (hp : Sound p) (hq : Standing p q) (hs : p.headState < 0)
    (hm : (create clock p).tempMsg = some m) :
    (loops clock).flat (p, q) (some c) = match headNext p.headState c with
      | .error _ => .ok ((taken clock p c).resetState, some .head)
      | .ok s =>
        if s ≠ 0 then .ok ({ taken clock p c with headState := s }, some .head)
        else settle (taken clock p c)
          (fun m' => { taken clock p c with headState := 0, tempMsg := some m', tempBuffer := [] })
          (decodeMessageHead (p.tempBuffer ++ [c]) m) := by
  have hk : p.part = some .head := by simp [part, hs]
  have ht : (taken clock p c).tailState ≠ 0 := by have := hp.tail; simp; omega
  have hloc :=
    @locateHead_eq (taken clock p c) c m hm (by simpa using hp.head.1) (by simpa using hs)
  rw [flat_enter hq hk, show locate .head (taken clock p c) c = _ from hloc,
    show headNext (taken clock p c).headState c = headNext p.headState c by simp,
    show decodeMessageHead (taken clock p c).tempBuffer m =
      decodeMessageHead (p.tempBuffer ++ [c]) m by simp]
  cases headNext p.headState c with
  | error e => rfl
  | ok s =>
    by_cases h0 : s = 0
    · simp only [h0, ne_eq, not_true, if_false]
      rcases decodeMessageHead (p.tempBuffer ++ [c]) m with e | ⟨_ | _, m'⟩
      · rfl
      · rfl
      · exact congrArg (fun t => Except.ok (t, none)) (release_self ht)
    · simp only [ne_eq, h0, not_false_iff, if_true]

theorem flat_option (hp : Sound p) (hq : Standing p q) (hs : p.headState = 0)
    (ho : p.optionState < 0) (hm : (create clock p).tempMsg = some m) :
    (loops clock).flat (p, q) (some c) = match optionNext p.optionState c with
      | .error _ => .ok ((taken clock p c).resetState, none)
      | .ok s =>
        if s ≠ 0 then .ok ({ taken clock p c with optionState := s }, some .option)
        else settle (taken clock p c)
          (fun m' =>
            { taken clock p c with optionState := 0, tempMsg := some m', tempBuffer := [] })
          (decodeMessageOption (p.tempBuffer ++ [c]) m) := by
  have hk : p.part = some .option := by simp [part, hs, ho]
  have ht : (taken clock p c).tailState ≠ 0 := by have := hp.tail; simp; omega
  have hloc :=
    @locateOption_eq (taken clock p c) c m hm (by simpa using hp.option.1) (by simpa using ho)
  rw [flat_enter hq hk, show locate .option (taken clock p c) c = _ from hloc,
    show optionNext (taken clock p c).optionState c = optionNext p.optionState c by simp,
    show decodeMessageOption (taken clock p c).tempBuffer m =
      decodeMessageOption (p.tempBuffer ++ [c]) m by simp]
  cases optionNext p.optionState c with
  | error e => rfl
  | ok s =>
    by_cases h0 : s = 0
    · simp only [h0, ne_eq, not_true, if_false]
      rcases decodeMessageOption (p.tempBuffer ++ [c]) m with e | ⟨_ | _, m'⟩
      · rfl
      · rfl
      · exact congrArg (fun t => Except.ok (t, none)) (release_self ht)
    · simp only [ne_eq, h0, not_false_iff, if_true]

theorem flat_body (hp : Sound p) (hq : Standing p q) (hs : p.headState = 0)
    (ho : p.optionState = 0) (hb : p.bodyState ≠ 0) (hm : (create clock p).tempMsg = some m) :
    (loops clock).flat (p, q) (some c) = match bodyCount p m with
      | .error e => .error e
      | .ok n =>
        if n ≠ 1 then
          .ok ({ taken clock p c with bodyState := if 1 < n then n - 1 else n }, some .body)
        else if c ≠ lf then .ok ((taken clock p c).resetState, none)
        else settle (taken clock p c)
          (fun m' => { taken clock p c with bodyState := 0, tempMsg := some m', tempBuffer := [] })
          (decodeMessageBody (p.tempBuffer ++ [c]) m) := by
  have hk : p.part = some .body := by simp [part, hs, ho, hb]
  have ht : (taken clock p c).tailState ≠ 0 := by have := hp.tail; simp; omega
  have hloc := @locateBody_eq (taken clock p c) c m hm
  rw [flat_enter hq hk, show locate .body (taken clock p c) c = _ from hloc,
    show bodyCount (taken clock p c) m = bodyCount p m by simp [bodyCount],
    show decodeMessageBody (taken clock p c).tempBuffer m =
      decodeMessageBody (p.tempBuffer ++ [c]) m by simp]
  cases bodyCount p m with
  | error e => rfl
  | ok n =>
    rcases lt_trichotomy n 1 with hn | rfl | hn
    · simp [hn, hn.ne, show ¬ 1 < n by omega]
    · by_cases hc : c = lf
      · simp only [hc, ne_eq, not_true, if_false, lt_irrefl]
        rcases decodeMessageBody (p.tempBuffer ++ [lf]) m with e | ⟨_ | _, m'⟩
        · rfl
        · rfl
        · exact congrArg (fun t => Except.ok (t, none)) (release_self (hc ▸ ht))
      · simp [hc, release_resetState]
    · simp [hn, hn.ne']

theorem flat_tail (hp : Sound p) (hq : Standing p q) (hs : p.headState = 0)
    (ho : p.optionState = 0) (hb : p.bodyState = 0) (hm : (create clock p).tempMsg = some m) :
    (loops clock).flat (p, q) (some c) = match tailNext p.tailState c with
      | .error _ => .ok ((taken clock p c).resetState, none)
      | .ok s =>
        if s ≠ 0 then .ok ({ taken clock p c with tailState := s }, some .tail)
        else settle (taken clock p c)
          (fun m' => { taken clock p c with msgs := p.msgs ++ [m'], tempMsg := none }.resetState)
          (decodeMessageTail (p.tempBuffer ++ [c]) m) := by
  have ht := hp.tail
  have hk : p.part = some .tail := by simp [part, hs, ho, hb]; omega
  have hloc := @locateTail_eq (taken clock p c) c m hm (by simpa using ht.1) (by simpa using ht.2)
  rw [flat_enter hq hk, show locate .tail (taken clock p c) c = _ from hloc,
    show tailNext (taken clock p c).tailState c = tailNext p.tailState c by simp,
    show decodeMessageTail (taken clock p c).tempBuffer m =
      decodeMessageTail (p.tempBuffer ++ [c]) m by simp]
  cases tailNext p.tailState c with
  | error e => rfl
  | ok s =>
    by_cases h0 : s = 0
    · simp only [h0, ne_eq, not_true, if_false]
      rcases decodeMessageTail (p.tempBuffer ++ [c]) m with e | ⟨_ | _, m'⟩
      · rfl
      · rfl
      · simp [settle, release, resetState]
    · simp only [ne_eq, h0, not_false_iff, if_true]

theorem flat_overrun (hq : Overrun p q) :
    (loops clock).flat (p, q) (some c) = .ok (p.push c, q) := by
  obtain ⟨rfl, -, -, hb⟩ := hq
  have hsize : locateSize (p.push c) = .ok (some (p.push c)) := by
    simp [locateSize, hb, pure, Except.pure]
  have hloc : locateBody (p.push c) c = .ok (p.push c, false) := by
    rw [locateBody, hsize]
    simp [hb, bind, Except.bind, pure, Except.pure]
  change (loops clock).enter .body p c = _
  rw [Loops.enter, show (loops clock).body .body p c = _ from hloc]

theorem settle_ok {t : MessageParser} {done : Message → MessageParser}
    {r : Except Fault (Bool × Message)} (h : settle t done r = .ok (p', q')) :
    q' = none ∧ ((∃ m', r = .ok (true, m') ∧ p' = done m') ∨
      ∃ m', r = .ok (false, m') ∧ p' = { t with tempMsg := some m' }.resetState) := by
  rcases r with e | ⟨_ | _, m'⟩
  · cases h
  · cases h
    exact ⟨rfl, Or.inr ⟨m', rfl, rfl⟩⟩
  · cases h
    exact ⟨rfl, Or.inl ⟨m', rfl, rfl⟩⟩

/-- A step of the flat loops, away from an overrun, is one of the cases of `Step`. -/
theorem step_of_flat (hp : Sound p) (hq : Standing p q)
    (h : (loops clock).flat (p, q) (some c) = .ok (p', q')) : Step clock p c p' q' := by
  obtain ⟨m, hm⟩ := create_some clock p
  rcases part_cases hp with ⟨-, hs⟩ | ⟨-, hs, ho⟩ | ⟨-, hs, ho, hb⟩ | ⟨-, hs, ho, hb⟩
  · rw [flat_head hp hq hs hm] at h
    cases hn : headNext p.headState c with
    | error e => rw [hn] at h; cases h; exact .headBroken hs hn
    | ok s =>
      simp only [hn] at h
      split at h
      · cases h; exact .head hs hn ‹_›
      · rename_i h0
        obtain rfl : s = 0 := not_not.mp h0
        obtain ⟨rfl, ⟨m', hd, rfl⟩ | ⟨m', hd, rfl⟩⟩ := settle_ok h
        · exact .headDone hs hn hm hd
        · exact .headFailed hs hn hm hd
  · rw [flat_option hp hq hs ho hm] at h
    cases hn : optionNext p.optionState c with
    | error e => rw [hn] at h; cases h; exact .optionBroken hs ho hn
    | ok s =>
      simp only [hn] at h
      split at h
      · cases h; exact .option hs ho hn ‹_›
      · rename_i h0
        obtain rfl : s = 0 := not_not.mp h0
        obtain ⟨rfl, ⟨m', hd, rfl⟩ | ⟨m', hd, rfl⟩⟩ := settle_ok h
        · exact .optionDone hs ho hn hm hd
        · exact .optionFailed hs ho hn hm hd
  · rw [flat_body hp hq hs ho hb hm] at h
    cases hn : bodyCount p m with
    | error e => rw [hn] at h; cases h
    | ok n =>
      simp only [hn] at h
      split at h
      · cases h; exact .body hs ho hb hm hn ‹_›
      · rename_i h1
        obtain rfl : n = 1 := not_not.mp h1
        split at h
        · cases h; exact .bodyBroken hs ho hb hm hn ‹_›
        · rename_i hc
          obtain ⟨rfl, ⟨m', hd, rfl⟩ | ⟨m', hd, rfl⟩⟩ := settle_ok h
          · exact .bodyDone hs ho hb hm hn (not_not.mp hc) hd
          · exact .bodyFailed hs ho hb hm hn (not_not.mp hc) hd
  · rw [flat_tail hp hq hs ho hb hm] at h
    cases hn : tailNext p.tailState c with
    | error e => rw [hn] at h; cases h; exact .tailBroken hs ho hb hn
    | ok s =>
      simp only [hn] at h
      split at h
      · cases h; exact .tail hs ho hb hn ‹_›
      · rename_i h0
        obtain rfl : s = 0 := not_not.mp h0
        obtain ⟨rfl, ⟨m', hd, rfl⟩ | ⟨m', hd, rfl⟩⟩ := settle_ok h
        · exact .tailDone hs ho hb hn hm hd
        · exact .tailFailed hs ho hb hn hm hd

theorem flat_of_step (hp : Sound p) (hq : Standing p q) (h : Step clock p c p' q') :
    (loops clock).flat (p, q) (some c) = .ok (p', q') := by
  obtain ⟨m, hm⟩ := create_some clock p
  cases h with
  | head hs hn h0 => rw [flat_head hp hq hs hm, hn]; simp [h0]
  | headBroken hs hn => rw [flat_head hp hq hs hm, hn]
  | headDone hs hn hm' hd => rw [flat_head hp hq hs hm', hn, hd]; rfl
  | headFailed hs hn hm' hd => rw [flat_head hp hq hs hm', hn, hd]; rfl
  | option hs ho hn h0 => rw [flat_option hp hq hs ho hm, hn]; simp [h0]
  | optionBroken hs ho hn => rw [flat_option hp hq hs ho hm, hn]
  | optionDone hs ho hn hm' hd => rw [flat_option hp hq hs ho hm', hn, hd]; rfl
  | optionFailed hs ho hn hm' hd => rw [flat_option hp hq hs ho hm', hn, hd]; rfl
  | body hs ho hb hm' hn h1 => rw [flat_body hp hq hs ho hb hm', hn]; simp [h1]
  | bodyBroken hs ho hb hm' hn hc => rw [flat_body hp hq hs ho hb hm', hn]; simp [hc]
  | bodyDone hs ho hb hm' hn hc hd => rw [flat_body hp hq hs ho hb hm', hn, hd]; simp [hc, settle]
  | bodyFailed hs ho hb hm' hn hc hd => rw [flat_body hp hq hs ho hb hm', hn, hd]; simp [hc, settle]
  | tail hs ho hb hn h0 => rw [flat_tail hp hq hs ho hb hm, hn]; simp [h0]
  | tailBroken hs ho hb hn => rw [flat_tail hp hq hs ho hb hm, hn]
  | tailDone hs ho hb hn hm' hd => rw [flat_tail hp hq hs ho hb hm', hn, hd]; rfl
  | tailFailed hs ho hb hn hm' hd => rw [flat_tail hp hq hs ho hb hm', hn, hd]; rfl

theorem Step.resets (p : MessageParser) : Sound p.resetState := by
  constructor <;> simp [resetState]

/-- A step keeps the counters in order. -/
theorem Step.sound (hp : Sound p) (h : Step clock p c p' q') : Sound p' := by
  obtain ⟨hh, ho, ht, hih, hio, hib, hmsg⟩ := hp
  have hcreated : (taken clock p c).tempMsg ≠ none := by
    obtain ⟨m, hm⟩ := create_some clock p
    simp [hm]
  cases h with
  | head hs hn h0 =>
    have := headNext_ok hn
    constructor <;> simp_all
    omega
  | headDone hs hn hm hd =>
    obtain ⟨ho', hb'⟩ := hih hs
    constructor <;> simp_all
  | option hs ho' hn h0 =>
    have := optionNext_ok hn
    constructor <;> simp_all
    omega
  | optionDone hs ho' hn hm hd =>
    constructor <;> simp_all
  | body hs ho' hb hm hn h1 => constructor <;> simp_all
  | bodyDone hs ho' hb hm hn hc hd => constructor <;> simp_all
  | tail hs ho' hb hn h0 =>
    have := tailNext_ok hn
    constructor <;> simp_all
    omega
  | _ => exact Step.resets _

/-- A step leaves the parser before a round or in the loop of its part, unless the body
loop has just found its count at 0. -/
theorem Step.standing (h : Step clock p c p' q') :
    Standing p' q' ∨ (Overrun p' q' ∧ p.headState = 0 ∧ p.optionState = 0 ∧ p.bodyState ≠ 0 ∧
      ∃ m, (create clock p).tempMsg = some m ∧ bodyCount p m = .ok 0) := by
  obtain ⟨m, hm⟩ := create_some clock p
  have hne : (taken clock p c).tempMsg ≠ none := by simp [hm]
  cases h with
  | head hs hn h0 =>
    have := headNext_ok hn
    exact Or.inl (Or.inr ⟨hne, by simp [part]; omega⟩)
  | headBroken hs hn => exact Or.inl (Or.inr ⟨by simp [resetState, hm], by simp [part, resetState]⟩)
  | option hs ho hn h0 =>
    have := optionNext_ok hn
    exact Or.inl (Or.inr ⟨hne, by simp [part, hs]; omega⟩)
  | body hs ho hb hm hn h1 =>
    rename_i n
    by_cases h0 : n = 0
    · subst h0
      exact Or.inr ⟨⟨rfl, by simp [hs], by simp [ho], by simp⟩, hs, ho, hb, _, hm, hn⟩
    · exact Or.inl (Or.inr ⟨hne, by simp [part, hs, ho]; omega⟩)
  | tail hs ho hb hn h0 =>
    have := tailNext_ok hn
    exact Or.inl (Or.inr ⟨hne, by simp [part, hs, ho, hb]; omega⟩)
  | _ => exact Or.inl (Or.inl rfl)

end Step

/-- What holds of the parser at every byte of every run. -/
def Good (st : MessageParser × Option Part) : Prop :=
  Sound st.1 ∧ (Standing st.1 st.2 ∨ Overrun st.1 st.2)

section Runs
variable {clock : Nat → Clock} {p p' : MessageParser} {q : Option Part}

theorem Good.start (hp : Sound p) : Good (p, none) :=
  ⟨hp, Or.inl (Or.inl rfl)⟩

theorem sound_initial : Sound {} := by
  constructor <;> simp

theorem Good.close (clock : Nat → Clock) {st : (loops clock).Point} (h : Good st) :
    (loops clock).close st = st.1 := by
  obtain ⟨p, q⟩ := st
  have ht := h.1.tail
  cases q with
  | none => rfl
  | some k => exact release_self (by simp only at ht; omega)

/-- An overrun is in the body, with nothing left to count. -/
theorem Good.stands {q : Option Part} (h : Good (p, q)) (hp : p.headState ≠ 0 ∨ p.bodyState ≠ 0) :
    Standing p q := by
  rcases h.2 with hq | ⟨-, hh, -, hb⟩
  · exact hq
  · rcases hp with hp | hp
    · exact absurd hh hp
    · exact absurd hb hp

theorem Good.step {st st' : (loops clock).Point} {o : Option Byte} (h : Good st)
    (hf : (loops clock).flat st o = .ok st') : Good st' := by
  obtain ⟨p, q⟩ := st
  obtain ⟨p', q'⟩ := st'
  cases o with
  | none =>
    have hclose := h.close clock
    cases hf
    rw [hclose]
    exact Good.start h.1
  | some c =>
    rcases h.2 with hq | hq
    · have hstep := step_of_flat h.1 hq hf
      exact ⟨hstep.sound h.1, hstep.standing.imp_right And.left⟩
    · rw [flat_overrun hq] at hf
      cases hf
      exact ⟨⟨h.1.head, h.1.option, h.1.tail, h.1.inHead, h.1.inOption, h.1.inBody, h.1.message⟩,
        Or.inr hq⟩

theorem Good.run {st st' : (loops clock).Point} {os : List (Option Byte)} (h : Good st)
    (hr : run (loops clock).flat st os = .ok st') : Good st' :=
  run_invariant (fun _ _ _ hg hf => Good.step hg hf) h hr

theorem parse_eq_consume (clock : Nat → Clock) (p : MessageParser) {w : Bytes}
    (hw : w.length < 2 ^ 31) : parse clock p w = consume clock p w := by
  simp only [parse, fill, hw, if_true]
  rfl

theorem parse_overflow (clock : Nat → Clock) (p : MessageParser) {w : Bytes}
    (hw : ¬w.length < 2 ^ 31) : parse clock p w = .error .overflow := by
  simp only [parse, fill, hw, if_false]
  rfl

theorem parse_ok {w : Bytes} : parse clock p w = .ok p' ↔
    w.length < 2 ^ 31 ∧ consume clock p w = .ok p' := by
  by_cases hw : w.length < 2 ^ 31
  · rw [parse_eq_consume clock p hw]
    exact ⟨fun h => ⟨hw, h⟩, And.right⟩
  · rw [parse_overflow clock p hw]
    exact ⟨fun h => (by cases h), fun h => absurd h.1 hw⟩

/-- Calls that return have counted their bytes and emptied their queues. -/
theorem parseAll_ok {chunks : List Bytes} : parseAll clock p chunks = .ok p' ↔
    (∀ w ∈ chunks, w.length < 2 ^ 31) ∧ Library.run (consume clock) p chunks = .ok p' := by
  induction chunks generalizing p with
  | nil => simp [parseAll]
  | cons w chunks ih =>
    constructor
    · intro h
      obtain ⟨t, hfirst, hrest⟩ := run_cons_inv h
      obtain ⟨hw, hconsume⟩ := parse_ok.mp hfirst
      obtain ⟨hall, hrun⟩ := ih.mp hrest
      exact ⟨List.forall_mem_cons.mpr ⟨hw, hall⟩, (run_cons_ok hconsume chunks).trans hrun⟩
    · intro h
      obtain ⟨hall, hrun⟩ := h
      obtain ⟨hw, hall⟩ := List.forall_mem_cons.mp hall
      obtain ⟨t, hconsume, hrest⟩ := run_cons_inv hrun
      have hfirst : parse clock p w = .ok t := parse_ok.mpr ⟨hw, hconsume⟩
      exact (run_cons_ok hfirst chunks).trans (ih.mpr ⟨hall, hrest⟩)

/-- A queue that is emptied is a run over its bytes. -/
theorem consume_ok (hp : Sound p) {w : Bytes} : consume clock p w = .ok p' ↔
    ∃ q, run (loops clock).flat (p, none) (w.map some) = .ok (p', q) := by
  rw [consume, Loops.exec_ok]
  constructor
  · rintro ⟨⟨t, q⟩, hr, rfl⟩
    exact ⟨q, by rw [((Good.start hp).run hr).close clock, hr]⟩
  · rintro ⟨q, hr⟩
    exact ⟨(p', q), hr, ((Good.start hp).run hr).close clock⟩

theorem parse_sound (hp : Sound p) {w : Bytes} (h : parse clock p w = .ok p') : Sound p' := by
  obtain ⟨q, hr⟩ := (consume_ok hp).mp (parse_ok.mp h).2
  exact ((Good.start hp).run hr).1

theorem parseAll_sound (hp : Sound p) {chunks : List Bytes}
    (h : parseAll clock p chunks = .ok p') : Sound p' :=
  run_invariant (fun _ _ _ hs ht => parse_sound hs ht) hp h

theorem reachable_sound (h : Reachable clock p) : Sound p := by
  obtain ⟨chunks, h⟩ := h
  exact parseAll_sound sound_initial h

end Runs

end NetCpp.Proofs
