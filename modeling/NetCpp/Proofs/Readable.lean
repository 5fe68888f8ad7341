import NetCpp.Proofs.Chunking

namespace NetCpp.Proofs
open Library Message MessageFactory MessageParser

/-- A text that ends inside of what is expected. -/
def Truncated (cs raw : Bytes) : Prop := raw <+: cs ∧ raw ≠ cs

/-- A text that goes on, or differs in a byte that is there. -/
def Differs (cs raw : Bytes) : Prop := ¬ raw <+: cs ∧ ¬ cs <+: raw

theorem expect_returns {cs raw : Bytes} : (∃ r, expect cs raw = .ok r) ↔ ¬ Truncated cs raw := by
  constructor
  · intro h ht
    obtain ⟨r, hr⟩ := h
    rw [expect_error.mpr ⟨ht, rfl⟩] at hr
    cases hr
  · intro h
    cases he : expect cs raw with
    | error e => exact absurd (expect_error.mp he).1 h
    | ok r => exact ⟨r, rfl⟩

theorem expect_none {cs raw : Bytes} : expect cs raw = .ok none ↔ Differs cs raw := by
  constructor
  · intro h
    have hcs : ¬ cs <+: raw := by
      intro hp
      obtain ⟨rest, rfl⟩ := hp
      rw [expect_append] at h
      cases h
    refine ⟨fun hp => ?_, hcs⟩
    by_cases he : raw = cs
    · exact hcs (he ▸ List.prefix_rfl)
    · rw [expect_error.mpr ⟨⟨hp, he⟩, rfl⟩] at h
      cases h
  · intro h
    obtain ⟨r, hr⟩ := expect_returns.mpr (fun ht : Truncated cs raw => h.1 ht.1)
    cases r with
    | none => exact hr
    | some rest => exact absurd ⟨rest, (expect_some.mp hr).symm⟩ h.2

theorem accepted_returns {x : Decoded} : (∃ r, accepted x = .ok r) ↔ ∃ r, x = .ok r := by
  cases x with
  | error e => simp [accepted, Except.map]
  | ok r => simp [accepted, Except.map]

/-- A head line that `decode_head` reads without a fault: it is no head, or the version
is another one, or its three fields are numbers. -/
inductive HeadReadable : Bytes → Prop where
  | foreign {raw : Bytes} (h : Differs (msgHead ++ [space]) raw) : HeadReadable raw
  | version {s rest : Bytes} {n : Int} (hs : space ∉ s) (hn : stoi s = .ok n)
      (hv : Int16.ofInt n ≠ msgVersion) :
      HeadReadable (msgHead ++ [space] ++ (s ++ space :: rest))
  | line {s sType sTid rest : Bytes} {n nType nTid : Int} (hs : space ∉ s) (hn : stoi s = .ok n)
      (hst : space ∉ sType) (hnt : stoi sType = .ok nType) (hsi : cr ∉ sTid)
      (hni : stoi sTid = .ok nTid) (hrest : rest ≠ []) :
      HeadReadable (msgHead ++ [space] ++
        (s ++ space :: (sType ++ space :: (sTid ++ cr :: rest))))

theorem expect_lf {rest : Bytes} : (∃ r, expect [lf] rest = .ok r) ↔ rest ≠ [] := by
  rw [expect_returns]
  cases rest with
  | nil => simp [Truncated]
  | cons b rest =>
    simp only [Truncated, not_and, not_not, ne_eq, reduceCtorEq, not_false_iff, iff_true]
    intro h
    obtain ⟨rest', hr⟩ := h
    have := List.append_eq_nil_iff.mp (List.cons.inj hr).2
    rw [(List.cons.inj hr).1, this.1]

theorem decodeHead_returns {raw : Bytes} {m : Message} :
    (∃ r, decodeHead raw m = .ok r) ↔ HeadReadable raw := by
  constructor
  · intro h
    obtain ⟨r, h⟩ := h
    obtain ⟨r₁, hr₁, h⟩ := bind_ok h
    cases r₁ with
    | none => exact .foreign (expect_none.mp hr₁)
    | some rest =>
      obtain ⟨⟨s, rest₁⟩, hread, h⟩ := bind_ok h
      obtain ⟨n, hn, h⟩ := bind_ok h
      obtain rfl := expect_some.mp hr₁
      obtain ⟨rfl, hs⟩ := readUntil_ok.mp hread
      by_cases hv : Int16.ofInt n = msgVersion
      · simp only [hv, ne_eq, not_true, if_false] at h
        obtain ⟨⟨sType, rest₂⟩, hreadType, h⟩ := bind_ok h
        obtain ⟨nType, hnt, h⟩ := bind_ok h
        obtain ⟨⟨sTid, rest₃⟩, hreadTid, h⟩ := bind_ok h
        obtain ⟨nTid, hni, h⟩ := bind_ok h
        obtain ⟨r₂, hr₂, h⟩ := bind_ok h
        obtain ⟨rfl, hst⟩ := readUntil_ok.mp hreadType
        obtain ⟨rfl, hsi⟩ := readUntil_ok.mp hreadTid
        exact .line hs hn hst hnt hsi hni (expect_lf.mp ⟨r₂, hr₂⟩)
      · exact .version hs hn hv
  · intro h
    cases h with
    | foreign h =>
      rw [decodeHead, expect_none.mpr h]
      exact ⟨_, rfl⟩
    | version hs hn hv =>
      rw [decodeHead, expect_append]
      simp only [readUntil_append hs, hn, bind, Except.bind, ne_eq, hv, not_false_iff, if_true]
      exact ⟨_, rfl⟩
    | @line s sType sTid rest n nType nTid hs hn hst hnt hsi hni hrest =>
      rw [decodeHead, expect_append]
      simp only [readUntil_append hs, readUntil_append hst, readUntil_append hsi, hn, hnt,
        hni, bind, Except.bind]
      by_cases hv : Int16.ofInt n = msgVersion
      · obtain ⟨r, hr⟩ := expect_lf.mpr hrest
        simp only [hv, ne_eq, not_true, if_false, hr]
        cases r <;> exact ⟨_, rfl⟩
      · simp only [hv, ne_eq, not_false_iff, if_true]
        exact ⟨_, rfl⟩

/-- A checksum line behind `pre` that `decode_options` reads without a fault. With nothing
in `pre` there is no index of a last byte, and the line is not readable. -/
def ChecksumReadable (pre rest : Bytes) : Prop :=
  ∃ s t, rest = s ++ cr :: t ∧ cr ∉ s ∧ (Differs [lf] t ∨ ∃ t' n k, t = lf :: t' ∧
    stoi s = .ok n ∧ hashOf pre = .ok k ∧ (k = Int16.ofInt n → ¬ Truncated crlf t'))

/-- Option lines behind `pre` that `decode_options` reads without a fault: line after line
up to a checksum that is readable, or to a line that is refused. -/
inductive LinesReadable : Bytes → Bytes → Prop where
  | checksum {pre rest : Bytes} {c : Byte} (hc : c ≠ quote) (h : ChecksumReadable pre (c :: rest)) :
      LinesReadable pre (c :: rest)
  | separator {pre key line : Bytes} (hk : quote ∉ key) (h : Differs [colon, quote] line) :
      LinesReadable pre (quote :: (key ++ quote :: line))
  | ending {pre key value line : Bytes} (hk : quote ∉ key) (hv : quote ∉ value)
      (h : Differs crlf line) :
      LinesReadable pre (quote :: (key ++ quote :: ([colon, quote] ++ (value ++ quote :: line))))
  | line {pre key value rest : Bytes} (hk : quote ∉ key) (hv : quote ∉ value)
      (h : LinesReadable (pre ++ optionLine ⟨key, value⟩) rest) :
      LinesReadable pre
        (quote :: (key ++ quote :: ([colon, quote] ++ (value ++ quote :: (crlf ++ rest)))))

theorem decodeChecksum_returns {pre rest : Bytes} {m : Message} :
    (∃ r, decodeChecksum (pre ++ rest) rest m = .ok r) ↔ ChecksumReadable pre rest := by
  have hidx : (((pre ++ rest).length : Int) - rest.length - 1) = pre.length - 1 := by
    rw [List.length_append]
    push_cast
    omega
  unfold decodeChecksum
  rw [hidx]
  constructor
  · intro h
    obtain ⟨r, h⟩ := h
    obtain ⟨⟨s, t⟩, hread, h⟩ := bind_ok h
    obtain ⟨r₁, hr₁, h⟩ := bind_ok h
    obtain ⟨rfl, hs⟩ := readUntil_ok.mp hread
    refine ⟨s, t, rfl, hs, ?_⟩
    cases r₁ with
    | none => exact Or.inl (expect_none.mp hr₁)
    | some t' =>
      obtain ⟨n, hn, h⟩ := bind_ok h
      obtain ⟨k, hk, h⟩ := bind_ok h
      rw [calculateOptionsHash_append] at hk
      refine Or.inr ⟨t', n, k, expect_some.mp hr₁, hn, hk, ?_⟩
      intro he
      simp only [he, ne_eq, not_true, if_false] at h
      obtain ⟨r₂, hr₂, -⟩ := bind_ok h
      exact expect_returns.mp ⟨r₂, hr₂⟩
  · intro h
    obtain ⟨s, t, rfl, hs, ht | ⟨t', n, k, rfl, hn, hk, ht⟩⟩ := h
    · simp only [readUntil_append hs, expect_none.mpr ht, bind, Except.bind]
      exact ⟨_, rfl⟩
    · have hlf : expect [lf] (lf :: t') = .ok (some t') := expect_append [lf] t'
      simp only [readUntil_append hs, hlf, hn, calculateOptionsHash_append, hk, bind, Except.bind]
      by_cases he : k = Int16.ofInt n
      · obtain ⟨r, hr⟩ := expect_returns.mpr (ht he)
        simp only [he, ne_eq, not_true, if_false, hr]
        cases r <;> exact ⟨_, rfl⟩
      · simp only [ne_eq, he, not_false_iff, if_true]
        exact ⟨_, rfl⟩

/-- What follows the option lines. -/
def afterLines (raw : Bytes) : Option Bytes × Message → Decoded
  | (none, m) => .ok (none, m)
  | (some rest, m) => decodeChecksum raw rest m

theorem optionLines_returns {n : Nat} {pre rest : Bytes} {m : Message} (hn : rest.length < n) :
    (∃ r, optionLines n rest m >>= afterLines (pre ++ rest) = .ok r) ↔ LinesReadable pre rest := by
  induction n generalizing pre rest m with
  | zero => omega
  | succ n ih =>
    have hstep {key value rest' : Bytes} (hlen : rest'.length < n) (m' : Message) :
        (∃ r, optionLines n rest' m' >>= afterLines (pre ++ (quote :: (key ++ quote ::
          ([colon, quote] ++ (value ++ quote :: (crlf ++ rest')))))) = .ok r) ↔
          LinesReadable (pre ++ optionLine ⟨key, value⟩) rest' := by
      rw [← @ih (pre ++ optionLine ⟨key, value⟩) rest' m' hlen]
      simp [optionLine]
    have hshorter {key value rest' : Bytes} (hn : (quote :: (key ++ quote :: ([colon, quote] ++
        (value ++ quote :: (crlf ++ rest'))))).length < n + 1) : rest'.length < n := by
      simp only [List.length_cons, List.length_append] at hn
      omega
    constructor
    · rintro ⟨r, h⟩
      obtain ⟨r₁, hlines, hafter⟩ := bind_ok h
      cases LineRead.of_ok hlines with
      | stop hc hr =>
        rw [hr] at hafter
        exact .checksum hc (decodeChecksum_returns.mp ⟨r, hafter⟩)
      | separator hk hsep hr => exact .separator hk (expect_none.mp hsep)
      | ending hk hv hend hr => exact .ending hk hv (expect_none.mp hend)
      | @line key value rest' hk hv hrest =>
        refine .line hk hv ((hstep (hshorter hn) (m.addOption (cStr key) (cStr value))).mp ⟨r, ?_⟩)
        rw [hrest]
        exact hafter
    · intro h
      cases h with
      | checksum hc h =>
        obtain ⟨r, hr⟩ := (@decodeChecksum_returns _ _ m).mpr h
        refine ⟨r, ?_⟩
        rw [(LineRead.stop hc rfl).ok]
        exact hr
      | separator hk h =>
        refine ⟨(none, m), ?_⟩
        rw [(LineRead.separator hk (expect_none.mpr h) rfl).ok]
        rfl
      | ending hk hv h =>
        refine ⟨(none, m), ?_⟩
        rw [(LineRead.ending hk hv (expect_none.mpr h) rfl).ok]
        rfl
      | @line pre key value rest' hk hv h =>
        obtain ⟨r, hr⟩ := (hstep (hshorter hn) (m.addOption (cStr key) (cStr value))).mpr h
        obtain ⟨r₁, hlines, hafter⟩ := bind_ok hr
        refine ⟨r, ?_⟩
        rw [(LineRead.line hk hv hlines).ok]
        exact hafter

theorem decodeMessageOption_returns {raw : Bytes} {m : Message} :
    (∃ r, decodeMessageOption raw m = .ok r) ↔ LinesReadable [] raw := by
  rw [← optionLines_returns (n := raw.length + 1) (m := m) (Nat.lt_succ_self _)]
  have hafter : decodeOptions raw 0 m =
      optionLines (raw.length + 1) raw m >>= afterLines ([] ++ raw) := by
    unfold decodeOptions
    congr 1
  rw [decodeMessageOption, accepted_returns, hafter]

theorem catch_getValue_some {m : Message} {key : Bytes} {r : Option Bytes}
    (h : catchRuntimeError (m.getValue key) = .ok r) : ∃ s, r = some s ∧
    m.getValue key = .ok s := by
  rw [catch_getValue] at h
  cases hg : m.getValue key with
  | error e => rw [hg] at h; cases h
  | ok s => rw [hg] at h; cases h; exact ⟨s, rfl, rfl⟩

/-- A body with two bytes behind it, which is what the parser hands over for a size in
range, is read without a fault. -/
theorem decodeMessageBody_returns {raw : Bytes} {m : Message}
    (hlen : ∀ s n, m.getValue keySize = .ok s → stoi s = .ok n → 0 ≤ n →
      (raw.length : Int) = n + 2) :
    (∃ r, decodeMessageBody raw m = .ok r) ↔
      ∃ s n, m.getValue keySize = .ok s ∧ stoi s = .ok n ∧ 0 ≤ n := by
  rw [decodeMessageBody, accepted_returns]
  constructor
  · intro h
    obtain ⟨r, h⟩ := h
    obtain ⟨r₁, hcatch, h⟩ := bind_ok h
    obtain ⟨s, rfl, hget⟩ := catch_getValue_some hcatch
    obtain ⟨n, hn, h⟩ := bind_ok h
    by_cases hneg : n < 0
    · rw [if_pos hneg] at h
      cases h
    · exact ⟨s, n, hget, hn, by omega⟩
  · intro h
    obtain ⟨s, n, hget, hn, hpos⟩ := h
    have hl := hlen s n hget hn hpos
    have hrest : ¬ Truncated crlf (raw.drop n.toNat) := by
      intro ht
      have htwo : (raw.drop n.toNat).length = crlf.length := by
        rw [List.length_drop, show crlf.length = 2 from rfl]
        omega
      exact ht.2 (ht.1.eq_of_length htwo)
    obtain ⟨r, hr⟩ := expect_returns.mpr hrest
    have hpush : raw.drop 0 = raw := rfl
    have hcatch : catchRuntimeError (m.getValue keySize) = .ok (some s) := by
      rw [catch_getValue, hget]
      rfl
    simp only [decodeBody, hcatch, hn, bind, Except.bind, pushData, hpush]
    rw [if_neg (by omega), if_neg (by omega)]
    simp only [hr]
    cases r <;> exact ⟨_, rfl⟩

theorem decodeMessageTail_returns {raw : Bytes} {m : Message} (hlen : 3 ≤ raw.length) :
    ∃ r, decodeMessageTail raw m = .ok r := by
  rw [decodeMessageTail, accepted_returns]
  have hrest : ¬ Truncated msgTail raw := by
    intro ht
    have hle := ht.1.length_le
    exact ht.2 (ht.1.eq_of_length (by simp only [show msgTail.length = 3 from rfl] at hle ⊢; omega))
  obtain ⟨r, hr⟩ := expect_returns.mpr hrest
  have hdrop : raw.drop 0 = raw := rfl
  simp only [decodeTail, hdrop, hr, bind, Except.bind]
  cases r <;> exact ⟨_, rfl⟩

/-- How much lies in the buffer: at least the letters of the tail seen so far, and in a
body with a size in range just what is not waited for any more. -/
structure Measured (p : MessageParser) : Prop where
  tail : p.tailState + 4 ≤ p.tempBuffer.length
  body : p.optionState = 0 → p.bodyState ≠ 0 → ∀ m s n, p.tempMsg = some m →
    m.getValue keySize = .ok s → stoi s = .ok n → 0 ≤ n →
      (p.bodyState = -1 ∧ p.tempBuffer = []) ∨
        (1 ≤ p.bodyState ∧ p.bodyState + p.tempBuffer.length = n + 2)

theorem Measured.reset (p : MessageParser) : Measured p.resetState := by
  constructor <;> simp [resetState]

/-- For a size in range the count is what the buffer still lacks. -/
theorem Measured.count {p : MessageParser} {m : Message} {s : Bytes} {n k : Int} (hp : Measured p)
    (ho : p.optionState = 0) (hb : p.bodyState ≠ 0) (hm : p.tempMsg = some m)
    (hget : m.getValue keySize = .ok s) (hn : stoi s = .ok n) (hpos : 0 ≤ n)
    (hk : bodyCount p m = .ok k) : 1 ≤ k ∧ k + p.tempBuffer.length = n + 2 := by
  rcases hp.body ho hb m s n hm hget hn hpos with ⟨hb1, hbuf⟩ | ⟨hb1, hbuf⟩
  · have hu := (stoi_ok hn).2.2.2
    simp only [bodyCount, hb1, ne_eq, not_true, if_false, hget, stoul_of_stoi hn hpos, bind,
      Except.bind, pure, Except.pure] at hk
    have hkn : k = n + 2 := by
      rw [← Except.ok.inj hk, toSSizeT, Int.bmod_eq_of_le (by omega) (by omega)]
      omega
    rw [hbuf, hkn]
    simp
    omega
  · have hne : p.bodyState ≠ -1 := by omega
    simp only [bodyCount, ne_eq, hne, not_false_iff, if_true, pure, Except.pure] at hk
    have := Except.ok.inj hk
    omega

section
variable {clock : Nat → Clock} {p p' : MessageParser} {q q' : Option Part} {c : Byte}

theorem Measured.step (hs : Sound p) (hp : Measured p) (h : Step clock p c p' q') :
    Measured p' := by
  have ht := hs.tail
  cases h with
  | head hh hn h0 =>
    have ho := (hs.inHead hh).1
    refine ⟨?_, fun ho' => ?_⟩
    · have := hp.tail
      simp
      omega
    · simp [ho] at ho'
  | headDone hh hn hm hd =>
    have ho := hs.inHead hh
    have htail := hs.inBody (by omega)
    refine ⟨by simp [htail], fun ho' => ?_⟩
    simp [ho.1] at ho'
  | option hh ho hn h0 =>
    refine ⟨?_, fun ho' => absurd ho' h0⟩
    have := hp.tail
    simp
    omega
  | optionDone hh ho hn hm hd =>
    have hb := hs.inOption ho
    have htail := hs.inBody (by omega)
    exact ⟨by simp [htail], fun _ _ _ _ _ _ _ _ _ => Or.inl ⟨by simp [hb], rfl⟩⟩
  | body hh ho hb hm hn h1 =>
    rename_i m k
    have hcreate := create_self clock (hs.message hh)
    refine ⟨?_, ?_⟩
    · have := hp.tail
      simp
      omega
    · intro _ _ m' s n hm' hget hsn hpos
      obtain rfl : m = m' := Option.some.inj (hm.symm.trans hm')
      rw [hcreate] at hm
      obtain ⟨h1k, hbuf⟩ := hp.count ho hb hm hget hsn hpos hn
      have hk : 1 < k := by omega
      right
      simp only [hk, if_true, taken_tempBuffer, List.length_append, List.length_singleton]
      push_cast
      omega
  | bodyDone hh ho hb hm hn hc hd =>
    have htail := hs.inBody hb
    exact ⟨by simp [htail], fun _ hb' => absurd rfl hb'⟩
  | tail hh ho hb hn h0 =>
    have htail := hp.tail
    refine ⟨?_, fun _ hb' => ?_⟩
    · have := tailNext_ok hn
      simp
      omega
    · simp [hb] at hb'
  | _ => exact Measured.reset _

/-- What the parser needs of the next byte: a part that the byte completes is readable,
and the `size` option is there, and a number, where the body loop looks for it. -/
structure StepReadable (p : MessageParser) (c : Byte) : Prop where
  head : p.headState = -1 → c = lf → HeadReadable (p.tempBuffer ++ [c])
  option : p.headState = 0 → p.optionState = -1 → c = lf → LinesReadable [] (p.tempBuffer ++ [c])
  size : p.headState = 0 → p.optionState = 0 → p.bodyState = -1 → ∃ m s n,
    p.tempMsg = some m ∧ m.getValue keySize = .ok s ∧ stoul s = .ok n ∧ (n = 2 ^ 64 - 1 → c ≠ lf)
  body : p.headState = 0 → p.optionState = 0 → p.bodyState = 1 → c = lf → ∃ m s n,
    p.tempMsg = some m ∧ m.getValue keySize = .ok s ∧ stoi s = .ok n ∧ 0 ≤ n

theorem settle_returns {t : MessageParser} {done : Message → MessageParser}
    {x : Except Fault (Bool × Message)} :
    (∃ r, settle t done x = .ok r) ↔ ∃ r, x = .ok r := by
  rcases x with e | ⟨_ | _, m⟩ <;> simp [settle]

theorem head_returns (hs : Sound p) (hq : Standing p q) (hh : p.headState < 0) :
    (∃ st, (loops clock).flat (p, q) (some c) = .ok st) ↔
      (p.headState = -1 → c = lf → HeadReadable (p.tempBuffer ++ [c])) := by
  obtain ⟨m, hm⟩ := create_some clock p
  rw [flat_head hs hq hh hm, ← decodeHead_returns (m := m), ← accepted_returns]
  cases hn : headNext p.headState c with
  | error e =>
    simp only [Except.ok.injEq, exists_eq', true_iff]
    intro h1 hc
    rw [h1, hc] at hn
    cases hn
  | ok s =>
    by_cases h0 : s = 0
    · subst h0
      have h1 := headNext_zero.mp hn
      simp only [ne_eq, not_true, if_false, settle_returns, h1.1, h1.2, forall_const]
      rfl
    · simp only [ne_eq, h0, not_false_iff, if_true, Except.ok.injEq, exists_eq', true_iff]
      intro h1 hc
      rw [h1, hc] at hn
      exact absurd (Except.ok.inj hn).symm h0

theorem option_returns (hs : Sound p) (hq : Standing p q) (hh : p.headState = 0)
    (ho : p.optionState < 0) :
    (∃ st, (loops clock).flat (p, q) (some c) = .ok st) ↔
      (p.optionState = -1 → c = lf → LinesReadable [] (p.tempBuffer ++ [c])) := by
  obtain ⟨m, hm⟩ := create_some clock p
  rw [flat_option hs hq hh ho hm, ← decodeMessageOption_returns (m := m)]
  cases hn : optionNext p.optionState c with
  | error e =>
    simp only [Except.ok.injEq, exists_eq', true_iff]
    intro h1 hc
    rw [h1, hc] at hn
    cases hn
  | ok s =>
    by_cases h0 : s = 0
    · subst h0
      have h1 := optionNext_zero.mp hn
      simp only [ne_eq, not_true, if_false, settle_returns, h1.1, h1.2, forall_const]
    · simp only [ne_eq, h0, not_false_iff, if_true, Except.ok.injEq, exists_eq', true_iff]
      intro h1 hc
      rw [h1, hc] at hn
      exact absurd (Except.ok.inj hn).symm h0

/-- What the body decoder gets when the count is down to one byte. -/
theorem bodyEnd_returns (hmeas : Measured p) (ho : p.optionState = 0) (hb : p.bodyState ≠ 0)
    {m : Message} (hm : p.tempMsg = some m) (hn : bodyCount p m = .ok 1) :
    (∃ r, decodeMessageBody (p.tempBuffer ++ [c]) m = .ok r) ↔
      ∃ s n, m.getValue keySize = .ok s ∧ stoi s = .ok n ∧ 0 ≤ n := by
  refine decodeMessageBody_returns (fun s n hget hsn hpos => ?_)
  have hcount := (hmeas.count ho hb hm hget hsn hpos hn).2
  rw [List.length_append, List.length_singleton]
  push_cast
  omega

theorem bodyCount_start_iff {m : Message} {k : Int} (hb : p.bodyState = -1) :
    bodyCount p m = .ok k ↔
      ∃ s n, m.getValue keySize = .ok s ∧ stoul s = .ok n ∧ k = toSSizeT ((n : Int) + 2) := by
  simp only [bodyCount, hb, ne_eq, not_true, if_false]
  constructor
  · intro h
    obtain ⟨s, hget, h⟩ := bind_ok h
    obtain ⟨n, hu, h⟩ := bind_ok h
    exact ⟨s, n, hget, hu, (Except.ok.inj h).symm⟩
  · intro h
    obtain ⟨s, n, hget, hu, hk⟩ := h
    rw [hk]
    simp only [hget, hu, bind, Except.bind]
    rfl

theorem toSSizeT_one {n : Nat} (hn : n < 2 ^ 64) :
    toSSizeT ((n : Int) + 2) = 1 ↔ n = 2 ^ 64 - 1 := by
  rw [toSSizeT, Int.bmod_def]
  split <;> omega

theorem bodyStart_returns (hs : Sound p) (hq : Standing p q) (hmeas : Measured p)
    (hh : p.headState = 0) (ho : p.optionState = 0) (hb : p.bodyState = -1) :
    (∃ st, (loops clock).flat (p, q) (some c) = .ok st) ↔ ∃ m s n, p.tempMsg = some m ∧
      m.getValue keySize = .ok s ∧ stoul s = .ok n ∧ (n = 2 ^ 64 - 1 → c ≠ lf) := by
  have hb0 : p.bodyState ≠ 0 := by omega
  obtain ⟨m, hm⟩ := create_some clock p
  have hmsg : p.tempMsg = some m := by rwa [create_self clock (hs.message hh)] at hm
  rw [flat_body hs hq hh ho hb0 hm]
  constructor
  · intro h
    obtain ⟨st, h⟩ := h
    cases hn : bodyCount p m with
    | error e => rw [hn] at h; cases h
    | ok k =>
      obtain ⟨s, n, hget, hu, hk⟩ := (bodyCount_start_iff hb).mp hn
      refine ⟨m, s, n, hmsg, hget, hu, fun hmax hc => ?_⟩
      obtain rfl : k = 1 := hk.trans ((toSSizeT_one (stoul_lt hu)).mpr hmax)
      simp only [hn, ne_eq, not_true, if_false, hc] at h
      obtain ⟨s', i, hget', hi, hpos⟩ :=
        (bodyEnd_returns hmeas ho hb0 hmsg hn).mp (settle_returns.mp ⟨st, h⟩)
      obtain rfl : s = s' := Except.ok.inj (hget.symm.trans hget')
      have hsame := Except.ok.inj (hu.symm.trans (stoul_of_stoi hi hpos))
      have := (stoi_ok hi).2.2.2
      omega
  · intro h
    obtain ⟨m', s, n, hm', hget, hu, hmax⟩ := h
    obtain rfl : m = m' := Option.some.inj (hmsg.symm.trans hm')
    rw [(bodyCount_start_iff hb).mpr ⟨s, n, hget, hu, rfl⟩]
    by_cases h1 : toSSizeT ((n : Int) + 2) = 1
    · have hc : c ≠ lf := hmax ((toSSizeT_one (stoul_lt hu)).mp h1)
      simp only [h1, ne_eq, not_true, if_false, hc, not_false_iff, if_true]
      exact ⟨_, rfl⟩
    · simp only [ne_eq, h1, not_false_iff, if_true]
      exact ⟨_, rfl⟩

theorem body_returns (hs : Sound p) (hq : Standing p q) (hmeas : Measured p) (hh : p.headState = 0)
    (ho : p.optionState = 0) (hb : p.bodyState ≠ 0) (hb1 : p.bodyState ≠ -1) :
    (∃ st, (loops clock).flat (p, q) (some c) = .ok st) ↔
      (p.bodyState = 1 → c = lf → ∃ m s n, p.tempMsg = some m ∧ m.getValue keySize = .ok s ∧
        stoi s = .ok n ∧ 0 ≤ n) := by
  obtain ⟨m, hm⟩ := create_some clock p
  have hmsg : p.tempMsg = some m := by rwa [create_self clock (hs.message hh)] at hm
  have hn : bodyCount p m = .ok p.bodyState := by
    simp only [bodyCount, ne_eq, hb1, not_false_iff, if_true, pure, Except.pure]
  rw [flat_body hs hq hh ho hb hm, hn]
  by_cases h1 : p.bodyState = 1
  · rw [h1] at hn
    by_cases hc : c = lf
    · simp only [h1, ne_eq, not_true, if_false, hc, true_implies, settle_returns,
        bodyEnd_returns hmeas ho hb hmsg hn]
      constructor
      · intro h
        obtain ⟨s, n, h⟩ := h
        exact ⟨m, s, n, hmsg, h⟩
      · intro h
        obtain ⟨m', s, n, hm', h⟩ := h
        obtain rfl : m = m' := Option.some.inj (hmsg.symm.trans hm')
        exact ⟨s, n, h⟩
    · simp [h1, hc]
  · simp [h1]

theorem tail_returns (hs : Sound p) (hq : Standing p q) (hmeas : Measured p) (hh : p.headState = 0)
    (ho : p.optionState = 0) (hb : p.bodyState = 0) :
    ∃ st, (loops clock).flat (p, q) (some c) = .ok st := by
  obtain ⟨m, hm⟩ := create_some clock p
  rw [flat_tail hs hq hh ho hb hm]
  cases hn : tailNext p.tailState c with
  | error e => exact ⟨_, rfl⟩
  | ok s =>
    by_cases h0 : s = 0
    · have ht : p.tailState = -2 := by
        have := tailNext_ok hn
        omega
      have hbuf := hmeas.tail
      have hlen : 3 ≤ (p.tempBuffer ++ [c]).length := by
        rw [List.length_append, List.length_singleton]
        omega
      simp only [h0, ne_eq, not_true, if_false]
      exact settle_returns.mpr (decodeMessageTail_returns hlen)
    · simp only [ne_eq, h0, not_false_iff, if_true]
      exact ⟨_, rfl⟩

/-- A byte is taken without a fault if and only if it finds what it needs. -/
theorem step_returns (hs : Sound p) (hq : Standing p q) (hmeas : Measured p) :
    (∃ st, (loops clock).flat (p, q) (some c) = .ok st) ↔ StepReadable p c := by
  rcases part_cases hs with ⟨-, hh⟩ | ⟨-, hh, ho⟩ | ⟨-, hh, ho, hb⟩ | ⟨-, hh, ho, hb⟩
  · rw [head_returns hs hq hh]
    exact ⟨fun h => ⟨h, by omega, by omega, by omega⟩, fun h => h.head⟩
  · rw [option_returns hs hq hh ho]
    exact ⟨fun h => ⟨by omega, fun _ => h, by omega, by omega⟩, fun h => h.option hh⟩
  · by_cases hb1 : p.bodyState = -1
    · rw [bodyStart_returns hs hq hmeas hh ho hb1]
      exact ⟨fun h => ⟨by omega, by omega, fun _ _ _ => h, by omega⟩, fun h => h.size hh ho hb1⟩
    · rw [body_returns hs hq hmeas hh ho hb hb1]
      exact ⟨fun h => ⟨by omega, by omega, by omega, fun _ _ => h⟩, fun h => h.body hh ho⟩
  · have ht := @tail_returns clock p q c hs hq hmeas hh ho hb
    exact ⟨fun _ => ⟨by omega, by omega, by omega, by omega⟩, fun _ => ht⟩

/-- Between two bytes of a run: where the parser stands, and what is in its buffer. -/
def Fed (clock : Nat → Clock) (past : List (Option Byte)) (st : (loops clock).Point) : Prop :=
  Good st ∧ Measured st.1 ∧ run (loops clock).flat ({}, none) past = .ok st

theorem Fed.start : Fed clock [] ({}, none) :=
  ⟨Good.start sound_initial, ⟨by decide, fun h => absurd h (by decide)⟩, rfl⟩

theorem Fed.step {past : List (Option Byte)} {o : Option Byte} {st st' : (loops clock).Point}
    (h : Fed clock past st) (hf : (loops clock).flat st o = .ok st') :
    Fed clock (past ++ [o]) st' := by
  obtain ⟨hgood, hmeas, hrun⟩ := h
  refine ⟨hgood.step hf, ?_, ?_⟩
  · obtain ⟨p, q⟩ := st
    obtain ⟨p', q'⟩ := st'
    cases o with
    | none =>
      have hclose := hgood.close clock
      cases hf
      rw [hclose]
      exact hmeas
    | some c =>
      rcases hgood.2 with hq | hq
      · exact hmeas.step hgood.1 (step_of_flat hgood.1 hq hf)
      · have hb := hq.2.2.2
        rw [flat_overrun hq] at hf
        cases hf
        refine ⟨?_, fun _ h => absurd hb h⟩
        have htail := hmeas.tail
        simp only [push_tailState, push_tempBuffer, List.length_append,
          List.length_singleton] at htail ⊢
        push_cast
        omega
  · rw [run_append_ok hrun, run_singleton, hf]

theorem run_fed {past : List (Option Byte)} {st : (loops clock).Point}
    (h : run (loops clock).flat ({}, none) past = .ok st) : Fed clock past st := by
  have := run_history (I := Fed clock)
    (fun past o rest s t _ hs ht => Fed.step hs ht) (List.nil_append past).symm Fed.start h
  exact this

/-- The bytes of a chunk up to some byte, as a chunk of their own. -/
theorem consume_upTo {pre : List Bytes} {a : Bytes} {st : (loops clock).Point}
    (h : run (loops clock).flat ({}, none) (Loops.feed pre ++ a.map some) = .ok st) :
    run (consume clock) {} (pre ++ [a]) = .ok p ↔ st.1 = p := by
  have hfeed : Loops.feed (pre ++ [a]) = (Loops.feed pre ++ a.map some) ++ [none] := by
    simp [Loops.feed]
  have hclose := (run_fed h).1.close clock
  unfold consume
  rw [Loops.run_exec_ok, hfeed, run_append_ok h, run_singleton]
  simp [Loops.flat, hclose]

/-- The queues are emptied, with no read outside of a buffer, if and only if each byte finds
what it needs in the state that the bytes before it have led to. -/
theorem consume_returns (clock : Nat → Clock) (chunks : List Bytes) :
    (∃ p, run (consume clock) {} chunks = .ok p) ↔
      ∀ pre a c b post p, chunks = pre ++ (a ++ c :: b) :: post →
        run (consume clock) {} (pre ++ [a]) = .ok p → StepReadable p c := by
  constructor
  · intro h pre a c b post p hcut hp
    obtain ⟨p', h⟩ := h
    obtain ⟨q', hrun⟩ := (loops clock).run_exec_ok.mp h
    have hfeed : Loops.feed chunks = (Loops.feed pre ++ a.map some) ++
        some c :: (b.map some ++ none :: Loops.feed post) := by
      rw [hcut, Loops.feed_append]
      simp [Loops.feed]
    rw [hfeed] at hrun
    obtain ⟨st, hpast, hrun⟩ := run_append_inv hrun
    obtain ⟨st', hstep, -⟩ := run_cons_inv hrun
    obtain ⟨hgood, hmeas, -⟩ := run_fed hpast
    obtain rfl := (consume_upTo hpast).mp hp
    rcases hgood.2 with hq | hq
    · exact (step_returns hgood.1 hq hmeas).mp ⟨st', hstep⟩
    · obtain ⟨-, hh, ho, hb⟩ := hq
      exact ⟨by omega, by omega, by omega, by omega⟩
  · intro h
    have hall : ∃ st, run (loops clock).flat ({}, none) (Loops.feed chunks) = .ok st ∧
        Fed clock (Loops.feed chunks) st := by
      refine run_total (I := Fed clock) ?_ (List.nil_append _).symm Fed.start
      intro past o rest st hin hst
      have hnext : ∃ st', (loops clock).flat st o = .ok st' := by
        cases o with
        | none => exact ⟨_, rfl⟩
        | some c =>
          obtain ⟨pre, a, b, post, hcut, rfl⟩ := Loops.feed_split hin
          obtain ⟨hgood, hmeas, hrun⟩ := hst
          have hready := h pre a c b post st.1 hcut ((consume_upTo hrun).mpr rfl)
          rcases hgood.2 with hq | hq
          · exact (step_returns hgood.1 hq hmeas).mpr hready
          · exact ⟨_, flat_overrun hq⟩
      obtain ⟨st', hstep⟩ := hnext
      exact ⟨st', hstep, hst.step hstep⟩
    obtain ⟨⟨p, q⟩, hrun, -⟩ := hall
    exact ⟨p, (loops clock).run_exec_ok.mpr ⟨q, hrun⟩⟩

/-- Every call returns, with no read outside of a buffer, if and only if each counts its bytes
and each byte finds what it needs in the state that the bytes before it have led to. -/
theorem parseAll_returns (clock : Nat → Clock) (chunks : List Bytes) :
    (∃ p, parseAll clock {} chunks = .ok p) ↔
      (∀ w ∈ chunks, w.length < 2 ^ 31) ∧
        ∀ pre a c b post p, chunks = pre ++ (a ++ c :: b) :: post →
          parseAll clock {} (pre ++ [a]) = .ok p → StepReadable p c := by
  simp only [parseAll_ok, exists_and_left, consume_returns]
  refine and_congr_right fun hcounted => forall₄_congr fun pre a c b => ?_
  refine forall₃_congr fun post p hcut => ?_
  subst hcut
  have hbefore : ∀ w ∈ pre ++ [a], w.length < 2 ^ 31 := by
    intro w hw
    rcases List.mem_append.mp hw with hw | hw
    · exact hcounted w (List.mem_append_left _ hw)
    · obtain rfl := List.mem_singleton.mp hw
      have hlong := hcounted (w ++ c :: b) (by simp)
      rw [List.length_append] at hlong
      omega
  rw [and_iff_right hbefore]

end

/-- A head line with no field in it: the decoder looks for a space behind the buffer. -/
theorem parseAll_counterexample :
    parseAll sampleClock {} [ascii ['M', 'S', 'G', ' ', '\r', '\n']] = .error .readOutside := by
  decide +kernel

end NetCpp.Proofs
