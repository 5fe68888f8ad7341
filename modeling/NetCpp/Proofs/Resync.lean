import NetCpp.Proofs.Chunking
import NetCpp.Proofs.Scan

namespace NetCpp.Proofs
open Library Message MessageFactory MessageParser

/-- Whether a head line is accepted, and the type and id in it, are up to its bytes. -/
theorem decodeMessageHead_any {raw : Bytes} {m m' : Message}
    (h : decodeMessageHead raw m = .ok (true, m')) (m₂ : Message) :
    decodeMessageHead raw m₂ = .ok (true, m₂.setHead m'.tid m'.type) := by
  obtain ⟨r, hr, hsome⟩ := accepted_ok h
  rcases decodeHead_reads raw with ⟨e, he⟩ | hn | ⟨i, tid, type, hs⟩
  · rw [he] at hr
    cases hr
  · rw [hn] at hr
    cases hr
    cases hsome
  · rw [hs] at hr
    cases hr
    rw [decodeMessageHead, hs]
    rfl

/-- A line with one carriage return has one cut there. -/
theorem append_crlf_inj {y z t : Bytes} (hy : cr ∉ y) (h : y ++ crlf = z ++ cr :: t) :
    z = y ∧ t = [lf] := by
  rcases List.append_eq_append_iff.mp h with ⟨u, hz, hu⟩ | ⟨u, hz, hu⟩
  · cases u with
    | nil =>
      have ht : [lf] = t := by simpa [crlf] using hu
      exact ⟨by simpa using hz, ht.symm⟩
    | cons b u =>
      have hu' : lf :: [] = u ++ cr :: t := (List.cons.inj hu).2
      cases u with
      | nil => exact absurd (List.cons.inj hu').1 (by decide)
      | cons b' u => simp at hu'
  · cases u with
    | nil =>
      have ht : t = [lf] := by simpa [crlf] using hu
      exact ⟨by simpa using hz.symm, ht⟩
    | cons b u =>
      have hb : cr = b := (List.cons.inj hu).1
      exact absurd (by simp [hz, hb]) hy

section
variable {clock : Nat → Clock} {j y : Bytes}

/-- With the first "MSG" at the start of the line, the head loop comes to the end of a
line at the end of the input only. -/
theorem scan_unfinished (hy : cr ∉ y)
    (hfirst : ∀ u v, j ++ (y ++ crlf) = u ++ (msgHead ++ v) → j.length ≤ u.length) {t : Bytes}
    (ht : t <+: j ++ (y ++ [cr])) : ∀ t', t' <+: t → (scan (-5, []) t').1 ≠ 0 := by
  induction t using List.reverseRecOn with
  | nil =>
    intro t' ht'
    rw [List.prefix_nil.mp ht']
    decide
  | append_singleton t b ih =>
    have hprev := ih ((List.prefix_append t [b]).trans ht)
    intro t' ht' h0
    rcases List.prefix_concat_iff.mp ht' with rfl | ht'
    · obtain ⟨w, -, hw, hshape⟩ := scan_shape hprev
      have hn : headNext (scan (-5, []) t).1 b = .ok 0 := by
        rw [scan_append, scan_cons, scan_nil, scanNext] at h0
        split at h0
        · exact absurd h0 (by decide)
        · rename_i s hs
          simp only at h0
          rw [hs, h0]
      obtain ⟨-, -, junk, y', -, -, hbuf⟩ := hshape.done hn
      obtain ⟨rest, hrest⟩ := ht
      have hin : j ++ (y ++ crlf) =
          (w ++ junk) ++ (msgHead ++ (y' ++ (crlf ++ (rest ++ [lf])))) := by
        have hcr : j ++ (y ++ crlf) = (j ++ (y ++ [cr])) ++ [lf] := by simp [crlf]
        rw [hcr, ← hrest, hw, List.append_assoc w, hbuf]
        simp
      have hlen := hfirst _ _ hin
      obtain ⟨z, hz⟩ : ∃ z, w ++ junk = j ++ z :=
        (List.prefix_of_prefix_length_le (List.prefix_append j (y ++ crlf)) ⟨_, hin.symm⟩ hlen).imp
          (fun _ h => h.symm)
      rw [hz, List.append_assoc] at hin
      have hline := List.append_cancel_left hin
      have hcut : y ++ crlf = (z ++ (msgHead ++ y')) ++ cr :: (lf :: (rest ++ [lf])) := by
        rw [hline]
        simp [crlf]
      have hend := (append_crlf_inj hy hcut).2
      simp at hend
    · exact hprev t' ht' h0

/-- A line of the input that the decoder accepts is a whole head line. -/
theorem accepted_line {w h₂ : Bytes} {m m₂ : Message} (hy : cr ∉ y)
    (hfirst : ∀ u v, j ++ (y ++ crlf) = u ++ (msgHead ++ v) → j.length ≤ u.length)
    (hcut : j ++ (y ++ crlf) = w ++ h₂) (haccept : decodeMessageHead h₂ m = .ok (true, m₂)) :
    ∃ y₂, h₂ = msgHead ++ (y₂ ++ crlf) ∧ cr ∉ y₂ := by
  obtain ⟨r, hr, hsome⟩ := accepted_ok haccept
  obtain ⟨i, rfl⟩ := Option.isSome_iff_exists.mp hsome
  obtain ⟨rest, rfl⟩ := decodeHead_start hr
  have hlen := hfirst w ([space] ++ rest) (by simpa using hcut)
  obtain ⟨z, rfl⟩ :=
    List.prefix_of_prefix_length_le (List.prefix_append j (y ++ crlf)) ⟨_, hcut.symm⟩ hlen
  rw [List.append_assoc] at hcut
  have hline := List.append_cancel_left hcut
  have hrest : crlf <:+ [space] ++ rest := by
    have hsuffix : crlf <:+ (z ++ msgHead) ++ ([space] ++ rest) := ⟨y, by simpa using hline⟩
    refine List.suffix_of_suffix_length_le hsuffix (List.suffix_append _ _) ?_
    cases rest with
    | nil =>
      have hlast := congrArg List.getLast? hline
      simp [crlf, space, lf, List.getLast?_append] at hlast
    | cons b rest => simp [crlf]
  obtain ⟨y₂, hy₂⟩ := hrest
  refine ⟨y₂, by rw [hy₂]; simp, ?_⟩
  intro hc
  have hsame : y = z ++ (msgHead ++ y₂) := by
    have : y ++ crlf = (z ++ (msgHead ++ y₂)) ++ crlf := by
      rw [hline, List.append_assoc msgHead, ← hy₂]
      simp
    exact List.append_cancel_right this
  exact hy (by simp [hsame, hc])

/-- Up to the end of a head line the parser does what the scan says, in every chunking. -/
theorem run_scan (clock : Nat → Clock) {os : List (Option Byte)}
    (h : ∀ t, t <+: os.reduceOption → (scan (-5, []) t).1 ≠ 0) :
    ∃ st, run (loops clock).flat ({}, none) os = .ok st ∧ Good st ∧ st.1.headState < 0 ∧
      (st.1.headState, st.1.tempBuffer) = scan (-5, []) os.reduceOption := by
  refine run_total (I := fun past st => Good st ∧ st.1.headState < 0 ∧
    (st.1.headState, st.1.tempBuffer) =
      scan (-5, []) past.reduceOption) ?_ (List.nil_append os).symm
    ⟨Good.start sound_initial, by decide, rfl⟩
  intro past o rest st hin hst
  obtain ⟨hgood, hneg, hscan⟩ := hst
  obtain ⟨p, q⟩ := st
  cases o with
  | none =>
    refine ⟨(p, none), ?_, Good.start hgood.1, hneg, ?_⟩
    · have hclose := hgood.close clock
      simp only [Loops.flat, hclose]
    · rw [List.reduceOption_append, hscan]
      simp
  | some c =>
    have hstand : Standing p q := hgood.stands (Or.inl (Int.ne_of_lt hneg))
    obtain ⟨m, hm⟩ := create_some clock p
    have hflat := flat_head hgood.1 hstand hneg hm (c := c)
    have hpast : (past ++ [some c]).reduceOption = past.reduceOption ++ [c] := by
      simp [List.reduceOption_append, List.reduceOption_cons_of_some]
    have hnext : scan (-5, []) (past ++ [some c]).reduceOption =
        scanNext (p.headState, p.tempBuffer) c := by
      rw [hpast, scan_append, ← hscan]
      rfl
    have hne : (scanNext (p.headState, p.tempBuffer) c).1 ≠ 0 := by
      rw [← hnext]
      refine h _ ?_
      rw [hin, hpast, List.reduceOption_append, List.reduceOption_cons_of_some]
      exact ⟨rest.reduceOption, by simp⟩
    cases hn : headNext p.headState c with
    | error e =>
      rw [hn] at hflat
      refine ⟨_, hflat, hgood.step hflat, by simp [resetState], ?_⟩
      rw [hnext, scanNext, hn]
      rfl
    | ok s =>
      have hs : s ≠ 0 := by
        simpa [scanNext, hn] using hne
      have hrange := headNext_ok hn
      rw [hn] at hflat
      simp only [ne_eq, hs, not_false_iff, if_true] at hflat
      refine ⟨_, hflat, hgood.step hflat, by simp only; omega, ?_⟩
      rw [hnext, scanNext, hn]
      simp

theorem run_ends {os : List (Option Byte)} (hos : os.reduceOption = []) {st : (loops clock).Point}
    (hst : Good st) : ∃ q, run (loops clock).flat st os = .ok (st.1, q) := by
  induction os generalizing st with
  | nil => exact ⟨st.2, rfl⟩
  | cons o os ih =>
    cases o with
    | none =>
      have hstep : (loops clock).flat st none = .ok (st.1, none) := by
        simp only [Loops.flat, hst.close clock]
      rw [run_cons_ok hstep]
      exact ih (by simpa using hos) (Good.start hst.1)
    | some c => simp at hos

/-- The last byte of an input that the scan sees through decides. -/
theorem consume_last (clock : Nat → Clock) {x : Bytes} {c : Byte} {chunks : List Bytes}
    (hx : chunks.flatten = x ++ [c])
    (h : ∀ t, t <+: x → (scan (-5, []) t).1 ≠ 0) :
    ∃ p₁ q₁, Good (p₁, q₁) ∧ p₁.headState < 0 ∧
      (p₁.headState, p₁.tempBuffer) = scan (-5, []) x ∧
      ∀ p, run (consume clock) {} chunks = .ok p ↔
        ∃ q, (loops clock).flat (p₁, q₁) (some c) = .ok (p, q) := by
  have hfeed : (Loops.feed chunks).reduceOption = x.concat c := by
    rw [Loops.reduceOption_feed, hx, List.concat_eq_append]
  obtain ⟨os, ns, hsplit, hos, hns⟩ := (List.reduceOption_eq_concat_iff _ _ _).mp hfeed
  obtain ⟨⟨p₁, q₁⟩, hrun, hgood, hneg, hscan⟩ := run_scan clock (by rw [hos]; exact h)
  refine ⟨p₁, q₁, hgood, hneg, by rw [hscan, hos], ?_⟩
  intro p
  unfold consume
  rw [Loops.run_exec_ok, hsplit, run_append_ok hrun]
  constructor
  · intro hr
    obtain ⟨q', hr⟩ := hr
    obtain ⟨⟨p₂, q₂⟩, hstep, hr⟩ := run_cons_inv hr
    obtain ⟨q, hq⟩ := run_ends hns (hgood.step hstep)
    rw [hq] at hr
    cases hr
    exact ⟨q₂, hstep⟩
  · intro hr
    obtain ⟨q₂, hstep⟩ := hr
    rw [run_cons_ok hstep]
    exact run_ends hns (hgood.step hstep)

/-- A head line that the decoder accepts is found exactly when each call counts its bytes
and the bytes before some accepted line with its type and id are broken matches. -/
theorem resync_iff {j h : Bytes} {line : Message} {chunks : List Bytes}
    (hline : ∃ y, h = y ++ crlf ∧ cr ∉ y) (haccept : decodeMessageHead h {} = .ok (true, line))
    (hfirst : ∀ u v, j ++ h = u ++ (msgHead ++ v) → j.length ≤ u.length)
    (hchunks : chunks.flatten = j ++ h) :
    (∃ p m, parseAll clock {} chunks = .ok p ∧ p.headState = 0 ∧ p.tempMsg = some m ∧
        m.tid = line.tid ∧ m.type = line.type) ↔
      (∀ w ∈ chunks, w.length < 2 ^ 31) ∧
        ∃ w h₂ m₂, j ++ h = w ++ h₂ ∧ Abandoned w ∧ decodeMessageHead h₂ {} = .ok (true, m₂) ∧
          m₂.tid = line.tid ∧ m₂.type = line.type := by
  obtain ⟨y, rfl, hy⟩ := hline
  have hin : j ++ (y ++ crlf) = (j ++ (y ++ [cr])) ++ [lf] := by simp [crlf]
  have hscan := scan_unfinished hy hfirst List.prefix_rfl
  obtain ⟨p₁, q₁, hgood, hneg, hstate, hlast⟩ := consume_last clock (hchunks.trans hin) hscan
  have hstand : Standing p₁ q₁ := hgood.stands (Or.inl (Int.ne_of_lt hneg))
  obtain ⟨m₁, hm₁⟩ := create_some clock p₁
  have hflat := flat_head hgood.1 hstand hneg hm₁ (c := lf)
  constructor
  · intro hp
    obtain ⟨p, m, hp, hzero, hm, htid, htype⟩ := hp
    obtain ⟨hcounted, hp⟩ := parseAll_ok.mp hp
    obtain ⟨q, hstep⟩ := (hlast p).mp hp
    refine ⟨hcounted, ?_⟩
    obtain ⟨w, hw, hcut, -⟩ := scan_shape hscan
    rw [← hstate] at hcut
    have hmove : Step clock p₁ lf p q := step_of_flat hgood.1 hstand hstep
    cases hmove with
    | head hs hn h0 => exact absurd hzero h0
    | headBroken hs hn => exact absurd hzero (by simp [resetState])
    | headFailed hs hn hm' hd => exact absurd hzero (by simp [resetState])
    | headDone hs hn hm' hd =>
      obtain rfl := Option.some.inj hm
      refine ⟨w, _, _, ?_, hw, decodeMessageHead_any hd {}, htid, htype⟩
      rw [hin, hcut, List.append_assoc]
    | _ => omega
  · intro hw
    obtain ⟨hcounted, w, h₂, m₂, hcut, hw, haccept₂, htid, htype⟩ := hw
    obtain ⟨y₂, rfl, hy₂⟩ := accepted_line hy hfirst hcut haccept₂
    have hx : j ++ (y ++ [cr]) = w ++ ([] ++ (msgHead ++ (y₂ ++ [cr]))) := by
      have : (j ++ (y ++ [cr])) ++ [lf] = (w ++ ([] ++ (msgHead ++ (y₂ ++ [cr])))) ++ [lf] := by
        rw [← hin, hcut]
        simp [crlf]
      exact List.append_cancel_right this
    rw [hx, scan_append, scan_abandoned hw, scan_head List.not_mem_nil hy₂] at hstate
    obtain ⟨hminus, hbuf⟩ := Prod.mk.inj hstate
    have hread : p₁.tempBuffer ++ [lf] = msgHead ++ (y₂ ++ crlf) := by
      rw [hbuf]
      simp [crlf]
    rw [hminus, hread, decodeMessageHead_any haccept₂ m₁] at hflat
    exact ⟨_, _, parseAll_ok.mpr ⟨hcounted, (hlast _).mpr ⟨_, hflat⟩⟩, rfl, rfl, htid, htype⟩

end

/-- A head line without its end. -/
def sampleLine : Bytes := ascii ['M', 'S', 'G', ' ', '0', ' ', '1', ' ', '5']

theorem sampleLine_ends : ∃ y, sampleLine ++ crlf = y ++ crlf ∧ cr ∉ y :=
  ⟨sampleLine, rfl, by decide⟩

theorem sampleLine_accepted :
    decodeMessageHead (sampleLine ++ crlf) {} = .ok (true, { tid := 5, type := 1 }) := by
  decide +kernel

theorem resync_iff_broken :
    (∃ p m, parseAll sampleClock {} [ascii ['M', 'X'], sampleLine ++ crlf] = .ok p ∧
        p.headState = 0 ∧ p.tempMsg = some m ∧ m.tid = 5 ∧ m.type = 1) ↔
      (∀ w ∈ [ascii ['M', 'X'], sampleLine ++ crlf], w.length < 2 ^ 31) ∧
        ∃ w h₂ m₂, ascii ['M', 'X'] ++ (sampleLine ++ crlf) = w ++ h₂ ∧ Abandoned w ∧
          decodeMessageHead h₂ {} = .ok (true, m₂) ∧ m₂.tid = 5 ∧ m₂.type = 1 := by
  refine resync_iff sampleLine_ends sampleLine_accepted ?_ rfl
  intro u v h
  rcases u with _ | ⟨c, _ | ⟨d, u⟩⟩
  · exact absurd (List.cons.inj (List.cons.inj h).2).1 (by decide)
  · exact absurd (List.cons.inj (List.cons.inj h).2).1 (by decide)
  · simp [ascii]

/-- One byte of junk before the line, and the line is not found. -/
theorem resync_counterexample :
    (∃ y, sampleLine ++ crlf = y ++ crlf ∧ cr ∉ y) ∧
      decodeMessageHead (sampleLine ++ crlf) {} = .ok (true, { tid := 5, type := 1 }) ∧
      (∀ u v, ascii ['X'] ++ (sampleLine ++ crlf) = u ++ (msgHead ++ v) →
        (ascii ['X']).length ≤ u.length) ∧
      (parseAll sampleClock {} [ascii ['X'] ++ (sampleLine ++ crlf)]).map headState = .ok (-5) := by
  refine ⟨sampleLine_ends, sampleLine_accepted, ?_, by decide +kernel⟩
  intro u v h
  cases u with
  | nil => exact absurd (List.cons.inj h).1 (by decide)
  | cons c u => simp [ascii]

end NetCpp.Proofs
