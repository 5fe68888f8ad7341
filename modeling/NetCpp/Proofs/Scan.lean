import NetCpp.Proofs.Steps

namespace NetCpp.Proofs
open Library Message MessageFactory MessageParser

/-- State and buffer of the head loop after one more byte, up to the end of a head line. -/
def scanNext (st : Int × Bytes) (c : Byte) : Int × Bytes :=
  match headNext st.1 c with
  | .error _ => (-5, [])
  | .ok s => (s, st.2 ++ [c])

def scan (st : Int × Bytes) (s : Bytes) : Int × Bytes := s.foldl scanNext st

/-- What the buffer of the head loop holds in each of its states: bytes without an 'M',
and then what matches so far. -/
def HeadShape (s : Int) (buf : Bytes) : Prop :=
  ∃ junk, (77 : Byte) ∉ junk ∧
    ((s = -5 ∧ buf = junk) ∨ (s = -4 ∧ buf = junk ++ [77]) ∨ (s = -3 ∧ buf = junk ++ [77, 83]) ∨
      ∃ y, cr ∉ y ∧ ((s = -2 ∧ buf = junk ++ (msgHead ++ y)) ∨
        (s = -1 ∧ buf = junk ++ (msgHead ++ (y ++ [cr])))))

/-- A buffer that the head loop throws away: a match that breaks off. -/
inductive Broken : Bytes → Prop where
  | letter {junk : Bytes} {c : Byte} (hj : 77 ∉ junk) (hc : c ≠ 83) : Broken (junk ++ [77, c])
  | letters {junk : Bytes} {c : Byte} (hj : 77 ∉ junk) (hc : c ≠ 71) :
      Broken (junk ++ [77, 83, c])
  | line {junk y : Bytes} {c : Byte} (hj : 77 ∉ junk) (hy : cr ∉ y) (hc : c ≠ lf) :
      Broken (junk ++ (msgHead ++ (y ++ [cr, c])))

/-- Bytes after which the head loop is as new: one broken match after the other. -/
inductive Abandoned : Bytes → Prop where
  | nil : Abandoned []
  | snoc {w b : Bytes} (hw : Abandoned w) (hb : Broken b) : Abandoned (w ++ b)

theorem HeadShape.start : HeadShape (-5) [] :=
  ⟨[], List.not_mem_nil, Or.inl ⟨rfl, rfl⟩⟩

theorem HeadShape.next {s t : Int} {buf : Bytes} {c : Byte} (h : HeadShape s buf)
    (hn : headNext s c = .ok t) (ht : t ≠ 0) : HeadShape t (buf ++ [c]) := by
  obtain ⟨junk, hj, h⟩ := h
  rcases headNext_ok hn with ⟨hs, hc, rfl⟩ | ⟨hs, hc, rfl⟩ | ⟨hs, hc, rfl⟩ | ⟨hs, hc, rfl⟩ |
    ⟨hs, hc, rfl⟩ | ⟨hs, hc, rfl⟩ | ⟨hs, hc, rfl⟩
  · rcases h with ⟨-, rfl⟩ | ⟨h, -⟩ | ⟨h, -⟩ | ⟨y, -, ⟨h, -⟩ | ⟨h, -⟩⟩
    · exact ⟨buf, hj, Or.inr (Or.inl ⟨rfl, by rw [hc]⟩)⟩
    all_goals omega
  · rcases h with ⟨-, rfl⟩ | ⟨h, -⟩ | ⟨h, -⟩ | ⟨y, -, ⟨h, -⟩ | ⟨h, -⟩⟩
    · exact ⟨buf ++ [c], by simp [hj, Ne.symm hc], Or.inl ⟨rfl, rfl⟩⟩
    all_goals omega
  · rcases h with ⟨h, -⟩ | ⟨-, rfl⟩ | ⟨h, -⟩ | ⟨y, -, ⟨h, -⟩ | ⟨h, -⟩⟩
    · omega
    · exact ⟨junk, hj, Or.inr (Or.inr (Or.inl ⟨rfl, by simp [hc]⟩))⟩
    all_goals omega
  · rcases h with ⟨h, -⟩ | ⟨h, -⟩ | ⟨-, rfl⟩ | ⟨y, -, ⟨h, -⟩ | ⟨h, -⟩⟩
    · omega
    · omega
    · refine ⟨junk, hj, Or.inr (Or.inr (Or.inr ⟨[], List.not_mem_nil, Or.inl ⟨rfl, ?_⟩⟩))⟩
      rw [hc, List.append_assoc]
      rfl
    all_goals omega
  · rcases h with ⟨h, -⟩ | ⟨h, -⟩ | ⟨h, -⟩ | ⟨y, hy, ⟨-, rfl⟩ | ⟨h, -⟩⟩
    · omega
    · omega
    · omega
    · exact ⟨junk, hj, Or.inr (Or.inr (Or.inr ⟨y, hy, Or.inr ⟨rfl, by simp [hc]⟩⟩))⟩
    · omega
  · rcases h with ⟨h, -⟩ | ⟨h, -⟩ | ⟨h, -⟩ | ⟨y, hy, ⟨-, rfl⟩ | ⟨h, -⟩⟩
    · omega
    · omega
    · omega
    · refine ⟨junk, hj, Or.inr (Or.inr (Or.inr ⟨y ++ [c], ?_, Or.inl ⟨rfl, by simp⟩⟩))⟩
      simp [hy, Ne.symm hc]
    · omega
  · exact absurd rfl ht

theorem HeadShape.broken {s : Int} {buf : Bytes} {c : Byte} {e : Unit} (h : HeadShape s buf)
    (hn : headNext s c = .error e) : Broken (buf ++ [c]) := by
  obtain ⟨junk, hj, h⟩ := h
  rcases h with ⟨rfl, rfl⟩ | ⟨rfl, rfl⟩ | ⟨rfl, rfl⟩ | ⟨y, hy, ⟨rfl, rfl⟩ | ⟨rfl, rfl⟩⟩
  · cases hn
  · have hc : c ≠ 83 := by
      rintro rfl
      cases hn
    rw [List.append_assoc]
    exact .letter hj hc
  · have hc : c ≠ 71 := by
      rintro rfl
      cases hn
    rw [List.append_assoc]
    exact .letters hj hc
  · cases hn
  · have hc : c ≠ lf := by
      rintro rfl
      cases hn
    have he : junk ++ (msgHead ++ (y ++ [cr])) ++ [c] = junk ++ (msgHead ++ (y ++ [cr, c])) := by
      simp
    rw [he]
    exact .line hj hy hc

/-- The end of a head line. -/
theorem HeadShape.done {s : Int} {buf : Bytes} {c : Byte} (h : HeadShape s buf)
    (hn : headNext s c = .ok 0) : s = -1 ∧ c = lf ∧
      ∃ junk y, 77 ∉ junk ∧ cr ∉ y ∧ buf ++ [c] = junk ++ (msgHead ++ (y ++ crlf)) := by
  obtain ⟨hs, hc⟩ := headNext_zero.mp hn
  obtain ⟨junk, hj, ⟨h, -⟩ | ⟨h, -⟩ | ⟨h, -⟩ | ⟨y, hy, ⟨h, -⟩ | ⟨-, rfl⟩⟩⟩ := h
  · omega
  · omega
  · omega
  · omega
  · exact ⟨hs, hc, junk, y, hj, hy, by simp [hc, crlf]⟩

theorem scan_append (st : Int × Bytes) (s t : Bytes) : scan st (s ++ t) = scan (scan st s) t :=
  List.foldl_append

@[simp] theorem scan_cons (st : Int × Bytes) (c : Byte) (s : Bytes) :
    scan st (c :: s) = scan (scanNext st c) s := rfl

@[simp] theorem scan_nil (st : Int × Bytes) : scan st [] = st := rfl

theorem scan_junk {junk : Bytes} (hj : 77 ∉ junk) (buf : Bytes) :
    scan (-5, buf) junk = (-5, buf ++ junk) := by
  induction junk generalizing buf with
  | nil => simp
  | cons c junk ih =>
    simp only [List.mem_cons, not_or] at hj
    have hn : scanNext (-5, buf) c = (-5, buf ++ [c]) := by
      simp [scanNext, headNext, Ne.symm hj.1]
    rw [scan_cons, hn, ih hj.2]
    simp

theorem scan_line {y : Bytes} (hy : cr ∉ y) (buf : Bytes) :
    scan (-2, buf) y = (-2, buf ++ y) := by
  induction y generalizing buf with
  | nil => simp
  | cons c y ih =>
    simp only [List.mem_cons, not_or] at hy
    have hn : scanNext (-2, buf) c = (-2, buf ++ [c]) := by
      simp [scanNext, headNext, Ne.symm hy.1]
    rw [scan_cons, hn, ih hy.2]
    simp

/-- A head line up to its carriage return, from a loop that waits for an 'M'. -/
theorem scan_head {junk y : Bytes} (hj : 77 ∉ junk) (hy : cr ∉ y) (buf : Bytes) :
    scan (-5, buf) (junk ++ (msgHead ++ (y ++ [cr]))) =
      (-1, buf ++ (junk ++ (msgHead ++ (y ++ [cr])))) := by
  have hletters (b : Bytes) : scan (-5, b) msgHead = (-2, b ++ msgHead) := by
    change scan (-5, b) [77, 83, 71] = (-2, b ++ [77, 83, 71])
    simp [scanNext, headNext]
  have hcr (b : Bytes) : scan (-2, b) [cr] = (-1, b ++ [cr]) := by
    simp [scanNext, headNext]
  rw [scan_append, scan_junk hj, scan_append, hletters, scan_append, scan_line hy, hcr]
  simp

theorem scan_broken {b : Bytes} (hb : Broken b) : scan (-5, []) b = (-5, []) := by
  cases hb with
  | letter hj hc =>
    rw [scan_append, scan_junk hj]
    simp [scanNext, headNext, hc]
  | letters hj hc =>
    rw [scan_append, scan_junk hj]
    simp [scanNext, headNext, hc]
  | @line junk y c hj hy hc =>
    have he : junk ++ (msgHead ++ (y ++ [cr, c])) = (junk ++ (msgHead ++ (y ++ [cr]))) ++ [c] := by
      simp
    rw [he, scan_append, scan_head hj hy]
    simp [scanNext, headNext, hc]

theorem scan_abandoned {w : Bytes} (hw : Abandoned w) : scan (-5, []) w = (-5, []) := by
  induction hw with
  | nil => rfl
  | snoc hw hb ih => rw [scan_append, ih, scan_broken hb]

/-- Whatever the head loop has read: broken matches, and then what its buffer holds. -/
theorem scan_shape {s : Bytes} (h : ∀ t, t <+: s → (scan (-5, []) t).1 ≠ 0) :
    ∃ w, Abandoned w ∧ s = w ++ (scan (-5, []) s).2 ∧
      HeadShape (scan (-5, []) s).1 (scan (-5, []) s).2 := by
  induction s using List.reverseRecOn with
  | nil => exact ⟨[], .nil, rfl, HeadShape.start⟩
  | append_singleton s c ih =>
    obtain ⟨w, hw, hs, hshape⟩ := ih (fun t ht => h t (ht.trans (List.prefix_append s [c])))
    have hlast := h _ List.prefix_rfl
    rw [scan_append, scan_cons, scan_nil] at hlast ⊢
    cases hn : headNext (scan (-5, []) s).1 c with
    | error e =>
      have hnext : scanNext (scan (-5, []) s) c = (-5, []) := by simp [scanNext, hn]
      rw [hnext]
      refine ⟨w ++ ((scan (-5, []) s).2 ++ [c]), .snoc hw (hshape.broken hn), ?_, HeadShape.start⟩
      rw [List.append_nil, ← List.append_assoc, ← hs]
    | ok t =>
      have hnext : scanNext (scan (-5, []) s) c = (t, (scan (-5, []) s).2 ++ [c]) := by
        simp [scanNext, hn]
      rw [hnext] at hlast ⊢
      refine ⟨w, hw, ?_, hshape.next hn hlast⟩
      rw [← List.append_assoc, ← hs]

end NetCpp.Proofs
