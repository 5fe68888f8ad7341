import NetCpp.Socket

namespace NetCpp.Proofs
open Library SocketTCPClient

/-- What is between the two labels of a chunk. -/
def payload (c : Bytes) : Bytes := (c.drop 4).take (c.length - 8)

/-- The label in front of a chunk. -/
def heading (c : Bytes) : Bytes := c.take 4

/-- The label behind a chunk. -/
def trailer (c : Bytes) : Bytes := c.drop (c.length - 4)

section
variable {label data mark : Bytes}

theorem payload_chunk (hl : label.length = 4) (hm : mark.length = 4) :
    payload (label ++ data ++ mark) = data := by
  have hsize : (label ++ data ++ mark).length - 8 = data.length := by
    simp only [List.length_append]
    omega
  rw [payload, hsize, List.append_assoc, ← hl, List.drop_left, List.take_left]

theorem heading_chunk (hl : label.length = 4) : heading (label ++ data ++ mark) = label := by
  rw [heading, List.append_assoc, ← hl, List.take_left]

theorem trailer_chunk (hm : mark.length = 4) : trailer (label ++ data ++ mark) = mark := by
  have hsize : (label ++ data ++ mark).length - 4 = (label ++ data).length := by
    simp only [List.length_append]
    omega
  rw [trailer, hsize, List.drop_left]

end

/-- The chunks that the loop sends for the rest of a buffer, the first of them under a label. One
byte that is left over is not sent. -/
inductive ChunksOf : Bytes → Bytes → List Bytes → Prop where
  | stop {label rest : Bytes} (h : rest.length ≤ 1) : ChunksOf label rest []
  | last {label rest : Bytes} (h : 1 < rest.length) (h' : rest.length ≤ 1001) :
    ChunksOf label rest [label ++ rest ++ dfsh]
  | more {label rest : Bytes} {sent : List Bytes} (h : 1001 < rest.length)
    (hsent : ChunksOf dcst (rest.drop 1001) sent) :
    ChunksOf label rest ((label ++ rest.take 1001 ++ dctn) :: sent)

/-- The label of the chunk that starts at an index. -/
def labelAt (idx : Nat) : Bytes := if idx = 0 then dsat else dcst

theorem length_labelAt (idx : Nat) : (labelAt idx).length = 4 := by
  unfold labelAt
  split <;> rfl

theorem chunk_ok {buff mark : Bytes} {size idx nidx : Nat} (hmark : mark.length = 4)
    (hcut : (if idx + 1000 < size - 1 then (idx + 1000, dctn) else (size - 1, dfsh)) = (nidx, mark))
    (hin : nidx - idx + 1 ≤ (buff.drop idx).length) (hfits : nidx - idx + 1 ≤ 1001) :
    chunk buff size idx =
      .ok (labelAt idx ++ (buff.drop idx).take (nidx - idx + 1) ++ mark, nidx) := by
  have hfour := length_labelAt idx
  have htake : ((buff.drop idx).take (nidx - idx + 1)).length = nidx - idx + 1 := by
    rw [List.length_take]
    omega
  have hlabel : writeBytes 1024 [] (labelAt idx) = .ok (labelAt idx) := by
    apply writeBytes_ok
    rw [List.nil_append]
    omega
  have hread : readBytes (nidx - idx + 1) (buff.drop idx) =
      .ok ((buff.drop idx).take (nidx - idx + 1), (buff.drop idx).drop (nidx - idx + 1)) := by
    rw [readBytes, if_neg (by omega)]
  have hdata : (labelAt idx ++ (buff.drop idx).take (nidx - idx + 1)).length ≤ 1024 := by
    rw [List.length_append]
    omega
  have hall : (labelAt idx ++ (buff.drop idx).take (nidx - idx + 1) ++ mark).length ≤ 1024 := by
    rw [List.length_append, List.length_append]
    omega
  rw [chunk, ← labelAt, hlabel, hcut]
  simp only [hread, writeBytes_ok hdata, writeBytes_ok hall, bind, Except.bind]
  rfl

/-- An acknowledgement goes into the first bytes of `gbuff`. -/
theorem recvInto_dget {gbuff : Bytes} (h : gbuff.length = 1024) : ∃ gbuff',
    recvInto gbuff dget = .ok gbuff' ∧ gbuff'.length = 1024 ∧
    equalsAt gbuff' 0 dget = .ok true := by
  have hfour : dget.length = 4 := rfl
  refine ⟨dget ++ gbuff.drop dget.length, ?_, ?_, ?_⟩
  · rw [recvInto, if_neg (by omega)]
  · rw [List.length_append, List.length_drop]
    omega
  · have hat := @equalsAt_append [] dget (gbuff.drop dget.length) dget rfl
    rwa [beq_self_eq_true] at hat

theorem sendChunks_done {recv : Nat → Bytes} {buff : Bytes} {idx : Nat} (h : buff.length ≤ idx + 1)
    (fuel k : Nat) (gbuff : Bytes) :
    sendChunks recv buff buff.length fuel k idx gbuff = .ok ([], (buff.length : Int)) := by
  cases fuel <;> rw [sendChunks, if_neg (by omega)]

/-- One round with an acknowledgement. -/
theorem sendChunks_round {recv : Nat → Bytes} {buff vbuff gbuff gbuff' : Bytes}
    {idx nidx k fuel : Nat} {sent : List Bytes} {rtn : Int} (hidx : idx < buff.length - 1)
    (hack : recv k = dget) (hchunk : chunk buff buff.length idx = .ok (vbuff, nidx))
    (hrecv : recvInto gbuff dget = .ok gbuff') (heq : equalsAt gbuff' 0 dget = .ok true)
    (hrest : sendChunks recv buff buff.length fuel (k + 1) (nidx + 1) gbuff' = .ok (sent, rtn)) :
    sendChunks recv buff buff.length (fuel + 1) k idx gbuff = .ok (vbuff :: sent, rtn) := by
  have hne : dget ≠ [] := by decide
  rw [sendChunks, if_pos hidx]
  simp only [hchunk, hack, hrecv, heq, hrest, bind, Except.bind]
  rw [if_pos ⟨hne, trivial⟩]
  rfl

/-- Acknowledged, the loop sends the chunks of the rest of the buffer. The induction is on the
fuel, of which each chunk takes one and at least one byte. -/
theorem sendChunks_ok {recv : Nat → Bytes} (hack : ∀ k, recv k = dget) {buff : Bytes} (fuel : Nat) :
    ∀ (k idx : Nat) (gbuff : Bytes), buff.length - idx ≤ fuel → gbuff.length = 1024 →
      ∃ sent, sendChunks recv buff buff.length fuel k idx gbuff = .ok (sent, (buff.length : Int)) ∧
        ChunksOf (labelAt idx) (buff.drop idx) sent := by
  induction fuel with
  | zero =>
    intro k idx gbuff hfuel hg
    refine ⟨[], sendChunks_done (by omega) 0 k gbuff, ChunksOf.stop ?_⟩
    rw [List.length_drop]
    omega
  | succ fuel ih =>
    intro k idx gbuff hfuel hg
    have hrest : (buff.drop idx).length = buff.length - idx := List.length_drop
    obtain ⟨gbuff', hrecv, hg', heq⟩ := recvInto_dget hg
    by_cases hstop : buff.length ≤ idx + 1
    · exact ⟨[], sendChunks_done hstop _ k gbuff, ChunksOf.stop (by omega)⟩
    · by_cases hmore : idx + 1000 < buff.length - 1
      · obtain ⟨sent, hsent, hchunks⟩ := ih (k + 1) (idx + 1000 + 1) gbuff' (by omega) hg'
        have hlabel : labelAt (idx + 1000 + 1) = dcst := if_neg (by omega)
        rw [hlabel, show idx + 1000 + 1 = idx + 1001 by omega, ← List.drop_drop] at hchunks
        have hchunk : chunk buff buff.length idx =
            .ok (labelAt idx ++ (buff.drop idx).take 1001 ++ dctn, idx + 1000) := by
          have h := @chunk_ok buff dctn buff.length idx (idx + 1000) rfl (if_pos hmore) (by omega)
            (by omega)
          rwa [show idx + 1000 - idx + 1 = 1001 by omega] at h
        exact ⟨_, sendChunks_round (by omega) (hack k) hchunk hrecv heq hsent,
          ChunksOf.more (by omega) hchunks⟩
      · have hchunk : chunk buff buff.length idx =
            .ok (labelAt idx ++ buff.drop idx ++ dfsh, buff.length - 1) := by
          have h :=
            @chunk_ok buff dfsh buff.length idx (buff.length - 1) rfl (if_neg hmore) (by omega)
            (by omega)
          rwa [List.take_of_length_le (by omega)] at h
        exact ⟨_, sendChunks_round (by omega) (hack k) hchunk hrecv heq
          (sendChunks_done (by omega) fuel (k + 1) gbuff'), ChunksOf.last (by omega) (by omega)⟩

theorem sendRaw_ok {recv : Nat → Bytes} (hack : ∀ k, recv k = dget) (sendSize : Int)
    {gbuff buff : Bytes} (hg : gbuff.length = 1024) (hlong : 1023 < buff.length) : ∃ sent,
      sendRaw recv sendSize gbuff buff buff.length = .ok (sent, (buff.length : Int)) ∧
      ChunksOf dsat buff sent := by
  obtain ⟨sent, hsent, hchunks⟩ := @sendChunks_ok recv hack buff buff.length 0 0 gbuff (by omega) hg
  rw [show labelAt 0 = dsat from rfl, List.drop_zero] at hchunks
  refine ⟨sent, ?_, hchunks⟩
  rw [sendRaw, if_pos hlong, hsent]

/-- The chunks carry the buffer, the first and only the first says that it is the first, the last
and only the last that it is the last. -/
structure Complete (buff : Bytes) (sent : List Bytes) : Prop where
  joined : (sent.map payload).flatten = buff
  first : ∀ (i : Nat) (c : Bytes), sent[i]? = some c → (heading c = dsat ↔ i = 0)
  last : ∀ (i : Nat) (c : Bytes), sent[i]? = some c → (trailer c = dfsh ↔ i + 1 = sent.length)

section
variable {label rest : Bytes} {sent : List Bytes}

/-- What is sent of a rest: all of it, or all but its last byte. -/
def sentOf (rest : Bytes) : Bytes :=
  if rest.length % 1001 = 1 then rest.take (rest.length - 1) else rest

theorem ChunksOf.joined (h : ChunksOf label rest sent) (hl : label.length = 4) :
    (sent.map payload).flatten = sentOf rest := by
  unfold sentOf
  induction h with
  | @stop label rest h =>
    cases rest with
    | nil => rfl
    | cons c rest =>
      have hone : (c :: rest).length = 1 := by
        simp only [List.length_cons] at h ⊢
        omega
      rw [if_pos (by rw [hone]), hone]
      rfl
  | last h h' =>
    rw [if_neg (by omega), List.map_singleton, payload_chunk hl rfl, List.flatten_singleton]
  | @more label rest sent h hsent ih =>
    rw [List.map_cons, payload_chunk hl rfl, List.flatten_cons, ih rfl, List.length_drop]
    by_cases hone : rest.length % 1001 = 1
    · have hcut : 1001 + (rest.length - 1001 - 1) = rest.length - 1 := by omega
      rw [if_pos (by omega), if_pos hone, ← List.take_add, hcut]
    · rw [if_neg (by omega), if_neg hone, List.take_append_drop]

theorem ChunksOf.heading (h : ChunksOf label rest sent) (hl : label.length = 4) (i : Nat)
    (c : Bytes) (hc : sent[i]? = some c) : heading c = if i = 0 then label else dcst := by
  induction h generalizing i with
  | stop h => cases hc
  | last h h' =>
    cases i with
    | zero =>
      obtain rfl := Option.some.inj hc
      exact heading_chunk hl
    | succ i => cases hc
  | more h hsent ih =>
    cases i with
    | zero =>
      obtain rfl := Option.some.inj hc
      exact heading_chunk hl
    | succ i =>
      rw [ih rfl i hc, if_neg (Nat.succ_ne_zero i)]
      split <;> rfl

/-- A rest of more than one byte has a chunk. -/
theorem ChunksOf.ne_nil (h : ChunksOf label rest sent) (hrest : 1 < rest.length) : sent ≠ [] := by
  cases h with
  | stop h => omega
  | last h h' => exact List.cons_ne_nil _ _
  | more h hsent => exact List.cons_ne_nil _ _

theorem ChunksOf.trailer (h : ChunksOf label rest sent) (hl : label.length = 4) (i : Nat)
    (c : Bytes) (hc : sent[i]? = some c) :
    trailer c = dfsh ↔ i + 1 = sent.length ∧ rest.length % 1001 ≠ 1 := by
  induction h generalizing i with
  | stop h => cases hc
  | @last label rest h h' =>
    cases i with
    | zero =>
      obtain rfl := Option.some.inj hc
      have hmod : ¬rest.length % 1001 = 1 := by omega
      rw [trailer_chunk rfl]
      exact ⟨fun _ => ⟨rfl, hmod⟩, fun _ => rfl⟩
    | succ i => cases hc
  | @more label rest sent h hsent ih =>
    have hdrop : (rest.drop 1001).length = rest.length - 1001 := List.length_drop
    cases i with
    | zero =>
      obtain rfl := Option.some.inj hc
      rw [trailer_chunk rfl]
      constructor
      · intro he
        exact absurd he (by decide)
      · rintro ⟨hlen, hmod⟩
        have hne := hsent.ne_nil (by omega)
        have hpos := List.length_pos_iff.mpr hne
        simp only [List.length_cons] at hlen
        omega
    | succ i =>
      rw [ih rfl i hc, List.length_cons, hdrop]
      omega

end

/-- The chunks are complete unless a single byte is left for the last of them. -/
theorem complete_iff {recv : Nat → Bytes} (hack : ∀ k, recv k = dget) (sendSize : Int)
    {gbuff buff : Bytes} (hg : gbuff.length = 1024) (hlong : 1023 < buff.length) :
    ∃ sent, sendRaw recv sendSize gbuff buff buff.length = .ok (sent, (buff.length : Int)) ∧
      (Complete buff sent ↔ buff.length % 1001 ≠ 1) := by
  obtain ⟨sent, hsent, hchunks⟩ := sendRaw_ok hack sendSize hg hlong
  have hjoined := hchunks.joined rfl
  refine ⟨sent, hsent, ?_⟩
  constructor
  · intro h hmod
    rw [h.joined, sentOf, if_pos hmod] at hjoined
    have hlen := congrArg List.length hjoined
    rw [List.length_take] at hlen
    omega
  · intro hmod
    refine ⟨by rw [hjoined, sentOf, if_neg hmod], ?_, ?_⟩
    · intro i c hc
      rw [hchunks.heading rfl i c hc]
      split
      · rename_i hi
        exact ⟨fun _ => hi, fun _ => rfl⟩
      · rename_i hi
        exact ⟨fun he => absurd he (by decide), fun he => absurd he hi⟩
    · intro i c hc
      rw [hchunks.trailer rfl i c hc]
      exact ⟨fun he => he.1, fun he => ⟨he, hmod⟩⟩

/-- Two chunks, of 1001 and of 23 bytes. -/
theorem complete_iff_sample : ∃ sent,
    sendRaw (fun _ => dget) 0 (List.replicate 1024 0) (List.replicate 1024 7)
      (List.replicate 1024 (7 : Byte)).length =
        .ok (sent, ((List.replicate 1024 (7 : Byte)).length : Int)) ∧
      (Complete (List.replicate 1024 7) sent ↔
        (List.replicate 1024 (7 : Byte)).length % 1001 ≠ 1) :=
  complete_iff (fun _ => rfl) 0 (by rw [List.length_replicate])
    (by rw [List.length_replicate]; omega)

/-- Of 2003 bytes the last is not sent, and no chunk says that it is the last. -/
theorem not_complete_2003 : ∃ sent,
    sendRaw (fun _ => dget) 0 (List.replicate 1024 0) (List.replicate 2003 7) 2003 =
      .ok (sent, 2003) ∧ (sent.map payload).flatten.length = 2002 ∧ (∀ c ∈ sent, trailer c ≠ dfsh) ∧
      ¬Complete (List.replicate 2003 7) sent := by
  have hlen : (List.replicate 2003 (7 : Byte)).length = 2003 := List.length_replicate
  obtain ⟨sent, hsent, hchunks⟩ :=
    @sendRaw_ok (fun _ => dget) (fun _ => rfl) 0 (List.replicate 1024 0)
    (List.replicate 2003 7) List.length_replicate (by omega)
  rw [hlen] at hsent
  have hjoined : (sent.map payload).flatten.length = 2002 := by
    rw [hchunks.joined rfl, sentOf, hlen, if_pos (by omega), List.length_take, hlen]
    rfl
  refine ⟨sent, hsent, hjoined, ?_, ?_⟩
  · intro c hc he
    obtain ⟨i, hi⟩ := List.mem_iff_getElem?.mp hc
    obtain ⟨-, hmod⟩ := (hchunks.trailer rfl i c hi).mp he
    rw [hlen] at hmod
    omega
  · intro h
    rw [h.joined, hlen] at hjoined
    omega

end NetCpp.Proofs
