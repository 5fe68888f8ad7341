import NetCpp.Socket

namespace NetCpp.Proofs
open Library SocketTCPCServer

/-- The chunks of some payloads, the first of them under a label. -/
def framed (label : Bytes) : List Bytes → List Bytes
  | [] => []
  | [p] => [label ++ p ++ dfsh]
  | p :: q :: ps => (label ++ p ++ dctn) :: framed dcst (q :: ps)

/-- What `RecvRAW_SM` is for. -/
structure Restored (payloads : List Bytes) (s : Receiving) : Prop where
  rdt : s.rdt = some (payloads.flatten.map some)
  bdtas : s.bdtas = payloads.flatten.length

/-- The block holds what has come, and the count is eight more than the size of the block. -/
structure Holding (n acks : Nat) (block : List (Option Byte)) (s : Receiving) : Prop where
  buff : s.buff.length = n
  rdt : s.rdt = some block
  bdtas : s.bdtas = block.length + 8
  dsat : s.dsat = true
  acks : s.acks = acks

section
variable {s : Receiving} {label p mark : Bytes} {n acks : Nat} {block : List (Option Byte)}

theorem recvInto_ok {buff piece : Bytes} (h : piece.length ≤ buff.length) :
    recvInto buff piece = .ok (piece ++ buff.drop piece.length) ∧
      (piece ++ buff.drop piece.length).length = buff.length := by
  refine ⟨?_, ?_⟩
  · rw [recvInto, if_neg (by omega)]
  · rw [List.length_append, List.length_drop]
    omega

/-- What the labels of a chunk say. -/
theorem labels_chunk (rest : Bytes) (hl : label.length = 4) (hm : mark.length = 4)
    (hnetc : label ≠ Server.netc) (hbuff : s.buff = label ++ p ++ mark ++ rest) :
    s.labels (label ++ p ++ mark).length = .ok { s with
      dsat := s.dsat || label == dsat
      dfsh := s.dfsh || mark == dfsh } := by
  have hhead : ∀ text : Bytes, text.length = 4 → equalsAt s.buff 0 text = .ok (label == text) := by
    intro text htext
    have hat := @equalsAt_append [] label (p ++ mark ++ rest) text (by omega)
    rw [hbuff, List.append_assoc, List.append_assoc]
    simpa using hat
  have htail : equalsAt s.buff (((label ++ p ++ mark).length : Int) - 4) dfsh =
      .ok (mark == dfsh) := by
    have hat := @equalsAt_append (label ++ p) mark rest dfsh (by rw [hm]; rfl)
    have hpos : ((label ++ p).length : Int) = ((label ++ p ++ mark).length : Int) - 4 := by
      simp only [List.length_append]
      omega
    rw [hbuff, List.append_assoc (label ++ p), ← hpos]
    exact hat
  have hnone : (label == Server.netc) = false := beq_eq_false_iff_ne.mpr hnetc
  have hsignal := hhead Server.netc rfl
  have hfirst := hhead dsat rfl
  rw [hnone] at hsignal
  generalize (label == dsat) = first at hfirst ⊢
  generalize (mark == dfsh) = last at htail ⊢
  cases first <;> cases last <;>
    simp only [Receiving.labels, hsignal, hfirst, htail, bind, Except.bind,
      Bool.false_eq_true, if_false, if_true, Bool.or_true, Bool.or_false] <;> rfl

theorem payload_received (rest : Bytes) (hl : label.length = 4) (hm : mark.length = 4)
    (hbuff : s.buff = label ++ p ++ mark ++ rest) : s.payload (label ++ p ++ mark).length =
      .ok p := by
  have hsize : (label ++ p ++ mark).length - 8 = p.length := by
    simp only [List.length_append]
    omega
  have hdrop : s.buff.drop 4 = p ++ (mark ++ rest) := by
    rw [hbuff, List.append_assoc, List.append_assoc, ← hl, List.drop_left]
  rw [Receiving.payload, if_neg (by simp only [List.length_append]; omega), hsize, hdrop,
    readBytes_append rfl]
  rfl

/-- The block grows by the payload and eight bytes in front of it that nothing has been written
to. -/
theorem copyAt_realloc (block : List (Option Byte)) (p : Bytes) :
    copyAt (realloc block (block.length + 8 + p.length)) (block.length + 8) p =
      .ok (block ++ List.replicate 8 none ++ p.map some) := by
  have hblock : realloc block (block.length + 8 + p.length) =
      (block ++ List.replicate 8 none) ++ List.replicate p.length none := by
    have hgain : block.length + 8 + p.length - block.length = 8 + p.length := by omega
    rw [realloc, List.take_of_length_le (by omega), hgain, List.replicate_add, List.append_assoc]
  have hlen : (block ++ List.replicate 8 (none : Option Byte)).length = block.length + 8 := by simp
  have hall :
      (block ++ List.replicate 8 none ++ List.replicate p.length (none : Option Byte)).length =
      block.length + 8 + p.length := by
    rw [List.length_append, hlen, List.length_replicate]
  rw [hblock, copyAt, if_neg (by omega), List.drop_eq_nil_of_le (by omega), List.append_nil, ← hlen,
    List.take_left]

/-- What a round has to look at, of a chunk that starts no short message. -/
theorem round_chunk (hl : label.length = 4) (hm : mark.length = 4) (hnetc : label ≠ Server.netc)
    (hfits : (label ++ p ++ mark).length ≤ s.buff.length) : ∃ buff,
      recvInto s.buff (label ++ p ++ mark) = .ok buff ∧ buff.length = s.buff.length ∧
      Receiving.labels { s with buff } (label ++ p ++ mark).length = .ok { s with
        buff, dsat := s.dsat || label == dsat, dfsh := s.dfsh || mark == dfsh } ∧
      ∀ u : Receiving, u.buff = buff → u.payload (label ++ p ++ mark).length = .ok p := by
  obtain ⟨hrecv, hlen⟩ := recvInto_ok hfits
  generalize s.buff.drop (label ++ p ++ mark).length = rest at hrecv hlen
  exact ⟨label ++ p ++ mark ++ rest, hrecv, hlen, labels_chunk rest hl hm hnetc rfl,
    fun u hu => payload_received rest hl hm hu⟩

theorem round_first {buff : Bytes} (hm : mark.length = 4) (hfits : p.length + 8 ≤ buff.length) :
    ∃ s, Receiving.round { buff } (dsat ++ p ++ mark) = .ok s ∧
      Holding buff.length 1 (p.map some) s ∧ s.dfsh = (mark == dfsh) := by
  have hlen : (dsat ++ p ++ mark).length = p.length + 8 := by
    simp only [List.length_append, show dsat.length = 4 from rfl]
    omega
  obtain ⟨buff', hrecv, hbuff, hlabels, hpayload⟩ :=
    @round_chunk { buff } dsat p mark rfl hm (by decide)
    (by rw [hlen]; exact hfits)
  refine ⟨{
    buff := buff'
    rdt := some (p.map some)
    bdtas := (dsat ++ p ++ mark).length
    dsat := true
    dfsh := mark == dfsh
    acks := 1 }, ?_, ⟨hbuff, rfl, ?_, rfl, rfl⟩, rfl⟩
  · simp only [Receiving.round, hrecv, hlabels, bind, Except.bind, beq_self_eq_true,
      Bool.or_true, if_true, Bool.false_eq_true, if_false, Bool.false_or, Nat.zero_add]
    rw [hpayload _ (by rfl)]
    rfl
  · rw [List.length_map]
    exact hlen

theorem round_later (h : Holding n acks block s) (hm : mark.length = 4) (hfits : p.length + 8 ≤ n) :
    ∃ t, s.round (dcst ++ p ++ mark) = .ok t ∧
      Holding n (acks + 1) (block ++ List.replicate 8 none ++ p.map some) t ∧
      t.dfsh = (s.dfsh || mark == dfsh) := by
  have hlen : (dcst ++ p ++ mark).length = p.length + 8 := by
    simp only [List.length_append, show dcst.length = 4 from rfl]
    omega
  obtain ⟨buff', hrecv, hbuff, hlabels, hpayload⟩ := @round_chunk s dcst p mark rfl hm (by decide)
    (by rw [hlen, h.buff]; exact hfits)
  have hcopy : copyAt (realloc block (block.length + 8 + (dcst ++ p ++ mark).length - 8))
      (block.length + 8) p = .ok (block ++ List.replicate 8 none ++ p.map some) := by
    rw [hlen, show block.length + 8 + (p.length + 8) - 8 = block.length + 8 + p.length by omega]
    exact copyAt_realloc block p
  refine ⟨{ s with
    buff := buff'
    rdt := some (block ++ List.replicate 8 none ++ p.map some)
    bdtas := block.length + 8 + (dcst ++ p ++ mark).length
    dsat := true
    dfsh := s.dfsh || mark == dfsh
    acks := acks + 1 }, ?_, ⟨hbuff.trans h.buff, rfl, ?_, rfl, rfl⟩, rfl⟩
  · simp only [Receiving.round, hrecv, hlabels, bind, Except.bind]
    simp only [h.dsat, Bool.true_or, if_true, h.rdt, h.bdtas, h.acks]
    rw [hpayload _ (by rfl)]
    simp only [hcopy]
    rfl
  · show block.length + 8 + (dcst ++ p ++ mark).length = _ + 8
    rw [hlen, List.length_append, List.length_append, List.length_replicate, List.length_map]
    omega

end

/-- The payloads after the first, each behind its eight bytes. -/
def gapped (payloads : List Bytes) : List (Option Byte) :=
  payloads.flatMap fun p => List.replicate 8 none ++ p.map some

theorem loop_done {s : Receiving} (h : s.dfsh = true) (pieces : List Bytes) :
    s.loop pieces = .ok s := by
  cases pieces with
  | nil => rfl
  | cons piece pieces => rw [Receiving.loop, if_pos (Or.inl h)]

theorem loop_cons {s t : Receiving} {piece : Bytes} {pieces : List Bytes} (h : s.dfsh = false)
    (hpiece : piece ≠ []) (hround : s.round piece = .ok t) :
    s.loop (piece :: pieces) = t.loop pieces := by
  have hnot : ¬(s.dfsh = true ∨ piece = []) := by
    rintro (hs | hp)
    · rw [h] at hs
      cases hs
    · exact hpiece hp
  rw [Receiving.loop, if_neg hnot, hround]
  rfl

/-- The first chunk of some payloads, with the label behind it. -/
theorem framed_cons (label p : Bytes) (ps : List Bytes) : ∃ mark : Bytes, mark.length = 4 ∧
    (mark = dfsh ↔ ps = []) ∧ framed label (p :: ps) = (label ++ p ++ mark) :: framed dcst ps := by
  cases ps with
  | nil => exact ⟨dfsh, rfl, ⟨fun _ => rfl, fun _ => rfl⟩, rfl⟩
  | cons q qs =>
    refine ⟨dctn, rfl,
      ⟨fun h => absurd h (by decide), fun h => absurd h (List.cons_ne_nil q qs)⟩, rfl⟩

/-- The loop after the first chunk. The induction is on the payloads left. -/
theorem loop_later (payloads : List Bytes) :
    ∀ {n acks : Nat} {block : List (Option Byte)} {s : Receiving},
    Holding n acks block s → (s.dfsh = true ↔ payloads = []) → (∀ p ∈ payloads, p.length + 8 ≤ n) →
      ∃ t, s.loop (framed dcst payloads) = .ok t ∧
        Holding n (acks + payloads.length) (block ++ gapped payloads) t := by
  induction payloads with
  | nil =>
    intro n acks block s h hdone _
    refine ⟨s, loop_done (hdone.mpr rfl) _, ?_⟩
    rw [gapped, List.flatMap_nil, List.append_nil]
    exact h
  | cons p ps ih =>
    intro n acks block s h hdone hfits
    have hopen : ¬(s.dfsh = true) := by
      rw [hdone]
      exact List.cons_ne_nil p ps
    have hp := hfits p List.mem_cons_self
    have hps : ∀ q ∈ ps, q.length + 8 ≤ n := fun q hq => hfits q (List.mem_cons_of_mem p hq)
    obtain ⟨mark, hmark, hlast, hframed⟩ := framed_cons dcst p ps
    obtain ⟨t, hround, ht, hdfsh⟩ := round_later h hmark hp
    rw [Bool.not_eq_true] at hopen
    rw [hopen, Bool.false_or] at hdfsh
    obtain ⟨u, hloop, hu⟩ := ih ht (by rw [hdfsh, beq_iff_eq, hlast]) hps
    refine ⟨u, ?_, ?_⟩
    · rw [hframed, loop_cons hopen (by simp [dcst, ascii]) hround, hloop]
    · rw [gapped, List.flatMap_cons, ← List.append_assoc, ← List.append_assoc, List.length_cons,
        Nat.add_comm ps.length, ← Nat.add_assoc]
      exact hu

theorem length_gapped (payloads : List Bytes) :
    (gapped payloads).length = payloads.flatten.length + 8 * payloads.length := by
  induction payloads with
  | nil => rfl
  | cons p ps ih =>
    have hcons : gapped (p :: ps) = (List.replicate 8 none ++ p.map some) ++ gapped ps :=
      List.flatMap_cons
    rw [hcons, List.length_append, List.length_append, ih, List.length_replicate, List.length_map,
      List.flatten_cons, List.length_append, List.length_cons]
    omega

/-- The size that is returned has the labels of all the chunks in it, eight bytes more than there
are in the block. -/
theorem not_restored {buff : Bytes} {payloads : List Bytes} (hne : payloads ≠ [])
    (hfits : ∀ p ∈ payloads, p.length + 8 ≤ buff.length) :
    ∃ s block, recvRawSM buff (framed dsat payloads) = .ok s ∧ s.rdt = some block ∧
      s.bdtas = block.length + 8 ∧ s.bdtas = payloads.flatten.length + 8 * payloads.length ∧
      ¬Restored payloads s := by
  obtain ⟨p, ps, rfl⟩ := List.exists_cons_of_ne_nil hne
  have hp := hfits p List.mem_cons_self
  have hps : ∀ q ∈ ps, q.length + 8 ≤ buff.length := fun q hq => hfits q (List.mem_cons_of_mem p hq)
  obtain ⟨mark, hmark, hlast, hframed⟩ := framed_cons dsat p ps
  obtain ⟨s, hround, hs, hdfsh⟩ := round_first hmark hp
  obtain ⟨t, hloop, ht⟩ := loop_later ps hs (by rw [hdfsh, beq_iff_eq, hlast]) hps
  have hrecv : recvRawSM buff (framed dsat (p :: ps)) = .ok t := by
    rw [recvRawSM, hframed, loop_cons rfl (by simp [dsat, ascii]) hround, hloop]
  have hsize : t.bdtas = (p :: ps).flatten.length + 8 * (p :: ps).length := by
    rw [ht.bdtas, List.length_append, length_gapped, List.length_map, List.flatten_cons,
      List.length_append, List.length_cons]
    omega
  refine ⟨t, _, hrecv, ht.rdt, ht.bdtas, hsize, ?_⟩
  intro h
  have hcount := h.bdtas
  rw [hsize, List.length_cons] at hcount
  omega

theorem not_restored_sample : ∃ s block,
    recvRawSM (List.replicate 64 0) (framed dsat [[1, 2], [3]]) = .ok s ∧ s.rdt = some block ∧
      s.bdtas = block.length + 8 ∧ s.bdtas = [[1, 2], [(3 : Byte)]].flatten.length + 8 * 2 ∧
      ¬Restored [[1, 2], [3]] s :=
  not_restored (by decide) (by decide)

/-- Two chunks of one byte each are received as 18 bytes, of a block of ten. -/
theorem not_restored_two : ∃ s, recvRawSM (List.replicate 64 0) (framed dsat [[1], [2]]) = .ok s ∧
    s.rdt = some ([some 1] ++ List.replicate 8 none ++ [some 2]) ∧ s.bdtas = 18 ∧
    ¬Restored [[1], [2]] s := by
  have hok : (recvRawSM (List.replicate 64 0) (framed dsat [[1], [2]])).isOk = true := by decide
  obtain ⟨s, hs⟩ := exists_of_isOk hok
  have hrun : (recvRawSM (List.replicate 64 0) (framed dsat [[1], [2]])).map
      (fun s => (s.rdt, s.bdtas)) =
      .ok (some ([some 1] ++ List.replicate 8 none ++ [some 2]), 18) := by decide
  rw [hs] at hrun
  obtain ⟨hrdt, hbdtas⟩ := Prod.mk.inj (Except.ok.inj hrun)
  refine ⟨s, hs, hrdt, hbdtas, ?_⟩
  intro h
  rw [h.bdtas] at hbdtas
  exact absurd hbdtas (by decide)

end NetCpp.Proofs
