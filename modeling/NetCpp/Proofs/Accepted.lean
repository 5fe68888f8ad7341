import NetCpp.Proofs.RoundTrip

namespace NetCpp.Proofs
open Library Message MessageFactory

theorem accepted_ok {r : Decoded} {b : Bool} {m : Message} (h : accepted r = .ok (b, m)) :
    ∃ o, r = .ok (o, m) ∧ o.isSome = b := by
  cases r with
  | error e => cases h
  | ok p =>
    obtain ⟨o, m'⟩ := p
    cases h
    exact ⟨o, rfl, rfl⟩

/-- A decoder for which the message only takes in the head: what it does is up to the
bytes. -/
def ReadsHead (f : Message → Decoded) : Prop :=
  (∃ e, ∀ m, f m = .error e) ∨ (∀ m, f m = .ok (none, m)) ∨
    ∃ i tid type, ∀ m, f m = .ok (some i, m.setHead tid type)

theorem ReadsHead.reject : ReadsHead (fun m => return (none, m)) :=
  Or.inr (Or.inl (fun _ => rfl))

theorem ReadsHead.bind (x : Except Fault α) {f : α → Message → Decoded}
    (hf : ∀ a, ReadsHead (f a)) : ReadsHead (fun m => x >>= fun a => f a m) := by
  cases x with
  | error e => exact Or.inl ⟨e, fun _ => rfl⟩
  | ok a => exact hf a

theorem ReadsHead.ite {p : Prop} [Decidable p] {f g : Message → Decoded} (hf : ReadsHead f)
    (hg : ReadsHead g) : ReadsHead (fun m => if p then f m else g m) := by
  by_cases hp : p
  · simpa [hp] using hf
  · simpa [hp] using hg

theorem decodeHead_reads (raw : Bytes) : ReadsHead (decodeHead raw) := by
  unfold decodeHead
  refine ReadsHead.bind _ (fun r => ?_)
  cases r with
  | none => exact ReadsHead.reject
  | some rest =>
    refine ReadsHead.bind _ (fun ⟨sVersion, rest⟩ => ?_)
    refine ReadsHead.bind _ (fun version => ?_)
    refine ReadsHead.ite ReadsHead.reject ?_
    refine ReadsHead.bind _ (fun ⟨sType, rest⟩ => ?_)
    refine ReadsHead.bind _ (fun type => ?_)
    refine ReadsHead.bind _ (fun ⟨sTid, rest⟩ => ?_)
    refine ReadsHead.bind _ (fun tid => ?_)
    refine ReadsHead.bind _ (fun r => ?_)
    cases r with
    | none => exact ReadsHead.reject
    | some rest => exact Or.inr (Or.inr ⟨_, _, _, fun _ => rfl⟩)

theorem decodeHead_ok {raw : Bytes} {m m' : Message} {r : Option Nat}
    (h : decodeHead raw m = .ok (r, m')) : m'.options = m.options ∧ m'.data = m.data := by
  rcases decodeHead_reads raw with ⟨e, he⟩ | hn | ⟨i, tid, type, hs⟩
  · rw [he] at h
    cases h
  · rw [hn] at h
    cases h
    exact ⟨rfl, rfl⟩
  · rw [hs] at h
    cases h
    exact ⟨rfl, rfl⟩

theorem decodeHead_start {raw : Bytes} {m m' : Message} {i : Nat}
    (h : decodeHead raw m = .ok (some i, m')) : msgHead ++ [space] <+: raw := by
  obtain ⟨r, hr, h⟩ := bind_ok h
  cases r with
  | none => cases h
  | some rest => exact ⟨rest, (expect_some.mp hr).symm⟩

/-- The loop over the option lines adds options, each with a key and a value that fit
between quotes. -/
theorem optionLines_ok {n : Nat} {rest : Bytes} {m m' : Message} {r : Option Bytes}
    (h : optionLines n rest m = .ok (r, m')) :
    ∃ os, m' = m.addOptions os ∧ ∀ o ∈ os, Plain o := by
  induction n generalizing rest m with
  | zero => cases h
  | succ n ih =>
    cases LineRead.of_ok h with
    | stop hc hr => exact ⟨[], (Prod.mk.inj hr).2, by simp⟩
    | separator hk hsep hr => exact ⟨[], (Prod.mk.inj hr).2, by simp⟩
    | ending hk hv hend hr => exact ⟨[], (Prod.mk.inj hr).2, by simp⟩
    | @line key value rest hk hv hrest =>
      obtain ⟨os, hm, hos⟩ := ih hrest
      refine ⟨⟨cStr key, cStr value⟩ :: os, hm, ?_⟩
      intro o ho
      rcases List.mem_cons.mp ho with rfl | ho
      · exact ⟨fun hc => hk (mem_of_mem_cStr hc), fun hc => hv (mem_of_mem_cStr hc),
          not_mem_cStr key, not_mem_cStr value⟩
      · exact hos o ho

theorem decodeChecksum_ok {raw rest : Bytes} {m m' : Message} {r : Option Nat}
    (h : decodeChecksum raw rest m = .ok (r, m')) : m' = m := by
  obtain ⟨⟨s, rest₁⟩, -, h⟩ := bind_ok h
  obtain ⟨r₁, -, h⟩ := bind_ok h
  cases r₁ with
  | none => cases h; rfl
  | some rest₂ =>
    obtain ⟨n, -, h⟩ := bind_ok h
    obtain ⟨k, -, h⟩ := bind_ok h
    split at h
    · cases h; rfl
    · obtain ⟨r₂, -, h⟩ := bind_ok h
      cases r₂ with
      | none => cases h; rfl
      | some rest₃ => cases h; rfl

theorem decodeOptions_ok {raw : Bytes} {offset : Nat} {m m' : Message} {r : Option Nat}
    (h : decodeOptions raw offset m = .ok (r, m')) :
    ∃ os, m' = m.addOptions os ∧ ∀ o ∈ os, Plain o := by
  obtain ⟨⟨r₁, m₁⟩, hlines, h⟩ := bind_ok h
  cases r₁ with
  | none => cases h; exact optionLines_ok hlines
  | some rest =>
    rw [decodeChecksum_ok h]
    exact optionLines_ok hlines

theorem catchRuntimeError_some {x : Except Fault α} {a : α}
    (h : catchRuntimeError x = .ok (some a)) : x = .ok a := by
  unfold catchRuntimeError at h
  split at h
  · cases h; rfl
  · cases h
  · cases h

/-- The body decoder takes as many bytes as the `size` option says, and writes that
option anew. -/
theorem decodeBody_ok {raw : Bytes} {offset i : Nat} {m m' : Message}
    (h : decodeBody raw offset m = .ok (some i, m')) :
    ∃ s data, m.getValue keySize = .ok s ∧ stoi s = .ok (data.length : Int) ∧
      data <+: raw.drop offset ∧
      m' = { m with data := m.data ++ data }.addOption keySize
        (Decimal.ofNat (m.data ++ data).length) := by
  obtain ⟨r, hget, h⟩ := bind_ok h
  cases r with
  | none => cases h
  | some s =>
    obtain ⟨size, hsize, h⟩ := bind_ok h
    by_cases hneg : size < 0
    · rw [if_pos hneg] at h
      cases h
    · rw [if_neg hneg] at h
      obtain ⟨m₁, hpush, h⟩ := bind_ok h
      obtain ⟨r₁, -, h⟩ := bind_ok h
      cases r₁ with
      | none => cases h
      | some rest =>
        cases h
        unfold pushData at hpush
        split at hpush
        · cases hpush
        · rename_i hlen
          cases hpush
          have hl : ((raw.drop offset).take size.toNat).length = size.toNat := by
            rw [List.length_take]
            omega
          refine ⟨s, (raw.drop offset).take size.toNat, catchRuntimeError_some hget, ?_,
            List.take_prefix _ _, rfl⟩
          rw [hl, hsize]
          congr 1
          omega

theorem decodeTail_ok {raw : Bytes} {offset : Nat} {m m' : Message} {r : Option Nat}
    (h : decodeTail raw offset m = .ok (r, m')) : m' = m := by
  obtain ⟨r₁, -, h⟩ := bind_ok h
  cases r₁ with
  | none => cases h; rfl
  | some rest => cases h; rfl

end NetCpp.Proofs
