import NetCpp.Addr

namespace NetCpp.Proofs
open Library Library.Decimal Library.Scanf Addr

/-- A number from 0 to 255 in decimal digits, without a zero in front. -/
structure Canonical (s : Bytes) : Prop where
  nonempty : s ≠ []
  digits : ∀ c ∈ s, isDigit c = true
  leading : s.head? = some (digit 0) → s = [digit 0]
  range : value s ≤ 255

def joinDots (a b c d : Bytes) : Bytes := a ++ dot :: (b ++ dot :: (c ++ dot :: d))

def DottedQuad (ipaddr : Bytes) : Prop :=
  ∃ a b c d, Canonical a ∧ Canonical b ∧ Canonical c ∧ Canonical d ∧ ipaddr = joinDots a b c d

theorem canonical_ofNat {n : Nat} (hn : n ≤ 255) : Canonical (ofNat n) := by
  refine ⟨ofNat_ne_nil n, fun c hc => isDigit_of_mem_ofNat hc, head?_ofNat, ?_⟩
  rwa [value_ofNat]

theorem Canonical.exists_ofNat {s : Bytes} (h : Canonical s) : ∃ n, n ≤ 255 ∧ s = ofNat n :=
  ⟨value s, h.range, (ofNat_value h.nonempty h.digits h.leading).symm⟩

section
variable {wide : Int → Int32} {a b c d : Nat}

theorem sscanf_dot {n : Nat} (hn : n ≤ 255) (format : List Directive) (rest : Bytes) :
    sscanf wide (.int :: .char dot :: format) (ofNat n ++ dot :: rest) =
      (n : Int) :: sscanf wide format rest := by
  have hdot : ∀ c ∈ (dot :: rest).head?, isDigit c = false := by
    intro c hc
    cases hc
    rfl
  rw [sscanf_int (by omega) hdot, sscanf_char]

/-- The numbers of an address are read back. -/
theorem sscanf_joinDots (ha : a ≤ 255) (hb : b ≤ 255) (hc : c ≤ 255) (hd : d ≤ 255) :
    sscanf wide ipFormat (joinDots (ofNat a) (ofNat b) (ofNat c) (ofNat d)) =
      [(a : Int), b, c, d] := by
  have hend : sscanf wide [.int, .blank] (ofNat d) = [(d : Int)] := by
    have h := @sscanf_int wide [.blank] d [] (by omega) (by simp)
    simpa [sscanf] using h
  rw [ipFormat, joinDots, sscanf_dot ha, sscanf_dot hb, sscanf_dot hc, hend]

theorem printIP_natCast : printIP a b c d = joinDots (ofNat a) (ofNat b) (ofNat c) (ofNat d) := by
  simp only [printIP, joinDots, ofInt_natCast]

theorem not_mem_joinDots :
    (0 : Byte) ∉ joinDots (ofNat a) (ofNat b) (ofNat c) (ofNat d) := by
  have hdot : (0 : Byte) ≠ dot := by decide
  have hprinted (n : Nat) : (0 : Byte) ∉ ofNat n := not_mem_ofNat rfl
  simp only [joinDots, List.mem_append, List.mem_cons, not_or]
  exact ⟨hprinted a, hdot, hprinted b, hdot, hprinted c, hdot, hprinted d⟩

theorem length_joinDots (ha : a ≤ 255) (hb : b ≤ 255) (hc : c ≤ 255) (hd : d ≤ 255) :
    (joinDots (ofNat a) (ofNat b) (ofNat c) (ofNat d)).length ≤ 15 := by
  have hla := @length_ofNat_le a 3 (by omega) (by omega)
  have hlb := @length_ofNat_le b 3 (by omega) (by omega)
  have hlc := @length_ofNat_le c 3 (by omega) (by omega)
  have hld := @length_ofNat_le d 3 (by omega) (by omega)
  simp only [joinDots, List.length_append, List.length_cons]
  omega

/-- With the NUL the text fits `temp`. -/
theorem writeBytes_joinDots (ha : a ≤ 255) (hb : b ≤ 255) (hc : c ≤ 255) (hd : d ≤ 255) :
    writeBytes 31 [] (joinDots (ofNat a) (ofNat b) (ofNat c) (ofNat d) ++ [0]) =
      .ok (joinDots (ofNat a) (ofNat b) (ofNat c) (ofNat d) ++ [0]) := by
  have hlen := length_joinDots ha hb hc hd
  apply if_neg
  rw [List.nil_append, List.length_append, List.length_singleton]
  omega

theorem cStr_terminated {s : Bytes} (hs : (0 : Byte) ∉ s) : cStr (s ++ [0]) = s := by
  have htext : ∀ c ∈ s, decide (c ≠ 0) = true := by
    intro c hc
    exact decide_eq_true (fun h => hs (h ▸ hc))
  rw [cStr, List.takeWhile_append_of_pos htext, List.takeWhile_cons_of_neg (by decide),
    List.append_nil]

/-- What `sscanf` finds at the front of the string: four numbers that pass the checks of the
range. -/
def Scans (wide : Int → Int32) (ipaddr : Bytes) (a b c d : Nat) : Prop :=
  sscanf wide ipFormat (cStr ipaddr) = [(a : Int), b, c, d] ∧ a ≤ 255 ∧ b ≤ 255 ∧ c ≤ 255 ∧ d ≤ 255

/-- The comparison decides. -/
theorem checkValidIP_of_scans {ipaddr : Bytes} (h : Scans wide ipaddr a b c d) :
    checkValidIP wide ipaddr =
      .ok (joinDots (ofNat a) (ofNat b) (ofNat c) (ofNat d) == cStr ipaddr) := by
  obtain ⟨hscan, ha, hb, hc, hd⟩ := h
  have hrange : 0 ≤ (a : Int) ∧ (a : Int) ≤ 255 ∧ 0 ≤ (b : Int) ∧ (b : Int) ≤ 255 ∧
      0 ≤ (c : Int) ∧ (c : Int) ≤ 255 ∧ 0 ≤ (d : Int) ∧ (d : Int) ≤ 255 := by omega
  rw [checkValidIP, hscan]
  dsimp only
  rw [if_pos hrange, printIP_natCast, writeBytes_joinDots ha hb hc hd]
  exact congrArg (fun temp => Except.ok (temp == cStr ipaddr)) (cStr_terminated not_mem_joinDots)

theorem checkValidIP_of_not_scans {ipaddr : Bytes} (h : ∀ a b c d, ¬Scans wide ipaddr a b c d) :
    checkValidIP wide ipaddr = .ok false := by
  rw [checkValidIP]
  split
  · rename_i a b c d hscan
    split
    · rename_i hrange
      exfalso
      apply h a.toNat b.toNat c.toNat d.toNat
      refine ⟨?_, by omega, by omega, by omega, by omega⟩
      rw [hscan, Int.toNat_of_nonneg (by omega), Int.toNat_of_nonneg (by omega),
        Int.toNat_of_nonneg (by omega), Int.toNat_of_nonneg (by omega)]
    · rfl
  · rfl

theorem scans_joinDots (ha : a ≤ 255) (hb : b ≤ 255) (hc : c ≤ 255) (hd : d ≤ 255) :
    Scans wide (joinDots (ofNat a) (ofNat b) (ofNat c) (ofNat d)) a b c d := by
  refine ⟨?_, ha, hb, hc, hd⟩
  rw [cStr_eq_self not_mem_joinDots, sscanf_joinDots ha hb hc hd]

theorem Scans.unique {ipaddr : Bytes} {a' b' c' d' : Nat} (h : Scans wide ipaddr a b c d)
    (h' : Scans wide ipaddr a' b' c' d') : a = a' ∧ b = b' ∧ c = c' ∧ d = d' := by
  have heq := h.1.symm.trans h'.1
  simpa using heq

theorem DottedQuad.exists_scans {ipaddr : Bytes} (wide : Int → Int32) (h : DottedQuad ipaddr) :
    ∃ a b c d, Scans wide ipaddr a b c d ∧
      ipaddr = joinDots (ofNat a) (ofNat b) (ofNat c) (ofNat d) := by
  obtain ⟨_, _, _, _, ha, hb, hc, hd, rfl⟩ := h
  obtain ⟨a, hla, rfl⟩ := ha.exists_ofNat
  obtain ⟨b, hlb, rfl⟩ := hb.exists_ofNat
  obtain ⟨c, hlc, rfl⟩ := hc.exists_ofNat
  obtain ⟨d, hld, rfl⟩ := hd.exists_ofNat
  exact ⟨a, b, c, d, scans_joinDots hla hlb hlc hld, rfl⟩

theorem Scans.dottedQuad {ipaddr : Bytes} (h : Scans wide ipaddr a b c d)
    (heq : joinDots (ofNat a) (ofNat b) (ofNat c) (ofNat d) = ipaddr) : DottedQuad ipaddr :=
  ⟨_, _, _, _, canonical_ofNat h.2.1, canonical_ofNat h.2.2.1, canonical_ofNat h.2.2.2.1,
    canonical_ofNat h.2.2.2.2, heq.symm⟩

end

/-- The blanks, signs and zeros that `%d` skips, and what stands behind the fourth number, the
comparison with the text printed again does not let through. -/
theorem checkValidIP_iff_dottedQuad (wide : Int → Int32) (ipaddr : Bytes)
    (hnul : (0 : Byte) ∉ ipaddr) :
    ∃ valid, checkValidIP wide ipaddr = .ok valid ∧ (valid = true ↔ DottedQuad ipaddr) := by
  by_cases hscans : ∃ a b c d, Scans wide ipaddr a b c d
  · obtain ⟨a, b, c, d, h⟩ := hscans
    refine ⟨_, checkValidIP_of_scans h, ?_⟩
    rw [cStr_eq_self hnul, beq_iff_eq]
    constructor
    · exact h.dottedQuad
    · intro hquad
      obtain ⟨a', b', c', d', h', heq⟩ := hquad.exists_scans wide
      obtain ⟨rfl, rfl, rfl, rfl⟩ := h.unique h'
      exact heq.symm
  · refine ⟨false, checkValidIP_of_not_scans ?_, ?_⟩
    · intro a b c d h
      exact hscans ⟨a, b, c, d, h⟩
    · constructor
      · intro h
        cases h
      · intro hquad
        obtain ⟨a, b, c, d, h, -⟩ := hquad.exists_scans wide
        exact absurd ⟨a, b, c, d, h⟩ hscans

/-- The address that servers and clients send to by default. -/
theorem checkValidIP_iff_dottedQuad_localhost :
    (0 : Byte) ∉ ascii ['1', '2', '7', '.', '0', '.', '0', '.', '1'] ∧
      ∃ valid, checkValidIP Int32.ofInt (ascii ['1', '2', '7', '.', '0', '.', '0', '.', '1']) =
        .ok valid ∧
        (valid = true ↔ DottedQuad (ascii ['1', '2', '7', '.', '0', '.', '0', '.', '1'])) :=
  ⟨by decide, checkValidIP_iff_dottedQuad Int32.ofInt _ (by decide)⟩

end NetCpp.Proofs
