import NetCpp.Library.Runs
import NetCpp.SettingFile

namespace NetCpp.Proofs
open Library SettingFile

/-- The buffer when so much of a file has been read. -/
def filled (processed remaining : Bytes) : List (Option Byte) :=
  processed.map some ++ List.replicate (remaining.length + 5) none

theorem filled_copy (processed chunk remaining : Bytes) :
    copyAt (filled processed (chunk ++ remaining)) processed.length chunk =
      .ok (filled (processed ++ chunk) remaining) := by
  have hlen : (filled processed (chunk ++ remaining)).length =
      processed.length + chunk.length + (remaining.length + 5) := by
    simp only [filled, List.length_append, List.length_map, List.length_replicate]
    omega
  have hgain : List.replicate ((chunk ++ remaining).length + 5) (none : Option Byte) =
      List.replicate chunk.length none ++ List.replicate (remaining.length + 5) none := by
    rw [← List.replicate_add, List.length_append, Nat.add_assoc]
  rw [copyAt, if_neg (by omega), filled, filled, hgain, List.take_left' (List.length_map ..),
    ← List.append_assoc, List.drop_left' (by simp), List.map_append]

theorem readTmp_eq (chunk remaining : Bytes) :
    Ifstream.readTmp { rest := chunk ++ remaining } chunk.length =
      (chunk, { rest := remaining }) := by
  simp [Ifstream.readTmp]

theorem readFileLoop_end {size fuel idx idxCount : Nat} {ifsf : Ifstream}
    {buff : List (Option Byte)} (h : size ≤ idxCount) :
    readFileLoop size (fuel + 1) ifsf buff idx idxCount = .ok buff := by
  rw [readFileLoop, if_neg (by omega)]

/-- From any chunk on, a long file is read to its end. The induction is on the fuel; every round but
the last one takes 512 bytes. -/
theorem readFileLoop_chunks (fuel : Nat) (processed remaining : Bytes)
    (hsize : 512 < (processed ++ remaining).length) (hfuel : remaining.length < fuel) :
    readFileLoop (processed ++ remaining).length fuel { rest := remaining }
    (filled processed remaining)
      processed.length processed.length = .ok (filled (processed ++ remaining) []) := by
  induction fuel generalizing processed remaining with
  | zero => omega
  | succ fuel ih =>
    have hlen := @List.length_append _ processed remaining
    by_cases hnil : remaining = []
    · subst hnil
      rw [List.append_nil]
      exact readFileLoop_end (Nat.le_refl _)
    · have hpos := List.length_pos_iff.mpr hnil
      rw [readFileLoop, if_pos ⟨rfl, by omega⟩, if_neg (by omega), if_pos hsize]
      by_cases hchunk : 512 ≤ remaining.length
      · obtain ⟨chunk, rest, rfl, hc⟩ : ∃ chunk rest, remaining = chunk ++ rest ∧
            chunk.length = 512 :=
          ⟨remaining.take 512, remaining.drop 512, (List.take_append_drop 512 remaining).symm,
            List.length_take_of_le hchunk⟩
        have hread := readTmp_eq chunk rest
        rw [hc] at hread
        have hrest : rest.length < fuel := by
          rw [List.length_append] at hfuel
          omega
        rw [if_pos (by omega)]
        simp only [hread, filled_copy, bind, Except.bind]
        have hih := ih (processed ++ chunk) rest (by rwa [List.append_assoc]) hrest
        have hnext : (processed ++ chunk).length = processed.length + 512 := by
          rw [List.length_append, hc]
        rwa [List.append_assoc, hnext] at hih
      · have hread := readTmp_eq remaining []
        rw [List.append_nil] at hread
        have hcopy := filled_copy processed remaining []
        rw [List.append_nil] at hcopy
        obtain ⟨n, rfl⟩ : ∃ n, fuel = n + 1 := ⟨fuel - 1, by omega⟩
        rw [if_neg (by omega), show (processed ++ remaining).length - processed.length =
          remaining.length by omega]
        simp only [hread, hcopy, bind, Except.bind]
        exact readFileLoop_end (by omega)

theorem readFile_short {content : Bytes} (h : content.length < 512) (fuel : Nat) :
    readFile content (filled [] content) content.length (fuel + 2) = .ok (filled content []) := by
  cases content with
  | nil => exact readFileLoop_end (Nat.le_refl _)
  | cons c content =>
    have hread := readTmp_eq (c :: content) []
    have hcopy := filled_copy [] (c :: content) []
    rw [List.append_nil] at hread hcopy
    rw [readFile, readFileLoop, if_pos ⟨rfl, Nat.zero_lt_succ _⟩, if_pos h]
    simp only [hread, bind, Except.bind]
    rw [List.length_nil] at hcopy
    rw [hcopy]
    exact readFileLoop_end (Nat.le_add_left _ _)

/-- A file of 512 bytes is read without end. -/
theorem readFileLoop_diverges (fuel idx : Nat) (ifsf : Ifstream) (heof : ifsf.eof = false)
    (buff : List (Option Byte)) : readFileLoop 512 fuel ifsf buff idx 0 = .error .diverges := by
  induction fuel with
  | zero => rfl
  | succ fuel ih =>
    rw [readFileLoop, if_pos ⟨heof, by omega⟩, if_neg (Nat.lt_irrefl 512),
      if_neg (Nat.lt_irrefl 512), ih]

theorem readFile_ok {content : Bytes} (h : content.length ≠ 512) :
    readFile content (filled [] content) content.length (content.length + 2) =
      .ok (filled content []) := by
  by_cases hshort : content.length < 512
  · exact readFile_short hshort _
  · exact readFileLoop_chunks (content.length + 2) [] content (by rw [List.nil_append]; omega)
      (by omega)

theorem filled_take (content : Bytes) :
    (filled content []).take content.length = content.map some := by
  rw [filled, List.take_left' (List.length_map ..)]

theorem mapM_written (content : Bytes) : (content.map some).mapM written = .ok content := by
  have hread : ∀ x ∈ content.map some, written x = .ok (x.getD 0) := by
    intro x hx
    obtain ⟨c, -, rfl⟩ := List.mem_map.mp hx
    rfl
  rw [mapM_ok hread, List.map_map]
  exact congrArg Except.ok (List.map_id content)

/-- A file is read as it is just if it does not have 512 bytes. -/
theorem readSettings_iff (content tstr : Bytes) :
    (∃ fuel buff, readFile content (List.replicate (content.length + 5) none) content.length fuel =
      .ok buff ∧ buff.take content.length = content.map some ∧
      readSettings content tstr fuel = .ok (tstr ++ content.filter isgraph)) ↔
      content.length ≠ 512 := by
  constructor
  · rintro ⟨fuel, buff, hread, -⟩ hlen
    rw [readFile, hlen, readFileLoop_diverges fuel 0 _ rfl] at hread
    cases hread
  · intro h
    have hread := readFile_ok h
    refine ⟨content.length + 2, filled content [], hread, filled_take content, ?_⟩
    rw [readSettings, show List.replicate (content.length + 5) none =
      filled [] content from rfl, hread]
    simp only [bind, Except.bind, filled_take, mapM_written]
    rfl

/-- A file of 512 bytes is never read to its end. -/
theorem readSettings_diverges :
    ¬∃ fuel tstr, readSettings (List.replicate 512 97) [] fuel = .ok tstr := by
  rintro ⟨fuel, tstr, h⟩
  have hread : readFile (List.replicate 512 97) (List.replicate 517 none) 512 fuel =
      .error .diverges :=
    readFileLoop_diverges fuel 0 _ rfl _
  rw [readSettings, List.length_replicate, hread] at h
  cases h

end NetCpp.Proofs
