import NetCpp.Proj

namespace NetCpp.Proofs
open Proj

section
variable {sctc : List CheckTableColumn}

/-- The loop compares as many rows as it has rounds. The induction is on the rounds; `known` is what
has been compared. -/
theorem checkColumns_ok (rounds : Nat) (known expected rows : List CheckTableColumn)
    (hrounds : rounds ≤ expected.length) :
    checkColumns (known ++ expected) rounds known.length rows = .ok () ↔
    expected.take rounds <+: rows := by
  induction rounds generalizing known expected rows with
  | zero => simp [checkColumns]
  | succ rounds ih =>
    obtain ⟨column, expected, rfl⟩ :=
      List.exists_cons_of_length_pos (Nat.lt_of_lt_of_le (Nat.succ_pos _) hrounds)
    cases rows with
    | nil => simp [checkColumns]
    | cons tctc rows =>
      have hget : (known ++ column :: expected)[known.length]? = some column := by simp
      have hih := ih (known ++ [column]) expected rows (Nat.le_of_succ_le_succ hrounds)
      rw [List.append_assoc, List.singleton_append, List.length_append,
        List.length_singleton] at hih
      rw [checkColumns, hget, List.take_succ_cons, List.cons_prefix_cons, ← hih]
      by_cases heq : tctc = column
      · simp [heq]
      · simp [heq, Ne.symm heq]

/-- All columns but the last one are compared. -/
theorem checkTable_ok {rows : List CheckTableColumn} (hrows : rows ≠ []) :
    checkTable sctc.length sctc rows = .ok () ↔ sctc.dropLast <+: rows := by
  rw [checkTable, if_neg hrows, List.dropLast_eq_take]
  exact checkColumns_ok (sctc.length - 1) [] sctc rows (Nat.sub_le _ _)

/-- The columns before the last one are as they should be, and the last one is not. -/
def LastMissed (sctc rows : List CheckTableColumn) : Prop :=
  ∃ known last, sctc = known ++ [last] ∧ known <+: rows ∧ rows[known.length]? ≠ some last

theorem concat_prefix {known rows : List CheckTableColumn} {last : CheckTableColumn} :
    known ++ [last] <+: rows ↔ known <+: rows ∧ rows[known.length]? = some last := by
  constructor
  · rintro ⟨rest, rfl⟩
    rw [List.append_assoc]
    exact ⟨List.prefix_append _ _, by simp⟩
  · rintro ⟨⟨rest, rfl⟩, hget⟩
    rw [List.getElem?_append_right (Nat.le_refl _), Nat.sub_self] at hget
    cases rest with
    | nil => cases hget
    | cons column rest =>
      obtain rfl := Option.some.inj hget
      exact ⟨rest, by rw [List.append_assoc, List.singleton_append]⟩

theorem lastMissed_iff (hsctc : sctc ≠ []) (rows : List CheckTableColumn) :
    LastMissed sctc rows ↔ sctc.dropLast <+: rows ∧ ¬sctc <+: rows := by
  constructor
  · rintro ⟨known, last, rfl, hknown, hlast⟩
    rw [List.dropLast_concat, concat_prefix]
    exact ⟨hknown, fun h => hlast h.2⟩
  · rintro ⟨hknown, hnot⟩
    have hsplit := (List.dropLast_concat_getLast hsctc).symm
    rw [hsplit, concat_prefix] at hnot
    exact ⟨_, _, hsplit, hknown, fun hlast => hnot ⟨hknown, hlast⟩⟩

/-- A table that is passed has all of its columns as they should be, just if the last one is not the
only one that is wrong. -/
theorem checkTable_iff {rows : List CheckTableColumn} (hrows : rows ≠ []) (hsctc : sctc ≠ []) :
    (checkTable sctc.length sctc rows = .ok () → sctc <+: rows) ↔ ¬LastMissed sctc rows := by
  rw [checkTable_ok hrows, lastMissed_iff hsctc]
  exact Decidable.not_and_not_right.symm

end

/-- The columns of the table of libraries, with another one in the place of the last. -/
def sampleColumns : List CheckTableColumn :=
  [{ name := ascii ['i', 'd'], type := ascii ['I', 'N', 'T'], notnull := 1, pk := 1 },
    { name := ascii ['n', 'a', 'm', 'e'], type := ascii ['T', 'E', 'X', 'T'], notnull := 1,
      pk := 0 }]

def sampleLast : CheckTableColumn :=
  { name := ascii ['c', 'o', 'n', 't', 'e', 'n', 't'], type := ascii ['N', 'O', 'N', 'E'],
    notnull := 0, pk := 0 }

theorem checkTable_sample : ¬LastMissed sampleColumns sampleColumns :=
  (@checkTable_iff sampleColumns sampleColumns (by decide) (by decide)).mp fun _ => List.prefix_rfl

/-- A table without its last column is passed. -/
theorem checkTable_missed :
    checkTable 3 (sampleColumns ++ [sampleLast]) sampleColumns = .ok () ∧
    ¬sampleColumns ++ [sampleLast] <+: sampleColumns := by
  refine ⟨by decide +kernel, ?_⟩
  intro h
  exact absurd h.length_le (by decide)

end NetCpp.Proofs
