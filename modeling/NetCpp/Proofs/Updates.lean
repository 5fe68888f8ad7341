import NetCpp.Library.Runs
import NetCpp.Proj

namespace NetCpp.Proofs
open Library Proj

/-- A parameter as it comes back from the table. -/
def stored (arg : CptFuncArgs) : CptFuncArgs :=
  { arg with type := cStr arg.type, key := cStr arg.key }

theorem length_insertArgs (io idx sidx : Nat) (args : List CptFuncArgs) :
    (insertArgs io idx sidx args).length = args.length := by
  induction args generalizing idx sidx with
  | nil => rfl
  | cons arg args ih => rw [insertArgs, List.length_cons, List.length_cons, ih]

/-- What is stored is all that counts. -/
theorem insertArgs_stored (io idx sidx : Nat) (args : List CptFuncArgs) :
    insertArgs io idx sidx (args.map stored) = insertArgs io idx sidx args := by
  induction args generalizing idx sidx with
  | nil => rfl
  | cons arg args ih =>
    rw [List.map_cons, insertArgs, insertArgs, ih]
    simp only [stored, cStr_eq_self (not_mem_cStr _)]

theorem checkArgs_other {io idx : Nat} {row : FargRow} (h : row.io ≠ io) (farg : CptFuncArgs)
    (fargs : List CptFuncArgs) (rows : List FargRow) :
    checkArgs io idx (farg :: fargs) (row :: rows) = .ok (true, row :: rows) := by
  rw [checkArgs, if_neg fun hrow => h hrow.2]

/-- Neither list goes on from where the other ends. -/
def Apart (old new : List CptFuncArgs) : Prop := ¬old <+: new ∧ ¬new <+: old

/-- One list goes on from where the other ends. -/
def Longer (old new : List CptFuncArgs) : Prop := old <+: new ∧ old ≠ new

section
variable (io : Nat) (more : List FargRow)

/-- A loop over a list that goes on as the stored one comes to the rows behind that. -/
theorem checkArgs_append (old extra : List CptFuncArgs) (idx sidx : Nat) :
    checkArgs io idx (old.map stored ++ extra) (insertArgs io idx sidx old ++ more) =
      checkArgs io (idx + old.length) extra more := by
  induction old generalizing idx sidx with
  | nil => rfl
  | cons arg old ih =>
    rw [List.map_cons, List.cons_append, insertArgs, List.cons_append, checkArgs, if_pos ⟨rfl, rfl⟩,
      if_pos ⟨rfl, rfl, rfl⟩, ih, List.length_cons, Nat.add_right_comm, Nat.add_assoc]

/-- A loop over a list that is not as long stops at a row that is its own. The induction is on the
list. -/
theorem checkArgs_longer (old new : List CptFuncArgs) (h : Longer new (old.map stored))
    (idx sidx : Nat) :
    ∃ row rows, checkArgs io idx new (insertArgs io idx sidx old ++ more) =
      .ok (false, row :: rows) ∧ row.io = io := by
  obtain ⟨hpre, hne⟩ := h
  induction new generalizing old idx sidx with
  | nil =>
    cases old with
    | nil => exact absurd rfl hne
    | cons arg old => exact ⟨_, _, rfl, rfl⟩
  | cons farg new ih =>
    cases old with
    | nil => exact absurd (List.prefix_nil.mp hpre) (List.cons_ne_nil _ _)
    | cons arg old =>
      rw [List.map_cons] at hpre hne
      obtain ⟨rfl, htail⟩ := List.cons_prefix_cons.mp hpre
      rw [insertArgs, List.cons_append, checkArgs, if_pos ⟨rfl, rfl⟩, if_pos ⟨rfl, rfl, rfl⟩]
      exact ih old (idx + 1) (sidx + 1) htail fun heq => hne (congrArg _ heq)

/-- A loop over a list that differs somewhere stops there. The induction is on the stored list. -/
theorem checkArgs_apart (old new : List CptFuncArgs) (h : Apart (old.map stored) new)
    (idx sidx : Nat) :
    ∃ row rows, checkArgs io idx new (insertArgs io idx sidx old ++ more) =
      .ok (true, row :: rows) ∧ row.io = io := by
  obtain ⟨hold, hnew⟩ := h
  induction old generalizing new idx sidx with
  | nil => exact absurd List.nil_prefix hold
  | cons arg old ih =>
    cases new with
    | nil => exact absurd List.nil_prefix hnew
    | cons farg new =>
      rw [List.map_cons] at hold hnew
      rw [insertArgs, List.cons_append, checkArgs, if_pos ⟨rfl, rfl⟩]
      by_cases heq : stored arg = farg
      · subst heq
        rw [if_pos ⟨rfl, rfl, rfl⟩]
        exact ih new (idx + 1) (sidx + 1) (fun hpre => hold (List.cons_prefix_cons.mpr ⟨rfl, hpre⟩))
          fun hpre => hnew (List.cons_prefix_cons.mpr ⟨rfl, hpre⟩)
      · rw [if_neg fun hsame => heq (CptFuncArgs.ext hsame.1 hsame.2.2 hsame.2.1)]
        exact ⟨_, _, rfl, rfl⟩

end

theorem lists_cases (old new : List CptFuncArgs) :
    old = new ∨ Longer old new ∨ Longer new old ∨ Apart old new := by
  by_cases heq : old = new
  · exact .inl heq
  · by_cases hlonger : old <+: new
    · exact .inr (.inl ⟨hlonger, heq⟩)
    · by_cases hshorter : new <+: old
      · exact .inr (.inr (.inl ⟨hshorter, Ne.symm heq⟩))
      · exact .inr (.inr (.inr ⟨hlonger, hshorter⟩))

theorem Longer.length_lt {old new : List CptFuncArgs} (h : Longer old new) :
    old.length < new.length :=
  Nat.lt_of_le_of_ne h.1.length_le fun hlen => h.2 (h.1.eq_of_length hlen)

theorem Longer.exists_cons {old new : List CptFuncArgs} (h : Longer old new) :
    ∃ farg fargs, new = old ++ farg :: fargs := by
  obtain ⟨⟨extra, rfl⟩, hne⟩ := h
  cases extra with
  | nil => exact absurd (List.append_nil old).symm hne
  | cons farg fargs => exact ⟨farg, fargs, rfl⟩

theorem checkOut_eq (old : List CptFuncArgs) (sidx : Nat) :
    checkArgs 1 0 (old.map stored) (insertArgs 1 0 sidx old) = .ok (false, []) := by
  have hloop := checkArgs_append 1 [] old [] 0 sidx
  rwa [List.append_nil, List.append_nil] at hloop

/-- The outputs that there were are all equal, and the next row is read. -/
theorem checkOut_error {old new : List CptFuncArgs} (h : Longer (old.map stored) new) (sidx : Nat) :
    checkArgs 1 0 new (insertArgs 1 0 sidx old) = .error .nullPointer := by
  obtain ⟨farg, fargs, rfl⟩ := h.exists_cons
  have hloop := checkArgs_append 1 [] old (farg :: fargs) 0 sidx
  rwa [List.append_nil] at hloop

theorem checkOut_ok {old new : List CptFuncArgs} (h : ¬Longer (old.map stored) new) (sidx : Nat) :
    ∃ changed rows, checkArgs 1 0 new (insertArgs 1 0 sidx old) = .ok (changed, rows) := by
  rcases lists_cases (old.map stored) new with rfl | hlonger | hshorter | hapart
  · exact ⟨_, _, checkOut_eq old sidx⟩
  · exact absurd hlonger h
  · obtain ⟨row, rows, hloop, -⟩ := checkArgs_longer 1 [] old new hshorter 0 sidx
    rw [List.append_nil] at hloop
    exact ⟨_, _, hloop⟩
  · obtain ⟨row, rows, hloop, -⟩ := checkArgs_apart 1 [] old new hapart 0 sidx
    rw [List.append_nil] at hloop
    exact ⟨_, _, hloop⟩

/-- Outputs do not go on from a row of an input. -/
theorem checkOut_input {row : FargRow} (hrow : row.io = 0) (new : List CptFuncArgs)
    (rows : List FargRow) : checkArgs 1 0 new (row :: rows) = .ok (!new.isEmpty, row :: rows) := by
  cases new with
  | nil => rfl
  | cons farg fargs => exact checkArgs_other (by omega) farg fargs rows

/-- The lists differ in a way that the check misses, or that takes it behind the last row. -/
def Missed (oldIn oldOut newIn newOut : List CptFuncArgs) : Prop :=
  (oldIn = newIn ∧ (Longer oldOut newOut ∨ Longer newOut oldOut)) ∨
    (Longer newIn oldIn ∧ newOut = []) ∨
    (Longer oldIn newIn ∧ (oldOut = [] ∨ Longer oldOut newOut))

section
variable {table rows : List FargRow} {newIn newOut : List CptFuncArgs}

theorem updateArgs_loops {changedIn : Bool}
    (hin : checkArgs 0 0 newIn table = .ok (changedIn, rows)) :
    updateArgs table newIn newOut = (checkArgs 1 0 newOut rows).map fun r =>
      if changedIn || r.1 then writeArgsInfoNoCreateTable [] newIn newOut else table := by
  rw [updateArgs, hin]
  simp only [bind, Except.bind]
  cases checkArgs 1 0 newOut rows with
  | error f => rfl
  | ok r =>
    dsimp only [Except.map]
    split <;> rfl

theorem length_write (newIn newOut : List CptFuncArgs) :
    (writeArgsInfoNoCreateTable [] newIn newOut).length = newIn.length + newOut.length := by
  simp only [writeArgsInfoNoCreateTable, List.nil_append, List.length_append, length_insertArgs]

theorem write_stored (oldIn oldOut : List CptFuncArgs) :
    writeArgsInfoNoCreateTable [] (oldIn.map stored) (oldOut.map stored) =
      writeArgsInfoNoCreateTable [] oldIn oldOut := by
  simp only [writeArgsInfoNoCreateTable, insertArgs_stored, List.length_map]

end

section
variable {oldIn oldOut newIn newOut : List CptFuncArgs}

/-- The table is as it should be after the check. -/
def Updated (oldIn oldOut newIn newOut : List CptFuncArgs) : Prop :=
  updateArgs (writeArgsInfoNoCreateTable [] oldIn oldOut) newIn newOut =
    .ok (writeArgsInfoNoCreateTable [] newIn newOut)

theorem length_of_write_eq {oldIn oldOut newIn newOut : List CptFuncArgs}
    (h : writeArgsInfoNoCreateTable [] oldIn oldOut = writeArgsInfoNoCreateTable [] newIn newOut) :
    oldIn.length + oldOut.length = newIn.length + newOut.length := by
  rw [← length_write, h, length_write]

theorem Apart.not_longer {old new : List CptFuncArgs} (h : Apart old new) :
    ¬(Longer old new ∨ Longer new old) := by
  rintro (hlonger | hshorter)
  · exact h.1 hlonger.1
  · exact h.2 hshorter.1

/-- With the inputs unchanged only the outputs decide. -/
theorem updated_same : Updated oldIn oldOut (oldIn.map stored) newOut ↔
    ¬(Longer (oldOut.map stored) newOut ∨ Longer newOut (oldOut.map stored)) := by
  have hin : checkArgs 0 0 (oldIn.map stored) (writeArgsInfoNoCreateTable [] oldIn oldOut) =
      .ok (false, insertArgs 1 0 oldIn.length oldOut) := by
    have hloop := checkArgs_append 0 (insertArgs 1 0 oldIn.length oldOut) oldIn [] 0 0
    rwa [List.append_nil] at hloop
  rw [Updated, updateArgs_loops hin]
  rcases lists_cases (oldOut.map stored) newOut with rfl | hlonger | hshorter | hapart
  · rw [checkOut_eq, write_stored]
    refine ⟨fun _ h => ?_, fun _ => rfl⟩
    exact (or_self_iff.mp h).2 rfl
  · rw [checkOut_error hlonger]
    exact ⟨fun h => (nomatch h), fun h => absurd (.inl hlonger) h⟩
  · obtain ⟨row, rows, hout, -⟩ := checkArgs_longer 1 [] oldOut newOut hshorter 0 oldIn.length
    rw [List.append_nil] at hout
    rw [hout]
    refine ⟨fun h => ?_, fun h => absurd (.inr hshorter) h⟩
    have hlen := length_of_write_eq (Except.ok.inj h)
    have hlt := hshorter.length_lt
    rw [List.length_map] at hlen hlt
    omega
  · obtain ⟨row, rows, hout, -⟩ := checkArgs_apart 1 [] oldOut newOut hapart 0 oldIn.length
    rw [List.append_nil] at hout
    rw [hout]
    exact ⟨fun _ => hapart.not_longer, fun _ => rfl⟩

/-- With inputs added the first row of an output shows it, if there is one. -/
theorem updated_longer (h : Longer (oldIn.map stored) newIn) :
    Updated oldIn oldOut newIn newOut ↔ ¬(oldOut = [] ∨ Longer (oldOut.map stored) newOut) := by
  obtain ⟨farg, fargs, rfl⟩ := h.exists_cons
  have hin := checkArgs_append 0 (insertArgs 1 0 oldIn.length oldOut) oldIn (farg :: fargs) 0 0
  cases hout : oldOut with
  | nil =>
    subst hout
    have hend : updateArgs (writeArgsInfoNoCreateTable [] oldIn [])
        (oldIn.map stored ++ farg :: fargs) newOut =
        .error .nullPointer := by
      rw [updateArgs]
      simp only [writeArgsInfoNoCreateTable, List.nil_append, hin]
      rfl
    rw [Updated, hend]
    exact ⟨fun h => (nomatch h), fun h => absurd (.inl rfl) h⟩
  | cons arg args =>
    have hother : checkArgs 0 0 (oldIn.map stored ++ farg :: fargs)
        (writeArgsInfoNoCreateTable [] oldIn (arg :: args)) =
        .ok (true, insertArgs 1 0 oldIn.length (arg :: args)) := by
      rw [hout] at hin
      exact hin.trans (checkArgs_other Nat.one_ne_zero farg fargs _)
    rw [Updated, updateArgs_loops hother]
    by_cases hlonger : Longer ((arg :: args).map stored) newOut
    · rw [checkOut_error hlonger]
      exact ⟨fun h => (nomatch h), fun h => absurd (.inr hlonger) h⟩
    · obtain ⟨changed, rows, hok⟩ := checkOut_ok hlonger oldIn.length
      rw [hok]
      exact ⟨fun _ hmissed => hmissed.elim (List.cons_ne_nil _ _) hlonger, fun _ => rfl⟩

/-- With inputs removed the first output finds a row of an input, if there is one. -/
theorem updated_shorter (h : Longer newIn (oldIn.map stored)) :
    Updated oldIn oldOut newIn newOut ↔ newOut ≠ [] := by
  obtain ⟨row, rows, hin, hrow⟩ :=
    checkArgs_longer 0 (insertArgs 1 0 oldIn.length oldOut) oldIn newIn h 0 0
  rw [Updated, @updateArgs_loops (writeArgsInfoNoCreateTable [] oldIn oldOut) _ _ _ _ hin,
    checkOut_input hrow]
  cases newOut with
  | nil =>
    refine ⟨fun hsame => ?_, fun hne => absurd rfl hne⟩
    have hlen := length_of_write_eq (Except.ok.inj hsame)
    have hlt := h.length_lt
    rw [List.length_map] at hlt
    rw [List.length_nil] at hlen
    omega
  | cons farg fargs => exact ⟨fun _ => List.cons_ne_nil _ _, fun _ => rfl⟩

theorem updated_apart (h : Apart (oldIn.map stored) newIn) : Updated oldIn oldOut newIn newOut := by
  obtain ⟨row, rows, hin, hrow⟩ :=
    checkArgs_apart 0 (insertArgs 1 0 oldIn.length oldOut) oldIn newIn h 0 0
  rw [Updated, @updateArgs_loops (writeArgsInfoNoCreateTable [] oldIn oldOut) _ _ _ _ hin,
    checkOut_input hrow]
  rfl

end

/-- After the check the table is the one of the new lists, just if the check does not miss how they
differ from the old ones. -/
theorem updateArgs_iff (oldIn oldOut newIn newOut : List CptFuncArgs) :
    updateArgs (writeArgsInfoNoCreateTable [] oldIn oldOut) newIn newOut =
      .ok (writeArgsInfoNoCreateTable [] newIn newOut) ↔
    ¬Missed (oldIn.map stored) (oldOut.map stored) newIn newOut := by
  change Updated oldIn oldOut newIn newOut ↔ _
  have hirrefl (l : List CptFuncArgs) : ¬Longer l l := fun h => h.2 rfl
  rw [Missed, List.map_eq_nil_iff]
  rcases lists_cases (oldIn.map stored) newIn with rfl | hlonger | hshorter | hapart
  · simp only [updated_same, hirrefl, true_and, false_and, or_false]
  · have hne := hlonger.2
    have hnot : ¬Longer newIn (oldIn.map stored) :=
      fun h => Nat.lt_asymm h.length_lt hlonger.length_lt
    simp only [updated_longer hlonger, hlonger, hne, hnot, true_and, false_and, false_or]
  · have hne := hshorter.2.symm
    have hnot : ¬Longer (oldIn.map stored) newIn :=
      fun h => Nat.lt_asymm h.length_lt hshorter.length_lt
    simp only [updated_shorter hshorter, hshorter, hne, hnot, true_and, false_and,
      false_or, or_false]
  · have hne : oldIn.map stored ≠ newIn := fun h => hapart.1 (h ▸ List.prefix_rfl)
    have hnot := hapart.not_longer
    simp only [updated_apart hapart, hne, (not_or.mp hnot).1, (not_or.mp hnot).2,
      false_and, or_false, not_false_eq_true]

/-- An `int` with a name of one letter. -/
def sampleArg (c : Char) : CptFuncArgs :=
  { type := ascii ['i', 'n', 't'], size := 1, key := ascii [c] }

/-- An output that is removed is missed, and behind the rows of a function without outputs an input
that is added is looked for. -/
theorem updateArgs_missed :
    updateArgs (writeArgsInfoNoCreateTable [] [sampleArg 'a'] [sampleArg 'b']) [sampleArg 'a'] [] =
      .ok (writeArgsInfoNoCreateTable [] [sampleArg 'a'] [sampleArg 'b']) ∧
    writeArgsInfoNoCreateTable [] [sampleArg 'a'] [sampleArg 'b'] ≠
      writeArgsInfoNoCreateTable [] [sampleArg 'a'] [] ∧
    updateArgs (writeArgsInfoNoCreateTable [] [sampleArg 'a'] [])
    [sampleArg 'a', sampleArg 'b'] [] =
      .error .nullPointer := by
  refine ⟨by decide +kernel, by decide +kernel, by decide +kernel⟩

end NetCpp.Proofs
