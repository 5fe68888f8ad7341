import NetCpp.Proofs.Documents

namespace NetCpp.Proofs
open Library SettingFile

/-- The first key that is found in the head of a block is not empty, and what is left for the name
is legal. -/
def HeadKnown (blockKeys : List Bytes) (head : Bytes) : Prop :=
  ∃ k, blockKeys.find? (fun k => k <:+: head) = some k ∧ k ≠ [] ∧
    ifNameIllegal (head.drop k.length) = true

/-- A text that is read to its end. -/
inductive Accepted (blockKeys : List Bytes) : Bytes → Prop where
  | rest {t : Bytes} (h : semicolon ∉ t) : Accepted blockKeys t
  | sentence {text rest : Bytes} (hsemi : semicolon ∉ text) (hleft : braceLeft ∉ text)
    (h : Accepted blockKeys rest) : Accepted blockKeys (text ++ semicolon :: rest)
  | block {t head : Bytes} (hblock : BlockAt t head) (hhead : HeadKnown blockKeys head)
    (hinside : Accepted blockKeys (inside head t)) (hend : blockEnd t < t.length)
    (h : Accepted blockKeys (t.drop (blockEnd t + 1))) : Accepted blockKeys t

/-- Read from the left, a text comes to a block whose closing brace is the last character: of the
text, or of the inside of the block that it is in. -/
inductive Overshoots (blockKeys : List Bytes) : Bytes → Prop where
  | last {t head : Bytes} (hblock : BlockAt t head) (hhead : HeadKnown blockKeys head)
    (hinside : Accepted blockKeys (inside head t)) (hend : blockEnd t = t.length) :
      Overshoots blockKeys t
  | inside {t head : Bytes} (hblock : BlockAt t head) (hhead : HeadKnown blockKeys head)
    (h : Overshoots blockKeys (inside head t)) : Overshoots blockKeys t
  | block {t head : Bytes} (hblock : BlockAt t head) (hhead : HeadKnown blockKeys head)
    (hinside : Accepted blockKeys (Proofs.inside head t)) (hend : blockEnd t < t.length)
    (h : Overshoots blockKeys (t.drop (blockEnd t + 1))) : Overshoots blockKeys t
  | sentence {text rest : Bytes} (hsemi : semicolon ∉ text) (hleft : braceLeft ∉ text)
    (h : Overshoots blockKeys rest) : Overshoots blockKeys (text ++ semicolon :: rest)

section
variable {t head : Bytes}

theorem blockEnd_cases (t : Bytes) : (braceRight ∉ pcsstr 1 t ∧ blockEnd t = 0) ∨
    ∃ a b, pcsstr 1 t = a ++ braceRight :: b ∧ braceRight ∉ b ∧ blockEnd t = a.length + 1 := by
  by_cases hmem : braceRight ∈ pcsstr 1 t
  · obtain ⟨b, a, hrev, hb⟩ := List.eq_append_cons_of_mem (List.mem_reverse.mpr hmem)
    have hsplit : pcsstr 1 t = a.reverse ++ braceRight :: b.reverse := by
      rw [← List.reverse_reverse (pcsstr 1 t), hrev]
      simp
    have hlast : braceRight ∉ b.reverse := by rwa [List.mem_reverse]
    refine .inr ⟨_, _, hsplit, hlast, ?_⟩
    rw [blockEnd, hsplit, Strings.rfind_append hlast]
    rfl
  · refine .inl ⟨hmem, ?_⟩
    rw [blockEnd, Strings.rfind_eq_none.mpr hmem]
    rfl

theorem blockEnd_le (t : Bytes) : blockEnd t ≤ (pcsstr 1 t).length := by
  rcases blockEnd_cases t with ⟨-, hend⟩ | ⟨a, b, hsplit, -, hend⟩
  · omega
  · rw [hsplit, hend, List.length_append, List.length_cons]
    omega

theorem length_inside_lt (h : BlockAt t head) : (inside head t).length < t.length := by
  obtain ⟨rest, hscan⟩ := h.scan
  have hle := (isPrefix_pcsstr 1 t).length_le
  have hlen : (pcsstr 1 t).length = head.length + 1 + rest.length := by
    rw [hscan, List.length_append, List.length_cons]
    omega
  unfold inside
  split
  · rw [List.length_drop]
    omega
  · rw [List.length_take, List.length_drop]
    omega

theorem behind_ok (h : blockEnd t < t.length) : behind t = .ok (t.drop (blockEnd t + 1)) := if_pos h

theorem behind_error (h : blockEnd t = t.length) : behind t = .error .outOfRange :=
  if_neg (Nat.not_lt.mpr h.ge)

variable {blockKeys : List Bytes}

theorem blockKey_known (h : HeadKnown blockKeys head) (rest : Bytes) :
    ∃ r, blockKey (head ++ rest) head head.length blockKeys = .ok r ∧ r.1 ≠ [] := by
  obtain ⟨k, hfind, hne, hname⟩ := h
  have hinfix : k <:+: head := by simpa using List.find?_some hfind
  rw [blockKey_eq, hfind, Option.elim_some, if_pos hname]
  refine ⟨_, rfl, ?_⟩
  intro htake
  have hlen := congrArg List.length htake
  rw [List.length_take_of_le hinfix.length_le] at hlen
  exact hne (List.eq_nil_of_length_eq_zero hlen)

theorem blockKey_unknown (h : ¬HeadKnown blockKeys head) (rest : Bytes) :
    (∃ r, blockKey (head ++ rest) head head.length blockKeys = .ok r ∧ r.1 = []) ∨
      ∃ msg, blockKey (head ++ rest) head head.length blockKeys = .error (.message msg) := by
  rw [blockKey_eq]
  cases hfind : blockKeys.find? fun k => k <:+: head with
  | none => exact .inl ⟨_, rfl, rfl⟩
  | some k =>
    rw [Option.elim_some]
    by_cases hname : ifNameIllegal (head.drop k.length) = true
    · have hnil : k = [] := by
        by_contra hne
        exact h ⟨k, hfind, hne, hname⟩
      rw [if_pos hname, hnil]
      exact .inl ⟨_, rfl, rfl⟩
    · rw [if_neg hname]
      exact .inr ⟨_, rfl⟩

theorem readLoop_known (h : BlockAt t head) (hhead : HeadKnown blockKeys head) (fuel : Nat) :
    ∃ key name, readLoop blockKeys (fuel + 1) t = do
      let childs ← readLoop blockKeys fuel (inside head t)
      let rest ← behind t
      let blocks ← readLoop blockKeys fuel rest
      return { key, name, ifBlk := true, childs } :: blocks := by
  obtain ⟨rest, hscan⟩ := h.scan
  obtain ⟨⟨key, name⟩, hkey, hne⟩ := blockKey_known hhead (braceLeft :: rest)
  refine ⟨key, name, ?_⟩
  rw [readLoop_round h, hscan]
  simp only [hkey, bind, Except.bind, if_neg hne]

theorem readLoop_unknown (h : BlockAt t head) (hhead : ¬HeadKnown blockKeys head) (fuel : Nat) :
    ∃ msg, readLoop blockKeys (fuel + 1) t = .error (.message msg) := by
  obtain ⟨rest, hscan⟩ := h.scan
  rw [readLoop_round h, hscan]
  rcases blockKey_unknown hhead (braceLeft :: rest) with ⟨r, hkey, hnil⟩ | ⟨msg, hkey⟩
  · simp only [hkey, bind, Except.bind, if_pos hnil]
    exact ⟨_, rfl⟩
  · simp only [hkey, bind, Except.bind]
    exact ⟨_, rfl⟩

theorem readLoop_rest (h : semicolon ∉ t) (fuel : Nat) :
    readLoop blockKeys (fuel + 1) t = .ok [] := by
  rw [readLoop]
  split
  · rfl
  · rw [Strings.find_eq_none.mpr h]

theorem length_sentence {text rest : Bytes} {fuel : Nat}
    (hfuel : (text ++ semicolon :: rest).length ≤ fuel) : ∃ n, fuel = n + 1 ∧ rest.length ≤ n := by
  rw [List.length_append, List.length_cons] at hfuel
  exact ⟨fuel - 1, by omega, by omega⟩

theorem BlockAt.fuel (h : BlockAt t head) {fuel : Nat} (hfuel : t.length ≤ fuel) :
    ∃ n, fuel = n + 1 ∧ (inside head t).length ≤ n ∧ (t.drop (blockEnd t + 1)).length ≤ n := by
  have hlt := length_inside_lt h
  refine ⟨fuel - 1, by omega, by omega, ?_⟩
  rw [List.length_drop]
  omega

theorem readLoop_accepted (h : Accepted blockKeys t) {fuel : Nat} (hfuel : t.length ≤ fuel) :
    ∃ blocks, readLoop blockKeys fuel t = .ok blocks := by
  induction h generalizing fuel with
  | @rest t h =>
    cases fuel with
    | zero =>
      rw [List.eq_nil_of_length_eq_zero (Nat.le_zero.mp hfuel)]
      exact ⟨[], readLoop_nil 0⟩
    | succ fuel => exact ⟨[], readLoop_rest h fuel⟩
  | sentence hsemi hleft h ih =>
    obtain ⟨fuel, rfl, hrest⟩ := length_sentence hfuel
    obtain ⟨blocks, hblocks⟩ := ih hrest
    rw [readLoop_sentence hsemi hleft, hblocks]
    exact ⟨_, rfl⟩
  | block hblock hhead hinside hend h ihi ih =>
    obtain ⟨fuel, rfl, hin, hrest⟩ := hblock.fuel hfuel
    obtain ⟨key, name, hround⟩ := readLoop_known hblock hhead fuel
    obtain ⟨childs, hchilds⟩ := ihi hin
    obtain ⟨blocks, hblocks⟩ := ih hrest
    rw [hround]
    simp only [bind, Except.bind, hchilds, behind_ok hend, hblocks]
    exact ⟨_, rfl⟩

theorem readLoop_overshoots (h : Overshoots blockKeys t) {fuel : Nat} (hfuel : t.length ≤ fuel) :
    readLoop blockKeys fuel t = .error .outOfRange := by
  induction h generalizing fuel with
  | last hblock hhead hinside hend =>
    obtain ⟨fuel, rfl, hin, -⟩ := hblock.fuel hfuel
    obtain ⟨key, name, hround⟩ := readLoop_known hblock hhead fuel
    obtain ⟨childs, hchilds⟩ := readLoop_accepted hinside hin
    rw [hround]
    simp only [bind, Except.bind, hchilds, behind_error hend]
  | inside hblock hhead h ih =>
    obtain ⟨fuel, rfl, hin, -⟩ := hblock.fuel hfuel
    obtain ⟨key, name, hround⟩ := readLoop_known hblock hhead fuel
    rw [hround, ih hin]
    rfl
  | block hblock hhead hinside hend h ih =>
    obtain ⟨fuel, rfl, hin, hrest⟩ := hblock.fuel hfuel
    obtain ⟨key, name, hround⟩ := readLoop_known hblock hhead fuel
    obtain ⟨childs, hchilds⟩ := readLoop_accepted hinside hin
    rw [hround]
    simp only [bind, Except.bind, hchilds, behind_ok hend, ih hrest]
  | sentence hsemi hleft h ih =>
    obtain ⟨fuel, rfl, hrest⟩ := length_sentence hfuel
    rw [readLoop_sentence hsemi hleft, ih hrest]
    rfl

/-- How a text can start. -/
theorem text_cases (t : Bytes) : semicolon ∉ t ∨
    (∃ text rest, t = text ++ semicolon :: rest ∧ semicolon ∉ text ∧ braceLeft ∉ text) ∨
    ∃ head, BlockAt t head := by
  by_cases hmem : semicolon ∈ t
  · obtain ⟨text, rest, rfl, hsemi⟩ := List.eq_append_cons_of_mem hmem
    by_cases hleft : braceLeft ∈ text
    · obtain ⟨head, body, rfl, hhead⟩ := List.eq_append_cons_of_mem hleft
      refine .inr (.inr ⟨head, ?_, hhead, body ++ semicolon :: rest, ?_, ?_⟩)
      · exact fun h => hsemi (List.mem_append_left _ h)
      · rw [List.append_assoc, List.cons_append]
      · simp
    · exact .inr (.inl ⟨text, rest, rfl, hsemi, hleft⟩)
  · exact .inl hmem

/-- A text is read to its end, or the reader goes beyond the end of it, or it throws a message. The
induction is on the fuel; what is left to read gets shorter in each round. -/
theorem readLoop_outcome (fuel : Nat) (t : Bytes) (hfuel : t.length ≤ fuel) : Accepted blockKeys t ∨
    Overshoots blockKeys t ∨ ∃ msg, readLoop blockKeys fuel t = .error (.message msg) := by
  induction fuel generalizing t with
  | zero =>
    rw [List.eq_nil_of_length_eq_zero (Nat.le_zero.mp hfuel)]
    exact .inl (.rest List.not_mem_nil)
  | succ fuel ih =>
    rcases text_cases t with hnone | ⟨text, rest, rfl, hsemi, hleft⟩ | ⟨head, hblock⟩
    · exact .inl (.rest hnone)
    · obtain ⟨n, hn, hrest⟩ := length_sentence hfuel
      obtain rfl := Nat.succ.inj hn
      rcases ih rest hrest with h | h | ⟨msg, h⟩
      · exact .inl (.sentence hsemi hleft h)
      · exact .inr (.inl (.sentence hsemi hleft h))
      · rw [readLoop_sentence hsemi hleft, h]
        exact .inr (.inr ⟨msg, rfl⟩)
    · obtain ⟨n, hn, hin, hrest⟩ := hblock.fuel hfuel
      obtain rfl := Nat.succ.inj hn
      by_cases hhead : HeadKnown blockKeys head
      · obtain ⟨key, name, hround⟩ := readLoop_known hblock hhead fuel
        rcases ih (inside head t) hin with hi | hi | ⟨msg, hi⟩
        · by_cases hend : blockEnd t < t.length
          · rcases ih (t.drop (blockEnd t + 1)) hrest with h | h | ⟨msg, h⟩
            · exact .inl (.block hblock hhead hi hend h)
            · exact .inr (.inl (.block hblock hhead hi hend h))
            · obtain ⟨childs, hchilds⟩ := readLoop_accepted hi hin
              rw [hround]
              simp only [bind, Except.bind, hchilds, behind_ok hend, h]
              exact .inr (.inr ⟨msg, rfl⟩)
          · have hle := (blockEnd_le t).trans (isPrefix_pcsstr 1 t).length_le
            exact .inr (.inl (.last hblock hhead hi (by omega)))
        · exact .inr (.inl (.inside hblock hhead hi))
        · rw [hround, hi]
          exact .inr (.inr ⟨msg, rfl⟩)
      · exact .inr (.inr (readLoop_unknown hblock hhead fuel))

/-- A brace is the last character, or it comes right behind another. -/
def BraceLast (t : Bytes) : Prop := [braceRight] <:+ t ∨ [braceRight, braceRight] <:+: t

theorem BraceLast.behind {a t : Bytes} (h : BraceLast t) : BraceLast (a ++ t) := by
  rcases h with h | h
  · exact .inl (h.trans (List.suffix_append a t))
  · exact .inr (h.trans (List.suffix_append a t).isInfix)

theorem braceLast_end (hblock : BlockAt t head) (hend : blockEnd t = t.length) : BraceLast t := by
  rcases blockEnd_cases t with ⟨-, hzero⟩ | ⟨a, b, hsplit, -, ha⟩
  · have hlt := length_inside_lt hblock
    omega
  · obtain ⟨u, hu⟩ := isPrefix_pcsstr 1 t
    have hlen := congrArg List.length hu
    rw [hsplit, List.length_append, List.length_append, List.length_cons] at hlen
    have hnil : b = [] ∧ u = [] := by
      constructor
      · exact List.eq_nil_of_length_eq_zero (by omega)
      · exact List.eq_nil_of_length_eq_zero (by omega)
    rw [hsplit, hnil.1, hnil.2, List.append_nil] at hu
    exact .inl ⟨a, hu⟩

theorem isInfix_inside (head t : Bytes) : inside head t <:+: pcsstr 1 t := by
  unfold inside
  split
  · exact (List.drop_suffix _ _).isInfix
  · exact ((List.take_prefix _ _).isInfix).trans (List.drop_suffix _ _).isInfix

/-- The brace behind the inside of a block is the last one that was scanned. -/
theorem inside_cases (hblock : BlockAt t head) : braceRight ∉ inside head t ∨
    ∃ b, pcsstr 1 t = head ++ braceLeft :: (inside head t ++ braceRight :: b) := by
  obtain ⟨rest, hscan⟩ := hblock.scan
  rcases blockEnd_cases t with ⟨hnone, -⟩ | ⟨a, b, hsplit, hb, hend⟩
  · exact .inl fun hmem => hnone ((isInfix_inside head t).mem hmem)
  · by_cases hback : blockEnd t < head.length + 2
    · -- everything inside is behind the last closing brace
      have hsub : inside head t = b.drop (head.length - a.length) := by
        have hskip : head.length + 1 = (a ++ [braceRight]).length + (head.length - a.length) := by
          rw [List.length_append, List.length_singleton]
          omega
        have hclosed : pcsstr 1 t = (a ++ [braceRight]) ++ b := by
          rw [hsplit, List.append_assoc, List.singleton_append]
        rw [inside, if_pos hback, hclosed, hskip, List.drop_length_add_append]
      rw [hsub]
      exact .inl fun hmem => hb (List.mem_of_mem_drop hmem)
    · have hopened : pcsstr 1 t = (head ++ [braceLeft]) ++ rest := by
        rw [hscan, List.append_assoc, List.singleton_append]
      have hinside : inside head t = rest.take (blockEnd t - head.length - 2) := by
        rw [inside, if_neg hback, hopened, List.drop_left' (by simp)]
      have hcut : a = head ++ braceLeft :: inside head t := by
        have hlen : a.length = (head ++ [braceLeft]).length + (blockEnd t - head.length - 2) := by
          rw [List.length_append, List.length_singleton]
          omega
        calc a = (pcsstr 1 t).take a.length := by rw [hsplit, List.take_left]
          _ = (head ++ [braceLeft]) ++ rest.take (blockEnd t - head.length - 2) := by
            rw [hlen, hopened, List.take_length_add_append]
          _ = head ++ braceLeft :: inside head t := by
            rw [hinside, List.append_assoc, List.singleton_append]
      refine .inr ⟨b, ?_⟩
      conv_lhs => rw [hsplit, hcut]
      rw [List.append_assoc, List.cons_append]

theorem braceLast_inside (hblock : BlockAt t head) (h : BraceLast (inside head t)) :
    BraceLast t := by
  have hpre := (isPrefix_pcsstr 1 t).isInfix
  rcases h with ⟨p, hp⟩ | h
  · rcases inside_cases hblock with hnone | ⟨b, hscan⟩
    · rw [← hp] at hnone
      simp at hnone
    · refine .inr (List.IsInfix.trans ⟨head ++ braceLeft :: p, b, ?_⟩ hpre)
      rw [hscan, ← hp]
      simp
  · exact .inr ((h.trans (isInfix_inside head t)).trans hpre)

theorem Overshoots.braceLast (h : Overshoots blockKeys t) : BraceLast t := by
  induction h with
  | last hblock hhead hinside hend => exact braceLast_end hblock hend
  | inside hblock hhead h ih => exact braceLast_inside hblock ih
  | @block t head hblock hhead hinside hend h ih =>
    have hrest := @BraceLast.behind (t.take (blockEnd t + 1)) _ ih
    rwa [List.take_append_drop] at hrest
  | @sentence text rest hsemi hleft h ih =>
    have hrest := @BraceLast.behind (text ++ [semicolon]) _ ih
    rwa [List.append_assoc] at hrest

/-- The reader comes to an end with a tree, or with a message for its callers to catch. -/
def Reads (blockKeys : List Bytes) (str : Bytes) : Prop :=
  (∃ blocks, readBlocks str blockKeys = .ok blocks) ∨
    ∃ msg, readBlocks str blockKeys = .error (.message msg)

theorem reads_or_overshoots (blockKeys : List Bytes) (str : Bytes) :
    Reads blockKeys str ∨ Overshoots blockKeys str := by
  rcases @readLoop_outcome blockKeys str.length str (Nat.le_refl _) with hread | hover | hread
  · exact .inl (.inl (readLoop_accepted hread (Nat.le_refl _)))
  · exact .inr hover
  · exact .inl (.inr hread)

/-- The reader comes to an end where each `}` has a character other than `}` behind it. -/
theorem reads_of_braces {str : Bytes} (h : ¬BraceLast str) : Reads blockKeys str :=
  (reads_or_overshoots blockKeys str).resolve_right fun hover => h hover.braceLast

end

end NetCpp.Proofs
