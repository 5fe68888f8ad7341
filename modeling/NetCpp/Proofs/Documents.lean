import NetCpp.Proofs.Rounds

namespace NetCpp.Proofs
open Library SettingFile

/-- A text without the characters that make the structure of a document. -/
structure PlainText (s : Bytes) : Prop where
  semicolon : semicolon ∉ s
  braceLeft : braceLeft ∉ s
  braceRight : braceRight ∉ s

instance (s : Bytes) : Decidable (PlainText s) :=
  decidable_of_iff (NetCpp.semicolon ∉ s ∧ NetCpp.braceLeft ∉ s ∧ NetCpp.braceRight ∉ s)
    ⟨fun h => ⟨h.1, h.2.1, h.2.2⟩, fun h => ⟨h.semicolon, h.braceLeft, h.braceRight⟩⟩

/-- Sentences and blocks, one after another. -/
inductive Document (blockKeys : List Bytes) where
  | nil
  | sentence (text : Bytes) (plain : PlainText text) (next : Document blockKeys)
  | block (key name : Bytes) (known : key ∈ blockKeys) (legal : ifNameIllegal name = true)
    (childs next : Document blockKeys)

namespace Document
variable {blockKeys : List Bytes}

def print : Document blockKeys → Bytes
  | .nil => []
  | .sentence text _ next => text ++ semicolon :: next.print
  | .block key name _ _ childs next =>
    key ++ name ++ braceLeft :: (childs.print ++ braceRight :: semicolon :: next.print)

/-- What the reader should make of a document. -/
def built : Document blockKeys → List SettingFileRead
  | .nil => []
  | .sentence text _ next => { sentence := text, ifBlk := false } :: next.built
  | .block key name _ _ childs next =>
    { key, name, ifBlk := true, childs := childs.built } :: next.built

end Document

theorem built_foldr {α : Type} {blockKeys : List Bytes}
    {f : α → Document blockKeys → Document blockKeys}
    {g : α → SettingFileRead} (h : ∀ a next, (f a next).built = g a :: next.built) (xs : List α) :
    (xs.foldr f .nil).built = xs.map g := by
  induction xs with
  | nil => rfl
  | cons a xs ih => rw [List.foldr_cons, h, ih, List.map_cons]

/-- The first key of the list that is found somewhere in the head of a block is as long as its
key. -/
def KeyFound (blockKeys : List Bytes) (key name : Bytes) : Prop :=
  key ≠ [] ∧ ((blockKeys.find? fun k => k <:+: key ++ name).map List.length) = some key.length

instance (blockKeys : List Bytes) (key name : Bytes) : Decidable (KeyFound blockKeys key name) :=
  inferInstanceAs (Decidable (_ ∧ _))

/-- No block of a document is taken for one with another key. -/
def Document.Unmistaken {blockKeys : List Bytes} : Document blockKeys → Prop
  | .nil => True
  | .sentence _ _ next => next.Unmistaken
  | .block key name _ _ childs next =>
    KeyFound blockKeys key name ∧ childs.Unmistaken ∧ next.Unmistaken

instance Document.Unmistaken.decide {blockKeys : List Bytes} :
    (d : Document blockKeys) → Decidable d.Unmistaken
  | .nil => isTrue trivial
  | .sentence _ _ next => Unmistaken.decide next
  | .block _ _ _ _ childs next =>
    have := Unmistaken.decide childs
    have := Unmistaken.decide next
    inferInstanceAs (Decidable (_ ∧ _ ∧ _))

theorem plainText_append {s t : Bytes} (hs : PlainText s) (ht : PlainText t) :
    PlainText (s ++ t) where
  semicolon := fun h => (List.mem_append.mp h).elim hs.semicolon ht.semicolon
  braceLeft := fun h => (List.mem_append.mp h).elim hs.braceLeft ht.braceLeft
  braceRight := fun h => (List.mem_append.mp h).elim hs.braceRight ht.braceRight

theorem plainText_name {name : Bytes} (h : ifNameIllegal name = true) : PlainText name := by
  have hall := List.all_eq_true.mp h
  refine ⟨?_, ?_, ?_⟩
  · intro hmem
    exact absurd (hall _ hmem) (by decide)
  · intro hmem
    exact absurd (hall _ hmem) (by decide)
  · intro hmem
    exact absurd (hall _ hmem) (by decide)

/-- The scan of a block, whose inside comes out as it went in, ends at its brace. -/
theorem pcsstr_block {head inner : Bytes} (hleft : braceLeft ∉ head) (hright : braceRight ∉ head)
    (hinner : ∀ t, pcsstr 2 (inner ++ t) = inner ++ pcsstr 2 t) (t : Bytes) :
    pcsstr 1 (head ++ braceLeft :: (inner ++ braceRight :: t)) =
      head ++ braceLeft :: (inner ++ [braceRight]) := by
  have hin : pcsstr 2 (inner ++ braceRight :: t) = inner ++ [braceRight] := by
    rw [hinner, pcsstr_close]
  rw [pcsstr_text hleft hright, pcsstr_left]
  exact congrArg (fun s => head ++ braceLeft :: s) hin

section
variable {blockKeys : List Bytes}

/-- Inside of a block the scan comes out of a document as it went in. The induction is on the
document; the braces of a block of it are a level deeper. -/
theorem pcsstr_print (hkeys : ∀ key ∈ blockKeys, PlainText key) (d : Document blockKeys)
    (blkStack : Int) (h : 2 ≤ blkStack) (t : Bytes) :
    pcsstr blkStack (d.print ++ t) = d.print ++ pcsstr blkStack t := by
  induction d generalizing blkStack t with
  | nil => rfl
  | sentence text plain next ih =>
    simp only [Document.print, List.append_assoc, List.cons_append]
    rw [pcsstr_text plain.braceLeft plain.braceRight, pcsstr_semicolon, ih blkStack h]
  | block key name known legal childs next ihc ihn =>
    have hhead := plainText_append (hkeys key known) (plainText_name legal)
    simp only [Document.print, List.append_assoc, List.cons_append]
    rw [← List.append_assoc, pcsstr_text hhead.braceLeft hhead.braceRight, pcsstr_left,
      ihc (blkStack + 1) (by omega), pcsstr_right (by omega), pcsstr_semicolon, Int.add_sub_cancel,
      ihn blkStack h, List.append_assoc]

end

section
variable {head inner : Bytes} (hhead : PlainText head)
  (hinner : ∀ t, pcsstr 2 (inner ++ t) = inner ++ pcsstr 2 t) (rest : Bytes)
include hhead hinner

theorem blockEnd_block :
    blockEnd (head ++ braceLeft :: (inner ++ braceRight :: semicolon :: rest)) =
      head.length + inner.length + 2 := by
  have hlast := @Strings.rfind_concat _ _ (head ++ braceLeft :: inner) braceRight
  rw [List.append_assoc, List.cons_append] at hlast
  rw [blockEnd, pcsstr_block hhead.braceLeft hhead.braceRight hinner, hlast, Option.elim_some,
    List.length_append, List.length_cons]
  omega

theorem inside_block :
    inside head (head ++ braceLeft :: (inner ++ braceRight :: semicolon :: rest)) = inner := by
  have hdrop : (head ++ braceLeft :: (inner ++ [braceRight])).drop (head.length + 1) =
      inner ++ [braceRight] := by
    rw [← List.drop_drop, List.drop_left, List.drop_one, List.tail_cons]
  rw [inside, blockEnd_block hhead hinner, if_neg (by omega),
    pcsstr_block hhead.braceLeft hhead.braceRight hinner,
    hdrop, show head.length + inner.length + 2 - head.length - 2 =
      inner.length by omega, List.take_left]

theorem behind_block :
    behind (head ++ braceLeft :: (inner ++ braceRight :: semicolon :: rest)) = .ok rest := by
  have hsplit : head ++ braceLeft :: (inner ++ braceRight :: semicolon :: rest) =
      (head ++ braceLeft :: (inner ++ [braceRight, semicolon])) ++ rest := by simp
  have hlen : (head ++ braceLeft :: (inner ++ [braceRight, semicolon])).length =
      head.length + inner.length + 2 + 1 := by
    simp only [List.length_append, List.length_cons, List.length_nil]
    omega
  rw [behind, blockEnd_block hhead hinner, hsplit, List.length_append, hlen,
    if_pos (by omega), ← hlen, List.drop_left]

/-- A block whose inside comes out of the scan as it went in. -/
theorem readLoop_block {tsfr : List Bytes} (fuel : Nat) :
    readLoop tsfr (fuel + 1) (head ++ braceLeft :: (inner ++ braceRight :: semicolon :: rest)) = do
      let r ← blockKey (head ++ braceLeft :: (inner ++ [braceRight])) head head.length tsfr
      if r.1 = [] then throw (.message "unknown block key")
      let childs ← readLoop tsfr fuel inner
      let blocks ← readLoop tsfr fuel rest
      return { key := r.1, name := r.2, ifBlk := true, childs } :: blocks := by
  have hblock : BlockAt (head ++ braceLeft :: (inner ++ braceRight :: semicolon :: rest)) head :=
    ⟨hhead.semicolon, hhead.braceLeft, _, rfl, by simp⟩
  rw [readLoop_round hblock, pcsstr_block hhead.braceLeft hhead.braceRight hinner,
    inside_block hhead hinner, behind_block hhead hinner]
  rfl

end

/-- The head of a block is read as its key and its name just if the key that is found is as long
as its key. -/
theorem blockKey_iff {blockKeys : List Bytes} {key name : Bytes} (hkey : key ∈ blockKeys)
    (hname : ifNameIllegal name = true) (rest : Bytes) :
    (blockKey (key ++ name ++ rest) (key ++ name) (key ++ name).length blockKeys = .ok (key, name) ∧
      key ≠ []) ↔ KeyFound blockKeys key name := by
  rw [blockKey_eq, KeyFound, and_comm]
  refine and_congr_right fun _ => ?_
  have hinfix : key <:+: key ++ name := (List.prefix_append key name).isInfix
  obtain ⟨k, hk⟩ := Option.isSome_iff_exists.mp
    (@List.find?_isSome _ blockKeys (fun k => k <:+: key ++ name) |>.mpr
      ⟨key, hkey, decide_eq_true hinfix⟩)
  have hle : k.length ≤ (key ++ name).length := by
    have hfound := List.find?_some hk
    exact (of_decide_eq_true hfound).length_le
  rw [hk, Option.elim_some, Option.map_some, Option.some.injEq]
  constructor
  · intro h
    split at h
    · obtain ⟨htake, -⟩ := Prod.mk.inj (Except.ok.inj h)
      rw [← htake, List.length_take_of_le hle]
    · cases h
  · intro h
    rw [h, List.take_left, List.drop_left, if_pos hname]

theorem readLoop_iff {blockKeys : List Bytes} (hkeys : ∀ key ∈ blockKeys, PlainText key)
    (d : Document blockKeys) (fuel : Nat) (hfuel : d.print.length ≤ fuel) :
    readLoop blockKeys fuel d.print = .ok d.built ↔ d.Unmistaken := by
  induction d generalizing fuel with
  | nil => exact ⟨fun _ => trivial, fun _ => readLoop_nil fuel⟩
  | sentence text plain next ih =>
    rw [Document.print, List.length_append, List.length_cons] at hfuel
    obtain ⟨fuel, rfl⟩ : ∃ n, fuel = n + 1 := ⟨fuel - 1, by omega⟩
    rw [Document.print, readLoop_sentence plain.semicolon plain.braceLeft,
      Document.Unmistaken, ← ih fuel (by omega)]
    cases readLoop blockKeys fuel next.print with
    | error f =>
      constructor
      · intro h
        cases h
      · intro h
        cases h
    | ok blocks => simp [Except.map, Document.built]
  | block key name known legal childs next ihc ihn =>
    have hhead := plainText_append (hkeys key known) (plainText_name legal)
    have hlen : (Document.block key name known legal childs next).print.length =
        (key ++ name).length + childs.print.length + next.print.length + 3 := by
      simp only [Document.print, List.length_append, List.length_cons]
      omega
    rw [hlen] at hfuel
    obtain ⟨fuel, rfl⟩ : ∃ n, fuel = n + 1 := ⟨fuel - 1, by omega⟩
    have hfound := blockKey_iff known legal (braceLeft :: (childs.print ++ [braceRight]))
    rw [Document.print, readLoop_block hhead (pcsstr_print hkeys childs 2 (Int.le_refl 2)),
      Document.Unmistaken, ← ihc fuel (by omega), ← ihn fuel (by omega), ← hfound]
    constructor
    · intro h
      obtain ⟨⟨k, n⟩, hblock, h⟩ := bind_ok h
      dsimp only at h
      split at h
      · cases h
      · rename_i hne
        obtain ⟨cs, hchilds, h⟩ := bind_ok h
        obtain ⟨blocks, hblocks, h⟩ := bind_ok h
        obtain ⟨hfirst, rfl⟩ := List.cons.inj (Except.ok.inj h)
        obtain ⟨rfl, rfl, -, -, rfl⟩ := SettingFileRead.mk.inj hfirst
        exact ⟨⟨hblock, hne⟩, hchilds, hblocks⟩
    · rintro ⟨⟨hblock, hne⟩, hchilds, hblocks⟩
      simp only [hblock, hchilds, hblocks, bind, Except.bind, if_neg hne]
      rfl

/-- A printed document is read as it was just if in no block another key is found first. -/
theorem readBlocks_print {blockKeys : List Bytes} (hkeys : ∀ key ∈ blockKeys, PlainText key)
    (d : Document blockKeys) : readBlocks d.print blockKeys = .ok d.built ↔ d.Unmistaken :=
  readLoop_iff hkeys d d.print.length (Nat.le_refl _)

/-- The keys of the callers make no structure. -/
example : (∀ key ∈ Proj.blockKeys, PlainText key) ∧
    ∀ key ∈ Cpt.blockKeys, PlainText key := by decide

/-- A project of one part with two sentences. -/
def sampleDocument : Document Proj.blockKeys :=
  .block (ascii ['p', 'r', 'o', 'j']) (ascii ['a', '_', '1']) (by decide) (by decide)
    (.block (ascii ['c', 'p', 't']) (ascii ['b']) (by decide) (by decide)
      (.sentence (ascii ['p', 'a', 't', 'h', '=']) (by decide)
        (.sentence [] (by decide) .nil)) .nil)
    .nil

theorem readBlocks_print_sample :
    readBlocks sampleDocument.print Proj.blockKeys = .ok sampleDocument.built :=
  (readBlocks_print (by decide) sampleDocument).mpr (by decide)

/-- A part named after another key. -/
def mistakenDocument : Document Proj.blockKeys :=
  .block (ascii ['c', 'p', 't']) (ascii ['p', 'r', 'o', 'j', '1']) (by decide) (by decide) .nil .nil

/-- "cptproj1" is read as a block with the key "cptp" and the name "roj1". -/
theorem readBlocks_mistaken :
    (readBlocks mistakenDocument.print Proj.blockKeys).map
      (fun bs => bs.map fun b => (b.key, b.name)) =
      .ok [(ascii ['c', 'p', 't', 'p'], ascii ['r', 'o', 'j', '1'])] ∧
    readBlocks mistakenDocument.print Proj.blockKeys ≠ .ok mistakenDocument.built := by
  have hread : (readBlocks mistakenDocument.print Proj.blockKeys).map
      (fun bs => bs.map fun b => (b.key, b.name)) =
      .ok [(ascii ['c', 'p', 't', 'p'], ascii ['r', 'o', 'j', '1'])] := by decide +kernel
  refine ⟨hread, ?_⟩
  intro h
  rw [h] at hread
  revert hread
  decide

end NetCpp.Proofs
