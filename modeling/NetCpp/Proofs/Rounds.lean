import NetCpp.Library.Runs
import NetCpp.SettingFile

namespace NetCpp.Proofs
open Library SettingFile

/-- The place behind the brace that closes the block at the front of a text. If none closes it, it
is the place behind the last closing brace that there is, or 0. -/
def blockEnd (t : Bytes) : Nat := (Strings.rfind (pcsstr 1 t) braceRight).elim 0 (· + 1)

/-- What is between the braces of the block at the front of a text with this head. -/
def inside (head t : Bytes) : Bytes :=
  let rest := (pcsstr 1 t).drop (head.length + 1)
  if blockEnd t < head.length + 2 then rest else rest.take (blockEnd t - head.length - 2)

/-- What is behind the block at the front of a text, its semicolon left out. -/
def behind (t : Bytes) : Except Fault Bytes :=
  if blockEnd t < t.length then .ok (t.drop (blockEnd t + 1)) else .error .outOfRange

/-- A text starts with the head of a block: there is a brace before the first semicolon. -/
structure BlockAt (t head : Bytes) : Prop where
  semi : semicolon ∉ head
  left : braceLeft ∉ head
  body : ∃ body, t = head ++ braceLeft :: body ∧ semicolon ∈ body

theorem pcsstr_text {s : Bytes} (hleft : braceLeft ∉ s) (hright : braceRight ∉ s) (blkStack : Int)
    (t : Bytes) : pcsstr blkStack (s ++ t) = s ++ pcsstr blkStack t := by
  induction s with
  | nil => rfl
  | cons c s ih =>
    obtain ⟨hcl, hleft⟩ := List.ne_and_not_mem_of_not_mem_cons hleft
    obtain ⟨hcr, hright⟩ := List.ne_and_not_mem_of_not_mem_cons hright
    rw [List.cons_append, pcsstr, if_neg hcl.symm, if_neg hcr.symm, ih hleft hright,
      List.cons_append]

theorem pcsstr_semicolon (blkStack : Int) (t : Bytes) :
    pcsstr blkStack (semicolon :: t) = semicolon :: pcsstr blkStack t := by
  rw [pcsstr, if_neg (by decide), if_neg (by decide)]

theorem pcsstr_left (blkStack : Int) (t : Bytes) :
    pcsstr blkStack (braceLeft :: t) = braceLeft :: pcsstr (blkStack + 1) t := by
  rw [pcsstr, if_pos rfl]

theorem pcsstr_right {blkStack : Int} (h : blkStack ≠ 2) (t : Bytes) :
    pcsstr blkStack (braceRight :: t) = braceRight :: pcsstr (blkStack - 1) t := by
  rw [pcsstr, if_neg (by decide), if_pos rfl, if_neg (by omega)]

theorem pcsstr_close (t : Bytes) : pcsstr 2 (braceRight :: t) = [braceRight] := by
  rw [pcsstr, if_neg (by decide), if_pos rfl, if_pos (by decide)]

theorem isPrefix_pcsstr (blkStack : Int) (t : Bytes) : pcsstr blkStack t <+: t := by
  induction t generalizing blkStack with
  | nil => exact List.prefix_rfl
  | cons c t ih =>
    unfold pcsstr
    split
    · exact (List.prefix_cons_inj c).mpr (ih _)
    · split
      · split
        · exact (List.prefix_cons_inj c).mpr List.nil_prefix
        · exact (List.prefix_cons_inj c).mpr (ih _)
      · exact (List.prefix_cons_inj c).mpr (ih _)

/-- Without an opening brace nothing is closed. -/
theorem pcsstr_head {head : Bytes} (h : braceLeft ∉ head) {blkStack : Int} (hstack : blkStack ≤ 1)
    (t : Bytes) : ∃ stack ≤ blkStack, pcsstr blkStack (head ++ t) = head ++ pcsstr stack t := by
  induction head generalizing blkStack with
  | nil => exact ⟨blkStack, Int.le_refl _, rfl⟩
  | cons c head ih =>
    obtain ⟨hc, hhead⟩ := List.ne_and_not_mem_of_not_mem_cons h
    rw [List.cons_append, pcsstr, if_neg hc.symm]
    split
    · obtain ⟨stack, hle, hscan⟩ := @ih hhead (blkStack - 1) (by omega)
      rw [if_neg (by omega), hscan]
      exact ⟨stack, by omega, rfl⟩
    · obtain ⟨stack, hle, hscan⟩ := ih hhead hstack
      rw [hscan]
      exact ⟨stack, hle, rfl⟩

/-- The head and its brace are in what is scanned. -/
theorem BlockAt.scan {t head : Bytes} (h : BlockAt t head) :
    ∃ rest, pcsstr 1 t = head ++ braceLeft :: rest := by
  obtain ⟨body, rfl, -⟩ := h.body
  obtain ⟨stack, -, hscan⟩ := pcsstr_head h.left (Int.le_refl 1) (braceLeft :: body)
  rw [hscan, pcsstr_left]
  exact ⟨_, rfl⟩

theorem substr_ok {s t u : Bytes} {pos : Nat} {n : Int} (hpos : pos = s.length)
    (hn : n = t.length) : substr (s ++ (t ++ u)) pos n = .ok t := by
  rw [substr, Strings.substr_append hpos hn]

theorem substr_from {s : Bytes} {pos : Nat} : substr s pos ((s.length : Int) - pos) =
    if pos ≤ s.length then .ok (s.drop pos) else .error .outOfRange := by
  unfold substr Strings.substr
  by_cases hpos : pos ≤ s.length
  · have hall : (s.drop pos).take ((s.length : Int) - pos).toNat = s.drop pos := by
      apply List.take_of_length_le
      rw [List.length_drop]
      omega
    rw [if_neg (by omega), if_neg (by omega), if_pos hpos, hall]
  · rw [if_pos (by omega), if_neg hpos]

section
variable {tsfr : List Bytes}

theorem readLoop_nil (fuel : Nat) : readLoop tsfr fuel [] = .ok [] := by
  cases fuel <;> rfl

theorem readLoop_sentence {text : Bytes} (hsemi : semicolon ∉ text) (hleft : braceLeft ∉ text)
    (fuel : Nat) (rest : Bytes) :
    readLoop tsfr (fuel + 1) (text ++ semicolon :: rest) =
      (readLoop tsfr fuel rest).map ({ sentence := text, ifBlk := false } :: ·) := by
  have hne : text ++ semicolon :: rest ≠ [] := by simp
  have hhead : substr (text ++ semicolon :: rest) 0 text.length = .ok text := by
    have hcut := @substr_ok [] text (semicolon :: rest) 0 text.length rfl rfl
    exact hcut
  have hrest : substr (text ++ semicolon :: rest) (text.length + 1)
      ((text ++ semicolon :: rest).length - (text.length + 1)) = .ok rest := by
    have hcut := @substr_ok (text ++ [semicolon]) rest [] (text.length + 1)
      (((text ++ semicolon :: rest).length : Int) - (text.length + 1)) (by simp) (by simp)
    rwa [List.append_nil, List.append_assoc, List.singleton_append] at hcut
  rw [readLoop, if_neg hne, Strings.find_append hsemi]
  simp only [hhead, Strings.find_eq_none.mpr hleft, hrest, bind, Except.bind]
  cases readLoop tsfr fuel rest <;> rfl

/-- The first key that is found in the head of a block decides where its name starts. -/
theorem blockKey_eq (head rest : Bytes) (keys : List Bytes) :
    blockKey (head ++ rest) head head.length keys =
      (keys.find? fun k => k <:+: head).elim (.ok ([], [])) fun k =>
        if ifNameIllegal (head.drop k.length) = true then
          .ok (head.take k.length, head.drop k.length)
        else .error (.message "block name is illegal") := by
  induction keys with
  | nil => rfl
  | cons key keys ih =>
    by_cases hfound : key <:+: head
    · have hle := hfound.length_le
      have htake : (head.take key.length).length = key.length := List.length_take_of_le hle
      have hsplit : head ++ rest = head.take key.length ++ (head.drop key.length ++ rest) := by
        rw [← List.append_assoc, List.take_append_drop]
      have hkey : substr (head ++ rest) 0 key.length = .ok (head.take key.length) := by
        rw [hsplit]
        exact @substr_ok [] _ _ 0 key.length rfl (by rw [htake])
      have hname : substr (head ++ rest) key.length ((head.length : Int) - key.length) =
          .ok (head.drop key.length) := by
        rw [hsplit]
        exact substr_ok htake.symm (by rw [List.length_drop]; omega)
      rw [blockKey, if_pos hfound, List.find?_cons_of_pos (by simpa using hfound)]
      simp only [hkey, hname, bind, Except.bind, Option.elim_some]
      cases ifNameIllegal (head.drop key.length) <;> rfl
    · rw [blockKey, if_neg hfound, ih, List.find?_cons_of_neg (by simpa using hfound)]

theorem readLoop_round {t head : Bytes} (h : BlockAt t head) (fuel : Nat) :
    readLoop tsfr (fuel + 1) t = do
    let r ← blockKey (pcsstr 1 t) head head.length tsfr
    if r.1 = [] then throw (.message "unknown block key")
    let childs ← readLoop tsfr fuel (inside head t)
    let rest ← behind t
    let blocks ← readLoop tsfr fuel rest
    return { key := r.1, name := r.2, ifBlk := true, childs } :: blocks := by
  obtain ⟨body, ht, hmem⟩ := h.body
  obtain ⟨rest, hscan⟩ := h.scan
  -- the first semicolon is behind the brace
  obtain ⟨a, b, hab, ha⟩ : ∃ a b, body = a ++ semicolon :: b ∧ semicolon ∉ a :=
    List.eq_append_cons_of_mem hmem
  have hbefore : semicolon ∉ head ++ braceLeft :: a := by
    intro hsemi
    rcases List.mem_append.mp hsemi with hsemi | hsemi
    · exact h.semi hsemi
    · exact (List.mem_cons.mp hsemi).elim (by decide) ha
  have hcut : t = (head ++ braceLeft :: a) ++ semicolon :: b := by
    rw [ht, hab, List.append_assoc, List.cons_append]
  have hne : t ≠ [] := by
    rw [ht]
    simp
  have hsem : Strings.find t semicolon 0 = some (head ++ braceLeft :: a).length := by
    rw [hcut, Strings.find_append hbefore]
  have htmp : substr t 0 (head ++ braceLeft :: a).length = .ok (head ++ braceLeft :: a) := by
    rw [hcut]
    exact @substr_ok [] _ (semicolon :: b) 0 _ rfl rfl
  have hhead : substr (pcsstr 1 t) 0 head.length = .ok head := by
    rw [hscan]
    exact @substr_ok [] head _ 0 _ rfl rfl
  have hinside : substr (pcsstr 1 t) (head.length + 1) ((blockEnd t : Int) - head.length - 2) =
      .ok (inside head t) := by
    have hle : ¬(pcsstr 1 t).length < head.length + 1 := by
      rw [hscan, List.length_append, List.length_cons]
      omega
    unfold substr Strings.substr inside
    rw [if_neg hle]
    by_cases hback : blockEnd t < head.length + 2
    · rw [if_pos hback, if_pos (by omega)]
    · rw [if_neg hback, if_neg (by omega), show ((blockEnd t : Int) - head.length - 2).toNat =
        blockEnd t - head.length - 2 by omega]
  have hrest : substr t (blockEnd t + 1) ((t.length : Int) - ((blockEnd t : Nat) + 1)) =
      behind t := by
    have hfrom := @substr_from t (blockEnd t + 1)
    push_cast at hfrom
    exact hfrom
  rw [readLoop, if_neg hne, hsem]
  simp only [htmp, Strings.find_append h.left, hhead, bind, Except.bind]
  rw [show (Strings.rfind (pcsstr 1 t) braceRight).elim 0 (· + 1) = blockEnd t from rfl]
  simp only [hinside, hrest]

end

end NetCpp.Proofs
