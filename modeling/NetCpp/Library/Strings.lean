import Mathlib

namespace NetCpp.Library.Strings

variable {α : Type} [DecidableEq α]

/-- The first place of an item from a position on, `none` where it is not there. -/
def find (s : List α) (c : α) (pos : Nat) : Option Nat := ((s.drop pos).idxOf? c).map (pos + ·)

/-- The last place of an item. -/
def rfind (s : List α) (c : α) : Option Nat := (s.reverse.idxOf? c).map (s.length - 1 - ·)

/-- The part from a position on, of at most so many items, if the position is not behind the end. A
count below zero is one that has wrapped around: no text is as long. -/
def substr (s : List α) (pos : Nat) (count : Int) : Option (List α) :=
  if s.length < pos then none
  else some (if count < 0 then s.drop pos else (s.drop pos).take count.toNat)

variable {s t : List α} {c : α}

theorem idxOf?_append (h : c ∉ s) : (s ++ c :: t).idxOf? c = some s.length := by
  induction s with
  | nil => rw [List.nil_append, List.idxOf?_cons, if_pos (beq_self_eq_true c)]; rfl
  | cons a s ih =>
    obtain ⟨hne, hs⟩ := List.ne_and_not_mem_of_not_mem_cons h
    have hbeq : ¬(a == c) = true := by
      rw [beq_iff_eq]
      exact hne.symm
    rw [List.cons_append, List.idxOf?_cons, if_neg hbeq, ih hs]
    rfl

theorem find_append (h : c ∉ s) : find (s ++ c :: t) c 0 = some s.length := by
  rw [find, List.drop_zero, idxOf?_append h, Option.map_some, Nat.zero_add]

theorem find_eq_none : find s c 0 = none ↔ c ∉ s := by
  rw [find, Option.map_eq_none_iff, List.drop_zero, List.idxOf?_eq_none_iff]

theorem find_from (s t : List α) (c : α) :
    find (s ++ t) c s.length = (find t c 0).map (s.length + ·) := by
  rw [find, List.drop_left, find, List.drop_zero, Option.map_map]
  congr 1
  funext i
  exact congrArg (s.length + ·) (Nat.zero_add i).symm

theorem rfind_append (h : c ∉ t) : rfind (s ++ c :: t) c = some s.length := by
  have hlast : (s ++ c :: t).reverse.idxOf? c = some t.length := by
    have hrev := @idxOf?_append _ _ t.reverse s.reverse c (by rwa [List.mem_reverse])
    rwa [← List.length_reverse, List.reverse_append, List.reverse_cons, List.append_assoc,
      List.singleton_append]
  rw [rfind, hlast, Option.map_some, List.length_append, List.length_cons]
  congr 1
  omega

theorem rfind_concat : rfind (s ++ [c]) c = some s.length := rfind_append List.not_mem_nil

theorem rfind_eq_none : rfind s c = none ↔ c ∉ s := by
  rw [rfind, Option.map_eq_none_iff, List.idxOf?_eq_none_iff, List.mem_reverse]

omit [DecidableEq α] in
/-- The part from the end of one text on. -/
theorem substr_append {u : List α} {pos : Nat} {n : Int} (hpos : pos = s.length)
    (hn : n = t.length) : substr (s ++ (t ++ u)) pos n = some t := by
  subst hpos hn
  rw [substr, if_neg (by simp), if_neg (by omega), List.drop_left, Int.toNat_natCast,
    List.take_left]

omit [DecidableEq α] in
/-- A pattern is not found where its first item is not. -/
theorem infix_append {ks : List α} (h : c ∉ s) : c :: ks <:+: s ++ t ↔ c :: ks <:+: t := by
  induction s with
  | nil => exact Iff.rfl
  | cons a s ih =>
    obtain ⟨hne, hs⟩ := List.ne_and_not_mem_of_not_mem_cons h
    rw [List.cons_append, List.infix_cons_iff, List.cons_prefix_cons, ← ih hs]
    exact or_iff_right fun hpre => hne hpre.1

end NetCpp.Library.Strings
