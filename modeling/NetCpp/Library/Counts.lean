import Mathlib

namespace NetCpp.Library.Counts

variable {α β : Type} [BEq α] {f : β → List α} {l : List β} {i : Nat} {b : β}

/-- The number a table keeps for something that is held this often: what nobody holds has no
entry. -/
def counted (n : Nat) : Option Nat := if n = 0 then none else some n

@[simp] theorem counted_zero : counted 0 = none := rfl

@[simp] theorem counted_succ (n : Nat) : counted (n + 1) = some (n + 1) := rfl

theorem counted_eq_none {n : Nat} : counted n = none ↔ n = 0 := by
  cases n <;> simp

theorem counted_eq_some {n m : Nat} : counted n = some m ↔ n = m ∧ 0 < m := by
  cases n with
  | zero => simp; omega
  | succ n => simp; omega

theorem counted_injective {n m : Nat} (h : counted n = counted m) : n = m := by
  cases m with
  | zero => exact counted_eq_none.mp h
  | succ m => exact (counted_eq_some.mp h).1

/-- One list of many gets another content: the count loses the old one and gains the new one. -/
theorem count_flatMap_set (h : l[i]? = some b) (b' : β) (a : α) :
    ((l.set i b').flatMap f).count a + (f b).count a = (l.flatMap f).count a + (f b').count a := by
  induction l generalizing i with
  | nil => simp at h
  | cons c l ih =>
    cases i with
    | zero =>
      obtain rfl := Option.some.inj h
      simp only [List.set_cons_zero, List.flatMap_cons, List.count_append]
      omega
    | succ i =>
      have hrest := ih (by simpa using h)
      simp only [List.set_cons_succ, List.flatMap_cons, List.count_append]
      omega

theorem count_flatMap_eraseIdx (h : l[i]? = some b) (a : α) :
    ((l.eraseIdx i).flatMap f).count a + (f b).count a = (l.flatMap f).count a := by
  induction l generalizing i with
  | nil => simp at h
  | cons c l ih =>
    cases i with
    | zero =>
      obtain rfl := Option.some.inj h
      simp only [List.eraseIdx_cons_zero, List.flatMap_cons, List.count_append]
      omega
    | succ i =>
      have hrest := ih (by simpa using h)
      simp only [List.eraseIdx_cons_succ, List.flatMap_cons, List.count_append]
      omega

end NetCpp.Library.Counts
