import Mathlib

namespace NetCpp.Library.Maps

variable {α β : Type} [Ord α] [Std.LawfulEqOrd α] [DecidableEq α]

theorem ite_compare {γ : Type} (k a : α) (x y : γ) :
    (if compare k a = .eq then x else y) = if k = a then x else y := by
  simp only [Std.LawfulEqOrd.compare_eq_iff_eq]

variable [Std.TransOrd α]

theorem getElem?_insert (m : Std.TreeMap α β) (k a : α) (v : β) :
    (m.insert k v)[a]? = if k = a then some v else m[a]? := by
  rw [Std.TreeMap.getElem?_insert, ite_compare]

theorem getElem?_insertIfNew (m : Std.TreeMap α β) (k a : α) (v : β) :
    (m.insertIfNew k v)[a]? = if k = a then some ((m[a]?).getD v) else m[a]? := by
  rw [Std.TreeMap.getElem?_insertIfNew]
  by_cases hk : k = a
  · subst hk
    cases hm : m[k]? with
    | none => simp [Std.TreeMap.mem_iff_isSome_getElem?, hm]
    | some w => simp [Std.TreeMap.mem_iff_isSome_getElem?, hm]
  · have hcmp : compare k a ≠ .eq := fun heq => hk (Std.LawfulEqOrd.eq_of_compare heq)
    rw [if_neg (fun h => hcmp h.1), if_neg hk]

theorem getElem?_insert_ne {m : Std.TreeMap α β} {k a : α} {v : β} (h : a ≠ k) :
    (m.insert k v)[a]? = m[a]? := by
  rw [getElem?_insert, if_neg (Ne.symm h)]

theorem getElem?_insertIfNew_ne {m : Std.TreeMap α β} {k a : α} {v : β} (h : a ≠ k) :
    (m.insertIfNew k v)[a]? = m[a]? := by
  rw [getElem?_insertIfNew, if_neg (Ne.symm h)]

theorem getElem?_insertIfNew_self {m : Std.TreeMap α β} {k : α} {v : β} (h : m[k]? = none) :
    (m.insertIfNew k v)[k]? = some v := by
  rw [getElem?_insertIfNew, if_pos rfl, h, Option.getD_none]

theorem getElem?_erase (m : Std.TreeMap α β) (k a : α) :
    (m.erase k)[a]? = if k = a then none else m[a]? := by
  rw [Std.TreeMap.getElem?_erase, ite_compare]

theorem getElem?_modify (m : Std.TreeMap α β) (k a : α) (f : β → β) :
    (m.modify k f)[a]? = if k = a then (m[a]?).map f else m[a]? := by
  rw [Std.TreeMap.getElem?_modify, ite_compare]
  split
  · rename_i hk
    rw [hk]
  · rfl

end NetCpp.Library.Maps
