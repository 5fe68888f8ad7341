import Mathlib

namespace NetCpp.Library

variable {α β γ : Type}

/-- What some of the items of a list give, each with its place. -/
def placed (f : α → Option β) (items : List α) : List (Nat × β) :=
  items.zipIdx.filterMap fun q => (f q.1).map (q.2, ·)

theorem mem_placed {f : α → Option β} {items : List α} {q : Nat × β} (h : q ∈ placed f items) :
    items[q.1]?.bind f = some q.2 := by
  obtain ⟨p, hp, hq⟩ := List.mem_filterMap.mp h
  obtain ⟨y, hy, rfl⟩ := Option.map_eq_some_iff.mp hq
  rw [List.mem_zipIdx_iff_getElem?.mp hp]
  exact hy

section
variable (f : α → Option β)

theorem count_placed_from (items : List α) (k i : Nat) :
    (((items.zipIdx k).filterMap fun q => (f q.1).map (q.2, ·)).map Prod.fst).count (k + i) =
      if (items[i]?.bind f).isSome then 1 else 0 := by
  induction items generalizing k i with
  | nil => rfl
  | cons x items ih =>
    have hlater :
        k ∉ (((items.zipIdx (k + 1)).filterMap fun q => (f q.1).map (q.2, ·)).map Prod.fst) := by
      intro hmem
      obtain ⟨p, hp, hk⟩ := List.mem_map.mp hmem
      obtain ⟨q, hq, hsome⟩ := List.mem_filterMap.mp hp
      obtain ⟨y, -, rfl⟩ := Option.map_eq_some_iff.mp hsome
      have hle := List.le_snd_of_mem_zipIdx hq
      dsimp only at hk
      omega
    have hrest (i : Nat) := ih (k + 1) i
    rw [List.zipIdx_cons]
    cases i with
    | zero =>
      cases hx : f x with
      | none => simp [hx, List.count_eq_zero.mpr hlater]
      | some y => simp [hx, List.count_eq_zero.mpr hlater]
    | succ i =>
      have hnext : k + (i + 1) = k + 1 + i := by omega
      have hne : k ≠ k + 1 + i := by omega
      rw [hnext, List.getElem?_cons_succ, ← hrest i]
      cases hx : f x with
      | none => simp [hx]
      | some y => simp [hx, hne]

theorem count_placed (items : List α) (i : Nat) :
    ((placed f items).map Prod.fst).count i = if (items[i]?.bind f).isSome then 1 else 0 := by
  have hcount := count_placed_from f items 0 i
  rwa [Nat.zero_add] at hcount

theorem placed_concat (items : List α) (x : α) :
    placed f (items ++ [x]) = placed f items ++ ((f x).map (items.length, ·)).toList := by
  rw [placed, List.zipIdx_append, List.filterMap_append, placed]
  cases hx : f x <;> simp [hx]

theorem placed_map (g : α → α) (items : List α) :
    placed f (items.map g) = placed (fun x => f (g x)) items := by
  rw [placed, List.zipIdx_map, List.filterMap_map]
  rfl

theorem placed_bind (g : β → Option γ) (items : List α) :
    (placed f items).filterMap (fun q => (g q.2).map (q.1, ·)) =
      placed (fun x => (f x).bind g) items := by
  rw [placed, List.filterMap_filterMap, placed]
  congr 1
  funext q
  cases f q.1 <;> rfl

end

end NetCpp.Library
