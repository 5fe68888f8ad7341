import Mathlib

namespace NetCpp.Library.Slots

variable {α : Type} {content : List α} {slots : List (Option α)} {i : Nat} {a : α}

/-- The number of slots that have been filled. -/
def filled (slots : List (Option α)) : Nat := slots.countP Option.isSome

/-- Slots for the items of a list: what a slot holds is the item of its index. -/
structure Holds (content : List α) (slots : List (Option α)) : Prop where
  length : slots.length = content.length
  item : ∀ (i : Nat) (a : α), slots[i]? = some (some a) → content[i]? = some a

@[simp] theorem filled_empty (n : Nat) : filled (List.replicate n (none : Option α)) = 0 := by
  simp [filled]

theorem filled_le (slots : List (Option α)) : filled slots ≤ slots.length := List.countP_le_length

theorem Holds.empty (content : List α) : Holds content (List.replicate content.length none) where
  length := by simp
  item := by
    intro i a h
    rw [List.getElem?_replicate] at h
    split at h <;> simp at h

/-- Putting the right item into a slot, empty or not. -/
theorem Holds.put (h : Holds content slots) (ha : content[i]? = some a) :
    Holds content (slots.set i (some a)) where
  length := by rw [List.length_set, h.length]
  item := by
    intro j b hj
    by_cases hij : i = j
    · subst hij
      rw [List.getElem?_set_self'] at hj
      cases hs : slots[i]? with
      | none => simp [hs] at hj
      | some o =>
        simp only [hs, Option.map_eq_map, Option.map_some, Function.const_apply,
          Option.some.injEq] at hj
        rw [ha, hj]
    · rw [List.getElem?_set_ne hij] at hj
      exact h.item j b hj

/-- An empty slot is not counted. -/
theorem filled_lt (h : slots[i]? = some none) : filled slots < slots.length := by
  refine Nat.lt_of_le_of_ne (filled_le slots) (fun hf => ?_)
  have hall := List.countP_eq_length.mp hf none (List.mem_of_getElem? h)
  cases hall

/-- An empty slot that gets its item is one more. -/
theorem filled_put (h : slots[i]? = some none) :
    filled (slots.set i (some a)) = filled slots + 1 := by
  obtain ⟨hi, hs⟩ := List.getElem?_eq_some_iff.mp h
  simp [filled, List.countP_set hi, hs]

/-- The slot that gets an item is no longer empty, the others are as they were. -/
theorem empty_put {j : Nat} :
    (slots.set i (some a))[j]? = some none ↔ i ≠ j ∧ slots[j]? = some none := by
  by_cases hij : i = j
  · subst hij
    rw [List.getElem?_set_self']
    cases slots[i]? <;> simp
  · simp [List.getElem?_set_ne hij, hij]

/-- When as many slots are filled as there are, they hold the whole list. -/
theorem Holds.full (h : Holds content slots) (hf : filled slots = slots.length) :
    slots = content.map some := by
  have hall := List.countP_eq_length.mp hf
  apply List.ext_getElem?
  intro i
  rw [List.getElem?_map]
  cases hs : slots[i]? with
  | none =>
    have hlen := List.getElem?_eq_none_iff.mp hs
    rw [h.length] at hlen
    rw [List.getElem?_eq_none hlen]
    rfl
  | some o =>
    obtain ⟨a, rfl⟩ := Option.isSome_iff_exists.mp (hall o (List.mem_of_getElem? hs))
    rw [h.item i a hs]
    rfl

theorem filled_of_all (h : ∀ i < slots.length, ∃ a, slots[i]? = some (some a)) :
    filled slots = slots.length := by
  refine List.countP_eq_length.mpr (fun o ho => ?_)
  obtain ⟨i, hi, rfl⟩ := List.getElem_of_mem ho
  obtain ⟨a, ha⟩ := h i hi
  rw [List.getElem?_eq_getElem hi] at ha
  simp [Option.some.inj ha]

section Elsewhere
variable {α : Type} {xs : List α} {i : Nat} {x : α} {P : α → Prop}

/-- A member at another place. -/
def Elsewhere (xs : List α) (i : Nat) (P : α → Prop) : Prop :=
  ∃ j y, j ≠ i ∧ xs[j]? = some y ∧ P y

theorem exists_mem_iff (h : xs[i]? = some x) : (∃ y ∈ xs, P y) ↔ P x ∨ Elsewhere xs i P := by
  constructor
  · rintro ⟨y, hy, hp⟩
    obtain ⟨j, hj⟩ := List.mem_iff_getElem?.mp hy
    by_cases hji : j = i
    · rw [hji, h] at hj
      cases hj
      exact Or.inl hp
    · exact Or.inr ⟨j, y, hji, hj, hp⟩
  · rintro (hp | ⟨j, y, -, hj, hp⟩)
    · exact ⟨x, List.mem_of_getElem? h, hp⟩
    · exact ⟨y, List.mem_of_getElem? hj, hp⟩

theorem exists_mem_set_iff (h : i < xs.length) :
    (∃ y ∈ xs.set i x, P y) ↔ P x ∨ Elsewhere xs i P := by
  have hat : (xs.set i x)[i]? = some x := by simp [h]
  have hother : Elsewhere (xs.set i x) i P ↔ Elsewhere xs i P := by
    constructor <;> rintro ⟨j, y, hne, hj, hp⟩
    · rw [List.getElem?_set_ne hne.symm] at hj
      exact ⟨j, y, hne, hj, hp⟩
    · rw [← List.getElem?_set_ne (a := x) hne.symm] at hj
      exact ⟨j, y, hne, hj, hp⟩
  rw [exists_mem_iff hat, hother]

theorem exists_mem_eraseIdx_iff : (∃ y ∈ xs.eraseIdx i, P y) ↔ Elsewhere xs i P := by
  constructor
  · rintro ⟨y, hy, hp⟩
    obtain ⟨j, hne, hj⟩ := List.mem_eraseIdx_iff_getElem?.mp hy
    exact ⟨j, y, hne, hj, hp⟩
  · rintro ⟨j, y, hne, hj, hp⟩
    exact ⟨y, List.mem_eraseIdx_iff_getElem?.mpr ⟨j, hne, hj⟩, hp⟩

instance [DecidablePred P] : Decidable (Elsewhere xs i P) :=
  decidable_of_iff (∃ y ∈ xs.eraseIdx i, P y) exists_mem_eraseIdx_iff

end Elsewhere

end NetCpp.Library.Slots
