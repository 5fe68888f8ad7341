import NetCpp.Library.Runs

namespace NetCpp.Library

variable {α σ ε : Type}

/-- An item of a queue is handled where it stands and its place is emptied; the empty places are
removed afterwards, and what is there of a queue is its `reduceOption`. A pass leaves: the state,
the places, what it handled, and what stopped it. -/
structure Drained (σ α ε : Type) where
  state : σ
  items : List (Option α)
  handled : List α := []
  error : Option ε := none

/-- A pass that handles so many items at most. A fault leaves the place of its item as it was. -/
def drain (handle : σ → α → Except ε σ) : Nat → σ → List (Option α) → Drained σ α ε
  | _, s, [] => { state := s, items := [] }
  | limit, s, none :: xs =>
    let rest := drain handle limit s xs
    { rest with items := none :: rest.items }
  | 0, s, some x :: xs => { state := s, items := some x :: xs }
  | limit + 1, s, some x :: xs =>
    match handle s x with
    | .error e => { state := s, items := some x :: xs, error := some e }
    | .ok s =>
      let rest := drain handle limit s xs
      { rest with items := none :: rest.items, handled := x :: rest.handled }

theorem reduceOption_map_some (xs : List α) : (xs.map some).reduceOption = xs := by
  induction xs with
  | nil => rfl
  | cons x xs ih => rw [List.map_cons, List.reduceOption_cons_of_some, ih]

theorem filter_isSome (xs : List (Option α)) :
    xs.filter Option.isSome = xs.reduceOption.map some := by
  induction xs with
  | nil => rfl
  | cons x xs ih =>
    cases x with
    | none => rw [List.filter_cons_of_neg (by simp), ih, List.reduceOption_cons_of_none]
    | some x => rw [List.filter_cons_of_pos rfl, ih, List.reduceOption_cons_of_some, List.map_cons]

theorem reduceOption_filter (xs : List (Option α)) :
    (xs.filter Option.isSome).reduceOption = xs.reduceOption := by
  rw [filter_isSome, reduceOption_map_some]

section
variable {handle : σ → α → Except ε σ}

/-- A pass that nothing stops handles what comes first, up to its limit, and leaves the rest. -/
theorem drain_ok {limit : Nat} {s : σ} {xs : List (Option α)}
    (h : (drain handle limit s xs).error = none) :
    (drain handle limit s xs).handled = xs.reduceOption.take limit ∧
      (drain handle limit s xs).items.reduceOption = xs.reduceOption.drop limit ∧
      run handle s (xs.reduceOption.take limit) = .ok (drain handle limit s xs).state := by
  induction xs generalizing limit s with
  | nil => simp [drain]
  | cons x xs ih =>
    cases x with
    | none =>
      rw [List.reduceOption_cons_of_none]
      exact ih h
    | some x =>
      rw [List.reduceOption_cons_of_some]
      cases limit with
      | zero => simp [drain]
      | succ limit =>
        rw [drain] at h ⊢
        cases hx : handle s x with
        | error e =>
          rw [hx] at h
          cases h
        | ok t =>
          rw [hx] at h
          obtain ⟨hhandled, hitems, hrun⟩ := ih h
          refine ⟨congrArg (x :: ·) hhandled, hitems, ?_⟩
          rw [List.take_succ_cons, run_cons_ok hx]
          exact hrun

/-- A pass that an item stops has emptied the places before it. -/
theorem drain_stopped {limit : Nat} {s t : σ} {xs : List α} {x : α} {e : ε}
    (hlimit : xs.length < limit) (hrun : run handle s xs = .ok t) (hx : handle t x = .error e)
    (ys : List (Option α)) : drain handle limit s (xs.map some ++ some x :: ys) =
      { state := t, items := List.replicate xs.length none ++ some x :: ys, handled := xs,
        error := some e } := by
  induction xs generalizing limit s with
  | nil =>
    obtain ⟨n, rfl⟩ : ∃ n, limit = n + 1 := ⟨limit - 1, by rw [List.length_nil] at hlimit; omega⟩
    obtain rfl := Except.ok.inj hrun
    simp [drain, hx]
  | cons y xs ih =>
    rw [List.length_cons] at hlimit
    obtain ⟨n, rfl⟩ : ∃ n, limit = n + 1 := ⟨limit - 1, by omega⟩
    obtain ⟨u, hy, hrest⟩ := run_cons_inv hrun
    have hpass := ih (Nat.lt_of_succ_lt_succ hlimit) hrest
    rw [List.map_cons, List.cons_append, drain, hy]
    simp only [hpass, List.length_cons, List.replicate_succ, List.cons_append]

/-- What stops the handling of the items stops the pass. -/
theorem drain_error {limit : Nat} {s : σ} {xs : List (Option α)} {e : ε} :
    (drain handle limit s xs).error = some e ↔
    run handle s (xs.reduceOption.take limit) = .error e := by
  induction xs generalizing limit s with
  | nil => simp [drain]
  | cons x xs ih =>
    cases x with
    | none =>
      rw [List.reduceOption_cons_of_none]
      exact ih
    | some x =>
      rw [List.reduceOption_cons_of_some]
      cases limit with
      | zero => simp [drain]
      | succ limit =>
        rw [drain, List.take_succ_cons]
        cases hx : handle s x with
        | error f => simp [run_cons_error hx]
        | ok t =>
          rw [run_cons_ok hx]
          exact ih

/-- A pass that can handle what it comes to is not stopped. -/
theorem drain_of_run {limit : Nat} {s t : σ} {xs : List (Option α)}
    (h : run handle s (xs.reduceOption.take limit) = .ok t) :
    (drain handle limit s xs).error = none ∧
      (drain handle limit s xs).state = t := by
  have hnone : (drain handle limit s xs).error = none := by
    cases herror : (drain handle limit s xs).error with
    | none => rfl
    | some e =>
      rw [drain_error.mp herror] at h
      cases h
  have hrun := (drain_ok hnone).2.2
  rw [h] at hrun
  exact ⟨hnone, (Except.ok.inj hrun).symm⟩

end

/-- The items of two lists, one after another, each list in its order. -/
inductive Interleaving : List α → List α → List α → Prop where
  | nil : Interleaving [] [] []
  | left {xs ys zs : List α} (x : α) (h : Interleaving xs ys zs) :
      Interleaving (xs ++ [x]) ys (zs ++ [x])
  | right {xs ys zs : List α} (y : α) (h : Interleaving xs ys zs) :
      Interleaving xs (ys ++ [y]) (zs ++ [y])

end NetCpp.Library
