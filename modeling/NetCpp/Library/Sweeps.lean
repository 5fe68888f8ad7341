import Mathlib

namespace NetCpp.Library

variable {σ α ε : Type}

/-- A loop whose body may throw: what it has done until then stays done. -/
def sweep (step : σ → α → σ × Except ε Unit) : σ → List α → σ × Except ε Unit
  | s, [] => (s, .ok ())
  | s, x :: xs =>
    match step s x with
    | (t, .ok ()) => sweep step t xs
    | (t, .error e) => (t, .error e)

/-- A part that is only reached when the part before it has not thrown. -/
def andThen (r : σ × Except ε Unit) (next : σ → σ × Except ε Unit) : σ × Except ε Unit :=
  match r with
  | (t, .ok ()) => next t
  | (t, .error e) => (t, .error e)

variable {step : σ → α → σ × Except ε Unit}

theorem sweep_cons_ok {s t : σ} {x : α} (h : step s x = (t, .ok ())) (xs : List α) :
    sweep step s (x :: xs) = sweep step t xs := by
  simp [sweep, h]

theorem sweep_cons_error {s t : σ} {x : α} {e : ε} (h : step s x = (t, .error e)) (xs : List α) :
    sweep step s (x :: xs) = (t, .error e) := by
  simp [sweep, h]

/-- What every step keeps is kept, whether the loop ends or is left by an exception. -/
theorem sweep_invariant {I : σ → Prop} {xs : List α}
    (hstep : ∀ x ∈ xs, ∀ s, I s → I (step s x).1) {s : σ} (h : I s) : I (sweep step s xs).1 := by
  induction xs generalizing s with
  | nil => exact h
  | cons x xs ih =>
    have hx := hstep x List.mem_cons_self s h
    rcases hs : step s x with ⟨t, r⟩
    rw [hs] at hx
    cases r with
    | error e =>
      rw [sweep_cons_error hs]
      exact hx
    | ok u =>
      rw [sweep_cons_ok hs]
      exact ih (fun y hy => hstep y (List.mem_cons_of_mem x hy)) hx

/-- A loop that ends has taken every step, and `I` may speak of the steps that are past. -/
theorem sweep_history {I : List α → σ → Prop} {xs : List α}
    (hstep : ∀ past x rest s t, xs = past ++ x :: rest → I past s → step s x = (t, .ok ()) →
      I (past ++ [x]) t)
    {s t : σ} (h : I [] s) (hsweep : sweep step s xs = (t, .ok ())) : I xs t := by
  suffices haux : ∀ past rest s, xs = past ++ rest → I past s → sweep step s rest = (t, .ok ()) →
      I xs t from
    haux [] xs s rfl h hsweep
  intro past rest
  induction rest generalizing past with
  | nil =>
    intro s hxs hs hend
    obtain rfl : s = t := congrArg Prod.fst hend
    rw [hxs, List.append_nil]
    exact hs
  | cons x rest ih =>
    intro s hxs hs hend
    rcases hx : step s x with ⟨u, r⟩
    cases r with
    | error e =>
      rw [sweep_cons_error hx] at hend
      exact absurd (congrArg Prod.snd hend) (fun hne => by cases hne)
    | ok u' =>
      rw [sweep_cons_ok hx] at hend
      exact ih (past ++ [x]) u (by rw [hxs, List.append_assoc]; rfl)
        (hstep past x rest s u hxs hs hx) hend

theorem sweep_unchanged {s : σ} {xs : List α} (h : ∀ x ∈ xs, step s x = (s, .ok ())) :
    sweep step s xs = (s, .ok ()) := by
  induction xs with
  | nil => rfl
  | cons x xs ih =>
    rw [sweep_cons_ok (h x List.mem_cons_self)]
    exact ih (fun y hy => h y (List.mem_cons_of_mem x hy))

theorem andThen_ok {r : σ × Except ε Unit} {next : σ → σ × Except ε Unit} {u : σ}
    (h : andThen r next = (u, .ok ())) : ∃ t, r = (t, .ok ()) ∧ next t = (u, .ok ()) := by
  rcases r with ⟨t, e | v⟩
  · exact absurd (congrArg Prod.snd h) (fun hne => by cases hne)
  · exact ⟨t, rfl, h⟩

theorem andThen_invariant {I : σ → Prop} {r : σ × Except ε Unit} {next : σ → σ × Except ε Unit}
    (h : I r.1) (hnext : ∀ t, I t → I (next t).1) : I (andThen r next).1 := by
  rcases r with ⟨t, e | v⟩
  · exact h
  · exact hnext t h

end NetCpp.Library
