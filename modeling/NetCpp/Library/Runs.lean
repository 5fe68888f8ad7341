import Mathlib

namespace NetCpp.Library

variable {σ α ε φ : Type}

/-- A computation that returns has returned at each of its steps. -/
theorem bind_ok {α β : Type} {x : Except ε α} {f : α → Except ε β} {b : β}
    (h : x >>= f = .ok b) : ∃ a, x = .ok a ∧ f a = .ok b := by
  cases x with
  | error e => cases h
  | ok a => exact ⟨a, rfl, h⟩

theorem exists_of_isOk {x : Except ε σ} (h : x.isOk = true) : ∃ t, x = .ok t := by
  cases x with
  | error e => cases h
  | ok t => exact ⟨t, rfl⟩

theorem mapM_ok {α β : Type} {f : α → Except ε β} {g : α → β} {xs : List α}
    (h : ∀ x ∈ xs, f x = .ok (g x)) : xs.mapM f = .ok (xs.map g) := by
  induction xs with
  | nil => rfl
  | cons x xs ih =>
    have hx := h x List.mem_cons_self
    have hxs := ih (fun y hy => h y (List.mem_cons_of_mem x hy))
    simp [List.mapM_cons, hx, hxs, bind, Except.bind, pure, Except.pure]

/-- A step that may fail, taken over a list of inputs from left to right. -/
def run (step : σ → α → Except ε σ) : σ → List α → Except ε σ
  | s, [] => .ok s
  | s, x :: xs =>
    match step s x with
    | .error e => .error e
    | .ok t => run step t xs

variable {step : σ → α → Except ε σ}

@[simp] theorem run_nil (s : σ) : run step s [] = .ok s := rfl

theorem run_cons_ok {s t : σ} {x : α} (h : step s x = .ok t) (xs : List α) :
    run step s (x :: xs) = run step t xs := by
  simp [run, h]

theorem run_cons_error {s : σ} {x : α} {e : ε} (h : step s x = .error e) (xs : List α) :
    run step s (x :: xs) = .error e := by
  simp [run, h]

theorem run_singleton (s : σ) (x : α) : run step s [x] = step s x := by
  cases h : step s x with
  | error e => exact run_cons_error h []
  | ok t => exact run_cons_ok h []

theorem run_append (s : σ) (xs ys : List α) :
    run step s (xs ++ ys) = (run step s xs).bind (fun t => run step t ys) := by
  induction xs generalizing s with
  | nil => rfl
  | cons x xs ih =>
    cases h : step s x with
    | error e => rw [List.cons_append, run_cons_error h, run_cons_error h]; rfl
    | ok t => rw [List.cons_append, run_cons_ok h, run_cons_ok h, ih]

theorem run_append_ok {s t : σ} {xs : List α} (h : run step s xs = .ok t) (ys : List α) :
    run step s (xs ++ ys) = run step t ys := by
  rw [run_append, h]
  rfl

/-- A run that returns has returned on each of its prefixes. -/
theorem run_append_inv {s u : σ} {xs ys : List α} (h : run step s (xs ++ ys) = .ok u) :
    ∃ t, run step s xs = .ok t ∧ run step t ys = .ok u := by
  rw [run_append] at h
  cases hx : run step s xs with
  | error e => rw [hx] at h; cases h
  | ok t => rw [hx] at h; exact ⟨t, rfl, h⟩

theorem run_cons_inv {s u : σ} {x : α} {xs : List α} (h : run step s (x :: xs) = .ok u) :
    ∃ t, step s x = .ok t ∧ run step t xs = .ok u := by
  cases hx : step s x with
  | error e => rw [run_cons_error hx] at h; cases h
  | ok t => rw [run_cons_ok hx] at h; exact ⟨t, rfl, h⟩

/-- What every step keeps, a run keeps. -/
theorem run_invariant {I : σ → Prop} (hstep : ∀ s x t, I s → step s x = .ok t → I t)
    {s t : σ} {xs : List α} (hs : I s) (h : run step s xs = .ok t) : I t := by
  induction xs generalizing s with
  | nil => cases h; exact hs
  | cons x xs ih =>
    obtain ⟨u, hu, ht⟩ := run_cons_inv h
    exact ih (hstep s x u hs hu) ht

/-- As `run_invariant`, for a predicate that also sees the inputs read so far and
may use that the input at hand is the next one of the given list. -/
theorem run_history {I : List α → σ → Prop} {input : List α}
    (hstep : ∀ past x rest s t, input = past ++ x :: rest → I past s → step s x = .ok t →
      I (past ++ [x]) t)
    {past rest : List α} {s t : σ} (hin : input = past ++ rest) (hs : I past s)
    (h : run step s rest = .ok t) : I input t := by
  induction rest generalizing past s with
  | nil => cases h; simpa [hin] using hs
  | cons x rest ih =>
    obtain ⟨u, hu, ht⟩ := run_cons_inv h
    have hin' : input = (past ++ [x]) ++ rest := by simp [hin]
    exact ih hin' (hstep past x rest s u hin hs hu) ht

/-- If each step returns and keeps the predicate, the whole run does. -/
theorem run_total {I : List α → σ → Prop} {input : List α}
    (hstep : ∀ past x rest s, input = past ++ x :: rest → I past s →
      ∃ t, step s x = .ok t ∧ I (past ++ [x]) t)
    {past rest : List α} {s : σ} (hin : input = past ++ rest) (hs : I past s) :
    ∃ t, run step s rest = .ok t ∧ I input t := by
  induction rest generalizing past s with
  | nil => exact ⟨s, rfl, by simpa [hin] using hs⟩
  | cons x rest ih =>
    obtain ⟨u, hu, hi⟩ := hstep past x rest s hin hs
    rw [run_cons_ok hu]
    exact ih (by simp [hin]) hi

/-- Each input that the run reaches meets a condition in the state it finds. -/
def Along (step : σ → α → Except ε σ) (P : σ → α → Prop) : σ → List α → Prop
  | _, [] => True
  | s, x :: xs =>
    P s x ∧
      match step s x with
      | .error _ => True
      | .ok t => Along step P t xs

instance Along.decide {P : σ → α → Prop} [∀ s x, Decidable (P s x)] (s : σ) (xs : List α) :
    Decidable (Along step P s xs) :=
  match xs with
  | [] => isTrue trivial
  | x :: xs =>
    match h : step s x with
    | .error _ => decidable_of_iff (P s x) (by simp [Along, h])
    | .ok t =>
      have := Along.decide (P := P) t xs
      decidable_of_iff (P s x ∧ Along step P t xs) (by simp [Along, h])

theorem Along.tail {P : σ → α → Prop} {s t : σ} {x : α} {xs : List α}
    (h : Along step P s (x :: xs)) (hx : step s x = .ok t) : Along step P t xs := by
  have hrest := h.2
  rwa [hx] at hrest

theorem Along.left {P : σ → α → Prop} {s : σ} {xs ys : List α} (h : Along step P s (xs ++ ys)) :
    Along step P s xs := by
  induction xs generalizing s with
  | nil => trivial
  | cons x xs ih =>
    refine ⟨h.1, ?_⟩
    split
    · trivial
    · rename_i hx
      exact ih (Along.tail h hx)

theorem Along.right {P : σ → α → Prop} {s t : σ} {xs ys : List α} (h : Along step P s (xs ++ ys))
    (hrun : run step s xs = .ok t) : Along step P t ys := by
  induction xs generalizing s with
  | nil =>
    cases hrun
    exact h
  | cons x xs ih =>
    obtain ⟨u, hx, hrest⟩ := run_cons_inv hrun
    exact ih (Along.tail h hx) hrest

theorem Along.and {P Q : σ → α → Prop} {s : σ} {xs : List α} (hp : Along step P s xs)
    (hq : Along step Q s xs) : Along step (fun s x => P s x ∧ Q s x) s xs := by
  induction xs generalizing s with
  | nil => trivial
  | cons x xs ih =>
    refine ⟨⟨hp.1, hq.1⟩, ?_⟩
    split
    · trivial
    · rename_i hx
      exact ih (hp.tail hx) (hq.tail hx)

/-- What every step whose input meets the condition keeps of the inputs read so far and the state,
a run along such inputs keeps. -/
theorem run_along_history {P : σ → α → Prop} {I : List α → σ → Prop}
    (hstep : ∀ past s x t, I past s → P s x → step s x = .ok t → I (past ++ [x]) t)
    {past xs : List α} {s t : σ} (hs : I past s) (h : Along step P s xs)
    (hrun : run step s xs = .ok t) : I (past ++ xs) t := by
  induction xs generalizing past s with
  | nil =>
    cases hrun
    simpa using hs
  | cons x xs ih =>
    obtain ⟨u, hu, ht⟩ := run_cons_inv hrun
    have hi := ih (hstep past s x u hs h.1 hu) (h.tail hu) ht
    simpa using hi

/-- As `run_along_history`, for a predicate on the state alone. -/
theorem run_along_invariant {P : σ → α → Prop} {I : σ → Prop}
    (hstep : ∀ s x t, I s → P s x → step s x = .ok t → I t) {s t : σ} {xs : List α} (hs : I s)
    (h : Along step P s xs) (hrun : run step s xs = .ok t) : I t := by
  have hhistory (_ : List α) := hstep
  exact @run_along_history _ _ _ _ _ (fun _ => I) hhistory [] xs s t hs h hrun

/-- A condition along a run is one on each input and the state that the inputs before it lead to. -/
theorem along_iff {P : σ → α → Prop} {s : σ} {xs : List α} : Along step P s xs ↔
    ∀ past x rest t, xs = past ++ x :: rest → run step s past = .ok t → P t x := by
  constructor
  · rintro h past x rest t rfl hrun
    exact (h.right hrun).1
  · intro h
    induction xs generalizing s with
    | nil => trivial
    | cons x xs ih =>
      refine ⟨h [] x xs s rfl rfl, ?_⟩
      split
      · trivial
      · rename_i u hu
        apply ih
        intro past y rest t hxs hrun
        exact h (x :: past) y rest t (by rw [hxs, List.cons_append]) (by rwa [run_cons_ok hu])

theorem along_mem (s : σ) (xs : List α) : Along step (fun _ x => x ∈ xs) s xs := by
  rw [along_iff]
  rintro past x rest t rfl -
  exact List.mem_append_right past List.mem_cons_self

/-- Two conditions that agree in every state with an invariant agree along a run. -/
theorem along_congr {P Q : σ → α → Prop} {I : σ → Prop}
    (hstep : ∀ s x t, I s → step s x = .ok t → I t)
    (h : ∀ s x, I s → (P s x ↔ Q s x)) {s : σ} {xs : List α} (hs : I s) :
    Along step P s xs ↔ Along step Q s xs := by
  induction xs generalizing s with
  | nil => exact Iff.rfl
  | cons x xs ih =>
    unfold Along
    rw [h s x hs]
    cases hx : step s x with
    | error e => exact Iff.rfl
    | ok t => exact and_congr_right fun _ => ih (hstep s x t hs hx)

/-- If each step whose input meets the condition returns and keeps the predicate, a run along
such inputs returns. -/
theorem run_along {P : σ → α → Prop} {I : List α → σ → Prop}
    (hstep : ∀ past x s, I past s → P s x → ∃ t, step s x = .ok t ∧ I (past ++ [x]) t)
    {past xs : List α} {s : σ} (hs : I past s) (h : Along step P s xs) :
    ∃ t, run step s xs = .ok t ∧ I (past ++ xs) t := by
  induction xs generalizing past s with
  | nil => exact ⟨s, rfl, by simpa using hs⟩
  | cons x xs ih =>
    obtain ⟨u, hu, hi⟩ := hstep past x s hs h.1
    obtain ⟨t, ht, hit⟩ := ih hi (h.tail hu)
    exact ⟨t, by rwa [run_cons_ok hu], by simpa using hit⟩

/-- If each step that meets the condition returns and keeps the predicate, but for some inputs that
it fails on, a run with such an input fails. -/
theorem run_fails {P : σ → α → Prop} {I : σ → Prop} {bad : α → Prop} {e : ε}
    (hgood : ∀ s x, I s → P s x → ¬bad x → ∃ t, step s x = .ok t ∧ I t)
    (hbad : ∀ s x, I s → P s x → bad x → step s x = .error e) {s : σ} {xs : List α} (hs : I s)
    (h : Along step P s xs) (hexists : ∃ x ∈ xs, bad x) : run step s xs = .error e := by
  induction xs generalizing s with
  | nil =>
    obtain ⟨x, hx, -⟩ := hexists
    cases hx
  | cons x xs ih =>
    by_cases hx : bad x
    · exact run_cons_error (hbad s x hs h.1 hx) xs
    · obtain ⟨t, ht, hit⟩ := hgood s x hs h.1 hx
      have hrest : ∃ y ∈ xs, bad y := by
        obtain ⟨y, hy, hbad⟩ := hexists
        rcases List.mem_cons.mp hy with rfl | hy
        · exact absurd hbad hx
        · exact ⟨y, hy, hbad⟩
      rw [run_cons_ok ht]
      exact ih hit (h.tail ht) hrest

/-- Where each step returns just for an input that meets the condition, a run returns just along
such inputs. The steps may use a predicate that they keep. -/
theorem run_iff_along_history {P : σ → α → Prop} {I : List α → σ → Prop} {input : List α}
    (hkeep : ∀ past x rest s t, input = past ++ x :: rest → I past s → step s x = .ok t →
      I (past ++ [x]) t)
    (hstep : ∀ past x rest s, input = past ++ x :: rest → I past s →
      ((∃ t, step s x = .ok t) ↔ P s x))
    {past rest : List α} {s : σ} (hin : input = past ++ rest) (hs : I past s) :
    (∃ t, run step s rest = .ok t) ↔ Along step P s rest := by
  induction rest generalizing past s with
  | nil => exact ⟨fun _ => trivial, fun _ => ⟨s, rfl⟩⟩
  | cons x rest ih =>
    have hin' : input = (past ++ [x]) ++ rest := by simp [hin]
    constructor
    · intro h
      obtain ⟨t, h⟩ := h
      obtain ⟨u, hu, ht⟩ := run_cons_inv h
      refine ⟨(hstep past x rest s hin hs).mp ⟨u, hu⟩, ?_⟩
      rw [hu]
      exact (ih hin' (hkeep past x rest s u hin hs hu)).mp ⟨t, ht⟩
    · intro h
      obtain ⟨u, hu⟩ := (hstep past x rest s hin hs).mpr h.1
      obtain ⟨t, ht⟩ := (ih hin' (hkeep past x rest s u hin hs hu)).mpr (h.tail hu)
      exact ⟨t, by rwa [run_cons_ok hu]⟩

theorem run_iff_along {P : σ → α → Prop} {xs : List α}
    (hstep : ∀ x ∈ xs, ∀ s, (∃ t, step s x = .ok t) ↔ P s x) {s : σ} :
    (∃ t, run step s xs = .ok t) ↔ Along step P s xs := by
  refine run_iff_along_history (I := fun _ _ => True) (fun _ _ _ _ _ _ _ _ => trivial) ?_
    (List.nil_append xs).symm trivial
  intro past x rest s hin _
  exact hstep x (by rw [hin]; exact List.mem_append_right past List.mem_cons_self) s

/-- An outer loop that runs until its input is empty. Each round prepares the
state, picks an inner loop by the state, and finishes when the inner loop is left:
by a break (`true`) or because the input ran out. -/
structure Loops (σ α ε φ : Type) where
  prepare : σ → σ
  phase : σ → Option φ
  body : φ → σ → α → Except ε (σ × Bool)
  finish : σ → σ
  stuck : ε

namespace Loops
variable (L : Loops σ α ε φ)

/-- The inner loop, with the input it leaves to the outer one. -/
def inner (p : φ) : σ → List α → Except ε (σ × List α)
  | s, [] => .ok (s, [])
  | s, x :: xs =>
    match L.body p s x with
    | .error e => .error e
    | .ok (t, true) => .ok (t, xs)
    | .ok (t, false) => inner p t xs

/-- The outer loop. A state that no inner loop serves makes no progress: such a
loop never ends, and the fuel, one round for each input, is never the reason. -/
def outer : Nat → σ → List α → Except ε σ
  | _, s, [] => .ok s
  | 0, _, _ :: _ => .error L.stuck
  | n + 1, s, x :: xs =>
    match L.phase (L.prepare s) with
    | none => .error L.stuck
    | some p =>
      match L.inner p (L.prepare s) (x :: xs) with
      | .error e => .error e
      | .ok (t, rest) => outer n (L.finish t) rest

def exec (s : σ) (xs : List α) : Except ε σ := L.outer xs.length s xs

/-- The same loops one input at a time: a state, and the inner loop it stands in. -/
abbrev Point (_ : Loops σ α ε φ) := σ × Option φ

def enter (p : φ) (s : σ) (x : α) : Except ε L.Point :=
  match L.body p s x with
  | .error e => .error e
  | .ok (t, true) => .ok (L.finish t, none)
  | .ok (t, false) => .ok (t, some p)

/-- Leaving the loops when the input is empty. -/
def close : L.Point → σ
  | (s, none) => s
  | (s, some _) => L.finish s

/-- One input, or (`none`) the end of a piece of input. -/
def flat : L.Point → Option α → Except ε L.Point
  | st, none => .ok (L.close st, none)
  | (s, some p), some x => L.enter p s x
  | (s, none), some x =>
    match L.phase (L.prepare s) with
    | none => .error L.stuck
    | some p => L.enter p (L.prepare s) x

/-- The pieces of an input, each followed by its end. -/
def feed (pieces : List (List α)) : List (Option α) :=
  pieces.flatMap (fun xs => xs.map some ++ [none])

/-- The inputs without the ends of the pieces. -/
theorem reduceOption_feed (pieces : List (List α)) :
    (feed pieces).reduceOption = pieces.flatten := by
  induction pieces with
  | nil => rfl
  | cons xs pieces ih =>
    have hxs : (xs.map some).reduceOption = xs := by
      rw [List.reduceOption, List.filterMap_map]
      exact List.filterMap_some
    have hcons : feed (xs :: pieces) = (xs.map some ++ [none]) ++ feed pieces := rfl
    rw [hcons, List.reduceOption_append, List.reduceOption_append, hxs, ih]
    simp

theorem feed_append (ps qs : List (List α)) : feed (ps ++ qs) = feed ps ++ feed qs := by
  simp [feed]

/-- An input stands in one of the pieces. -/
theorem feed_split {pieces : List (List α)} {past rest : List (Option α)} {x : α}
    (h : feed pieces = past ++ some x :: rest) : ∃ pre a b post,
      pieces = pre ++ (a ++ x :: b) :: post ∧ past = feed pre ++ a.map some := by
  induction pieces generalizing past with
  | nil =>
    have := congrArg List.length h
    simp [feed] at this
  | cons xs pieces ih =>
    have hcons : feed (xs :: pieces) = xs.map some ++ (none :: feed pieces) := by simp [feed]
    rw [hcons] at h
    rcases List.append_eq_append_iff.mp h with ⟨u, hp, hu⟩ | ⟨u, hxs, hu⟩
    · cases u with
      | nil => exact absurd (List.cons.inj hu).1 (by simp)
      | cons o u =>
        obtain ⟨ho, hrest⟩ := List.cons.inj hu
        obtain ⟨pre, a, b, post, rfl, rfl⟩ := ih hrest
        exact ⟨xs :: pre, a, b, post, rfl, by rw [hp, ← ho]; simp [feed]⟩
    · cases u with
      | nil => exact absurd (List.cons.inj hu).1 (by simp)
      | cons o u =>
        obtain ⟨rfl, -⟩ := List.cons.inj hu
        obtain ⟨a, b, rfl, rfl, hb⟩ := List.map_eq_append_iff.mp hxs
        obtain ⟨y, b, rfl, hy, rfl⟩ := List.map_eq_cons_iff.mp hb
        obtain rfl := Option.some.inj hy
        exact ⟨[], a, b, pieces, rfl, rfl⟩

theorem inner_length {p : φ} {s t : σ} {xs rest : List α}
    (h : L.inner p s xs = .ok (t, rest)) : rest.length ≤ xs.length - 1 := by
  induction xs generalizing s with
  | nil => cases h; simp
  | cons x xs ih =>
    unfold inner at h
    split at h
    · cases h
    · cases h; simp
    · have := ih h
      simp only [List.length_cons]
      omega

theorem run_inner (p : φ) (s : σ) (xs : List α) :
    (run L.flat (s, some p) (xs.map some)).map L.close =
      (L.inner p s xs).bind (fun (t, rest) =>
        (run L.flat (L.finish t, none) (rest.map some)).map L.close) := by
  induction xs generalizing s with
  | nil => rfl
  | cons x xs ih =>
    rw [List.map_cons, inner]
    cases hb : L.body p s x with
    | error e => rw [run_cons_error (e := e) (by simp [flat, enter, hb])]; rfl
    | ok r =>
      obtain ⟨t, stop⟩ := r
      cases stop with
      | true => rw [run_cons_ok (t := (L.finish t, none)) (by simp [flat, enter, hb])]; rfl
      | false => rw [run_cons_ok (t := (t, some p)) (by simp [flat, enter, hb]), ih]

/-- With a round of fuel for each input, the nested loops are the flat steps. -/
theorem outer_flat (n : Nat) (s : σ) (xs : List α) (hn : xs.length ≤ n) :
    L.outer n s xs = (run L.flat (s, none) (xs.map some)).map L.close := by
  induction n generalizing s xs with
  | zero =>
    obtain rfl : xs = [] := by simpa using hn
    rfl
  | succ n ih =>
    cases xs with
    | nil => rfl
    | cons x xs =>
      rw [outer]
      cases hp : L.phase (L.prepare s) with
      | none => rw [List.map_cons, run_cons_error (e := L.stuck) (by simp [flat, hp])]; rfl
      | some p =>
        have hstart : run L.flat (s, none) ((x :: xs).map some) =
            run L.flat (L.prepare s, some p) ((x :: xs).map some) := by
          simp [run, flat, hp]
        rw [hstart, run_inner]
        dsimp only
        cases hi : L.inner p (L.prepare s) (x :: xs) with
        | error e => rfl
        | ok r =>
          obtain ⟨t, rest⟩ := r
          have hlen := L.inner_length hi
          exact ih (L.finish t) rest (by simp only [List.length_cons] at hn hlen; omega)

theorem exec_flat (s : σ) (xs : List α) :
    L.exec s xs = (run L.flat (s, none) (xs.map some)).map L.close :=
  L.outer_flat xs.length s xs (Nat.le_refl _)

/-- Executing piece after piece is one run of flat steps over all of them. -/
theorem run_exec (s : σ) (pieces : List (List α)) :
    (run L.exec s pieces).map (fun t => (t, none)) = run L.flat (s, none) (feed pieces) := by
  induction pieces generalizing s with
  | nil => rfl
  | cons xs pieces ih =>
    rw [show feed (xs :: pieces) = xs.map some ++ (none :: feed pieces) by simp [feed], run_append]
    cases hr : run L.flat (s, none) (xs.map some) with
    | error e => rw [run_cons_error (e := e) (by rw [exec_flat, hr]; rfl)]; rfl
    | ok st =>
      rw [run_cons_ok (t := L.close st) (by rw [exec_flat, hr]; rfl), ih]
      rfl

theorem run_exec_ok {s t : σ} {pieces : List (List α)} : run L.exec s pieces = .ok t ↔
    ∃ q, run L.flat (s, none) (feed pieces) = .ok (t, q) := by
  rw [← run_exec]
  cases run L.exec s pieces with
  | error e => simp [Except.map]
  | ok u => simp [Except.map]

theorem exec_ok {s t : σ} {xs : List α} : L.exec s xs = .ok t ↔
    ∃ st, run L.flat (s, none) (xs.map some) = .ok st ∧ L.close st = t := by
  rw [exec_flat]
  cases run L.flat (s, none) (xs.map some) <;> simp [Except.map]

/-- Standing inside an inner loop and standing before the outer loop are the same
for what comes next: the outer round would change nothing and pick that loop. -/
def Aligned : L.Point → Prop
  | (_, none) => True
  | (s, some p) => L.finish s = s ∧ L.prepare s = s ∧ L.phase s = some p

theorem aligned_run {st : L.Point} (h : L.Aligned st) (xs : List α) :
    (run L.flat st (xs.map some)).map L.close =
      (run L.flat (L.close st, none) (xs.map some)).map L.close := by
  obtain ⟨s, p⟩ := st
  cases p with
  | none => rfl
  | some p =>
    obtain ⟨hf, hp, hk⟩ := h
    cases xs with
    | nil => simp [close, hf, Except.map]
    | cons x xs => simp [run, flat, close, hf, hp, hk]

/-- A cut at an aligned point does not show. -/
theorem exec_append {s : σ} {xs ys : List α}
    (h : ∀ st, run L.flat (s, none) (xs.map some) = .ok st → L.Aligned st) :
    L.exec s (xs ++ ys) = (L.exec s xs).bind (fun t => L.exec t ys) := by
  rw [exec_flat, exec_flat, List.map_append, run_append]
  cases hr : run L.flat (s, none) (xs.map some) with
  | error e => rfl
  | ok st =>
    simp only [Except.bind, Except.map, exec_flat]
    exact L.aligned_run (h st hr) ys

end Loops

end NetCpp.Library
