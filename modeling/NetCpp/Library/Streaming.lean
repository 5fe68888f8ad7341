import Mathlib

namespace NetCpp.Library

variable {σ α : Type}

/-- A fold that takes `n` elements in one step, for `k` steps. -/
def foldBlocks (n : Nat) (f : σ → List α → σ) : Nat → σ → List α → σ
  | 0, s, _ => s
  | k + 1, s, xs => foldBlocks n f k (f s (xs.take n)) (xs.drop n)

/-- What is left when every full block has been taken. -/
def leftover (n : Nat) (xs : List α) : List α := xs.drop (n * (xs.length / n))

/-- The full blocks of a list, folded. -/
def absorb (n : Nat) (f : σ → List α → σ) (s : σ) (xs : List α) : σ :=
  foldBlocks n f (xs.length / n) s xs

variable (n : Nat) (f : σ → List α → σ)

theorem length_leftover (xs : List α) : (leftover n xs).length = xs.length % n := by
  have hsplit := Nat.div_add_mod xs.length n
  simp only [leftover, List.length_drop]
  omega

theorem foldBlocks_add (k l : Nat) (s : σ) (xs : List α) :
    foldBlocks n f (k + l) s xs = foldBlocks n f l (foldBlocks n f k s xs) (xs.drop (n * k)) := by
  induction k generalizing s xs with
  | zero => simp [foldBlocks]
  | succ k ih =>
    rw [Nat.succ_add, foldBlocks, foldBlocks, ih, List.drop_drop, Nat.mul_succ, Nat.add_comm n]

/-- A step reads no element past its own block. -/
theorem foldBlocks_append {k : Nat} {xs : List α} (h : n * k ≤ xs.length) (s : σ) (ys : List α) :
    foldBlocks n f k s (xs ++ ys) = foldBlocks n f k s xs := by
  induction k generalizing s xs with
  | zero => rfl
  | succ k ih =>
    have hn : n ≤ xs.length := by rw [Nat.mul_succ] at h; omega
    have hrest : n * k ≤ (xs.drop n).length := by
      rw [List.length_drop]
      rw [Nat.mul_succ] at h
      omega
    rw [foldBlocks, foldBlocks, List.take_append_of_le_length hn,
      List.drop_append_of_le_length hn, ih hrest]

theorem length_append_leftover (xs ys : List α) :
    (xs ++ ys).length = (leftover n xs ++ ys).length + n * (xs.length / n) := by
  have hle : n * (xs.length / n) ≤ xs.length := Nat.mul_div_le xs.length n
  simp only [leftover, List.length_append, List.length_drop]
  omega

variable {n}

theorem blocks_append (h : 0 < n) (xs ys : List α) :
    (xs ++ ys).length / n = xs.length / n + (leftover n xs ++ ys).length / n := by
  rw [length_append_leftover n, Nat.add_mul_div_left _ _ h, Nat.add_comm]

/-- The blocks of a longer list: those of the first part, then those that what was left begins. -/
theorem absorb_append (h : 0 < n) (s : σ) (xs ys : List α) :
    absorb n f s (xs ++ ys) = absorb n f (absorb n f s xs) (leftover n xs ++ ys) := by
  have hle : n * (xs.length / n) ≤ xs.length := Nat.mul_div_le xs.length n
  unfold absorb
  rw [blocks_append h, foldBlocks_add, foldBlocks_append n f hle, List.drop_append_of_le_length hle]
  rfl

theorem leftover_append (h : 0 < n) (xs ys : List α) :
    leftover n (xs ++ ys) = leftover n (leftover n xs ++ ys) := by
  have hle : n * (xs.length / n) ≤ xs.length := Nat.mul_div_le xs.length n
  have hdrop : (xs ++ ys).drop (n * (xs.length / n)) = leftover n xs ++ ys :=
    List.drop_append_of_le_length hle
  calc leftover n (xs ++ ys)
      = (xs ++ ys).drop (n * (xs.length / n) + n * ((leftover n xs ++ ys).length / n)) := by
        rw [leftover, blocks_append h, Nat.mul_add]
    _ = (leftover n xs ++ ys).drop (n * ((leftover n xs ++ ys).length / n)) := by
        rw [← List.drop_drop, hdrop]
    _ = leftover n (leftover n xs ++ ys) := rfl

theorem absorb_of_lt {xs : List α} (h : xs.length < n) (s : σ) : absorb n f s xs = s := by
  rw [absorb, Nat.div_eq_of_lt h]
  rfl

theorem leftover_of_lt {xs : List α} (h : xs.length < n) : leftover n xs = xs := by
  rw [leftover, Nat.div_eq_of_lt h]
  simp

theorem absorb_of_le (h : 0 < n) {xs : List α} (hn : n ≤ xs.length) (s : σ) :
    absorb n f s xs = absorb n f (f s (xs.take n)) (xs.drop n) := by
  have hcount : xs.length / n = (xs.drop n).length / n + 1 := by
    rw [List.length_drop, ← Nat.add_div_right _ h, Nat.sub_add_cancel hn]
  rw [absorb, hcount]
  rfl

theorem leftover_of_le (h : 0 < n) {xs : List α} (hn : n ≤ xs.length) :
    leftover n xs = leftover n (xs.drop n) := by
  have hcount : xs.length / n = (xs.drop n).length / n + 1 := by
    rw [List.length_drop, ← Nat.add_div_right _ h, Nat.sub_add_cancel hn]
  rw [leftover, hcount, leftover, List.drop_drop, Nat.mul_succ, Nat.add_comm]

end NetCpp.Library
