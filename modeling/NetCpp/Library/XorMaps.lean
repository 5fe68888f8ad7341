import Mathlib

namespace NetCpp.Library

theorem two_pow_xor_of_lt {m w : Nat} (h : m < 2 ^ w) : 2 ^ w ^^^ m = 2 ^ w + m := by
  apply Nat.eq_of_testBit_eq
  intro i
  rw [Nat.testBit_xor, Nat.testBit_two_pow]
  rcases Nat.lt_trichotomy i w with hi | rfl | hi
  · rw [Nat.testBit_two_pow_add_gt hi]
    simp [Nat.ne_of_gt hi]
  · rw [Nat.testBit_two_pow_add_eq]
    simp
  · have hm : m.testBit i = false :=
      Nat.testBit_lt_two_pow (h.trans (Nat.pow_lt_pow_right (by omega) hi))
    have hsum : (2 ^ w + m).testBit i = false := by
      apply Nat.testBit_lt_two_pow
      calc 2 ^ w + m < 2 ^ (w + 1) := by rw [pow_succ]; omega
        _ ≤ 2 ^ i := Nat.pow_le_pow_right (by omega) hi
    simp [hm, hsum, Nat.ne_of_lt hi]

variable {μ : Type}

/-- The induction is on the number of bits: the top bit is the sum with the number below it. -/
theorem eq_of_bits (sum : μ → μ → μ) {f g : Nat → μ} (hf : ∀ a b, f (a ^^^ b) = sum (f a) (f b))
    (hg : ∀ a b, g (a ^^^ b) = sum (g a) (g b)) (h0 : f 0 = g 0) {w : Nat}
    (hbit : ∀ k < w, f (2 ^ k) = g (2 ^ k)) : ∀ n < 2 ^ w, f n = g n := by
  induction w with
  | zero =>
    intro n hn
    obtain rfl : n = 0 := by simpa using hn
    exact h0
  | succ w ih =>
    intro n hn
    have hlow := ih (fun k hk => hbit k (by omega))
    rcases Nat.lt_or_ge n (2 ^ w) with hlt | hge
    · exact hlow n hlt
    · have hm : n - 2 ^ w < 2 ^ w := by
        rw [pow_succ] at hn
        omega
      have hn' : n = 2 ^ w ^^^ (n - 2 ^ w) := by
        rw [two_pow_xor_of_lt hm]
        omega
      rw [hn', hf, hg, hbit w (Nat.lt_succ_self w), hlow _ hm]

/-- The same for bytes. -/
theorem eq_of_bits8 (sum : μ → μ → μ) {f g : UInt8 → μ} (hf : ∀ a b, f (a ^^^ b) = sum (f a) (f b))
    (hg : ∀ a b, g (a ^^^ b) = sum (g a) (g b)) (h0 : f 0 = g 0)
    (hbit : ∀ k : Fin 8, f (.ofNat (2 ^ k.val)) = g (.ofNat (2 ^ k.val))) : f = g := by
  funext b
  have h := @eq_of_bits μ sum (fun n => f (.ofNat n)) (fun n => g (.ofNat n))
    (fun a b => by rw [UInt8.ofNat_xor, hf]) (fun a b => by rw [UInt8.ofNat_xor, hg]) h0 8
    (fun k hk => hbit ⟨k, hk⟩) b.toNat b.toNat_lt
  simpa using h

end NetCpp.Library
