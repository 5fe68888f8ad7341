import Mathlib

namespace NetCpp.Library

theorem eq_zero_of_shiftRight {d k : Nat} (hk : 0 < k) (h : d >>> k = d) : d = 0 := by
  by_contra hne
  rw [Nat.shiftRight_eq_div_pow] at h
  have hlt : d / 2 ^ k < d :=
    Nat.div_lt_self (Nat.pos_of_ne_zero hne) (Nat.one_lt_two_pow (Nat.ne_of_gt hk))
  omega

/-- Two numbers that are mixed alike differ by one that the shift does not change. -/
theorem xor_shiftRight_injective {k : Nat} (hk : 0 < k) :
    Function.Injective (fun n : Nat => n ^^^ (n >>> k)) := by
  intro a b h
  have hdiff : (a ^^^ b) >>> k = a ^^^ b := by
    rw [Nat.shiftRight_xor_distrib]
    apply Nat.eq_of_testBit_eq
    intro i
    have hbit := congrArg (·.testBit i) h
    simp only [Nat.testBit_xor] at hbit ⊢
    grind
  exact Nat.xor_eq_zero_iff.mp (eq_zero_of_shiftRight hk hdiff)

theorem xor_shiftRight_injective64 {k : UInt64} (hk : 0 < k.toNat % 64) :
    Function.Injective (fun z : UInt64 => z ^^^ (z >>> k)) := by
  intro a b h
  have hnat := congrArg UInt64.toNat h
  simp only [UInt64.toNat_xor, UInt64.toNat_shiftRight] at hnat
  exact UInt64.toNat_inj.mp (xor_shiftRight_injective hk hnat)

/-- A factor with an inverse is odd. -/
theorem mul_injective64 {m inv : UInt64} (h : m * inv = 1) :
    Function.Injective (fun z : UInt64 => z * m) := by
  intro a b hab
  have hback (z : UInt64) : z * m * inv = z := by rw [UInt64.mul_assoc, h, UInt64.mul_one]
  calc a = a * m * inv := (hback a).symm
    _ = b * m * inv := congrArg (· * inv) hab
    _ = b := hback b

end NetCpp.Library
