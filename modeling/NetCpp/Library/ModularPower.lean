import Mathlib

namespace NetCpp.Library.ModularPower

variable {e : Nat}

/-- Squaring first, one bit of the exponent is done. -/
theorem pow_even (b m : Nat) (heven : e % 2 = 0) :
    (b % m * (b % m) % m) ^ (e / 2) % m = b ^ e % m := by
  have he : 2 * (e / 2) = e := by omega
  calc (b % m * (b % m) % m) ^ (e / 2) % m = (b * b) ^ (e / 2) % m := by
        rw [← Nat.mul_mod, ← Nat.pow_mod]
    _ = b ^ e % m := by rw [← pow_two, ← pow_mul, he]

theorem pow_odd (b m : Nat) (he : 0 < e) :
    b % m * ((b % m) ^ (e - 1) % m) % m = b ^ e % m := by
  have hsplit : e - 1 + 1 = e := by omega
  calc b % m * ((b % m) ^ (e - 1) % m) % m = b * b ^ (e - 1) % m := by
        rw [← Nat.pow_mod, ← Nat.mul_mod]
    _ = b ^ e % m := by rw [← pow_succ', hsplit]

/-- Fermat, for multiples of the prime as well. -/
theorem pow_modEq_self {p k : Nat} (hp : p.Prime) (hpos : 1 ≤ k) (hk : p - 1 ∣ k - 1) (x : Nat) :
    x ^ k ≡ x [MOD p] := by
  have : Fact p.Prime := ⟨hp⟩
  have hfield : (x : ZMod p) ^ k = x := by
    obtain ⟨j, hj⟩ := hk
    have hsplit : k = (p - 1) * j + 1 := by omega
    by_cases hx : (x : ZMod p) = 0
    · rw [hx, zero_pow (by omega)]
    · rw [hsplit, pow_succ, pow_mul, ZMod.pow_card_sub_one_eq_one hx, one_pow, one_mul]
  apply (ZMod.natCast_eq_natCast_iff _ _ _).mp
  rw [Nat.cast_pow, hfield]

/-- Raising to exponents that are inverse to each other gives the number back. -/
theorem pow_pow_modEq_self {p q e d : Nat} (hp : p.Prime) (hq : q.Prime) (hne : p ≠ q)
    (hpos : 1 ≤ e * d) (hinv : (p - 1) * (q - 1) ∣ e * d - 1) (x : Nat) :
    (x ^ e % (p * q)) ^ d % (p * q) = x % (p * q) := by
  have hmodp := pow_modEq_self hp hpos (dvd_of_mul_right_dvd hinv) x
  have hmodq := pow_modEq_self hq hpos (dvd_of_mul_left_dvd hinv) x
  have hcop : p.Coprime q := (Nat.coprime_primes hp hq).mpr hne
  have hboth := (Nat.modEq_and_modEq_iff_modEq_mul hcop).mp ⟨hmodp, hmodq⟩
  rw [← Nat.pow_mod, ← pow_mul]
  exact hboth

end NetCpp.Library.ModularPower
