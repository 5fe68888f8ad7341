import Mathlib

namespace NetCpp.Library.LittleEndian

/-- The low `w` bytes of a number, the least significant first. -/
def bytes : Nat → Nat → List UInt8
  | 0, _ => []
  | w + 1, n => UInt8.ofNat n :: bytes w (n / 256)

/-- The number that bytes stand for. -/
def value : List UInt8 → Nat
  | [] => 0
  | b :: s => b.toNat + 256 * value s

@[simp] theorem length_bytes (w n : Nat) : (bytes w n).length = w := by
  induction w generalizing n with
  | zero => rfl
  | succ w ih => simp [bytes, ih]

theorem value_bytes (w n : Nat) : value (bytes w n) = n % 256 ^ w := by
  induction w generalizing n with
  | zero => simp [bytes, value, Nat.mod_one]
  | succ w ih =>
    have hlow : (UInt8.ofNat n).toNat = n % 256 := UInt8.toNat_ofNat'
    rw [bytes, value, ih, hlow, pow_succ', Nat.mod_mul]

theorem value_bytes_of_lt {w n : Nat} (h : n < 256 ^ w) : value (bytes w n) = n := by
  rw [value_bytes, Nat.mod_eq_of_lt h]

theorem value_lt (s : List UInt8) : value s < 256 ^ s.length := by
  induction s with
  | nil => simp [value]
  | cons b s ih =>
    have hb := b.toNat_lt
    simp only [value, List.length_cons, pow_succ']
    omega

theorem bytes_value (s : List UInt8) : bytes s.length (value s) = s := by
  induction s with
  | nil => rfl
  | cons b s ih =>
    have hb := b.toNat_lt
    have hlow : UInt8.ofNat (b.toNat + 256 * value s) = b := by
      apply UInt8.toNat_inj.mp
      rw [UInt8.toNat_ofNat']
      omega
    have hhigh : (b.toNat + 256 * value s) / 256 = value s := by omega
    rw [value, List.length_cons, bytes, hlow, hhigh, ih]

end NetCpp.Library.LittleEndian
