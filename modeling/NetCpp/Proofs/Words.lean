import NetCpp.Library.Runs
import NetCpp.Memory

namespace NetCpp.Proofs
open Library

section
variable {p : Bytes}

theorem readBytes_eq_ok {n : Nat} {r : Bytes × Bytes} :
    readBytes n p = .ok r ↔ n ≤ p.length ∧ r = (p.take n, p.drop n) := by
  rw [readBytes]
  split
  · simp
    omega
  · simp [eq_comm]
    omega

/-- Reading some bytes and taking a value from them. -/
theorem read_eq_ok {α : Type} {n : Nat} {f : Bytes → α} {r : α × Bytes} :
    (readBytes n p >>= fun s => pure (f s.1, s.2)) = .ok r ↔ n ≤ p.length ∧
    r = (f (p.take n), p.drop n) := by
  constructor
  · intro h
    obtain ⟨s, hs, hr⟩ := bind_ok h
    obtain ⟨hlen, rfl⟩ := readBytes_eq_ok.mp hs
    exact ⟨hlen, (Except.ok.inj hr).symm⟩
  · rintro ⟨hlen, rfl⟩
    rw [readBytes_eq_ok.mpr ⟨hlen, rfl⟩]
    rfl

theorem readWord16_eq_ok {r : UInt16 × Bytes} :
    readWord16 p = .ok r ↔ 2 ≤ p.length ∧ r = (ofWord16 (p.take 2), p.drop 2) := read_eq_ok

theorem readWord32_eq_ok {r : UInt32 × Bytes} :
    readWord32 p = .ok r ↔ 4 ≤ p.length ∧ r = (ofWord32 (p.take 4), p.drop 4) := read_eq_ok

theorem readWord64_eq_ok {r : UInt64 × Bytes} :
    readWord64 p = .ok r ↔ 8 ≤ p.length ∧ r = (ofWord64 (p.take 8), p.drop 8) := read_eq_ok

theorem readWord16_drop {k : Nat} (h : k + 2 ≤ p.length) :
    readWord16 (p.drop k) = .ok (ofWord16 ((p.drop k).take 2), p.drop (k + 2)) := by
  rw [← List.drop_drop]
  exact readWord16_eq_ok.mpr ⟨by rw [List.length_drop]; omega, rfl⟩

theorem readWord32_drop {k : Nat} (h : k + 4 ≤ p.length) :
    readWord32 (p.drop k) = .ok (ofWord32 ((p.drop k).take 4), p.drop (k + 4)) := by
  rw [← List.drop_drop]
  exact readWord32_eq_ok.mpr ⟨by rw [List.length_drop]; omega, rfl⟩

theorem readWord64_drop {k : Nat} (h : k + 8 ≤ p.length) :
    readWord64 (p.drop k) = .ok (ofWord64 ((p.drop k).take 8), p.drop (k + 8)) := by
  rw [← List.drop_drop]
  exact readWord64_eq_ok.mpr ⟨by rw [List.length_drop]; omega, rfl⟩

end

end NetCpp.Proofs
