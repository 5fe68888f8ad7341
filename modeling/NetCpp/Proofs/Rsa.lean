import NetCpp.Rsa
import NetCpp.Library.ModularPower

namespace NetCpp.Proofs
open Library Library.ModularPower Server

/-- The cofactors of `b` on the way: `y` goes with `gcd` and `v` with `a`. They have opposite
signs, which keeps both of them small. -/
structure Cofactors (a₀ b a gcd y v : Int) : Prop where
  nonneg : 0 ≤ a
  pos : 0 < gcd
  coprime : Int.gcd a gcd = 1
  left : a₀ ∣ a - v * b
  right : a₀ ∣ gcd - y * b
  signs : y * v ≤ 0
  size : gcd * |v| + a * |y| = a₀
  bound : |y| ≤ a₀

theorem abs_sub_mul {y v q : Int} (hsigns : y * v ≤ 0) (hq : 0 ≤ q) :
    |y - v * q| = |y| + q * |v| := by
  rcases le_total 0 y with hy | hy <;> rcases le_total 0 v with hv | hv
  · have hz : y = 0 ∨ v = 0 := by
      have := mul_nonneg hy hv
      exact mul_eq_zero.mp (le_antisymm hsigns this)
    rcases hz with rfl | rfl
    · simp [abs_mul, abs_of_nonneg hq, mul_comm]
    · simp
  · have hneg : v * q ≤ 0 := mul_nonpos_of_nonpos_of_nonneg hv hq
    rw [abs_of_nonneg (by omega), abs_of_nonneg hy, abs_of_nonpos hv]
    ring
  · have hpos : 0 ≤ v * q := mul_nonneg hv hq
    rw [abs_of_nonpos (by omega), abs_of_nonpos hy, abs_of_nonneg hv]
    ring
  · have hz : y = 0 ∨ v = 0 := by
      have := mul_nonneg_of_nonpos_of_nonpos hy hv
      exact mul_eq_zero.mp (le_antisymm hsigns this)
    rcases hz with rfl | rfl
    · simp [abs_mul, abs_of_nonneg hq, mul_comm]
    · simp

/-- One round of the loop. -/
theorem Cofactors.step {a₀ b a gcd y v : Int} (h : Cofactors a₀ b a gcd y v) (ha : a ≠ 0) :
    Cofactors a₀ b (gcd % a) a v (y - v * (gcd / a)) := by
  have hpos : 0 < a := lt_of_le_of_ne h.nonneg (Ne.symm ha)
  have hq : 0 ≤ gcd / a := Int.ediv_nonneg h.pos.le h.nonneg
  have hdiv : gcd % a = gcd - a * (gcd / a) := Int.emod_def gcd a
  have habs := abs_sub_mul h.signs hq
  refine ⟨Int.emod_nonneg gcd ha, hpos, ?_, ?_, h.left, ?_, ?_, ?_⟩
  · rw [Int.gcd_emod, Int.gcd_comm]
    exact h.coprime
  · have hcomb : gcd % a - (y - v * (gcd / a)) * b =
        (gcd - y * b) - (gcd / a) * (a - v * b) := by
      rw [hdiv]
      ring
    rw [hcomb]
    exact dvd_sub h.right (Dvd.dvd.mul_left h.left _)
  · have hsquare : 0 ≤ v * v * (gcd / a) := mul_nonneg (mul_self_nonneg v) hq
    have hsigns := h.signs
    calc v * (y - v * (gcd / a)) = y * v - v * v * (gcd / a) := by ring
      _ ≤ 0 := by omega
  · rw [habs, hdiv]
    calc a * (|y| + gcd / a * |v|) + (gcd - a * (gcd / a)) * |v| = gcd * |v| + a * |y| := by ring
      _ = a₀ := h.size
  · have hy : 0 ≤ a * |y| := mul_nonneg h.nonneg (abs_nonneg y)
    have hv : |v| ≤ gcd * |v| := le_mul_of_one_le_left (abs_nonneg v) h.pos
    have hsize := h.size
    omega

theorem extEuclidLoop_inverse {a₀ b a gcd y v : Int} (h : Cofactors a₀ b a gcd y v) (x u : Int) :
    a₀ ∣ 1 - Rsa.extEuclidLoop a gcd x y u v * b ∧ |Rsa.extEuclidLoop a gcd x y u v| ≤ a₀ := by
  induction hn : a.natAbs using Nat.strong_induction_on generalizing a gcd x y u v with
  | _ n ih =>
    rw [Rsa.extEuclidLoop]
    by_cases ha : a = 0
    · rw [if_pos ha]
      have hone : gcd = 1 := by
        have hcop := h.coprime
        have hpos := h.pos
        rw [ha, Int.gcd_zero_left] at hcop
        omega
      refine ⟨?_, h.bound⟩
      have hright := h.right
      rwa [hone] at hright
    · rw [if_neg ha, Int.tmod_eq_emod_of_nonneg h.pos.le, Int.tdiv_eq_ediv_of_nonneg h.pos.le]
      have hstep := h.step ha
      have hless : (gcd % a).natAbs < n := by
        have := Int.emod_lt_of_pos gcd (lt_of_le_of_ne h.nonneg (Ne.symm ha))
        have := hstep.nonneg
        omega
      exact ih _ hless hstep _ _ rfl

theorem extEuclid_inverse {a b : Int} (ha : 0 < a) (hb : 0 < b) (hcop : Int.gcd a b = 1) :
    a ∣ 1 - Rsa.extEuclid a b * b ∧ |Rsa.extEuclid a b| ≤ a := by
  have hstart : Cofactors a b a b 1 0 :=
    ⟨ha.le, hb, hcop, by simp, by simp, by simp, by simp, by
      rw [abs_one]
      exact ha⟩
  exact extEuclidLoop_inverse hstart 0 1

theorem gcd_eq {a b : Int} (ha : 0 ≤ a) (hb : 0 ≤ b) : Rsa.gcd a b = Int.gcd a b := by
  induction hn : a.natAbs using Nat.strong_induction_on generalizing a b with
  | _ n ih =>
    rw [Rsa.gcd]
    by_cases hz : a = 0
    · simp [hz, abs_of_nonneg hb]
    · have hpos : 0 < a := lt_of_le_of_ne ha (Ne.symm hz)
      have hless := Int.emod_lt_of_pos b hpos
      have hnonneg := Int.emod_nonneg b hz
      rw [if_neg hz, Int.tmod_eq_emod_of_nonneg hb, ih _ (by omega) hnonneg ha rfl, Int.gcd_emod,
        Int.gcd_comm]

theorem makeNonNegative_ok {d phi : Int} (hphi : 0 < phi) (hd : |d| ≤ phi) :
    ∃ n : Nat, Rsa.makeNonNegative d phi = .ok n ∧ (n : Int) ≤ phi ∧ phi ∣ n - d := by
  have hbounds := abs_le.mp hd
  by_cases hneg : 0 ≤ d
  · refine ⟨d.toNat, ?_, by omega, ?_⟩
    · rw [Rsa.makeNonNegative, if_pos hneg, Int.toNat_of_nonneg hneg]
    · rw [Int.toNat_of_nonneg hneg, sub_self]
      exact dvd_zero phi
  · refine ⟨(d + phi).toNat, ?_, by omega, ?_⟩
    · rw [Rsa.makeNonNegative, if_neg hneg, if_neg (by omega), Rsa.makeNonNegative,
        if_pos (by omega), Int.toNat_of_nonneg (by omega)]
    · rw [Int.toNat_of_nonneg (by omega), add_sub_cancel_left]

theorem ofInt_natCast {n : Nat} : UInt64.ofInt n = UInt64.ofNat n := by
  have hlow : ((n : Int) % 2 ^ 64).toNat = n % 2 ^ 64 := by omega
  apply UInt64.toNat_inj.mp
  rw [UInt64.ofInt, hlow, UInt64.toNat_ofNat', UInt64.toNat_ofNat', Nat.mod_mod]

/-- The exponents of a key pair are inverse to each other modulo `phi_max`. -/
theorem genKeys_ok {p q : Nat} (hp : Rsa.PrimeSource p) (hq : Rsa.PrimeSource q) (hne : p ≠ q)
    (hgcd : Nat.gcd ((p - 1) * (q - 1)) 257 = 1) : ∃ d : Nat,
    Rsa.genKeys p q = .ok (some (⟨.ofNat (p * q), 257⟩, ⟨.ofNat (p * q), .ofNat d⟩)) ∧
      d < 2 ^ 64 ∧ 1 ≤ 257 * d ∧ (p - 1) * (q - 1) ∣ 257 * d - 1 := by
  obtain ⟨-, hp1, hp2⟩ := hp
  obtain ⟨-, hq1, hq2⟩ := hq
  have hphi : ((p : Int) - 1) * (q - 1) = ((p - 1) * (q - 1) : Nat) := by
    push_cast [Nat.cast_sub (by omega : 1 ≤ p), Nat.cast_sub (by omega : 1 ≤ q)]
    rfl
  have hlarge : 1 < (p - 1) * (q - 1) := by
    have := Nat.mul_le_mul (by omega : 10006 ≤ p - 1) (by omega : 10006 ≤ q - 1)
    omega
  have hsmall : (p - 1) * (q - 1) ≤ 104728 * 104728 := Nat.mul_le_mul (by omega) (by omega)
  have hcop : Int.gcd (((p - 1) * (q - 1) : Nat) : Int) 257 = 1 := by
    exact_mod_cast hgcd
  generalize (p - 1) * (q - 1) = phi at hphi hlarge hsmall hcop ⊢
  obtain ⟨hinv, habs⟩ :=
    extEuclid_inverse (by omega : (0 : Int) < phi) (by omega : (0 : Int) < 257) hcop
  obtain ⟨d, hd, hle, hsame⟩ := makeNonNegative_ok (by omega : (0 : Int) < phi) habs
  have hdvd : (phi : Int) ∣ 257 * d - 1 := by
    have hsum := dvd_sub (Dvd.dvd.mul_right hsame 257) hinv
    have heq : (d - Rsa.extEuclid phi 257) * 257 - (1 - Rsa.extEuclid phi 257 * 257) =
        257 * d - 1 := by
      ring
    rwa [heq] at hsum
  have hpos : 1 ≤ 257 * d := by
    rcases Nat.eq_zero_or_pos d with rfl | hd0
    · have hone := Int.le_of_dvd (by omega) ((dvd_neg).mpr hdvd)
      omega
    · omega
  refine ⟨d, ?_, by omega, hpos, ?_⟩
  · have hgcd' : Rsa.gcd phi 257 = 1 := by
      rw [gcd_eq (by omega) (by omega), hcop]
      rfl
    have he : (2 : Int) ^ 8 + 1 = 257 := by norm_num
    have hkeep : ¬(¬((p : Int) ≠ 0 ∧ (q : Int) ≠ 0) ∨ (p : Int) = q ∨ Rsa.gcd phi 257 ≠ 1) := by
      rw [hgcd']
      omega
    simp only [Rsa.genKeys, he, hphi]
    rw [if_neg hkeep, hd, ← Nat.cast_mul, ofInt_natCast]
    simp only [bind, Except.bind, ofInt_natCast]
    rfl
  · zify [hpos]
    exact hdvd

theorem modExp_one {m : UInt64} (hm : m ≠ 0) (b : UInt64) : Rsa.modExp b 1 m = .ok (b % m) := by
  rw [Rsa.modExp, if_neg hm]
  rfl

theorem modExp_even {b m : UInt64} {e : Nat} (hm : m ≠ 0) (he : 0 < e) :
    Rsa.modExp b (2 * e) m = (Rsa.modExp (b % m * (b % m) % m) e m).map (· % m) := by
  rw [Rsa.modExp, if_neg hm]
  simp only [if_neg (by omega : ¬2 * e = 0), if_neg (by omega : ¬2 * e = 1), Nat.mul_mod_right,
    if_true, Nat.mul_div_cancel_left e (by omega : 0 < 2)]
  cases Rsa.modExp (b % m * (b % m) % m) e m <;> rfl

theorem modExp_odd {b m : UInt64} {e : Nat} (hm : m ≠ 0) (he : 0 < e) :
    Rsa.modExp b (2 * e + 1) m = (Rsa.modExp (b % m) (2 * e) m).map (b % m * · % m) := by
  rw [Rsa.modExp, if_neg hm]
  simp only [if_neg (by omega : ¬2 * e + 1 = 0), if_neg (by omega : ¬2 * e + 1 = 1),
    if_neg (by omega : ¬(2 * e + 1) % 2 = 0), Nat.add_sub_cancel]
  cases Rsa.modExp (b % m) (2 * e) m <;> rfl

/-- The exponents that `rsa_modExp` goes through. -/
theorem exponent_induction {P : Nat → Prop} (hone : P 1) (heven : ∀ e, 0 < e → P e → P (2 * e))
    (hodd : ∀ e, 0 < e → P (2 * e) → P (2 * e + 1)) {e : Nat} (he : 0 < e) : P e := by
  induction e using Nat.strong_induction_on with
  | _ e ih =>
    rcases Nat.even_or_odd' e with ⟨k, rfl | rfl⟩
    · exact heven k (by omega) (ih k (by omega) (by omega))
    · rcases Nat.eq_zero_or_pos k with rfl | hk
      · exact hone
      · exact hodd k hk (ih (2 * k) (by omega) (by omega))

theorem toNat_ofNat_mod {m : UInt64} (hm : 0 < m.toNat) (n : Nat) :
    (UInt64.ofNat (n % m.toNat)).toNat = n % m.toNat := by
  rw [UInt64.toNat_ofNat']
  exact Nat.mod_eq_of_lt (lt_trans (Nat.mod_lt n hm) m.toNat_lt)

/-- Two residues of a modulus of at most 32 bits have a product of at most 64 bits. -/
theorem toNat_mul_mod {x y m : UInt64} (hle : m.toNat ≤ 2 ^ 32)
    (hx : x.toNat < m.toNat) (hy : y.toNat < m.toNat) :
    (x * y % m).toNat = x.toNat * y.toNat % m.toNat := by
  have hlt : x.toNat * y.toNat < 2 ^ 64 :=
    lt_of_lt_of_le (Nat.mul_lt_mul'' (lt_of_lt_of_le hx hle) (lt_of_lt_of_le hy hle)) (by norm_num)
  rw [UInt64.toNat_mod, UInt64.toNat_mul, Nat.mod_eq_of_lt hlt]

theorem modExp_ok {m : UInt64} {e : Nat} (hpos : 0 < m.toNat) (hle : m.toNat ≤ 2 ^ 32) (he : 0 < e)
    (b : UInt64) : Rsa.modExp b e m = .ok (.ofNat (b.toNat ^ e % m.toNat)) := by
  have hm : m ≠ 0 := by
    rintro rfl
    exact absurd hpos (by decide)
  have hres : ∀ x : UInt64, (x % m).toNat = x.toNat % m.toNat := fun x => UInt64.toNat_mod x m
  have hlt : ∀ x : UInt64, (x % m).toNat < m.toNat := by
    intro x
    rw [hres]
    exact Nat.mod_lt _ hpos
  revert b
  refine exponent_induction
    (P := fun e => ∀ b, Rsa.modExp b e m = .ok (.ofNat (b.toNat ^ e % m.toNat)))
    ?_ ?_ ?_ he
  · intro b
    rw [modExp_one hm, pow_one, ← hres, UInt64.ofNat_toNat]
  · intro e he ih b
    have hpow := ModularPower.pow_even (e := 2 * e) b.toNat m.toNat (by omega)
    rw [Nat.mul_div_cancel_left e (by omega)] at hpow
    rw [modExp_even hm he, ih, toNat_mul_mod hle (hlt b) (hlt b), hres, hpow]
    apply congrArg Except.ok
    apply UInt64.toNat_inj.mp
    rw [hres, toNat_ofNat_mod hpos, Nat.mod_mod]
  · intro e he ih b
    have hpow := ModularPower.pow_odd (e := 2 * e + 1) b.toNat m.toNat (by omega)
    rw [Nat.add_sub_cancel] at hpow
    have hrest : (UInt64.ofNat ((b.toNat % m.toNat) ^ (2 * e) % m.toNat)).toNat < m.toNat := by
      rw [toNat_ofNat_mod hpos]
      exact Nat.mod_lt _ hpos
    rw [modExp_odd hm he, ih, hres]
    apply congrArg Except.ok
    apply UInt64.toNat_inj.mp
    rw [toNat_mul_mod hle (hlt b) hrest, toNat_ofNat_mod hpos, toNat_ofNat_mod hpos, hres, hpow]

theorem modExp_zero {m : UInt64} {e : Nat} (hm : m ≠ 0) (he : 0 < e) :
    Rsa.modExp 0 e m = .ok 0 := by
  refine exponent_induction (P := fun e => Rsa.modExp 0 e m = .ok 0) ?_ ?_ ?_ he
  · rw [modExp_one hm, UInt64.zero_mod]
  · intro e he ih
    rw [modExp_even hm he, UInt64.zero_mod, UInt64.zero_mul, UInt64.zero_mod, ih]
    simp [Except.map]
  · intro e he ih
    rw [modExp_odd hm he, UInt64.zero_mod, ih]
    simp [Except.map]

/-- Squares that do not wrap around are passed on as they are. -/
theorem modExp_square_zero {b m : UInt64} {e : Nat} (hm : m ≠ 0) (he : 0 < e) (hb : b < m)
    (hsquare : b * b < m) (h : Rsa.modExp (b * b) e m = .ok 0) :
    Rsa.modExp b (2 * e) m = .ok 0 := by
  rw [modExp_even hm he, UInt64.mod_eq_of_lt hb, UInt64.mod_eq_of_lt hsquare, h]
  simp [Except.map]

/-- The square of `2 ^ 32` wraps around to 0, and 0 it stays. -/
theorem modExp_two {m : UInt64} (hm : 2 ^ 32 < m.toNat) : Rsa.modExp 2 257 m = .ok 0 := by
  have hm0 : m ≠ 0 := by
    rintro rfl
    exact absurd hm (by decide)
  have hlt : ∀ x : UInt64, x.toNat ≤ 2 ^ 32 → x < m :=
    fun x hx => UInt64.lt_iff_toNat_lt.mpr (lt_of_le_of_lt hx hm)
  have h32 : Rsa.modExp 4294967296 (2 * 4) m = .ok 0 := by
    have hself : 4294967296 % m = 4294967296 := UInt64.mod_eq_of_lt (hlt 4294967296 (by decide))
    have hwrap : (4294967296 * 4294967296 : UInt64) = 0 := by decide
    rw [modExp_even hm0 (by omega), hself, hwrap, UInt64.zero_mod, modExp_zero hm0 (by omega)]
    simp [Except.map]
  have h16 : Rsa.modExp 65536 (2 * 8) m = .ok 0 :=
    modExp_square_zero hm0 (by omega) (hlt _ (by decide)) (hlt _ (by decide)) h32
  have h8 : Rsa.modExp 256 (2 * 16) m = .ok 0 :=
    modExp_square_zero hm0 (by omega) (hlt _ (by decide)) (hlt _ (by decide)) h16
  have h4 : Rsa.modExp 16 (2 * 32) m = .ok 0 :=
    modExp_square_zero hm0 (by omega) (hlt _ (by decide)) (hlt _ (by decide)) h8
  have h2 : Rsa.modExp 4 (2 * 64) m = .ok 0 :=
    modExp_square_zero hm0 (by omega) (hlt _ (by decide)) (hlt _ (by decide)) h4
  have h1 : Rsa.modExp 2 (2 * 128) m = .ok 0 :=
    modExp_square_zero hm0 (by omega) (hlt _ (by decide)) (hlt _ (by decide)) h2
  have h257 := @modExp_odd 2 m 128 hm0 (by omega)
  rw [UInt64.mod_eq_of_lt (hlt 2 (by decide)), h1] at h257
  simpa [Except.map] using h257

theorem encrypt_ok {pub : PublicKeyClass} {message : Bytes} {size : Nat} {f : Byte → UInt64}
    (hsize : size ≤ message.length)
    (h : ∀ c ∈ message.take size,
      Rsa.modExp c.toUInt64 pub.exponent.toNat pub.modulus = .ok (f c)) :
    Rsa.encrypt message size pub = .ok (((message.take size).map f).flatMap word64) := by
  rw [Rsa.encrypt, readBytes, if_neg (by omega)]
  simp only [bind, Except.bind, mapM_ok h]
  rfl

theorem decryptWords_ok {priv : PrivateKeyClass} {cs : List UInt64} {f : UInt64 → UInt64}
    (h : ∀ c ∈ cs, Rsa.modExp c priv.exponent.toNat priv.modulus = .ok (f c)) (rest : Bytes) :
    Rsa.decryptWords priv cs.length (cs.flatMap word64 ++ rest) =
      .ok (cs.map (fun c => (f c).toUInt8)) := by
  induction cs with
  | nil => rfl
  | cons c cs ih =>
    have hc := h c List.mem_cons_self
    have hcs := ih (fun x hx => h x (List.mem_cons_of_mem c hx))
    rw [List.flatMap_cons, List.append_assoc, List.length_cons, Rsa.decryptWords, readWord64_append]
    simp only [bind, Except.bind, hc, hcs]
    rfl

/-- Encrypting and decrypting, number by number. -/
theorem decryptRSARawMsg_encryptRSARawMsg_ok {pub : PublicKeyClass} {priv : PrivateKeyClass}
    {rdt : RawData} {f : Byte → UInt64} {g : UInt64 → UInt64} (hsize : rdt.size ≤ rdt.data.length)
    (henc : ∀ c, Rsa.modExp c.toUInt64 pub.exponent.toNat pub.modulus = .ok (f c))
    (hdec : ∀ c, Rsa.modExp c priv.exponent.toNat priv.modulus = .ok (g c)) :
    ∃ sent received, encryptRSARawMsg rdt pub = .ok sent ∧
    decryptRSARawMsg sent priv = .ok received ∧
      received.data = (rdt.data.take rdt.size).map (fun c => (g (f c)).toUInt8) ∧
      received.size = rdt.size := by
  have hsent : encryptRSARawMsg rdt pub = .ok { rdt with
      data := ((rdt.data.take rdt.size).map f).flatMap word64, size := rdt.size * 8 } := by
    rw [encryptRSARawMsg, encrypt_ok hsize (fun c _ => henc c)]
    rfl
  have hlen : ((rdt.data.take rdt.size).map f).length = rdt.size := by
    rw [List.length_map, List.length_take]
    omega
  have hall : ∀ c ∈ (rdt.data.take rdt.size).map f,
      Rsa.modExp c priv.exponent.toNat priv.modulus = .ok (g c) := fun c _ => hdec c
  have hwords := decryptWords_ok hall []
  rw [hlen, List.append_nil, List.map_map] at hwords
  have height : rdt.size * 8 / 8 = rdt.size := Nat.mul_div_cancel rdt.size (by omega)
  have hreceived : decryptRSARawMsg { rdt with
      data := ((rdt.data.take rdt.size).map f).flatMap word64, size := rdt.size * 8 } priv =
      .ok { rdt with
        data := (rdt.data.take rdt.size).map (fun c => (g (f c)).toUInt8)
        size := rdt.size * 8 / 8 } := by
    simp only [decryptRSARawMsg, Rsa.decrypt, Nat.mul_mod_left, height, hwords]
    rfl
  exact ⟨_, _, hsent, hreceived, rfl, height⟩

/-- Whatever the block holds, its first `size` bytes come back. -/
def Lossless (pub : PublicKeyClass) (priv : PrivateKeyClass) : Prop :=
  ∀ rdt : RawData, rdt.size ≤ rdt.data.length →
    ∃ sent received, encryptRSARawMsg rdt pub = .ok sent ∧
      decryptRSARawMsg sent priv = .ok received ∧
      received.data = rdt.data.take rdt.size ∧ received.size = rdt.size

/-- The number 2 is encrypted as 0, which is decrypted as 0. -/
theorem not_lossless {pub : PublicKeyClass} {priv : PrivateKeyClass} (hpub : pub.exponent = 257)
    (hmod : pub.modulus = priv.modulus) (hlarge : 2 ^ 32 < pub.modulus.toNat)
    (hexp : 0 < priv.exponent.toNat) : ¬Lossless pub priv := by
  intro h
  have hm0 : priv.modulus ≠ 0 := by
    intro hz
    rw [hmod, hz] at hlarge
    exact absurd hlarge (by decide)
  obtain ⟨sent, received, hsent, hreceived, hdata, -⟩ :=
    h ⟨[2], 1, 0, none, none, none, [], 0, none⟩ (by simp)
  have henc : Rsa.encrypt [2] 1 pub = .ok (word64 0) := by
    have htwo : ∀ c ∈ [(2 : Byte)].take 1,
        Rsa.modExp c.toUInt64 pub.exponent.toNat pub.modulus = .ok 0 := by
      intro c hc
      obtain rfl : c = 2 := by simpa using hc
      rw [hpub]
      exact modExp_two hlarge
    exact encrypt_ok (f := fun _ => 0) (by simp) htwo
  have hdec : Rsa.decrypt (word64 0) 8 priv = .ok [0] := by
    have hzero : ∀ c ∈ [(0 : UInt64)], Rsa.modExp c priv.exponent.toNat priv.modulus = .ok 0 := by
      intro c hc
      obtain rfl := List.mem_singleton.mp hc
      exact modExp_zero hm0 hexp
    exact decryptWords_ok (f := fun _ => 0) hzero []
  rw [encryptRSARawMsg] at hsent
  simp only [henc, bind, Except.bind] at hsent
  obtain rfl := Except.ok.inj hsent
  rw [decryptRSARawMsg] at hreceived
  simp only [hdec, bind, Except.bind] at hreceived
  obtain rfl := Except.ok.inj hreceived
  exact absurd hdata (by decide)

theorem lossless_of_le {p q d : Nat} (hp : Rsa.PrimeSource p) (hq : Rsa.PrimeSource q) (hne : p ≠ q)
    (hd : d < 2 ^ 64) (hpos : 1 ≤ 257 * d) (hinv : (p - 1) * (q - 1) ∣ 257 * d - 1)
    (hle : p * q ≤ 2 ^ 32) :
    Lossless ⟨.ofNat (p * q), 257⟩ ⟨.ofNat (p * q), .ofNat d⟩ := by
  intro rdt hsize
  have hlarge : 10007 * 10007 ≤ p * q := Nat.mul_le_mul hp.2.1 hq.2.1
  have hm : (UInt64.ofNat (p * q)).toNat = p * q :=
    UInt64.toNat_ofNat_of_lt' (show p * q < 2 ^ 64 by omega)
  have hexp : (UInt64.ofNat d).toNat = d := UInt64.toNat_ofNat_of_lt' hd
  have hpower : ∀ (e : Nat) (b : UInt64), 0 < e →
      Rsa.modExp b e (.ofNat (p * q)) = .ok (.ofNat (b.toNat ^ e % (p * q))) := by
    intro e b he
    have hok := @modExp_ok (.ofNat (p * q)) e (by omega) (by omega) he b
    rwa [hm] at hok
  have hdec : ∀ c : UInt64, Rsa.modExp c (UInt64.ofNat d).toNat (.ofNat (p * q)) =
      .ok (.ofNat (c.toNat ^ d % (p * q))) := by
    intro c
    rw [hexp]
    exact hpower d c (by omega)
  obtain ⟨sent, received, hsent, hreceived, hdata, hsize'⟩ :=
    @decryptRSARawMsg_encryptRSARawMsg_ok ⟨.ofNat (p * q), 257⟩
      ⟨.ofNat (p * q), .ofNat d⟩ rdt _ _ hsize
      (fun c => hpower 257 c.toUInt64 (by omega)) hdec
  refine ⟨sent, received, hsent, hreceived, hdata.trans ?_, hsize'⟩
  refine (List.map_congr_left (fun c _ => ?_)).trans (List.map_id _)
  have hc := c.toNat_lt
  have hback := ModularPower.pow_pow_modEq_self hp.1 hq.1 hne hpos hinv c.toNat
  rw [Nat.mod_eq_of_lt (by omega : c.toNat < p * q)] at hback
  have hcipher := toNat_ofNat_mod (m := .ofNat (p * q)) (by omega) (c.toNat ^ 257)
  rw [hm] at hcipher
  apply UInt8.toNat_inj.mp
  simp only [UInt8.toNat_toUInt64, hcipher, hback]
  simp

theorem lossless_iff {p q : Nat} (hp : Rsa.PrimeSource p) (hq : Rsa.PrimeSource q) (hne : p ≠ q)
    (hgcd : Nat.gcd ((p - 1) * (q - 1)) 257 = 1) : ∃ pub priv,
    Rsa.genKeys p q = .ok (some (pub, priv)) ∧ (Lossless pub priv ↔ p * q ≤ 2 ^ 32) := by
  obtain ⟨d, hkeys, hd, hpos, hinv⟩ := genKeys_ok hp hq hne hgcd
  refine ⟨_, _, hkeys, ?_, lossless_of_le hp hq hne hd hpos hinv⟩
  intro h
  by_contra hlarge
  have hsmall : p * q ≤ 104729 * 104729 := Nat.mul_le_mul hp.2.2 hq.2.2
  have hm : (UInt64.ofNat (p * q)).toNat = p * q :=
    UInt64.toNat_ofNat_of_lt' (show p * q < 2 ^ 64 by omega)
  have hexp : (UInt64.ofNat d).toNat = d := UInt64.toNat_ofNat_of_lt' hd
  exact not_lossless rfl rfl (by rw [hm]; omega) (by rw [hexp]; omega) h

theorem lossless_iff_smallest : ∃ pub priv,
    Rsa.genKeys (10007 : Nat) (10009 : Nat) = .ok (some (pub, priv)) ∧
      (Lossless pub priv ↔ 10007 * 10009 ≤ 2 ^ 32) :=
  lossless_iff (by norm_num [Rsa.PrimeSource]) (by norm_num [Rsa.PrimeSource]) (by norm_num)
    (by norm_num)

/-- The two largest primes of the list: the byte 2 comes back as 0. -/
theorem not_lossless_largest : Rsa.PrimeSource 104723 ∧ Rsa.PrimeSource 104729 ∧
    Nat.gcd ((104723 - 1) * (104729 - 1)) 257 = 1 ∧
    ∃ pub priv sent received, Rsa.genKeys 104723 104729 = .ok (some (pub, priv)) ∧
      encryptRSARawMsg { data := [2], size := 1, rId := 0 } pub = .ok sent ∧
      decryptRSARawMsg sent priv = .ok received ∧ received.data = [0] := by
  refine ⟨by norm_num [Rsa.PrimeSource], by norm_num [Rsa.PrimeSource], by norm_num,
    ⟨10967535067, 257⟩, ⟨10967535067, 9985813985⟩,
    { data := [0, 0, 0, 0, 0, 0, 0, 0], size := 8, rId := 0 }, { data := [0], size := 1, rId := 0 },
    ?_, ?_, ?_, rfl⟩
  · decide +kernel
  · decide +kernel
  · decide +kernel

end NetCpp.Proofs
