import NetCpp.Aes
import NetCpp.Library.BlockModes
import NetCpp.Library.XorMaps

namespace NetCpp.Proofs
open Library Aes

theorem get2_set2 (s : State) (i j i' j' : Fin 4) (b : Byte) :
    (s.set2 i j b).get2 i' j' = if i = i' ∧ j = j' then b else s.get2 i' j' := by
  have hindex : 4 * i.val + j.val = 4 * i'.val + j'.val ↔ i = i' ∧ j = j' := by
    constructor
    · intro h
      constructor <;> omega
    · rintro ⟨rfl, rfl⟩
      rfl
  simp only [State.set2, State.get2, Vector.getElem_set, hindex]

theorem state_ext {s t : State} (h : ∀ i j, s.get2 i j = t.get2 i j) : s = t := by
  apply Vector.ext
  intro k hk
  have hk' := h ⟨k / 4, by omega⟩ ⟨k % 4, by omega⟩
  simp only [State.get2, Nat.div_add_mod] at hk'
  exact hk'

theorem getSBoxInvert_getSBoxValue (b : Byte) : getSBoxInvert (getSBoxValue b) = b := by
  have hall : sbox.toList.map getSBoxInvert = (List.range 256).map UInt8.ofNat := by decide +kernel
  have hb := congrArg (fun s => s[b.toNat]?) hall
  simpa [getSBoxValue, Vector.get, b.toNat_lt] using hb

/-- A table of 256 different bytes has them all. -/
theorem getSBoxValue_getSBoxInvert (b : Byte) : getSBoxValue (getSBoxInvert b) = b := by
  have hinj : Function.Injective getSBoxValue :=
    Function.LeftInverse.injective getSBoxInvert_getSBoxValue
  obtain ⟨a, rfl⟩ := Finite.surjective_of_injective hinj b
  rw [getSBoxInvert_getSBoxValue]

theorem invSubBytes_subBytes (s : State) : invSubBytes (subBytes s) = s := by
  ext k hk
  simp [invSubBytes, subBytes, getSBoxInvert_getSBoxValue]

theorem subBytes_invSubBytes (s : State) : subBytes (invSubBytes s) = s := by
  ext k hk
  simp [invSubBytes, subBytes, getSBoxValue_getSBoxInvert]

/-- Row `j` of the table moves by `j` columns. -/
theorem get2_shiftRows (s : State) (i j : Fin 4) : (shiftRows s).get2 i j = s.get2 (i + j) j := by
  fin_cases i <;> fin_cases j <;> simp [shiftRows, get2_set2]

theorem get2_invShiftRows (s : State) (i j : Fin 4) :
    (invShiftRows s).get2 i j = s.get2 (i - j) j := by
  fin_cases i <;> fin_cases j <;> simp [invShiftRows, get2_set2] <;> rfl

theorem invShiftRows_shiftRows (s : State) : invShiftRows (shiftRows s) = s :=
  state_ext (fun i j => by rw [get2_invShiftRows, get2_shiftRows, sub_add_cancel])

theorem shiftRows_invShiftRows (s : State) : shiftRows (invShiftRows s) = s :=
  state_ext (fun i j => by rw [get2_shiftRows, get2_invShiftRows, add_sub_cancel_right])

theorem addRoundKey_addRoundKey (r : Fin 15) (s : State) (rk : RoundKey) :
    addRoundKey r (addRoundKey r s rk) rk = s := by
  ext k hk
  simp [addRoundKey]

theorem xor_and_right (a b m : Byte) : (a ^^^ b) &&& m = (a &&& m) ^^^ (b &&& m) := by
  apply UInt8.toBitVec_inj.mp
  ext i
  simp [Bool.and_xor_distrib_right]

theorem and_one_cases (c : Byte) : c &&& (1 : Byte) = 0 ∨ c &&& (1 : Byte) = 1 := by
  have hall : ∀ n : Fin 256, UInt8.ofNat n &&& (1 : Byte) = 0 ∨
      UInt8.ofNat n &&& (1 : Byte) = 1 := by
    decide +kernel
  have hc := hall ⟨c.toNat, c.toNat_lt⟩
  simpa using hc

/-- The reduction is by the top bit alone. -/
theorem xtime_xor (a b : Byte) : xtime (a ^^^ b) = xtime a ^^^ xtime b := by
  have htop : ((a ^^^ b) >>> (7 : Byte)) &&& (1 : Byte) =
      ((a >>> (7 : Byte)) &&& (1 : Byte)) ^^^ ((b >>> (7 : Byte)) &&& (1 : Byte)) := by
    rw [UInt8.shiftRight_xor, xor_and_right]
  unfold xtime
  rw [htop, UInt8.shiftLeft_xor]
  rcases and_one_cases (a >>> (7 : Byte)) with ha | ha <;>
    rcases and_one_cases (b >>> (7 : Byte)) with hb | hb <;> rw [ha, hb]
  · simp
  · simp [UInt8.xor_assoc]
  · simp only [UInt8.zero_mul, UInt8.one_mul, UInt8.xor_zero]
    ac_rfl
  · have hcancel : (0x1b : Byte) ^^^ (0x1b ^^^ (a <<< (1 : Byte) ^^^ b <<< (1 : Byte))) =
        a <<< (1 : Byte) ^^^ b <<< (1 : Byte) := by
      rw [← UInt8.xor_assoc, UInt8.xor_self, UInt8.zero_xor]
    simp only [UInt8.xor_self, UInt8.zero_mul, UInt8.one_mul, UInt8.xor_zero]
    rw [← hcancel]
    ac_rfl

def word (s : State) (i : Fin 4) : Word := .ofFn (fun j => s.get2 i j)

theorem state_ext_word {s t : State} (h : ∀ i, word s i = word t i) : s = t := by
  apply state_ext
  intro i j
  have hij := congrArg (fun w => w[j.val]) (h i)
  simpa [word] using hij

local instance neZero_four : NeZero 4 := ⟨by decide⟩

/-- What `MixColumns` makes of a column. -/
def mixWord (w : Word) : Word :=
  let tmp := w.get 0 ^^^ w.get 1 ^^^ w.get 2 ^^^ w.get 3
  #v[w.get 0 ^^^ (xtime (w.get 0 ^^^ w.get 1) ^^^ tmp),
    w.get 1 ^^^ (xtime (w.get 1 ^^^ w.get 2) ^^^ tmp),
    w.get 2 ^^^ (xtime (w.get 2 ^^^ w.get 3) ^^^ tmp),
    w.get 3 ^^^ (xtime (w.get 3 ^^^ w.get 0) ^^^ tmp)]

def invMixWord (w : Word) : Word :=
  #v[multiply (w.get 0) 0x0e ^^^ multiply (w.get 1) 0x0b ^^^ multiply (w.get 2) 0x0d ^^^
    multiply (w.get 3) 0x09,
    multiply (w.get 0) 0x09 ^^^ multiply (w.get 1) 0x0e ^^^ multiply (w.get 2) 0x0b ^^^
      multiply (w.get 3) 0x0d,
    multiply (w.get 0) 0x0d ^^^ multiply (w.get 1) 0x09 ^^^ multiply (w.get 2) 0x0e ^^^
      multiply (w.get 3) 0x0b,
    multiply (w.get 0) 0x0b ^^^ multiply (w.get 1) 0x0d ^^^ multiply (w.get 2) 0x09 ^^^
      multiply (w.get 3) 0x0e]

theorem word_mixColumn (s : State) (i i' : Fin 4) :
    word (mixColumn s i) i' = if i = i' then mixWord (word s i) else word s i' := by
  apply Vector.ext
  intro j hj
  split
  · rename_i hi
    subst hi
    interval_cases j <;> simp [word, mixColumn, mixWord, get2_set2]
  · rename_i hi
    simp [word, mixColumn, get2_set2, hi]

theorem word_invMixColumn (s : State) (i i' : Fin 4) :
    word (invMixColumn s i) i' = if i = i' then invMixWord (word s i) else word s i' := by
  apply Vector.ext
  intro j hj
  split
  · rename_i hi
    subst hi
    interval_cases j <;> simp [word, invMixColumn, invMixWord, get2_set2]
  · rename_i hi
    simp [word, invMixColumn, get2_set2, hi]

theorem word_mixColumns (s : State) (i : Fin 4) : word (mixColumns s) i = mixWord (word s i) := by
  fin_cases i <;> simp [mixColumns, word_mixColumn]

theorem word_invMixColumns (s : State) (i : Fin 4) :
    word (invMixColumns s) i = invMixWord (word s i) := by
  fin_cases i <;> simp [invMixColumns, word_invMixColumn]

theorem bit_mul_xor (c a b : Byte) :
    (c &&& (1 : Byte)) * (a ^^^ b) = ((c &&& (1 : Byte)) * a) ^^^ ((c &&& (1 : Byte)) * b) := by
  rcases and_one_cases c with h | h <;> simp [h]

theorem multiply_xor (a b y : Byte) : multiply (a ^^^ b) y = multiply a y ^^^ multiply b y := by
  simp only [multiply, xtime_xor, bit_mul_xor]
  ac_rfl

theorem getElem_xorWord (v w : Word) (j : Nat) (hj : j < 4) : (xorWord v w)[j] = v[j] ^^^ w[j] := by
  simp [xorWord]

theorem get_xorWord (v w : Word) (i : Fin 4) : (xorWord v w).get i = v.get i ^^^ w.get i := by
  simp [xorWord, Vector.get_eq_getElem]

theorem mixWord_xorWord (v w : Word) : mixWord (xorWord v w) = xorWord (mixWord v) (mixWord w) := by
  apply Vector.ext
  intro j hj
  rw [getElem_xorWord]
  interval_cases j <;> simp only [mixWord, get_xorWord, xtime_xor] <;> simp <;> ac_rfl

theorem invMixWord_xorWord (v w : Word) :
    invMixWord (xorWord v w) = xorWord (invMixWord v) (invMixWord w) := by
  apply Vector.ext
  intro j hj
  rw [getElem_xorWord]
  interval_cases j <;> simp only [invMixWord, get_xorWord, multiply_xor] <;> simp <;> ac_rfl

/-- The column with one byte. -/
def single (j : Fin 4) (b : Byte) : Word := (Vector.replicate 4 0).set j b

theorem xorWord_singles (w : Word) :
    xorWord (xorWord (xorWord (single 0 (w.get 0)) (single 1 (w.get 1))) (single 2 (w.get 2)))
    (single 3 (w.get 3)) = w := by
  apply Vector.ext
  intro j hj
  interval_cases j <;> simp [xorWord, single] <;> rfl

theorem single_xor (j : Fin 4) (a b : Byte) :
    single j (a ^^^ b) = xorWord (single j a) (single j b) := by
  apply Vector.ext
  intro i hi
  simp only [single, xorWord, Vector.getElem_zipWith, Vector.getElem_set, Vector.getElem_replicate]
  split <;> simp

/-- A map that keeps sums is the identity if it is so on the columns with one bit. -/
theorem additive_eq_id {f : Word → Word} (hf : ∀ v w, f (xorWord v w) = xorWord (f v) (f w))
    (h0 : ∀ j, f (single j 0) = single j 0)
    (hbit : ∀ (j : Fin 4) (k : Fin 8), f (single j (.ofNat (2 ^ k.val))) =
      single j (.ofNat (2 ^ k.val)))
    (w : Word) : f w = w := by
  have hbyte : ∀ (j : Fin 4) (b : Byte), f (single j b) = single j b := by
    intro j b
    have heq := eq_of_bits8 xorWord (f := fun b => f (single j b)) (g := single j)
      (fun a b => by rw [single_xor, hf]) (single_xor j) (h0 j) (hbit j)
    exact congrFun heq b
  rw [← xorWord_singles w]
  simp only [hf, hbyte]

theorem invMixWord_mixWord (w : Word) : invMixWord (mixWord w) = w :=
  additive_eq_id (f := fun w => invMixWord (mixWord w))
    (fun v w => by rw [mixWord_xorWord, invMixWord_xorWord]) (by decide +kernel)
      (by decide +kernel) w

theorem mixWord_invMixWord (w : Word) : mixWord (invMixWord w) = w :=
  additive_eq_id (f := fun w => mixWord (invMixWord w))
    (fun v w => by rw [invMixWord_xorWord, mixWord_xorWord]) (by decide +kernel)
      (by decide +kernel) w

theorem invMixColumns_mixColumns (s : State) : invMixColumns (mixColumns s) = s :=
  state_ext_word (fun i => by rw [word_invMixColumns, word_mixColumns, invMixWord_mixWord])

theorem mixColumns_invMixColumns (s : State) : mixColumns (invMixColumns s) = s :=
  state_ext_word (fun i => by rw [word_mixColumns, word_invMixColumns, mixWord_invMixWord])

/-- Each round of `InvCipher` undoes the round of `Cipher` that the one before has laid open. -/
theorem invRounds_rounds (rk : RoundKey) (s : State) (n : Nat) (hn : n ≤ 13) :
    invSubBytes (invShiftRows (invRounds rk n hn (shiftRows (subBytes (rounds rk s n hn))))) =
      s := by
  induction n with
  | zero => rw [rounds, invRounds, invShiftRows_shiftRows, invSubBytes_subBytes]
  | succ n ih =>
    rw [rounds, invRounds]
    rw [invShiftRows_shiftRows, invSubBytes_subBytes, addRoundKey_addRoundKey,
      invMixColumns_mixColumns]
    exact ih (by omega)

theorem rounds_invRounds (rk : RoundKey) (s : State) (n : Nat) (hn : n ≤ 13) :
    shiftRows (subBytes (rounds rk (invSubBytes (invShiftRows (invRounds rk n hn s))) n hn)) =
      s := by
  induction n generalizing s with
  | zero => rw [rounds, invRounds, subBytes_invSubBytes, shiftRows_invShiftRows]
  | succ n ih =>
    rw [rounds, invRounds]
    rw [ih _ (by omega), mixColumns_invMixColumns, addRoundKey_addRoundKey, subBytes_invSubBytes,
      shiftRows_invShiftRows]

theorem invCipher_cipher (s : State) (rk : RoundKey) : invCipher (cipher s rk) rk = s := by
  rw [invCipher, cipher]
  rw [addRoundKey_addRoundKey, invRounds_rounds, addRoundKey_addRoundKey]

theorem cipher_invCipher (s : State) (rk : RoundKey) : cipher (invCipher s rk) rk = s := by
  rw [invCipher, cipher]
  rw [addRoundKey_addRoundKey, rounds_invRounds, addRoundKey_addRoundKey]

/-- Under any round key, expanded from a key or not, the two ciphers undo each other on every
block. -/
theorem cipher_inverse (rk : RoundKey) : (∀ s, invCipher (cipher s rk) rk = s) ∧
    (∀ s, cipher (invCipher s rk) rk = s) ∧ Function.Bijective (fun s => cipher s rk) :=
  ⟨fun s => invCipher_cipher s rk, fun s => cipher_invCipher s rk,
    Function.LeftInverse.injective (g := fun s => invCipher s rk) (fun s => invCipher_cipher s rk),
    Function.RightInverse.surjective (g := fun s => invCipher s rk)
      (fun s => cipher_invCipher s rk)⟩

end NetCpp.Proofs
