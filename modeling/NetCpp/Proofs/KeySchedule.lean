import NetCpp.Proofs.Cipher

namespace NetCpp.Proofs
open Library Aes

/-- The round constants, as powers of `x`. -/
def roundConstant (n : Nat) : Byte := xtime^[n - 1] 1

/-- What goes into word `i` besides the word eight before. -/
def mixedWord (i : Nat) (w : Word) : Word :=
  if i % 8 = 0 then xorFirst (subWord (rotWord w)) (roundConstant (i / 8))
  else if i % 8 = 4 then subWord w
  else w

/-- Each word is a sum of two of the words before: the one eight before it, and its predecessor
mixed. -/
def schedule (key : Vector Byte 32) (i : Nat) : Word :=
  if h : i < 8 then .ofFn (fun j => key[4 * i + j])
  else xorWord (schedule key (i - 8)) (mixedWord i (schedule key (i - 1)))
termination_by i

/-- The table that the code reads holds these powers. -/
theorem rcon_eq (k : Fin 11) (h : k ≠ 0) : rcon[k] = roundConstant k := by
  have hall : ∀ k : Fin 11, k ≠ 0 → rcon[k] = roundConstant k := by decide +kernel
  exact hall k h

theorem tempa_eq (i : Fin 60) (h : 8 ≤ i.val) (w : Word) : tempa i w = mixedWord i w := by
  have hne : (⟨i.val / 8, by omega⟩ : Fin 11) ≠ 0 := by
    intro h0
    have := congrArg Fin.val h0
    simp only [Fin.val_zero] at this
    omega
  have hrcon := rcon_eq ⟨i.val / 8, by omega⟩ hne
  simp only [Fin.getElem_fin] at hrcon
  simp only [tempa, mixedWord, hrcon]

theorem getWord_setWord (rk : RoundKey) (i i' : Fin 60) (w : Word) :
    (rk.setWord i w).getWord i' = if i = i' then w else rk.getWord i' := by
  by_cases h : i = i'
  · subst h
    rw [if_pos rfl]
    apply Vector.ext
    intro j hj
    simp only [RoundKey.setWord, RoundKey.getWord, Vector.getElem_ofFn, Vector.getElem_set]
    interval_cases j <;> simp <;> rfl
  · have hne : i.val ≠ i'.val := fun he => h (Fin.ext he)
    rw [if_neg h]
    apply Vector.ext
    intro j hj
    simp only [RoundKey.setWord, RoundKey.getWord, Vector.getElem_ofFn, Vector.getElem_set]
    rw [if_neg (by omega), if_neg (by omega), if_neg (by omega), if_neg (by omega)]

theorem getWord_copyKey (rk : RoundKey) (key : Vector Byte 32) (i : Fin 60) (h : i.val < 8) :
    (copyKey rk key).getWord i = schedule key i := by
  apply Vector.ext
  intro j hj
  have hlt : 4 * i.val + j < 32 := by omega
  rw [schedule, dif_pos h]
  simp [RoundKey.getWord, copyKey, hlt]

/-- One round of the loop: word `i` is added to the words before, which stay. -/
theorem getWord_expandWord {rk : RoundKey} {key : Vector Byte 32} {i : Fin 60} (hi : 8 ≤ i.val)
    (h : ∀ m : Fin 60, m.val < i.val → rk.getWord m = schedule key m) (m : Fin 60)
    (hm : m.val ≤ i.val) : (expandWord rk i).getWord m = schedule key m := by
  have hback : (i - 8).val = i.val - 8 := Fin.sub_val_of_le (Fin.le_def.mpr hi)
  have hpred : (i - 1).val = i.val - 1 := Fin.sub_val_of_le (Fin.le_def.mpr (by
    change 1 ≤ i.val
    omega))
  rw [expandWord, getWord_setWord]
  split
  · rename_i heq
    subst heq
    rw [h (i - 8) (by omega), h (i - 1) (by omega), tempa_eq i hi, hback, hpred]
    conv_rhs => rw [schedule, dif_neg (by omega)]
  · rename_i hne
    have hlt : m.val < i.val := lt_of_le_of_ne hm (fun he => hne (Fin.ext he.symm))
    exact h m hlt

theorem getWord_expandWords (rk : RoundKey) (key : Vector Byte 32) (n : Nat) (hn : n ≤ 52)
    (m : Fin 60) (hm : m.val < 8 + n) : (expandWords (copyKey rk key) n hn).getWord m =
      schedule key m := by
  induction n generalizing m with
  | zero => exact getWord_copyKey rk key m hm
  | succ n ih =>
    rw [expandWords]
    apply getWord_expandWord (i := ⟨8 + n, by omega⟩)
    · exact Nat.le_add_right 8 n
    · intro m' hm'
      exact ih (by omega) m' hm'
    · change m.val ≤ 8 + n
      omega

/-- What stood on the stack before does not show. -/
theorem getWord_keyExpansion (rk : RoundKey) (key : Vector Byte 32) (i : Fin 60) :
    (keyExpansion rk key).getWord i = schedule key i :=
  getWord_expandWords rk key 52 (Nat.le_refl _) i (by omega)

theorem xorWord_cancel {v v' w : Word} (h : xorWord v w = xorWord v' w) : v = v' := by
  apply Vector.ext
  intro j hj
  have hj' := congrArg (fun u => u[j]) h
  simpa [xorWord] using hj'

/-- The recurrence can be run backwards: eight words in a row determine the one before them. -/
theorem schedule_backwards {key key' : Vector Byte 32} {i : Nat}
    (h : ∀ j < 8, schedule key (i + j) = schedule key' (i + j)) :
    ∀ m < 8, schedule key m = schedule key' m := by
  induction i with
  | zero => simpa using h
  | succ i ih =>
    apply ih
    intro j hj
    rcases Nat.eq_zero_or_pos j with rfl | hpos
    · have htop := h 7 (by omega)
      have hmid := h 6 (by omega)
      rw [schedule, dif_neg (by omega)] at htop
      conv_rhs at htop => rw [schedule, dif_neg (by omega)]
      have hlow : i + 1 + 7 - 8 = i + 0 := by omega
      have hpred : i + 1 + 7 - 1 = i + 1 + 6 := by omega
      rw [hlow, hpred, hmid] at htop
      exact xorWord_cancel htop
    · have hstep := h (j - 1) (by omega)
      have hindex : i + 1 + (j - 1) = i + j := by omega
      rwa [hindex] at hstep

theorem key_eq_of_words {key key' : Vector Byte 32}
    (h : ∀ m < 8, schedule key m = schedule key' m) : key = key' := by
  apply Vector.ext
  intro k hk
  have hword := h (k / 4) (by omega)
  rw [schedule, dif_pos (by omega)] at hword
  conv_rhs at hword => rw [schedule, dif_pos (by omega)]
  have hk' := congrArg (fun w => w[k % 4]) hword
  have hindex : 4 * (k / 4) + k % 4 = k := by omega
  simpa [hindex] using hk'

/-- The expanded key does not depend on what the context held before, each of its 60 words is the
one that the recurrence gives, and any eight words in a row of it give the key away. -/
theorem keyExpansion_spec (rk : RoundKey) (key : Vector Byte 32) :
    (∀ i : Fin 60, (keyExpansion rk key).getWord i = schedule key i) ∧
      ∀ (rk' : RoundKey) (key' : Vector Byte 32) (i : Nat) (hi : i + 8 ≤ 60),
        (∀ j : Fin 8, (keyExpansion rk key).getWord ⟨i + j, by omega⟩ =
          (keyExpansion rk' key').getWord ⟨i + j, by omega⟩) → key = key' := by
  refine ⟨getWord_keyExpansion rk key, ?_⟩
  intro rk' key' i hi h
  apply key_eq_of_words
  apply schedule_backwards (i := i)
  intro j hj
  have hj' := h ⟨j, hj⟩
  rwa [getWord_keyExpansion, getWord_keyExpansion] at hj'

end NetCpp.Proofs
