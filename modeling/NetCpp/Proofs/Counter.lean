import NetCpp.Proofs.Cipher

namespace NetCpp.Proofs
open Library Aes

theorem le_of_succ_le_block {n : Nat} (h : n + 1 ≤ 16) : n ≤ 16 := Nat.le_of_succ_le h

/-- The number that the first `n` bytes of a vector stand for, the most significant first. -/
def counterUpTo (iv : State) : (n : Nat) → n ≤ 16 → Nat
  | 0, _ => 0
  | n + 1, h => 256 * counterUpTo iv n (le_of_succ_le_block h) + iv[n].toNat

def counter (iv : State) : Nat := counterUpTo iv 16 (Nat.le_refl _)

theorem counterUpTo_lt (iv : State) (n : Nat) (hn : n ≤ 16) : counterUpTo iv n hn < 256 ^ n := by
  induction n with
  | zero => simp [counterUpTo]
  | succ n ih =>
    have hb := iv[n].toNat_lt
    have hlow := ih (by omega)
    rw [counterUpTo, pow_succ']
    omega

theorem counterUpTo_set (iv : State) (n k : Nat) (hn : n ≤ 16) (hk : k < 16) (h : n ≤ k)
    (b : Byte) : counterUpTo (iv.set k b) n hn = counterUpTo iv n hn := by
  induction n with
  | zero => rfl
  | succ n ih =>
    rw [counterUpTo, counterUpTo, ih (by omega) (by omega),
      Vector.getElem_set_ne _ (by omega) (by omega)]

/-- The bytes behind the first `n` stay. -/
theorem increment_getElem (iv : State) (n : Nat) (hn : n ≤ 16) (k : Nat) (hk : k < 16) (h : n ≤ k) :
    (increment n hn iv)[k] = iv[k] := by
  induction n generalizing iv with
  | zero => rfl
  | succ n ih =>
    rw [increment]
    split
    · rw [ih _ (by omega) (by omega), Vector.getElem_set_ne _ _ (by omega)]
    · rw [Vector.getElem_set_ne _ _ (by omega)]

/-- A carry goes on to the byte before, and the carry out of the first byte is lost. -/
theorem counterUpTo_increment (iv : State) (n : Nat) (hn : n ≤ 16) :
    counterUpTo (increment n hn iv) n hn = (counterUpTo iv n hn + 1) % 256 ^ n := by
  induction n generalizing iv with
  | zero => simp [counterUpTo]
  | succ n ih =>
    have hlt := counterUpTo_lt iv n (by omega)
    have hb := iv[n].toNat_lt
    rw [increment]
    by_cases hfull : iv[n] = 255
    · have hvalue : iv[n].toNat = 255 := by rw [hfull]; rfl
      rw [if_pos hfull, counterUpTo, ih, counterUpTo_set _ _ _ _ _ (Nat.le_refl n),
        increment_getElem _ _ _ _ _ (Nat.le_refl n), Vector.getElem_set_self]
      conv_rhs => rw [counterUpTo, hvalue, pow_succ']
      have hsum : 256 * counterUpTo iv n (by omega) + 255 + 1 =
          256 * (counterUpTo iv n (by omega) + 1) := by
        omega
      rw [hsum, Nat.mul_mod_mul_left]
      rfl
    · have hvalue : (iv[n] + 1).toNat = iv[n].toNat + 1 := by
        have hne : iv[n].toNat ≠ 255 := fun h => hfull (UInt8.toNat_inj.mp h)
        rw [UInt8.toNat_add]
        change (iv[n].toNat + 1) % 2 ^ 8 = iv[n].toNat + 1
        omega
      rw [if_neg hfull, counterUpTo, counterUpTo_set _ _ _ _ _ (Nat.le_refl n),
        Vector.getElem_set_self, hvalue]
      conv_rhs => rw [counterUpTo]
      rw [Nat.mod_eq_of_lt]
      · rfl
      · have hne : iv[n].toNat ≠ 255 := fun h => hfull (UInt8.toNat_inj.mp h)
        rw [pow_succ']
        omega

def nextIv (iv : State) : State := increment 16 (Nat.le_refl _) iv

theorem counter_nextIv (iv : State) : counter (nextIv iv) = (counter iv + 1) % 2 ^ 128 :=
  counterUpTo_increment iv 16 (Nat.le_refl _)

theorem counter_iterate (iv : State) (n : Nat) :
    counter (nextIv^[n] iv) = (counter iv + n) % 2 ^ 128 := by
  induction n with
  | zero => exact (Nat.mod_eq_of_lt (counterUpTo_lt iv 16 (Nat.le_refl _))).symm
  | succ n ih =>
    rw [Function.iterate_succ_apply', counter_nextIv, ih, Nat.mod_add_mod, Nat.add_assoc]

/-- What goes over block `n` of a buffer. -/
def streamBlock (rk : RoundKey) (iv : State) (n : Nat) : State := cipher (nextIv^[n] iv) rk

def streamByte (rk : RoundKey) (iv : State) (k : Nat) : Byte :=
  (streamBlock rk iv (k / 16)).get ⟨k % 16, Nat.mod_lt _ (by decide)⟩

/-- Where the loop stands before byte `k`: between two blocks, or inside the block whose stream is
in the buffer. -/
structure AtByte (rk : RoundKey) (iv : State) (k : Nat) (st : Xcrypt) : Prop where
  iv_eq : st.iv = nextIv^[(k + 15) / 16] iv
  between : k % 16 = 0 → st.bi = 16
  inside : k % 16 ≠ 0 → st.bi.val = k % 16 ∧ st.buffer = streamBlock rk iv (k / 16)

theorem standing_start (rk : RoundKey) (iv buffer : State) :
    AtByte rk iv 0 { iv, buffer, bi := 16 } where
  iv_eq := rfl
  between _ := rfl
  inside h := absurd rfl h

theorem xcryptByte_standing {rk : RoundKey} {iv : State} {k : Nat} {st : Xcrypt}
    (h : AtByte rk iv k st) (b : Byte) : (xcryptByte rk st b).2 = b ^^^ streamByte rk iv k ∧
      AtByte rk iv (k + 1) (xcryptByte rk st b).1 := by
  by_cases hk : k % 16 = 0
  · have hbi : st.bi.val = 16 := congrArg Fin.val (h.between hk)
    have hround : (k + 15) / 16 = k / 16 := by omega
    have hnext : (k + 1 + 15) / 16 = k / 16 + 1 := by omega
    have hsame : (k + 1) / 16 = k / 16 := by omega
    have hone : (k + 1) % 16 = 1 := by omega
    rw [xcryptByte, dif_pos hbi, h.iv_eq, hround]
    refine ⟨?_, ?_, ?_, ?_⟩
    · simp only [streamByte, streamBlock, hk]
      rfl
    · rw [hnext, Function.iterate_succ_apply']
      rfl
    · intro h0
      omega
    · intro _
      rw [hone, hsame]
      exact ⟨rfl, rfl⟩
  · obtain ⟨hbi, hbuffer⟩ := h.inside hk
    have hne : st.bi.val ≠ 16 := by omega
    have hround : (k + 1 + 15) / 16 = (k + 15) / 16 := by omega
    rw [xcryptByte, dif_neg hne]
    refine ⟨by simp [streamByte, hbuffer, hbi, Vector.get], ?_, ?_, ?_⟩
    · rw [hround]
      exact h.iv_eq
    · intro h0
      apply Fin.ext
      change st.bi.val + 1 = 16
      omega
    · intro h0
      have hsame : (k + 1) / 16 = k / 16 := by omega
      rw [hsame]
      refine ⟨?_, hbuffer⟩
      change st.bi.val + 1 = (k + 1) % 16
      omega

theorem xcrypt_cons (rk : RoundKey) (st : Xcrypt) (b : Byte) (buf : Bytes) :
    xcrypt rk st (b :: buf) = ((xcrypt rk (xcryptByte rk st b).1 buf).1,
      (xcryptByte rk st b).2 :: (xcrypt rk (xcryptByte rk st b).1 buf).2) := rfl

theorem xcrypt_standing {rk : RoundKey} {iv : State} {k : Nat} {st : Xcrypt} (h : AtByte rk iv k st)
    (buf : Bytes) : (xcrypt rk st buf).2 = buf.mapIdx (fun i b => b ^^^ streamByte rk iv (k + i)) ∧
      AtByte rk iv (k + buf.length) (xcrypt rk st buf).1 := by
  induction buf generalizing k st with
  | nil => exact ⟨rfl, h⟩
  | cons b buf ih =>
    obtain ⟨hb, hst⟩ := xcryptByte_standing h b
    obtain ⟨hrest, hend⟩ := ih hst
    rw [xcrypt_cons]
    constructor
    · have hshift : ∀ i, k + 1 + i = k + (i + 1) := by
        intro i
        omega
      simp only [hb, hrest, List.mapIdx_cons, Nat.add_zero, hshift]
    · have hlen : k + (b :: buf).length = k + 1 + buf.length := by
        rw [List.length_cons]
        omega
      rw [hlen]
      exact hend

/-- The bytes that the loop reads, under the stream. -/
theorem ctrXcryptBuffer_ok (ctx : Ctx) (buffer : State) {buf : Bytes} {length : UInt32}
    (h : length.toNat ≤ buf.length) : ctrXcryptBuffer ctx buffer buf length =
      .ok ({ ctx with iv := nextIv^[blocks length] ctx.iv },
        (buf.take length.toNat).mapIdx (fun k b => b ^^^ streamByte ctx.roundKey ctx.iv k) ++
          buf.drop length.toNat) := by
  obtain ⟨hout, hst⟩ :=
    xcrypt_standing (standing_start ctx.roundKey ctx.iv buffer) (buf.take length.toNat)
  have hlen : 0 + (buf.take length.toNat).length = length.toNat := by
    rw [List.length_take, Nat.min_eq_left h, Nat.zero_add]
  rw [hlen] at hst
  rw [ctrXcryptBuffer, if_neg (by omega)]
  simp only [hout, hst.iv_eq, Nat.zero_add]
  rfl

theorem streamBlock_injective (rk : RoundKey) (iv : State) {m n : Nat} (hm : m < 2 ^ 128)
    (hn : n < 2 ^ 128) (h : streamBlock rk iv m = streamBlock rk iv n) : m = n := by
  have hiv : nextIv^[m] iv = nextIv^[n] iv := by
    have hback := congrArg (fun s => invCipher s rk) h
    simpa [streamBlock, invCipher_cipher] using hback
  have hcount := congrArg counter hiv
  rw [counter_iterate, counter_iterate] at hcount
  omega

/-- The counter mode puts a stream over the buffer that a second call takes off again, whatever the
uninitialised block held; the vector ends as the first counter that was not used, and no two of the
next `2 ^ 128` blocks of the stream are the same. -/
theorem ctrXcryptBuffer_spec (ctx : Ctx) (buffer buffer' : State) {buf : Bytes} {length : UInt32}
    (h : length.toNat ≤ buf.length) : ∃ ctx' out, ctrXcryptBuffer ctx buffer buf length =
      .ok (ctx', out) ∧ ctrXcryptBuffer ctx buffer' out length = .ok (ctx', buf) ∧
      counter ctx'.iv = (counter ctx.iv + (length.toNat + 15) / 16) % 2 ^ 128 ∧
      (∀ k, out[k]? = buf[k]?.map (fun b =>
        if k < length.toNat then b ^^^ streamByte ctx.roundKey ctx.iv k else b)) ∧
      ∀ m < 2 ^ 128, ∀ n < 2 ^ 128,
        streamBlock ctx.roundKey ctx.iv m = streamBlock ctx.roundKey ctx.iv n → m = n := by
  have hlen :
      ((buf.take length.toNat).mapIdx (fun k b => b ^^^ streamByte ctx.roundKey ctx.iv k)).length =
      length.toNat := by
    rw [List.length_mapIdx, List.length_take, Nat.min_eq_left h]
  refine ⟨_, _, ctrXcryptBuffer_ok ctx buffer h, ?_, counter_iterate _ _, ?_,
    fun m hm n hn => streamBlock_injective _ _ hm hn⟩
  · rw [ctrXcryptBuffer_ok ctx buffer' (by rw [List.length_append, hlen]; omega)]
    congr 2
    rw [List.take_left' hlen, List.drop_left' hlen]
    conv_rhs => rw [← List.take_append_drop length.toNat buf]
    congr 1
    apply List.ext_getElem (by simp)
    intro k h₁ h₂
    simp
  · intro k
    rw [List.getElem?_append, hlen]
    split
    · rename_i hk
      simp [List.getElem?_mapIdx, hk]
    · rename_i hk
      rw [List.getElem?_drop]
      have hindex : length.toNat + (k - length.toNat) = k := by omega
      rw [hindex]
      cases buf[k]? <;> rfl

/-- Two blocks of which the second is cut. -/
theorem ctrXcryptBuffer_spec_twenty : ∃ ctx' out,
    ctrXcryptBuffer ⟨.replicate 240 1, .replicate 16 255⟩ (.replicate 16 0)
    (List.replicate 20 7) 20 =
      .ok (ctx', out) ∧
    ctrXcryptBuffer ⟨.replicate 240 1, .replicate 16 255⟩ (.replicate 16 9) out 20 =
      .ok (ctx', List.replicate 20 7) ∧
    counter ctx'.iv = 1 := by
  obtain ⟨ctx', out, hout, hback, hcount, -⟩ :=
    @ctrXcryptBuffer_spec ⟨.replicate 240 1, .replicate 16 255⟩
    (.replicate 16 0) (.replicate 16 9) (List.replicate 20 7) 20 (by decide)
  exact ⟨ctx', out, hout, hback, hcount⟩

end NetCpp.Proofs
