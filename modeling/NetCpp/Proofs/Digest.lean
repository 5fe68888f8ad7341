import NetCpp.Library.Runs
import NetCpp.Proofs.Compression

namespace NetCpp.Proofs
open Library Sha1

theorem readAt_ok {data : Bytes} {i n : Nat} (h : i + n ≤ data.length) :
    readAt data i n = .ok ((data.drop i).take n) := if_pos h

theorem blockAt_ok {data : Bytes} {i : Nat} (h : i + 64 ≤ data.length) :
    ∃ block, blockAt data i = .ok block ∧ block.toList = (data.drop i).take 64 := by
  refine ⟨_, by rw [blockAt, readAt_ok h]; rfl, ?_⟩
  apply List.ext_getElem
  · simp only [Vector.length_toList, List.length_take, List.length_drop]
    omega
  · intro k hk hk'
    simp only [Vector.getElem_toList, Vector.getElem_ofFn, List.getD_eq_getElem _ _ hk']

/-- The buffer up to the end of what was written. -/
theorem writeAt_ok (buffer : Vector Byte 64) {j : Nat} {bs : Bytes} (h : j + bs.length ≤ 64) :
    ∃ buffer', writeAt buffer j bs = .ok buffer' ∧
      buffer'.toList.take (j + bs.length) = buffer.toList.take j ++ bs := by
  refine ⟨_, if_pos h, ?_⟩
  have hj : (buffer.toList.take j).length = j := by
    simp only [List.length_take, Vector.length_toList]
    omega
  apply List.ext_getElem
  · simp only [List.length_take, Vector.length_toList, List.length_append]
    omega
  · intro k hk hk'
    have hk64 : k < 64 := by
      simp only [List.length_take, Vector.length_toList] at hk
      omega
    have hkj : k < j + bs.length := by
      simp only [List.length_append, hj] at hk'
      exact hk'
    simp only [List.getElem_take, Vector.getElem_toList, Vector.getElem_ofFn]
    by_cases hlt : k < j
    · rw [if_neg (Nat.not_le.mpr hlt), List.getElem_append_left (by omega)]
      simp only [List.getElem_take, Vector.getElem_toList]
      rfl
    · rw [if_pos (Nat.not_lt.mp hlt), List.getElem_append_right (by omega),
        List.getD_eq_getElem _ _ (by omega)]
      simp only [hj]

/-- What the context stands for when the bytes `xs` have been put in. -/
structure Absorbed (ctx : Sha1.Ctx) (xs : Bytes) : Prop where
  state : ctx.state = absorb 64 SecureHash.compress SecureHash.initial xs
  count : (ctx.count.get 0).toNat + 2 ^ 32 * (ctx.count.get 1).toNat = 8 * xs.length % 2 ^ 64
  buffer : ctx.buffer.toList.take (xs.length % 64) = leftover 64 xs

theorem absorbed_init (ctx : Sha1.Ctx) : Absorbed (init ctx) [] := ⟨rfl, rfl, rfl⟩

theorem toNat_counted (count : Vector UInt32 2) (len : UInt32) :
    ((counted count len).get 0).toNat + 2 ^ 32 * ((counted count len).get 1).toNat =
      ((count.get 0).toNat + 2 ^ 32 * (count.get 1).toNat + 8 * len.toNat) % 2 ^ 64 := by
  have hlow : (count.get 0 + len <<< 3).toNat = ((count.get 0).toNat + 8 * len.toNat) % 2 ^ 32 := by
    rw [UInt32.toNat_add, UInt32.toNat_shiftLeft, Nat.shiftLeft_eq]
    simp
    omega
  have hhigh : (len >>> 29).toNat = len.toNat / 2 ^ 29 := by
    rw [UInt32.toNat_shiftRight, Nat.shiftRight_eq_div_pow]
    rfl
  have h0 := (count.get 0).toNat_lt
  have h1 := (count.get 1).toNat_lt
  have hl := len.toNat_lt
  change (count.get 0 + len <<< 3).toNat +
    2 ^ 32 * ((if count.get 0 + len <<< 3 < count.get 0 then count.get 1 + 1
    else count.get 1) + len >>> 29).toNat = _
  by_cases hcarry : count.get 0 + len <<< 3 < count.get 0
  · have hone : (count.get 1 + 1).toNat = ((count.get 1).toNat + 1) % 2 ^ 32 := UInt32.toNat_add _ _
    rw [if_pos hcarry, hlow, UInt32.toNat_add, hone, hhigh]
    rw [UInt32.lt_iff_toNat_lt] at hcarry
    omega
  · rw [if_neg hcarry, hlow, UInt32.toNat_add, hhigh]
    rw [UInt32.lt_iff_toNat_lt] at hcarry
    omega

theorem Absorbed.low {ctx : Sha1.Ctx} {xs : Bytes} (h : Absorbed ctx xs) :
    (ctx.count.get 0).toNat = 8 * xs.length % 2 ^ 32 := by
  have hcount := h.count
  have hlt := (ctx.count.get 0).toNat_lt
  omega

theorem Absorbed.offset {ctx : Sha1.Ctx} {xs : Bytes} (h : Absorbed ctx xs) :
    (ctx.count.get 0 >>> 3 &&& 63).toNat = xs.length % 64 := by
  have hlow := h.low
  have hmask : (ctx.count.get 0 >>> 3 &&& 63).toNat = (ctx.count.get 0).toNat / 2 ^ 3 % 2 ^ 6 := by
    rw [UInt32.toNat_and, UInt32.toNat_shiftRight, ← Nat.and_two_pow_sub_one_eq_mod,
      Nat.shiftRight_eq_div_pow]
    rfl
  omega

/-- The blocks that the loop takes from byte `i` on. -/
theorem updateLoop_eq {data : Bytes} {len : UInt32} (hlen : len.toNat = data.length)
    (hfit : data.length + 63 < 2 ^ 32) (fuel : Nat) {i : UInt32} (hi : i.toNat ≤ data.length)
    (hfuel : data.length - i.toNat < 64 * fuel) (state : Vector UInt32 5) :
    ∃ i' : UInt32, updateLoop data len fuel i state =
        .ok (i', absorb 64 SecureHash.compress state (data.drop i.toNat)) ∧
      i'.toNat ≤ data.length ∧ data.drop i'.toNat = leftover 64 (data.drop i.toNat) := by
  induction fuel generalizing i state with
  | zero => omega
  | succ fuel ih =>
    have hsum : (i + 63).toNat = i.toNat + 63 := by
      rw [UInt32.toNat_add]
      exact Nat.mod_eq_of_lt (by simp; omega)
    have hlength : (data.drop i.toNat).length = data.length - i.toNat := List.length_drop
    rw [updateLoop]
    by_cases hmore : i + 63 < len
    · have hblock : i.toNat + 64 ≤ data.length := by
        rw [UInt32.lt_iff_toNat_lt, hsum] at hmore
        omega
      have hnext : (i + 64).toNat = i.toNat + 64 := by
        rw [UInt32.toNat_add]
        exact Nat.mod_eq_of_lt (by simp; omega)
      have hfull : 64 ≤ (data.drop i.toNat).length := by omega
      have hdrop : data.drop (i + 64).toNat = (data.drop i.toNat).drop 64 := by
        rw [hnext, List.drop_drop]
      obtain ⟨block, hread, hbytes⟩ := blockAt_ok hblock
      obtain ⟨i', hloop, hle, hleft⟩ :=
        ih (i := i + 64) (by omega) (by omega) (transform state block)
      refine ⟨i', ?_, hle, ?_⟩
      · rw [if_pos hmore, hread]
        change updateLoop data len fuel (i + 64) (transform state block) = _
        rw [hloop, transform_eq, hbytes, hdrop,
          absorb_of_le SecureHash.compress (by decide) hfull state]
      · rw [hleft, hdrop, leftover_of_le (by decide) hfull]
    · have hshort : (data.drop i.toNat).length < 64 := by
        rw [UInt32.lt_iff_toNat_lt, hsum] at hmore
        omega
      exact ⟨i, by rw [if_neg hmore, absorb_of_lt _ hshort], hi, (leftover_of_lt hshort).symm⟩

theorem toNat_offset_add {j len : UInt32} (h : j.toNat + len.toNat < 2 ^ 32) :
    63 < j + len ↔ 63 < j.toNat + len.toNat := by
  rw [UInt32.lt_iff_toNat_lt, UInt32.toNat_add, Nat.mod_eq_of_lt h]
  rfl

/-- The bytes in front of a full block, and those behind it. -/
theorem take_drop_leftover (xs data : Bytes) :
    (leftover 64 xs ++ data).take 64 = leftover 64 xs ++ data.take (64 - xs.length % 64) ∧
      (leftover 64 xs ++ data).drop 64 = data.drop (64 - xs.length % 64) := by
  have hleft : (leftover 64 xs).length = xs.length % 64 := length_leftover 64 xs
  have hr : xs.length % 64 < 64 := Nat.mod_lt _ (by decide)
  constructor
  · rw [List.take_append, hleft, List.take_of_length_le (by omega)]
  · rw [List.drop_append, hleft, List.drop_eq_nil_of_le (by omega), List.nil_append]

/-- The buffer, once the front of the data fills it. -/
theorem Absorbed.fill {ctx : Sha1.Ctx} {xs data : Bytes} (h : Absorbed ctx xs)
    (hfull : 64 ≤ xs.length % 64 + data.length) :
    ∃ buffer, writeAt ctx.buffer (xs.length % 64) (data.take (64 - xs.length % 64)) = .ok buffer ∧
      buffer.toList = (leftover 64 xs ++ data).take 64 := by
  have hr : xs.length % 64 < 64 := Nat.mod_lt _ (by decide)
  have hfront : (data.take (64 - xs.length % 64)).length = 64 - xs.length % 64 := by
    rw [List.length_take]
    omega
  have hfits : xs.length % 64 + (data.take (64 - xs.length % 64)).length ≤ 64 := by omega
  obtain ⟨buffer, hwrite, hbuffer⟩ := writeAt_ok ctx.buffer hfits
  refine ⟨buffer, hwrite, ?_⟩
  rw [(take_drop_leftover xs data).1, ← h.buffer, ← hbuffer, hfront,
    List.take_of_length_le (by rw [Vector.length_toList]; omega)]

/-- What the loop of an update makes of the data that follow the bytes `xs`, and what it leaves. -/
theorem updateLoop_full {xs data : Bytes} {len i : UInt32} (hlen : len.toNat = data.length)
    (hfit : data.length + 63 < 2 ^ 32) (hfull : 64 ≤ xs.length % 64 + data.length)
    (hi : i.toNat = 64 - xs.length % 64) (s : SecureHash.Words) :
    ∃ i' : UInt32, updateLoop data len (data.length / 64 + 1) i
        (SecureHash.compress (absorb 64 SecureHash.compress s xs)
          ((leftover 64 xs ++ data).take 64)) =
        .ok (i', absorb 64 SecureHash.compress s (xs ++ data)) ∧
      readAt data i'.toNat (len - i').toNat = .ok (leftover 64 (xs ++ data)) := by
  have hleft : (leftover 64 xs).length = xs.length % 64 := length_leftover 64 xs
  have hle : 64 ≤ (leftover 64 xs ++ data).length := by
    rw [List.length_append]
    omega
  obtain ⟨i', hloop, hile, hrest⟩ :=
    updateLoop_eq hlen hfit (data.length / 64 + 1) (i := i) (by omega) (by omega)
    (SecureHash.compress (absorb 64 SecureHash.compress s xs) ((leftover 64 xs ++ data).take 64))
  rw [hi, ← (take_drop_leftover xs data).2] at hrest hloop
  rw [← absorb_of_le SecureHash.compress (by decide) hle, ← absorb_append SecureHash.compress
    (by decide)] at hloop
  rw [← leftover_of_le (by decide) hle, ← leftover_append (by decide)] at hrest
  have hn : (len - i').toNat = data.length - i'.toNat := by
    rw [UInt32.toNat_sub_of_le _ _ (by rw [UInt32.le_iff_toNat_le]; omega), hlen]
  refine ⟨i', hloop, ?_⟩
  rw [hn, readAt_ok (by omega), List.take_of_length_le (by rw [List.length_drop]), hrest]

theorem absorbed_of {xs : Bytes} {count : Vector UInt32 2} {buffer : Vector Byte 64}
    (hcount : (count.get 0).toNat + 2 ^ 32 * (count.get 1).toNat = 8 * xs.length % 2 ^ 64)
    (hbuffer : buffer.toList.take (leftover 64 xs).length = leftover 64 xs) :
    Absorbed { state := absorb 64 SecureHash.compress SecureHash.initial xs, count, buffer } xs :=
  ⟨rfl, hcount, by rwa [length_leftover] at hbuffer⟩

/-- Bytes that an update puts in follow those put in before. -/
theorem Absorbed.update {ctx : Sha1.Ctx} {xs : Bytes} (h : Absorbed ctx xs) {data : Bytes}
    {len : UInt32} (hlen : len.toNat = data.length) (hfit : data.length + 63 < 2 ^ 32) :
    ∃ ctx', update ctx data len = .ok ctx' ∧ Absorbed ctx' (xs ++ data) := by
  have hr : xs.length % 64 < 64 := Nat.mod_lt _ (by decide)
  have hcount : ((counted ctx.count len).get 0).toNat +
      2 ^ 32 * ((counted ctx.count len).get 1).toNat =
      8 * (xs ++ data).length % 2 ^ 64 := by
    rw [toNat_counted, h.count, hlen, List.length_append]
    omega
  obtain ⟨j, hj⟩ : ∃ j, j = ctx.count.get 0 >>> 3 &&& 63 := ⟨_, rfl⟩
  have hjr : j.toNat = xs.length % 64 := hj ▸ h.offset
  have htest : 63 < j + len ↔ 63 < xs.length % 64 + data.length := by
    rw [toNat_offset_add (by omega), hjr, hlen]
  unfold Sha1.update
  simp only [← hj]
  by_cases hfull : 63 < xs.length % 64 + data.length
  · have hi : (64 - j).toNat = 64 - xs.length % 64 := by
      rw [UInt32.toNat_sub_of_le _ _ (by rw [UInt32.le_iff_toNat_le, hjr]; exact hr.le), hjr]
      rfl
    obtain ⟨buffer, hwrite, hbuffer⟩ := h.fill hfull
    obtain ⟨i, hloop, hrest⟩ := updateLoop_full hlen hfit hfull hi SecureHash.initial
    have hleft : (leftover 64 (xs ++ data)).length = (xs ++ data).length % 64 :=
      length_leftover 64 _
    have hfits : 0 + (leftover 64 (xs ++ data)).length ≤ 64 := by omega
    obtain ⟨buffer', hwrite', hbuffer'⟩ := writeAt_ok buffer hfits
    refine ⟨_, ?_, absorbed_of hcount (by simpa using hbuffer')⟩
    rw [if_pos (htest.mpr hfull), hi, hjr, readAt_ok (by omega), List.drop_zero]
    simp only [bind, Except.bind, hwrite, transform_eq, hbuffer, h.state, hloop, hrest, hwrite']
    rfl
  · have hshort : (leftover 64 xs ++ data).length < 64 := by
      rw [List.length_append, length_leftover]
      omega
    have hleft : leftover 64 (xs ++ data) = leftover 64 xs ++ data := by
      rw [leftover_append (by decide), leftover_of_lt hshort]
    have hfits : xs.length % 64 + data.length ≤ 64 := by omega
    obtain ⟨buffer', hwrite, hbuffer⟩ := writeAt_ok ctx.buffer hfits
    have hstate : ctx.state = absorb 64 SecureHash.compress SecureHash.initial (xs ++ data) := by
      rw [h.state, absorb_append _ (by decide), absorb_of_lt _ hshort]
    refine ⟨_, ?_, absorbed_of hcount
      (by rw [hleft, List.length_append, length_leftover, hbuffer, h.buffer])⟩
    rw [if_neg (fun h => hfull (htest.mp h)), hjr, hlen, readAt_ok (by omega), List.drop_zero,
      List.take_length]
    simp only [bind, Except.bind, hwrite, hstate]
    rfl

theorem and_504 (c : UInt32) : (c &&& 504).toNat = 8 * (c.toNat / 8 % 64) := by
  have hmask : c.toNat / 2 ^ 3 % 2 ^ 6 = c.toNat >>> 3 &&& 63 := by
    rw [← Nat.and_two_pow_sub_one_eq_mod, Nat.shiftRight_eq_div_pow]
  calc (c &&& 504).toNat = c.toNat &&& 63 <<< 3 := UInt32.toNat_and c 504
    _ = (c.toNat >>> 3 &&& 63) <<< 3 := by
      apply Nat.eq_of_testBit_eq
      intro i
      simp only [Nat.testBit_and, Nat.testBit_shiftLeft, Nat.testBit_shiftRight]
      by_cases hi : 3 ≤ i
      · simp [hi, Nat.add_sub_cancel' hi]
      · simp [hi]
    _ = 8 * (c.toNat / 8 % 64) := by
      rw [← hmask, Nat.shiftLeft_eq]
      omega

/-- The loop ends where eight bytes are missing. -/
theorem Absorbed.done {ctx : Sha1.Ctx} {xs : Bytes} (h : Absorbed ctx xs) :
    ctx.count.get 0 &&& 504 = 448 ↔ xs.length % 64 = 56 := by
  have hlow := h.low
  rw [← UInt32.toNat_inj, and_504]
  change 8 * _ = 448 ↔ _
  omega

/-- One zero in each turn: `k` zeros where `k` are missing. -/
theorem Absorbed.pad {ctx : Sha1.Ctx} {xs : Bytes} (h : Absorbed ctx xs) {k : Nat} (fuel : Nat)
    (hk : k < fuel) (hk64 : k < 64) (hend : (xs.length + k) % 64 = 56) :
    ∃ ctx', pad fuel ctx = .ok ctx' ∧ Absorbed ctx' (xs ++ List.replicate k 0) := by
  induction fuel generalizing ctx xs k with
  | zero => omega
  | succ fuel ih =>
    rw [Sha1.pad]
    cases k with
    | zero => exact ⟨ctx, by rw [if_neg (fun hne => hne (h.done.mpr hend))], by simpa using h⟩
    | succ k =>
      have hmore : ctx.count.get 0 &&& 504 ≠ 448 := by
        rw [ne_eq, h.done]
        omega
      have hone : (1 : UInt32).toNat = [(0 : Byte)].length := rfl
      obtain ⟨ctx₁, hupdate, h₁⟩ := h.update hone (by decide)
      obtain ⟨ctx', hpad, h'⟩ := ih h₁ (k := k) (by omega) (by omega) (by simp; omega)
      refine ⟨ctx', ?_, ?_⟩
      · rw [if_pos hmore, hupdate]
        exact hpad
      · rwa [List.append_assoc, List.singleton_append, ← List.replicate_succ] at h'

theorem byteOf_eq (word : UInt32) (i : Nat) :
    byteOf word i = .ofNat (word.toNat / 2 ^ ((3 - i % 4) * 8)) := by
  have hshift : (UInt32.ofNat ((3 - i % 4) * 8)).toNat % 32 = (3 - i % 4) * 8 := by
    rw [UInt32.toNat_ofNat']
    omega
  apply UInt8.toNat_inj.mp
  rw [byteOf, UInt32.toNat_toUInt8, UInt32.toNat_and, UInt32.toNat_shiftRight, hshift,
    UInt8.toNat_ofNat', Nat.shiftRight_eq_div_pow]
  change (_ &&& (2 ^ 8 - 1)) % 2 ^ 8 = _
  rw [Nat.and_two_pow_sub_one_eq_mod, Nat.mod_mod]

theorem ofNat_congr {m n : Nat} (h : m % 256 = n % 256) : UInt8.ofNat m = UInt8.ofNat n := by
  apply UInt8.toNat_inj.mp
  rw [UInt8.toNat_ofNat', UInt8.toNat_ofNat']
  exact h

theorem bigEndian_word (word : UInt32) : SecureHash.bigEndian 4 word.toNat =
    [byteOf word 0, byteOf word 1, byteOf word 2, byteOf word 3] := by
  simp only [SecureHash.bigEndian, List.nil_append, List.cons_append, byteOf_eq,
    List.cons.injEq, and_true]
  refine ⟨ofNat_congr ?_, ofNat_congr ?_, ofNat_congr ?_, ofNat_congr ?_⟩ <;>
    simp only [Nat.reduceMod, Nat.reduceSub, Nat.reduceMul, Nat.reducePow] <;> omega

theorem Absorbed.finalcount {ctx : Sha1.Ctx} {xs : Bytes} (h : Absorbed ctx xs) :
    finalcount ctx.count = SecureHash.bigEndian 8 (8 * xs.length) := by
  have hcount := h.count
  have h0 := (ctx.count.get 0).toNat_lt
  have hlow : (ctx.count.get 0).toNat = 8 * xs.length % 256 ^ 4 := by omega
  have hhigh : (ctx.count.get 1).toNat = 8 * xs.length / 256 ^ 4 % 256 ^ 4 := by omega
  rw [SecureHash.bigEndian_add 4 4, ← SecureHash.bigEndian_mod 4
    (8 * xs.length), ← hlow, ← SecureHash.bigEndian_mod 4
    (8 * xs.length / 256 ^ 4), ← hhigh, bigEndian_word, bigEndian_word]
  rfl

/-- The digest of a context is the hash of the bytes that were put in. -/
theorem Absorbed.final {ctx : Sha1.Ctx} {xs : Bytes} (h : Absorbed ctx xs) :
    final ctx = .ok (SecureHash.hash xs) := by
  have hone : (1 : UInt32).toNat = [(0x80 : Byte)].length := rfl
  have height : (8 : UInt32).toNat = (Sha1.finalcount ctx.count).length := by
    rw [h.finalcount, SecureHash.length_bigEndian]
    rfl
  have hzeros : SecureHash.zeros xs.length < 64 := Nat.mod_lt _ (by decide)
  obtain ⟨ctx₁, hbit, h₁⟩ := h.update hone (by decide)
  obtain ⟨ctx₂, hpad, h₂⟩ := h₁.pad 64 hzeros hzeros (by simp [SecureHash.zeros]; omega)
  obtain ⟨ctx₃, hlength, h₃⟩ := h₂.update height (by rw [← height]; decide)
  have hpadded : xs ++ [0x80] ++ List.replicate (SecureHash.zeros xs.length) 0 ++
      Sha1.finalcount ctx.count =
      SecureHash.padded xs := by
    rw [h.finalcount, SecureHash.padded, List.append_assoc, List.append_assoc, List.append_assoc]
    rfl
  have hstate : ctx₃.state =
      absorb 64 SecureHash.compress SecureHash.initial (SecureHash.padded xs) := by
    rw [h₃.state, hpadded]
  have hdigest (v : Vector UInt32 5) :
      (List.range 20).map (fun i => byteOf (v.get ⟨i / 4 % 5, Nat.mod_lt _ (by decide)⟩) i) =
      v.toList.flatMap (fun h => SecureHash.bigEndian 4 h.toNat) := by
    have hlist : v.toList = [v.get 0, v.get 1, v.get 2, v.get 3, v.get 4] := by
      apply List.ext_getElem (by simp)
      intro i hi hi'
      simp only [List.length_cons, List.length_nil] at hi'
      interval_cases i <;> rfl
    simp only [hlist, List.flatMap_cons, List.flatMap_nil, bigEndian_word]
    rfl
  simp only [Sha1.final, bind, Except.bind, hbit, hpad, hlength, hstate, hdigest]
  rfl

theorem Absorbed.run {ctx : Sha1.Ctx} {xs : Bytes} (h : Absorbed ctx xs) {chunks : List Bytes}
    (hfit : ∀ data ∈ chunks, data.length + 63 < 2 ^ 32) :
    ∃ ctx', run (fun ctx data => Sha1.update ctx data (.ofNat data.length)) ctx chunks = .ok ctx' ∧
      Absorbed ctx' (xs ++ chunks.flatten) := by
  induction chunks generalizing ctx xs with
  | nil => exact ⟨ctx, rfl, by simpa using h⟩
  | cons data chunks ih =>
    have hdata := hfit data List.mem_cons_self
    have hlen : (UInt32.ofNat data.length).toNat = data.length := by
      rw [UInt32.toNat_ofNat']
      omega
    obtain ⟨ctx₁, hupdate, h₁⟩ := h.update hlen hdata
    obtain ⟨ctx', hrun, h'⟩ := ih h₁ (fun data hd => hfit data (List.mem_cons_of_mem _ hd))
    exact ⟨ctx', by rw [run_cons_ok hupdate, hrun], by rwa [List.flatten_cons, ← List.append_assoc]⟩

/-- However the bytes of a message are cut into updates, the digest is the hash of the message. -/
theorem final_updates (ctx : Sha1.Ctx) (chunks : List Bytes)
    (hfit : ∀ data ∈ chunks, data.length + 63 < 2 ^ 32) :
    (run (fun ctx data => update ctx data (.ofNat data.length)) (init ctx) chunks).bind final =
      .ok (SecureHash.hash chunks.flatten) := by
  obtain ⟨ctx', hrun, h⟩ := (absorbed_init ctx).run hfit
  rw [hrun]
  exact h.final

theorem final_updates_abc :
    (run (fun ctx data => update ctx data (.ofNat data.length))
      (init { state := .replicate 5 0, count := .replicate 2 0, buffer := .replicate 64 0 })
      [[97], [98, 99]]).bind final = .ok (SecureHash.hash [97, 98, 99]) :=
  final_updates _ [[97], [98, 99]] (by decide)

theorem Absorbed.updates {ctx : Sha1.Ctx} (h : Absorbed ctx []) (str : Bytes) {n : Nat}
    (hn : n ≤ str.length) : ∃ ctx', updates str n ctx = .ok ctx' ∧ Absorbed ctx' (str.take n) := by
  induction n with
  | zero => exact ⟨ctx, rfl, by simpa using h⟩
  | succ n ih =>
    obtain ⟨ctx₁, hupdates, h₁⟩ := ih (by omega)
    have hone : (str.drop n).take 1 = [str[n]] := by
      rw [List.drop_eq_getElem_cons hn]
      rfl
    have hlen : (1 : UInt32).toNat = [str[n]].length := rfl
    obtain ⟨ctx', hupdate, h'⟩ := h₁.update hlen (by simp)
    refine ⟨ctx', ?_, by rwa [List.take_succ_eq_append_getElem hn]⟩
    simp only [Sha1.updates, hupdates, readAt_ok hn, hone, bind, Except.bind, hupdate]

/-- The size of a string is taken as an `int` and the loop takes that as an unsigned number: of a
string of `2 ^ 32` bytes or more only a front is hashed. The byte behind `result` is always
cleared. -/
theorem sha1Easy_eq (ctx : Sha1.Ctx) (behind : Byte) (str : Bytes) : sha1Easy ctx behind str =
    .ok ((SecureHash.hash (str.take (str.length % 2 ^ 32))).flatMap hexByte, 0) := by
  have hsize : (Int.bmod str.length (2 ^ 32) % 2 ^ 32).toNat = str.length % 2 ^ 32 := by
    have hmod : Int.bmod str.length (2 ^ 32) % ((2 ^ 32 : Nat) : Int) =
        (str.length : Int) % ((2 ^ 32 : Nat) : Int) :=
      Int.bmod_emod
    omega
  obtain ⟨ctx', hupdates, h⟩ := (absorbed_init ctx).updates str (Nat.mod_le str.length (2 ^ 32))
  have hlength := SecureHash.length_hash (str.take (str.length % 2 ^ 32))
  have htake : (SecureHash.hash (str.take (str.length % 2 ^ 32)) ++ [0]).take 20 =
      SecureHash.hash (str.take (str.length % 2 ^ 32)) := by
    rw [List.take_append_of_le_length hlength.ge, List.take_of_length_le hlength.le]
  have hdrop : (SecureHash.hash (str.take (str.length % 2 ^ 32)) ++ [0]).drop 20 = [0] := by
    rw [List.drop_append_of_le_length hlength.ge, List.drop_eq_nil_of_le hlength.le,
      List.nil_append]
  unfold sha1Easy sha1
  rw [hsize, hupdates]
  simp only [bind, Except.bind, h.final, pure, Except.pure, htake, hdrop]
  rfl

end NetCpp.Proofs
