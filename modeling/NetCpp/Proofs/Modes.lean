import NetCpp.Proofs.Cipher
import NetCpp.Library.Runs

namespace NetCpp.Proofs
open Library Aes

def aesCipher (rk : RoundKey) : BlockCipher State where
  encrypt s := cipher s rk
  decrypt s := invCipher s rk
  mask := xorWithIv

theorem xorWithIv_xorWithIv (s iv : State) : xorWithIv (xorWithIv s iv) iv = s := by
  apply Vector.ext
  intro k hk
  simp [xorWithIv]

theorem aesCipher_lawful (rk : RoundKey) : (aesCipher rk).Lawful where
  decrypt_encrypt s := invCipher_cipher s rk
  encrypt_decrypt s := cipher_invCipher s rk
  mask_mask := xorWithIv_xorWithIv

def text (bs : List State) : Bytes := bs.flatMap Vector.toList

@[simp] theorem length_text (bs : List State) : (text bs).length = 16 * bs.length := by
  induction bs with
  | nil => rfl
  | cons b bs ih =>
    have hb : b.toList.length = 16 := Vector.length_toList
    simp only [text, List.flatMap_cons, List.length_append, List.length_cons] at ih ⊢
    omega

theorem text_append (bs bs' : List State) : text (bs ++ bs') = text bs ++ text bs' := by
  simp [text]

theorem takeBlock_append (b : State) (rest : Bytes) :
    takeBlock (b.toList ++ rest) = .ok (b, rest) := by
  have hb : b.toList.length = 16 := Vector.length_toList
  have htake : (b.toList ++ rest).take 16 = b.toList := List.take_left' hb
  have hdrop : (b.toList ++ rest).drop 16 = rest := List.drop_left' hb
  have hle : 16 ≤ (b.toList ++ rest).length := by
    rw [List.length_append]
    omega
  rw [takeBlock, dif_pos hle]
  congr 2
  apply Vector.toList_inj.mp
  simp [htake]

theorem takeBlock_short {buf : Bytes} (h : buf.length < 16) :
    takeBlock buf = .error .readOutside := by
  rw [takeBlock, dif_neg (by omega)]

theorem exists_block {buf : Bytes} (h : 16 ≤ buf.length) : ∃ (b : State) (rest : Bytes),
    buf = b.toList ++ rest :=
  ⟨⟨(buf.take 16).toArray, by simp [h]⟩, buf.drop 16, by simp⟩

theorem exists_blocks {n : Nat} {buf : Bytes} (h : 16 * n ≤ buf.length) :
    ∃ (bs : List State) (rest : Bytes), bs.length = n ∧ buf = text bs ++ rest := by
  induction n generalizing buf with
  | zero => exact ⟨[], buf, rfl, rfl⟩
  | succ n ih =>
    obtain ⟨b, rest, rfl⟩ := exists_block (by omega : 16 ≤ buf.length)
    have hb : b.toList.length = 16 := Vector.length_toList
    obtain ⟨bs, rest, rfl, rfl⟩ := @ih rest (by
      rw [List.length_append] at h
      omega)
    exact ⟨b :: bs, rest, rfl, by simp [text]⟩

theorem text_injective {bs bs' : List State} (h : text bs = text bs') : bs = bs' := by
  induction bs generalizing bs' with
  | nil =>
    have hlen := congrArg List.length h
    simp only [length_text, List.length_nil] at hlen
    exact (List.length_eq_zero_iff.mp (by omega)).symm
  | cons b bs ih =>
    cases bs' with
    | nil =>
      have hlen := congrArg List.length h
      simp at hlen
    | cons b' bs' =>
      have hlen : b.toList.length = b'.toList.length := by simp
      simp only [text, List.flatMap_cons] at h
      obtain ⟨hhead, htail⟩ := List.append_inj h hlen
      rw [Vector.toList_inj.mp hhead, ih htail]

theorem cbcEncrypt_text (rk : RoundKey) (iv : State) (bs : List State) (rest : Bytes) :
    cbcEncrypt rk bs.length iv (text bs ++ rest) =
      .ok (((aesCipher rk).cbcEncrypt iv bs).1,
        text ((aesCipher rk).cbcEncrypt iv bs).2 ++ rest) := by
  induction bs generalizing iv with
  | nil => rfl
  | cons b bs ih =>
    have hsplit : text (b :: bs) ++ rest = b.toList ++ (text bs ++ rest) := by simp [text]
    rw [hsplit, List.length_cons, cbcEncrypt, takeBlock_append]
    simp only [bind, Except.bind, ih]
    simp [BlockCipher.cbcEncrypt, aesCipher, text, pure, Except.pure]

theorem cbcDecrypt_text (rk : RoundKey) (iv : State) (es : List State) (rest : Bytes) :
    cbcDecrypt rk es.length iv (text es ++ rest) =
      .ok (((aesCipher rk).cbcDecrypt iv es).1,
        text ((aesCipher rk).cbcDecrypt iv es).2 ++ rest) := by
  induction es generalizing iv with
  | nil => rfl
  | cons e es ih =>
    have hsplit : text (e :: es) ++ rest = e.toList ++ (text es ++ rest) := by simp [text]
    rw [hsplit, List.length_cons, cbcDecrypt, takeBlock_append]
    simp only [bind, Except.bind, ih]
    simp [BlockCipher.cbcDecrypt, aesCipher, text, pure, Except.pure]

theorem blocks_of_dvd {n : Nat} (hn : n < 2 ^ 32) (h : 16 ∣ n) : 16 * blocks (.ofNat n) = n := by
  have hmod : (UInt32.ofNat n).toNat = n := by
    rw [UInt32.toNat_ofNat']
    exact Nat.mod_eq_of_lt hn
  rw [blocks, hmod]
  omega

theorem cbcEncryptBuffer_text (ctx : Ctx) (bs : List State) (rest : Bytes) (length : UInt32)
    (h : blocks length = bs.length) : cbcEncryptBuffer ctx (text bs ++ rest) length =
      .ok ({ ctx with iv := ((aesCipher ctx.roundKey).cbcEncrypt ctx.iv bs).1 },
        text ((aesCipher ctx.roundKey).cbcEncrypt ctx.iv bs).2 ++ rest) := by
  rw [cbcEncryptBuffer, h, cbcEncrypt_text]
  rfl

theorem cbcDecryptBuffer_text (ctx : Ctx) (es : List State) (rest : Bytes) (length : UInt32)
    (h : blocks length = es.length) : cbcDecryptBuffer ctx (text es ++ rest) length =
      .ok ({ ctx with iv := ((aesCipher ctx.roundKey).cbcDecrypt ctx.iv es).1 },
        text ((aesCipher ctx.roundKey).cbcDecrypt ctx.iv es).2 ++ rest) := by
  rw [cbcDecryptBuffer, h, cbcDecrypt_text]
  rfl

section pieces
variable (f : Ctx → Bytes → UInt32 → Except Fault (Ctx × Bytes))

/-- One call on a whole buffer, with the context that the call before left. -/
def piece (st : Ctx × Bytes) (buf : Bytes) : Except Fault (Ctx × Bytes) := do
  let (ctx, out) ← f st.1 buf (.ofNat buf.length)
  return (ctx, st.2 ++ out)

/-- Buffers that no call runs out of. -/
def WholeBlocks (pieces : List Bytes) : Prop := ∀ p ∈ pieces, 16 ∣ p.length ∧ p.length < 2 ^ 32

instance (pieces : List Bytes) : Decidable (WholeBlocks pieces) :=
  inferInstanceAs (Decidable (∀ p ∈ pieces, _))

/-- Calls that chain their blocks make one call of many, wherever the stream is cut. -/
theorem run_piece {mode : RoundKey → State → List State → State × List State}
    (hmode : ∀ (ctx : Ctx) (bs : List State) (length : UInt32), blocks length = bs.length →
      f ctx (text bs) length = .ok ({ ctx with iv := (mode ctx.roundKey ctx.iv bs).1 },
        text (mode ctx.roundKey ctx.iv bs).2))
    (hnil : ∀ rk iv, mode rk iv [] = (iv, []))
    (happend : ∀ rk iv bs bs', mode rk iv (bs ++ bs') = ((mode rk (mode rk iv bs).1 bs').1,
      (mode rk iv bs).2 ++ (mode rk (mode rk iv bs).1 bs').2))
    {pieces : List Bytes} (h : WholeBlocks pieces) (ctx : Ctx) (out : Bytes) : ∃ bs : List State,
      pieces.flatten = text bs ∧ run (piece f) (ctx, out) pieces =
        .ok ({ ctx with iv := (mode ctx.roundKey ctx.iv bs).1 },
          out ++ text (mode ctx.roundKey ctx.iv bs).2) := by
  induction pieces generalizing ctx out with
  | nil => exact ⟨[], rfl, by simp [hnil, text]⟩
  | cons p pieces ih =>
    obtain ⟨hdvd, hlt⟩ := h p List.mem_cons_self
    have hlen := blocks_of_dvd hlt hdvd
    obtain ⟨bs, rest, hbs, hp⟩ := exists_blocks (n := blocks (.ofNat p.length)) (Nat.le_of_eq hlen)
    have hrest : rest = [] := by
      have := congrArg List.length hp
      rw [List.length_append, length_text] at this
      exact List.length_eq_zero_iff.mp (by omega)
    rw [hrest, List.append_nil] at hp
    have hcall := hmode ctx bs (.ofNat p.length) hbs.symm
    rw [← hp] at hcall
    obtain ⟨bs', hflat, hrun⟩ := ih (fun q hq => h q (List.mem_cons_of_mem p hq))
      { ctx with
        iv := (mode ctx.roundKey ctx.iv bs).1 } (out ++ text (mode ctx.roundKey ctx.iv bs).2)
    refine ⟨bs ++ bs', by rw [List.flatten_cons, hflat, text_append, ← hp], ?_⟩
    have hfirst : piece f (ctx, out) p = .ok ({ ctx with iv := (mode ctx.roundKey ctx.iv bs).1 },
        out ++ text (mode ctx.roundKey ctx.iv bs).2) := by
      rw [piece, hcall]
      rfl
    rw [run_cons_ok hfirst, hrun]
    simp only [happend, text_append, List.append_assoc]

end pieces

theorem run_encrypt {pieces : List Bytes} (h : WholeBlocks pieces) (ctx : Ctx) : ∃ bs : List State,
    pieces.flatten = text bs ∧ run (piece cbcEncryptBuffer) (ctx, []) pieces =
      .ok ({ ctx with iv := ((aesCipher ctx.roundKey).cbcEncrypt ctx.iv bs).1 },
        text ((aesCipher ctx.roundKey).cbcEncrypt ctx.iv bs).2) := by
  have hmode : ∀ (ctx : Ctx) (bs : List State) (length : UInt32), blocks length = bs.length →
      cbcEncryptBuffer ctx (text bs) length =
        .ok ({ ctx with iv := ((aesCipher ctx.roundKey).cbcEncrypt ctx.iv bs).1 },
          text ((aesCipher ctx.roundKey).cbcEncrypt ctx.iv bs).2) := by
    intro ctx bs length hlen
    simpa using cbcEncryptBuffer_text ctx bs [] length hlen
  exact @run_piece cbcEncryptBuffer (fun rk => (aesCipher rk).cbcEncrypt) hmode (fun _ _ => rfl)
    (fun rk => (aesCipher rk).cbcEncrypt_append) pieces h ctx []

theorem run_decrypt {pieces : List Bytes} (h : WholeBlocks pieces) (ctx : Ctx) : ∃ es : List State,
    pieces.flatten = text es ∧ run (piece cbcDecryptBuffer) (ctx, []) pieces =
      .ok ({ ctx with iv := ((aesCipher ctx.roundKey).cbcDecrypt ctx.iv es).1 },
        text ((aesCipher ctx.roundKey).cbcDecrypt ctx.iv es).2) := by
  have hmode : ∀ (ctx : Ctx) (bs : List State) (length : UInt32), blocks length = bs.length →
      cbcDecryptBuffer ctx (text bs) length =
        .ok ({ ctx with iv := ((aesCipher ctx.roundKey).cbcDecrypt ctx.iv bs).1 },
          text ((aesCipher ctx.roundKey).cbcDecrypt ctx.iv bs).2) := by
    intro ctx bs length hlen
    simpa using cbcDecryptBuffer_text ctx bs [] length hlen
  exact @run_piece cbcDecryptBuffer (fun rk => (aesCipher rk).cbcDecrypt) hmode (fun _ _ => rfl)
    (fun rk => (aesCipher rk).cbcDecrypt_append) pieces h ctx []

/-- What one context encrypts in any pieces, another with the same key and vector decrypts in any
others, and both end with the same vector. -/
theorem run_decrypt_encrypt (ctx : Ctx) {pieces : List Bytes} (hpieces : WholeBlocks pieces) :
    ∃ ctx' out, run (piece cbcEncryptBuffer) (ctx, []) pieces = .ok (ctx', out) ∧
      out.length = pieces.flatten.length ∧
      ∀ cuts, WholeBlocks cuts → cuts.flatten = out →
        run (piece cbcDecryptBuffer) (ctx, []) cuts = .ok (ctx', pieces.flatten) := by
  obtain ⟨bs, hflat, hrun⟩ := run_encrypt hpieces ctx
  refine ⟨_, _, hrun, by simp [hflat], ?_⟩
  intro cuts hcuts hout
  obtain ⟨es, hes, hback⟩ := run_decrypt hcuts ctx
  rw [hout] at hes
  obtain rfl := text_injective hes
  rw [hback, BlockCipher.cbcDecrypt_cbcEncrypt _ (aesCipher_lawful ctx.roundKey), hflat]

/-- Three blocks, in two calls at one end and in two other calls at the other. -/
theorem run_decrypt_encrypt_three : ∃ ctx' out,
    run (piece cbcEncryptBuffer) (⟨.replicate 240 1, .replicate 16 2⟩, [])
      [List.replicate 16 3, List.replicate 32 4] = .ok (ctx', out) ∧
    run (piece cbcDecryptBuffer) (⟨.replicate 240 1, .replicate 16 2⟩, [])
    [out.take 32, out.drop 32] =
      .ok (ctx', List.replicate 16 3 ++ List.replicate 32 4) := by
  obtain ⟨ctx', out, hrun, hlen, hcuts⟩ := @run_decrypt_encrypt ⟨.replicate 240 1, .replicate 16 2⟩
    [List.replicate 16 3, List.replicate 32 4] (by decide)
  have h48 : out.length = 48 := hlen
  refine ⟨ctx', out, hrun, hcuts [out.take 32, out.drop 32] ?_ (by simp)⟩
  intro p hp
  rcases List.mem_pair.mp hp with rfl | rfl <;> simp [h48]

theorem takeBlock_ok {buf rest : Bytes} {b : State} (h : takeBlock buf = .ok (b, rest)) :
    buf = b.toList ++ rest := by
  rcases Nat.lt_or_ge buf.length 16 with hlt | hge
  · rw [takeBlock_short hlt] at h
    cases h
  · obtain ⟨b', rest', rfl⟩ := exists_block hge
    rw [takeBlock_append] at h
    cases h
    rfl

theorem length_cbcEncrypt {rk : RoundKey} {n : Nat} {iv iv' : State} {buf out : Bytes}
    (h : cbcEncrypt rk n iv buf = .ok (iv', out)) : out.length = buf.length := by
  induction n generalizing iv buf out with
  | zero =>
    cases h
    rfl
  | succ n ih =>
    obtain ⟨⟨b, rest⟩, hb, h⟩ := bind_ok h
    obtain ⟨⟨iv₁, out₁⟩, hrest, h⟩ := bind_ok h
    cases h
    simp [takeBlock_ok hb, ih hrest]

theorem length_cbcDecrypt {rk : RoundKey} {n : Nat} {iv iv' : State} {buf out : Bytes}
    (h : cbcDecrypt rk n iv buf = .ok (iv', out)) : out.length = buf.length := by
  induction n generalizing iv buf out with
  | zero =>
    cases h
    rfl
  | succ n ih =>
    obtain ⟨⟨b, rest⟩, hb, h⟩ := bind_ok h
    obtain ⟨⟨iv₁, out₁⟩, hrest, h⟩ := bind_ok h
    cases h
    simp [takeBlock_ok hb, ih hrest]

theorem length_change {f : Ctx → Bytes → UInt32 → Except Fault (Ctx × Bytes)}
    (hf : ∀ {ctx buf length ctx' out}, f ctx buf length = .ok (ctx', out) → out.length = buf.length)
    (key iv s : Bytes) : (change f key iv s).length = s.length := by
  rw [change]
  split
  · rfl
  · split
    · rfl
    · rename_i hcall
      exact hf hcall

theorem length_cbcEncryptBuffer {ctx ctx' : Ctx} {buf out : Bytes} {length : UInt32}
    (h : cbcEncryptBuffer ctx buf length = .ok (ctx', out)) : out.length = buf.length := by
  obtain ⟨⟨iv, out₁⟩, hloop, h⟩ := bind_ok h
  cases h
  exact length_cbcEncrypt hloop

theorem length_cbcDecryptBuffer {ctx ctx' : Ctx} {buf out : Bytes} {length : UInt32}
    (h : cbcDecryptBuffer ctx buf length = .ok (ctx', out)) : out.length = buf.length := by
  obtain ⟨⟨iv, out₁⟩, hloop, h⟩ := bind_ok h
  cases h
  exact length_cbcDecrypt hloop

end NetCpp.Proofs
