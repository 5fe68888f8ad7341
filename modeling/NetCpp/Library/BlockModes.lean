import Mathlib

namespace NetCpp.Library

/-- A block cipher under one key, with the operation that chains its blocks. -/
structure BlockCipher (β : Type) where
  encrypt : β → β
  decrypt : β → β
  mask : β → β → β

/-- A mask undoes itself. -/
structure BlockCipher.Lawful (c : BlockCipher β) : Prop where
  decrypt_encrypt : ∀ b, c.decrypt (c.encrypt b) = b
  encrypt_decrypt : ∀ b, c.encrypt (c.decrypt b) = b
  mask_mask : ∀ b k, c.mask (c.mask b k) k = b

namespace BlockCipher
variable (c : BlockCipher β)

/-- Cipher block chaining, with the vector for the blocks that follow. -/
def cbcEncrypt : β → List β → β × List β
  | iv, [] => (iv, [])
  | iv, b :: bs =>
    let r := cbcEncrypt (c.encrypt (c.mask b iv)) bs
    (r.1, c.encrypt (c.mask b iv) :: r.2)

def cbcDecrypt : β → List β → β × List β
  | iv, [] => (iv, [])
  | iv, e :: es =>
    let r := cbcDecrypt e es
    (r.1, c.mask (c.decrypt e) iv :: r.2)

@[simp] theorem length_cbcEncrypt (iv : β) (bs : List β) :
    (c.cbcEncrypt iv bs).2.length = bs.length := by
  induction bs generalizing iv with
  | nil => rfl
  | cons b bs ih => simp [cbcEncrypt, ih]

@[simp] theorem length_cbcDecrypt (iv : β) (es : List β) :
    (c.cbcDecrypt iv es).2.length = es.length := by
  induction es generalizing iv with
  | nil => rfl
  | cons e es ih => simp [cbcDecrypt, ih]

theorem cbcEncrypt_append (iv : β) (bs bs' : List β) : c.cbcEncrypt iv (bs ++ bs') =
    ((c.cbcEncrypt (c.cbcEncrypt iv bs).1 bs').1,
      (c.cbcEncrypt iv bs).2 ++ (c.cbcEncrypt (c.cbcEncrypt iv bs).1 bs').2) := by
  induction bs generalizing iv with
  | nil => rfl
  | cons b bs ih => simp only [List.cons_append, cbcEncrypt, ih]

theorem cbcDecrypt_append (iv : β) (es es' : List β) : c.cbcDecrypt iv (es ++ es') =
    ((c.cbcDecrypt (c.cbcDecrypt iv es).1 es').1,
      (c.cbcDecrypt iv es).2 ++ (c.cbcDecrypt (c.cbcDecrypt iv es).1 es').2) := by
  induction es generalizing iv with
  | nil => rfl
  | cons e es ih => simp only [List.cons_append, cbcDecrypt, ih]

/-- Both sides end with the same vector. -/
theorem cbcDecrypt_cbcEncrypt (h : c.Lawful) (iv : β) (bs : List β) :
    c.cbcDecrypt iv (c.cbcEncrypt iv bs).2 = ((c.cbcEncrypt iv bs).1, bs) := by
  induction bs generalizing iv with
  | nil => rfl
  | cons b bs ih => simp only [cbcEncrypt, cbcDecrypt, ih, h.decrypt_encrypt, h.mask_mask]

theorem cbcEncrypt_cbcDecrypt (h : c.Lawful) (iv : β) (es : List β) :
    c.cbcEncrypt iv (c.cbcDecrypt iv es).2 = ((c.cbcDecrypt iv es).1, es) := by
  induction es generalizing iv with
  | nil => rfl
  | cons e es ih => simp only [cbcEncrypt, cbcDecrypt, h.mask_mask, h.encrypt_decrypt, ih]

theorem cbcEncrypt_injective (h : c.Lawful) {iv : β} {bs bs' : List β}
    (heq : (c.cbcEncrypt iv bs).2 = (c.cbcEncrypt iv bs').2) : bs = bs' := by
  have hbs := c.cbcDecrypt_cbcEncrypt h iv bs
  rw [heq, cbcDecrypt_cbcEncrypt c h] at hbs
  exact (congrArg Prod.snd hbs).symm

theorem take_cbcEncrypt (iv : β) (bs : List β) (k : Nat) :
    (c.cbcEncrypt iv bs).2.take k = (c.cbcEncrypt iv (bs.take k)).2 := by
  induction bs generalizing iv k with
  | nil => simp [cbcEncrypt]
  | cons b bs ih =>
    cases k with
    | zero => rfl
    | succ k => simp [cbcEncrypt, ih]

/-- Under one vector, equal beginnings show, and nothing else does. -/
theorem take_cbcEncrypt_eq_iff (h : c.Lawful) (iv : β) (bs bs' : List β) (k : Nat) :
    (c.cbcEncrypt iv bs).2.take k = (c.cbcEncrypt iv bs').2.take k ↔ bs.take k = bs'.take k := by
  rw [take_cbcEncrypt, take_cbcEncrypt]
  exact ⟨c.cbcEncrypt_injective h, fun heq => by rw [heq]⟩

/-- A block is decrypted from its cipher block and the one before. -/
theorem getElem?_cbcDecrypt (iv : β) (es : List β) (m : Nat) :
    (c.cbcDecrypt iv es).2[m]? =
      es[m]?.map (fun e => c.mask (c.decrypt e) ((iv :: es)[m]?.getD iv)) := by
  induction es generalizing iv m with
  | nil => rfl
  | cons e es ih =>
    cases m with
    | zero => rfl
    | succ m =>
      simp only [cbcDecrypt, List.getElem?_cons_succ, ih]
      cases hm : es[m]? with
      | none => rfl
      | some e' =>
        have hlt : m < (e :: es).length := by
          have := (List.getElem?_eq_some_iff.mp hm).1
          simp only [List.length_cons]
          omega
        rw [List.getElem?_eq_getElem hlt]
        rfl

end BlockCipher

end NetCpp.Library
