import NetCpp.Library.Streaming

namespace NetCpp.Library.SecureHash

abbrev Words := Vector UInt32 5

/-- Word `t` of bytes, the most significant byte first. -/
def word (bs : List UInt8) (t : Nat) : UInt32 :=
  (bs.getD (4 * t) 0).toUInt32 <<< 24 ||| (bs.getD (4 * t + 1) 0).toUInt32 <<< 16 |||
    (bs.getD (4 * t + 2) 0).toUInt32 <<< 8 ||| (bs.getD (4 * t + 3) 0).toUInt32

def rotl (x n : UInt32) : UInt32 := x <<< n ||| x >>> (32 - n)

def ch (x y z : UInt32) : UInt32 := (x &&& y) ^^^ (~~~x &&& z)

def parity (x y z : UInt32) : UInt32 := x ^^^ y ^^^ z

def maj (x y z : UInt32) : UInt32 := (x &&& y) ^^^ (x &&& z) ^^^ (y &&& z)

def logical (t : Nat) : UInt32 → UInt32 → UInt32 → UInt32 :=
  if t < 20 then ch else if t < 40 then parity else if t < 60 then maj else parity

def constant (t : Nat) : UInt32 :=
  if t < 20 then 0x5A827999 else if t < 40 then 0x6ED9EBA1 else if t < 60 then 0x8F1BBCDC
  else 0xCA62C1D6

/-- The schedule of a message block. -/
def schedule (m : Nat → UInt32) (t : Nat) : UInt32 :=
  if t < 16 then m t
  else rotl (schedule m (t - 3) ^^^ schedule m (t - 8) ^^^ schedule m (t - 14) ^^^
    schedule m (t - 16)) 1

theorem schedule_of_lt (m : Nat → UInt32) {t : Nat} (h : t < 16) : schedule m t = m t := by
  rw [schedule, if_pos h]

theorem schedule_of_le (m : Nat → UInt32) {t : Nat} (h : 16 ≤ t) : schedule m t =
    rotl (schedule m (t - 3) ^^^ schedule m (t - 8) ^^^ schedule m (t - 14) ^^^ schedule m (t - 16))
      1 := by
  rw [schedule, if_neg (Nat.not_lt.mpr h)]

/-- Round `t`: the variables `a` to `e` take the value of the one before them. -/
def round (w : Nat → UInt32) (h : Words) (t : Nat) : Words :=
  #v[rotl (h.get 0) 5 + logical t (h.get 1) (h.get 2) (h.get 3) + h.get 4 + constant t + w t,
    h.get 0, rotl (h.get 1) 30, h.get 2, h.get 3]

theorem round_mk (w : Nat → UInt32) (a b c d e : UInt32) (t : Nat) : round w #v[a, b, c, d, e] t =
    #v[rotl a 5 + logical t b c d + e + constant t + w t, a, rotl b 30, c, d] := rfl

def rounds (w : Nat → UInt32) (h : Words) : Nat → Words
  | 0 => h
  | t + 1 => round w (rounds w h t) t

def compress (h : Words) (block : List UInt8) : Words :=
  h.zipWith (· + ·) (rounds (schedule (word block)) h 80)

def initial : Words := Array.toVector #[0x67452301, 0xEFCDAB89, 0x98BADCFE, 0x10325476, 0xC3D2E1F0]

/-- The low `w` bytes of a number, the most significant first. -/
def bigEndian : Nat → Nat → List UInt8
  | 0, _ => []
  | w + 1, n => bigEndian w (n / 256) ++ [UInt8.ofNat n]

/-- The fewest zeros after which a block lacks eight bytes. -/
def zeros (n : Nat) : Nat := (119 - n % 64) % 64

/-- The message, a bit, zeros, and the number of its bits. -/
def padded (message : List UInt8) : List UInt8 :=
  message ++ 0x80 :: List.replicate (zeros message.length) 0 ++ bigEndian 8 (8 * message.length)

def hash (message : List UInt8) : List UInt8 :=
  (absorb 64 compress initial (padded message)).toList.flatMap (fun h => bigEndian 4 h.toNat)

@[simp] theorem length_bigEndian (w n : Nat) : (bigEndian w n).length = w := by
  induction w generalizing n with
  | zero => rfl
  | succ w ih => simp [bigEndian, ih]

theorem bigEndian_add (v w n : Nat) :
    bigEndian (v + w) n = bigEndian v (n / 256 ^ w) ++ bigEndian w n := by
  induction w generalizing n with
  | zero => simp [bigEndian]
  | succ w ih =>
    rw [← Nat.add_assoc, bigEndian, bigEndian, ih, Nat.div_div_eq_div_mul, ← Nat.pow_succ',
      List.append_assoc]

theorem bigEndian_mod (w n : Nat) : bigEndian w (n % 256 ^ w) = bigEndian w n := by
  induction w generalizing n with
  | zero => rfl
  | succ w ih =>
    have hhigh : n % 256 ^ (w + 1) / 256 = n / 256 % 256 ^ w := by
      rw [Nat.pow_succ', Nat.mod_mul_right_div_self]
    have hlow : UInt8.ofNat (n % 256 ^ (w + 1)) = UInt8.ofNat n := by
      apply UInt8.toNat_inj.mp
      rw [UInt8.toNat_ofNat', UInt8.toNat_ofNat', Nat.pow_succ', Nat.mod_mul_right_mod]
    rw [bigEndian, bigEndian, hhigh, ih, hlow]

theorem length_hash (message : List UInt8) : (hash message).length = 20 := by
  simp [hash, List.length_flatMap]

end NetCpp.Library.SecureHash
