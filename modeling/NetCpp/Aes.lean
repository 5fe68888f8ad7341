import NetCpp.Posts

namespace NetCpp

namespace Aes

set_option maxRecDepth 4096 in
def sbox : Vector Byte 256 := #v[
  0x63, 0x7c, 0x77, 0x7b, 0xf2, 0x6b, 0x6f, 0xc5, 0x30, 0x01, 0x67, 0x2b, 0xfe, 0xd7, 0xab, 0x76,
  0xca, 0x82, 0xc9, 0x7d, 0xfa, 0x59, 0x47, 0xf0, 0xad, 0xd4, 0xa2, 0xaf, 0x9c, 0xa4, 0x72, 0xc0,
  0xb7, 0xfd, 0x93, 0x26, 0x36, 0x3f, 0xf7, 0xcc, 0x34, 0xa5, 0xe5, 0xf1, 0x71, 0xd8, 0x31, 0x15,
  0x04, 0xc7, 0x23, 0xc3, 0x18, 0x96, 0x05, 0x9a, 0x07, 0x12, 0x80, 0xe2, 0xeb, 0x27, 0xb2, 0x75,
  0x09, 0x83, 0x2c, 0x1a, 0x1b, 0x6e, 0x5a, 0xa0, 0x52, 0x3b, 0xd6, 0xb3, 0x29, 0xe3, 0x2f, 0x84,
  0x53, 0xd1, 0x00, 0xed, 0x20, 0xfc, 0xb1, 0x5b, 0x6a, 0xcb, 0xbe, 0x39, 0x4a, 0x4c, 0x58, 0xcf,
  0xd0, 0xef, 0xaa, 0xfb, 0x43, 0x4d, 0x33, 0x85, 0x45, 0xf9, 0x02, 0x7f, 0x50, 0x3c, 0x9f, 0xa8,
  0x51, 0xa3, 0x40, 0x8f, 0x92, 0x9d, 0x38, 0xf5, 0xbc, 0xb6, 0xda, 0x21, 0x10, 0xff, 0xf3, 0xd2,
  0xcd, 0x0c, 0x13, 0xec, 0x5f, 0x97, 0x44, 0x17, 0xc4, 0xa7, 0x7e, 0x3d, 0x64, 0x5d, 0x19, 0x73,
  0x60, 0x81, 0x4f, 0xdc, 0x22, 0x2a, 0x90, 0x88, 0x46, 0xee, 0xb8, 0x14, 0xde, 0x5e, 0x0b, 0xdb,
  0xe0, 0x32, 0x3a, 0x0a, 0x49, 0x06, 0x24, 0x5c, 0xc2, 0xd3, 0xac, 0x62, 0x91, 0x95, 0xe4, 0x79,
  0xe7, 0xc8, 0x37, 0x6d, 0x8d, 0xd5, 0x4e, 0xa9, 0x6c, 0x56, 0xf4, 0xea, 0x65, 0x7a, 0xae, 0x08,
  0xba, 0x78, 0x25, 0x2e, 0x1c, 0xa6, 0xb4, 0xc6, 0xe8, 0xdd, 0x74, 0x1f, 0x4b, 0xbd, 0x8b, 0x8a,
  0x70, 0x3e, 0xb5, 0x66, 0x48, 0x03, 0xf6, 0x0e, 0x61, 0x35, 0x57, 0xb9, 0x86, 0xc1, 0x1d, 0x9e,
  0xe1, 0xf8, 0x98, 0x11, 0x69, 0xd9, 0x8e, 0x94, 0x9b, 0x1e, 0x87, 0xe9, 0xce, 0x55, 0x28, 0xdf,
  0x8c, 0xa1, 0x89, 0x0d, 0xbf, 0xe6, 0x42, 0x68, 0x41, 0x99, 0x2d, 0x0f, 0xb0, 0x54, 0xbb, 0x16]

set_option maxRecDepth 4096 in
def rsbox : Vector Byte 256 := #v[
  0x52, 0x09, 0x6a, 0xd5, 0x30, 0x36, 0xa5, 0x38, 0xbf, 0x40, 0xa3, 0x9e, 0x81, 0xf3, 0xd7, 0xfb,
  0x7c, 0xe3, 0x39, 0x82, 0x9b, 0x2f, 0xff, 0x87, 0x34, 0x8e, 0x43, 0x44, 0xc4, 0xde, 0xe9, 0xcb,
  0x54, 0x7b, 0x94, 0x32, 0xa6, 0xc2, 0x23, 0x3d, 0xee, 0x4c, 0x95, 0x0b, 0x42, 0xfa, 0xc3, 0x4e,
  0x08, 0x2e, 0xa1, 0x66, 0x28, 0xd9, 0x24, 0xb2, 0x76, 0x5b, 0xa2, 0x49, 0x6d, 0x8b, 0xd1, 0x25,
  0x72, 0xf8, 0xf6, 0x64, 0x86, 0x68, 0x98, 0x16, 0xd4, 0xa4, 0x5c, 0xcc, 0x5d, 0x65, 0xb6, 0x92,
  0x6c, 0x70, 0x48, 0x50, 0xfd, 0xed, 0xb9, 0xda, 0x5e, 0x15, 0x46, 0x57, 0xa7, 0x8d, 0x9d, 0x84,
  0x90, 0xd8, 0xab, 0x00, 0x8c, 0xbc, 0xd3, 0x0a, 0xf7, 0xe4, 0x58, 0x05, 0xb8, 0xb3, 0x45, 0x06,
  0xd0, 0x2c, 0x1e, 0x8f, 0xca, 0x3f, 0x0f, 0x02, 0xc1, 0xaf, 0xbd, 0x03, 0x01, 0x13, 0x8a, 0x6b,
  0x3a, 0x91, 0x11, 0x41, 0x4f, 0x67, 0xdc, 0xea, 0x97, 0xf2, 0xcf, 0xce, 0xf0, 0xb4, 0xe6, 0x73,
  0x96, 0xac, 0x74, 0x22, 0xe7, 0xad, 0x35, 0x85, 0xe2, 0xf9, 0x37, 0xe8, 0x1c, 0x75, 0xdf, 0x6e,
  0x47, 0xf1, 0x1a, 0x71, 0x1d, 0x29, 0xc5, 0x89, 0x6f, 0xb7, 0x62, 0x0e, 0xaa, 0x18, 0xbe, 0x1b,
  0xfc, 0x56, 0x3e, 0x4b, 0xc6, 0xd2, 0x79, 0x20, 0x9a, 0xdb, 0xc0, 0xfe, 0x78, 0xcd, 0x5a, 0xf4,
  0x1f, 0xdd, 0xa8, 0x33, 0x88, 0x07, 0xc7, 0x31, 0xb1, 0x12, 0x10, 0x59, 0x27, 0x80, 0xec, 0x5f,
  0x60, 0x51, 0x7f, 0xa9, 0x19, 0xb5, 0x4a, 0x0d, 0x2d, 0xe5, 0x7a, 0x9f, 0x93, 0xc9, 0x9c, 0xef,
  0xa0, 0xe0, 0x3b, 0x4d, 0xae, 0x2a, 0xf5, 0xb0, 0xc8, 0xeb, 0xbb, 0x3c, 0x83, 0x53, 0x99, 0x61,
  0x17, 0x2b, 0x04, 0x7e, 0xba, 0x77, 0xd6, 0x26, 0xe1, 0x69, 0x14, 0x63, 0x55, 0x21, 0x0c, 0x7d]

def rcon : Vector Byte 11 := #v[
  0x8d, 0x01, 0x02, 0x04, 0x08, 0x10, 0x20, 0x40, 0x80, 0x1b, 0x36]

/-- `state_t`: `(*state)[i][j]` is byte `4 * i + j` of the block that the pointer was cast from. -/
abbrev State := Vector Byte 16

/-- The words of four bytes in which the key is expanded. -/
abbrev Word := Vector Byte 4

abbrev RoundKey := Vector Byte 240

structure Ctx where
  roundKey : RoundKey
  iv : State
deriving DecidableEq

def getSBoxValue (num : Byte) : Byte := sbox.get ⟨num.toNat, num.toNat_lt⟩

def getSBoxInvert (num : Byte) : Byte := rsbox.get ⟨num.toNat, num.toNat_lt⟩

def RoundKey.getWord (roundKey : RoundKey) (i : Fin 60) : Word :=
  .ofFn (fun j => roundKey[4 * i.val + j])

def RoundKey.setWord (roundKey : RoundKey) (i : Fin 60) (w : Word) : RoundKey :=
  (((roundKey.set (4 * i.val) (w.get 0)).set (4 * i.val + 1) (w.get 1)).set (4 * i.val + 2)
    (w.get 2)).set
    (4 * i.val + 3) (w.get 3)

def rotWord (w : Word) : Word := #v[w.get 1, w.get 2, w.get 3, w.get 0]

def subWord (w : Word) : Word := w.map getSBoxValue

/-- `tempa[0] = tempa[0] ^ b` -/
def xorFirst (w : Word) (b : Byte) : Word := #v[w.get 0 ^^^ b, w.get 1, w.get 2, w.get 3]

/-- `tempa` when word `i` is about to be written. -/
def tempa (i : Fin 60) (w : Word) : Word :=
  if i.val % 8 = 0 then xorFirst (subWord (rotWord w)) rcon[i.val / 8]
  else if i.val % 8 = 4 then subWord w
  else w

def xorWord (v w : Word) : Word := v.zipWith (· ^^^ ·) w

/-- The body of the second loop. -/
def expandWord (roundKey : RoundKey) (i : Fin 60) : RoundKey :=
  roundKey.setWord i (xorWord (roundKey.getWord (i - 8)) (tempa i (roundKey.getWord (i - 1))))

/-- The first loop, which copies the key. -/
def copyKey (roundKey : RoundKey) (key : Vector Byte 32) : RoundKey :=
  .ofFn (fun j => if h : j.val < 32 then key[j.val] else roundKey[j])

/-- The second loop up to word `8 + n`. -/
def expandWords (roundKey : RoundKey) : (n : Nat) → n ≤ 52 → RoundKey
  | 0, _ => roundKey
  | n + 1, h => expandWord (expandWords roundKey n (by omega)) ⟨8 + n, by omega⟩

/-- The context is on the stack: `roundKey` is what stands there before. -/
def keyExpansion (roundKey : RoundKey) (key : Vector Byte 32) : RoundKey :=
  expandWords (copyKey roundKey key) 52 (by omega)

def initCtxIv (ctx : Ctx) (key : Vector Byte 32) (iv : State) : Ctx :=
  { roundKey := keyExpansion ctx.roundKey key, iv }

def State.get2 (state : State) (i j : Fin 4) : Byte := state[4 * i.val + j.val]

def State.set2 (state : State) (i j : Fin 4) (b : Byte) : State := state.set (4 * i.val + j.val) b

def addRoundKey (round : Fin 15) (state : State) (roundKey : RoundKey) : State :=
  .ofFn (fun k => state[k] ^^^ roundKey[16 * round.val + k])

def subBytes (state : State) : State := state.map getSBoxValue

def invSubBytes (state : State) : State := state.map getSBoxInvert

def shiftRows (state : State) : State :=
  let temp := state.get2 0 1
  let state := state.set2 0 1 (state.get2 1 1)
  let state := state.set2 1 1 (state.get2 2 1)
  let state := state.set2 2 1 (state.get2 3 1)
  let state := state.set2 3 1 temp
  let temp := state.get2 0 2
  let state := state.set2 0 2 (state.get2 2 2)
  let state := state.set2 2 2 temp
  let temp := state.get2 1 2
  let state := state.set2 1 2 (state.get2 3 2)
  let state := state.set2 3 2 temp
  let temp := state.get2 0 3
  let state := state.set2 0 3 (state.get2 3 3)
  let state := state.set2 3 3 (state.get2 2 3)
  let state := state.set2 2 3 (state.get2 1 3)
  state.set2 1 3 temp

def invShiftRows (state : State) : State :=
  let temp := state.get2 3 1
  let state := state.set2 3 1 (state.get2 2 1)
  let state := state.set2 2 1 (state.get2 1 1)
  let state := state.set2 1 1 (state.get2 0 1)
  let state := state.set2 0 1 temp
  let temp := state.get2 0 2
  let state := state.set2 0 2 (state.get2 2 2)
  let state := state.set2 2 2 temp
  let temp := state.get2 1 2
  let state := state.set2 1 2 (state.get2 3 2)
  let state := state.set2 3 2 temp
  let temp := state.get2 0 3
  let state := state.set2 0 3 (state.get2 1 3)
  let state := state.set2 1 3 (state.get2 2 3)
  let state := state.set2 2 3 (state.get2 3 3)
  state.set2 3 3 temp

def xtime (x : Byte) : Byte := (x <<< 1) ^^^ (((x >>> 7) &&& 1) * 0x1b)

def multiply (x y : Byte) : Byte :=
  ((y &&& 1) * x) ^^^ ((y >>> (1 : Byte) &&& (1 : Byte)) * xtime x) ^^^
    ((y >>> (2 : Byte) &&& (1 : Byte)) * xtime (xtime x)) ^^^
    ((y >>> (3 : Byte) &&& (1 : Byte)) * xtime (xtime (xtime x))) ^^^
    ((y >>> (4 : Byte) &&& (1 : Byte)) * xtime (xtime (xtime (xtime x))))

/-- The body of the loop of `MixColumns`. -/
def mixColumn (state : State) (i : Fin 4) : State :=
  let t := state.get2 i 0
  let tmp := state.get2 i 0 ^^^ state.get2 i 1 ^^^ state.get2 i 2 ^^^ state.get2 i 3
  let tm := xtime (state.get2 i 0 ^^^ state.get2 i 1)
  let state := state.set2 i 0 (state.get2 i 0 ^^^ (tm ^^^ tmp))
  let tm := xtime (state.get2 i 1 ^^^ state.get2 i 2)
  let state := state.set2 i 1 (state.get2 i 1 ^^^ (tm ^^^ tmp))
  let tm := xtime (state.get2 i 2 ^^^ state.get2 i 3)
  let state := state.set2 i 2 (state.get2 i 2 ^^^ (tm ^^^ tmp))
  let tm := xtime (state.get2 i 3 ^^^ t)
  state.set2 i 3 (state.get2 i 3 ^^^ (tm ^^^ tmp))

def mixColumns (state : State) : State :=
  mixColumn (mixColumn (mixColumn (mixColumn state 0) 1) 2) 3

/-- The body of the loop of `InvMixColumns`. -/
def invMixColumn (state : State) (i : Fin 4) : State :=
  let a := state.get2 i 0
  let b := state.get2 i 1
  let c := state.get2 i 2
  let d := state.get2 i 3
  let state :=
    state.set2 i 0 (multiply a 0x0e ^^^ multiply b 0x0b ^^^ multiply c 0x0d ^^^ multiply d 0x09)
  let state :=
    state.set2 i 1 (multiply a 0x09 ^^^ multiply b 0x0e ^^^ multiply c 0x0b ^^^ multiply d 0x0d)
  let state :=
    state.set2 i 2 (multiply a 0x0d ^^^ multiply b 0x09 ^^^ multiply c 0x0e ^^^ multiply d 0x0b)
  state.set2 i 3 (multiply a 0x0b ^^^ multiply b 0x0d ^^^ multiply c 0x09 ^^^ multiply d 0x0e)

def invMixColumns (state : State) : State :=
  invMixColumn (invMixColumn (invMixColumn (invMixColumn state 0) 1) 2) 3

/-- The loop of `Cipher` up to round `n`. -/
def rounds (roundKey : RoundKey) (state : State) : (n : Nat) → n ≤ 13 → State
  | 0, _ => state
  | n + 1, h =>
    let state := rounds roundKey state n (by omega)
    addRoundKey ⟨n + 1, by omega⟩ (mixColumns (shiftRows (subBytes state))) roundKey

def cipher (state : State) (roundKey : RoundKey) : State :=
  let state := addRoundKey 0 state roundKey
  let state := rounds roundKey state 13 (by omega)
  addRoundKey 14 (shiftRows (subBytes state)) roundKey

/-- The loop of `InvCipher` from round `n` down to round 1. -/
def invRounds (roundKey : RoundKey) : (n : Nat) → n ≤ 13 → State → State
  | 0, _, state => state
  | n + 1, h, state =>
    let state := invSubBytes (invShiftRows state)
    invRounds roundKey n (by omega) (invMixColumns (addRoundKey ⟨n + 1, by omega⟩ state roundKey))

def invCipher (state : State) (roundKey : RoundKey) : State :=
  let state := addRoundKey 14 state roundKey
  let state := invRounds roundKey 13 (by omega) state
  addRoundKey 0 (invSubBytes (invShiftRows state)) roundKey

def xorWithIv (buf iv : State) : State := buf.zipWith (· ^^^ ·) iv

theorem size_take (buf : Bytes) (h : 16 ≤ buf.length) : (buf.take 16).toArray.size = 16 := by
  simp [h]

/-- The 16 bytes that a pointer points to, and what is behind them. -/
def takeBlock (buf : Bytes) : Except Fault (State × Bytes) :=
  if h : 16 ≤ buf.length then
    .ok (⟨(buf.take 16).toArray, size_take buf h⟩, buf.drop 16)
  else .error .readOutside

/-- How often the loops over a buffer run: `i` is below `length`, in steps of 16. -/
def blocks (length : UInt32) : Nat := (length.toNat + 15) / 16

/-- The loop of `AES_CBC_encrypt_buffer` and the block that `Iv` points to after it. -/
def cbcEncrypt (roundKey : RoundKey) : Nat → State → Bytes → Except Fault (State × Bytes)
  | 0, iv, buf => .ok (iv, buf)
  | n + 1, iv, buf => do
    let (block, buf) ← takeBlock buf
    let block := cipher (xorWithIv block iv) roundKey
    let (iv, buf) ← cbcEncrypt roundKey n block buf
    return (iv, block.toList ++ buf)

def cbcEncryptBuffer (ctx : Ctx) (buf : Bytes) (length : UInt32) : Except Fault (Ctx × Bytes) := do
  let (iv, buf) ← cbcEncrypt ctx.roundKey (blocks length) ctx.iv buf
  return ({ ctx with iv }, buf)

/-- The loop of `AES_CBC_decrypt_buffer`. -/
def cbcDecrypt (roundKey : RoundKey) : Nat → State → Bytes → Except Fault (State × Bytes)
  | 0, iv, buf => .ok (iv, buf)
  | n + 1, iv, buf => do
    let (storeNextIv, buf) ← takeBlock buf
    let block := xorWithIv (invCipher storeNextIv roundKey) iv
    let (iv, buf) ← cbcDecrypt roundKey n storeNextIv buf
    return (iv, block.toList ++ buf)

def cbcDecryptBuffer (ctx : Ctx) (buf : Bytes) (length : UInt32) : Except Fault (Ctx × Bytes) := do
  let (iv, buf) ← cbcDecrypt ctx.roundKey (blocks length) ctx.iv buf
  return ({ ctx with iv }, buf)

/-- The loop that counts `Iv` up, from byte `n - 1` down. -/
def increment : (n : Nat) → n ≤ 16 → State → State
  | 0, _, iv => iv
  | n + 1, h, iv =>
    if iv[n] = 255 then increment n (by omega) (iv.set n 0) else iv.set n (iv[n] + 1)

/-- The variables of `AES_CTR_xcrypt_buffer`. -/
structure Xcrypt where
  iv : State
  buffer : State
  bi : Fin 17

def xcryptByte (roundKey : RoundKey) (st : Xcrypt) (b : Byte) : Xcrypt × Byte :=
  if h : st.bi.val = 16 then
    let buffer := cipher st.iv roundKey
    ({ iv := increment 16 (by omega) st.iv, buffer, bi := 1 }, b ^^^ buffer[0])
  else ({ st with bi := ⟨st.bi + 1, by omega⟩ }, b ^^^ st.buffer[st.bi.val])

def xcrypt (roundKey : RoundKey) : Xcrypt → Bytes → Xcrypt × Bytes
  | st, [] => (st, [])
  | st, b :: buf =>
    let (st, b) := xcryptByte roundKey st b
    let (st, buf) := xcrypt roundKey st buf
    (st, b :: buf)

/-- `buffer` is not initialised. -/
def ctrXcryptBuffer (ctx : Ctx) (buffer : State) (buf : Bytes) (length : UInt32) :
    Except Fault (Ctx × Bytes) :=
  if buf.length < length.toNat then .error .readOutside
  else
    let (st, out) := xcrypt ctx.roundKey { iv := ctx.iv, buffer, bi := 16 } (buf.take length.toNat)
    .ok ({ ctx with iv := st.iv }, out ++ buf.drop length.toNat)

/-- `AES_init_ctx_iv` reads 32 bytes of the key and 16 of the vector. -/
def readCtx (key iv : Bytes) : Option Ctx :=
  if h : 32 ≤ key.length ∧ 16 ≤ iv.length then
    some (initCtxIv { roundKey := .replicate 240 0, iv := .replicate 16 0 }
      ⟨(key.take 32).toArray, by simp [h.1]⟩ ⟨(iv.take 16).toArray, by simp [h.2]⟩)
  else none

/-- A buffer that a call changes, and that stays as it is where the call does not return. -/
def change (f : Ctx → Bytes → UInt32 → Except Fault (Ctx × Bytes)) (key iv s : Bytes) : Bytes :=
  match readCtx key iv with
  | none => s
  | some ctx =>
    match f ctx s (.ofNat s.length) with
    | .error _ => s
    | .ok (_, s) => s

end Aes

end NetCpp
