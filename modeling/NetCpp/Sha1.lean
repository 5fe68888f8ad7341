import NetCpp.Basic

namespace NetCpp

namespace Sha1

/-- `CHAR64LONG16` on a machine that stores the least significant byte first. -/
abbrev Char64Long16 := Vector UInt32 16

def rol (value bits : UInt32) : UInt32 := value <<< bits ||| value >>> (32 - bits)

/-- `memcpy(block, buffer, 64)`, and the word that the bytes from `4 * i` are. -/
def load (buffer : Vector Byte 64) : Char64Long16 :=
  .ofFn (fun i =>
    buffer[4 * i.val].toUInt32 ||| buffer[4 * i.val + 1].toUInt32 <<< 8 |||
      buffer[4 * i.val + 2].toUInt32 <<< 16 ||| buffer[4 * i.val + 3].toUInt32 <<< 24)

theorem mod_sixteen_lt (i : Nat) : i % 16 < 16 := Nat.mod_lt i (by decide)

def blk0 (block : Char64Long16) (i : Nat) : Char64Long16 :=
  let l := block.get (.ofNat 16 i)
  block.set (i % 16) ((rol l 24 &&& 0xFF00FF00) ||| (rol l 8 &&& 0x00FF00FF)) (mod_sixteen_lt i)

def blk (block : Char64Long16) (i : Nat) : Char64Long16 :=
  block.set (i % 16) (rol (block.get (.ofNat 16 (i + 13)) ^^^ block.get (.ofNat 16 (i + 8)) ^^^
    block.get (.ofNat 16 (i + 2)) ^^^ block.get (.ofNat 16 i)) 1) (mod_sixteen_lt i)

/-- The variables `a` to `e` and the block. -/
structure Working where
  vars : Vector UInt32 5
  block : Char64Long16

/-- What the macros `R0` to `R4` have in common. -/
def r (f : UInt32 → UInt32 → UInt32 → UInt32) (expand : Char64Long16 → Nat → Char64Long16)
    (k : UInt32) (v w x y z : Fin 5) (i : Nat) (s : Working) : Working :=
  let block := expand s.block i
  let sum := f (s.vars.get w) (s.vars.get x) (s.vars.get y) + block.get (.ofNat 16 i) + k +
    rol (s.vars.get v) 5
  let vars := s.vars.set z.val (s.vars.get z + sum)
  { vars := vars.set w.val (rol (vars.get w) 30), block }

def r0 := r (fun w x y => (w &&& (x ^^^ y)) ^^^ y) blk0 0x5A827999

def r1 := r (fun w x y => (w &&& (x ^^^ y)) ^^^ y) blk 0x5A827999

def r2 := r (fun w x y => w ^^^ x ^^^ y) blk 0x6ED9EBA1

def r3 := r (fun w x y => ((w ||| x) &&& y) ||| (w &&& x)) blk 0x8F1BBCDC

def r4 := r (fun w x y => w ^^^ x ^^^ y) blk 0xCA62C1D6

/-- Argument `k` of line `i`: the lines take the five variables in turn. -/
def argument (i k : Nat) : Fin 5 := ⟨(k + 4 * i) % 5, Nat.mod_lt _ (by decide)⟩

/-- Line `i` of the unrolled loop. -/
def line (s : Working) (i : Nat) : Working :=
  (if i < 16 then r0 else if i < 20 then r1 else if i < 40 then r2 else if i < 60 then r3 else r4)
    (argument i 0) (argument i 1) (argument i 2) (argument i 3) (argument i 4) i s

/-- The first `n` lines of the unrolled loop. -/
def lines (s : Working) : Nat → Working
  | 0 => s
  | n + 1 => line (lines s n) n

def transform (state : Vector UInt32 5) (buffer : Vector Byte 64) : Vector UInt32 5 :=
  state.zipWith (· + ·) (lines { vars := state, block := load buffer } 80).vars

/-- `SHA1_CTX` -/
structure Ctx where
  state : Vector UInt32 5
  count : Vector UInt32 2
  buffer : Vector Byte 64
deriving DecidableEq

/-- The buffer stays as it was. -/
def init (ctx : Ctx) : Ctx :=
  { ctx with
    state := #v[0x67452301, 0xEFCDAB89, 0x98BADCFE, 0x10325476, 0xC3D2E1F0]
    count := #v[0, 0] }

/-- `memcpy` of `n` bytes from `data + i`. -/
def readAt (data : Bytes) (i n : Nat) : Except Fault Bytes :=
  if i + n ≤ data.length then .ok ((data.drop i).take n) else .error .readOutside

/-- `memcpy` to `&context->buffer[j]` -/
def writeAt (buffer : Vector Byte 64) (j : Nat) (bs : Bytes) : Except Fault (Vector Byte 64) :=
  if j + bs.length ≤ 64 then
    .ok (.ofFn (fun k => if j ≤ k.val then bs.getD (k.val - j) buffer[k] else buffer[k]))
  else .error .writeOutside

/-- The 64 bytes that `&data[i]` points to. -/
def blockAt (data : Bytes) (i : Nat) : Except Fault (Vector Byte 64) :=
  (readAt data i 64).map (fun bs => .ofFn (fun k => bs.getD k 0))

/-- The loop of `SHA1Update`. Each turn reads 64 more bytes of `data`. -/
def updateLoop (data : Bytes) (len : UInt32) : Nat → UInt32 → Vector UInt32 5 →
    Except Fault (UInt32 × Vector UInt32 5)
  | 0, _, _ => .error .diverges
  | fuel + 1, i, state =>
    if i + 63 < len then do
      let block ← blockAt data i.toNat
      updateLoop data len fuel (i + 64) (transform state block)
    else .ok (i, state)

def counted (count : Vector UInt32 2) (len : UInt32) : Vector UInt32 2 :=
  let low := count.get 0 + len <<< 3
  let high := if low < count.get 0 then count.get 1 + 1 else count.get 1
  #v[low, high + len >>> 29]

def update (ctx : Ctx) (data : Bytes) (len : UInt32) : Except Fault Ctx := do
  let j := ctx.count.get 0 >>> 3 &&& 63
  let count := counted ctx.count len
  if j + len > 63 then
    let i := 64 - j
    let buffer ← writeAt ctx.buffer j.toNat (← readAt data 0 i.toNat)
    let (i, state) ← updateLoop data len (data.length / 64 + 1) i (transform ctx.state buffer)
    let buffer ← writeAt buffer 0 (← readAt data i.toNat (len - i).toNat)
    return { state, count, buffer }
  else
    let buffer ← writeAt ctx.buffer j.toNat (← readAt data 0 len.toNat)
    return { ctx with count, buffer }

/-- Byte `i` of words, the most significant byte of a word first. -/
def byteOf (word : UInt32) (i : Nat) : Byte := (word >>> .ofNat ((3 - i % 4) * 8) &&& 255).toUInt8

def finalcount (count : Vector UInt32 2) : Bytes :=
  (List.range 8).map (fun i => byteOf (count.get (if i ≥ 4 then 0 else 1)) i)

/-- The loop of `SHA1Final`. -/
def pad : Nat → Ctx → Except Fault Ctx
  | 0, _ => .error .diverges
  | fuel + 1, ctx =>
    if ctx.count.get 0 &&& 504 ≠ 448 then do
      let ctx ← update ctx [0] 1
      pad fuel ctx
    else .ok ctx

/-- The digest: the context is wiped. -/
def final (ctx : Ctx) : Except Fault Bytes := do
  let finalcount := finalcount ctx.count
  let ctx ← update ctx [0x80] 1
  let ctx ← pad 64 ctx
  let ctx ← update ctx finalcount 8
  return (List.range 20).map
    (fun i => byteOf (ctx.state.get ⟨i / 4 % 5, Nat.mod_lt _ (by decide)⟩) i)

/-- The loop of `SHA1`: `ii < len` compares `len` as an unsigned number, which `n` is. -/
def updates (str : Bytes) : Nat → Ctx → Except Fault Ctx
  | 0, ctx => .ok ctx
  | n + 1, ctx => do
    let ctx ← updates str n ctx
    update ctx (← readAt str n 1) 1

end Sha1

/-- `ctx` is what stands on the stack, `len` an `int`; the bytes stored from `hash_out` on. -/
def sha1 (ctx : Sha1.Ctx) (str : Bytes) (len : Int) : Except Fault Bytes := do
  let ctx ← Sha1.updates str (len % 2 ^ 32).toNat (Sha1.init ctx)
  let digest ← Sha1.final ctx
  return digest ++ [0]

def hexDigit (n : Nat) : Byte := .ofNat (if n < 10 then 48 + n else 87 + n)

/-- `sprintf` with `%02x` of a byte. -/
def hexByte (b : Byte) : Bytes := [hexDigit (b.toNat / 16), hexDigit (b.toNat % 16)]

/-- `hexresult`, and what becomes of the byte that stands behind the 20 bytes of `result`. -/
def sha1Easy (ctx : Sha1.Ctx) (behind : Byte) (str : Bytes) : Except Fault (Bytes × Byte) := do
  let stored ← sha1 ctx str (Int.bmod str.length (2 ^ 32))
  return ((stored.take 20).flatMap hexByte, (stored.drop 20).getD 0 behind)

end NetCpp
