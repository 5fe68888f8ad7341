import NetCpp.Basic
import NetCpp.Library.LittleEndian

namespace NetCpp
open Library

/-- The machines are little endian. A pointer into a block is the part of the block from there on,
as for the decoders. -/
def word16 (n : UInt16) : Bytes := LittleEndian.bytes 2 n.toNat

def word32 (n : UInt32) : Bytes := LittleEndian.bytes 4 n.toNat

def word64 (n : UInt64) : Bytes := LittleEndian.bytes 8 n.toNat

def ofWord16 (s : Bytes) : UInt16 := UInt16.ofNat (LittleEndian.value s)

def ofWord32 (s : Bytes) : UInt32 := UInt32.ofNat (LittleEndian.value s)

def ofWord64 (s : Bytes) : UInt64 := UInt64.ofNat (LittleEndian.value s)

/-- `memcpy` of `n` bytes from a pointer, which then moves behind them. -/
def readBytes (n : Nat) (p : Bytes) : Except Fault (Bytes × Bytes) :=
  if p.length < n then .error .readOutside else .ok (p.take n, p.drop n)

def readWord16 (p : Bytes) : Except Fault (UInt16 × Bytes) := do
  let (s, p) ← readBytes 2 p
  return (ofWord16 s, p)

def readWord32 (p : Bytes) : Except Fault (UInt32 × Bytes) := do
  let (s, p) ← readBytes 4 p
  return (ofWord32 s, p)

def readWord64 (p : Bytes) : Except Fault (UInt64 × Bytes) := do
  let (s, p) ← readBytes 8 p
  return (ofWord64 s, p)

/-- `memcpy` to the end of what has been written into a block of `capacity` bytes. -/
def writeBytes (capacity : Nat) (written s : Bytes) : Except Fault Bytes :=
  if capacity < (written ++ s).length then .error .writeOutside else .ok (written ++ s)

/-- `memcpy` into a block from `pos` on. What is not written yet is `none`. -/
def copyAt (block : List (Option Byte)) (pos : Nat) (data : Bytes) :
    Except Fault (List (Option Byte)) :=
  if block.length < pos + data.length then .error .writeOutside
  else .ok (block.take pos ++ data.map some ++ block.drop (pos + data.length))

/-- `!memcmp(block + at, text, n)` for the `n` bytes of the text. -/
def equalsAt (block : Bytes) (pos : Int) (text : Bytes) : Except Fault Bool :=
  if pos < 0 ∨ (block.length : Int) < pos + text.length then .error .readOutside
  else .ok ((block.drop pos.toNat).take text.length == text)

@[simp] theorem length_word16 (n : UInt16) : (word16 n).length = 2 := LittleEndian.length_bytes 2 _

@[simp] theorem length_word32 (n : UInt32) : (word32 n).length = 4 := LittleEndian.length_bytes 4 _

@[simp] theorem length_word64 (n : UInt64) : (word64 n).length = 8 := LittleEndian.length_bytes 8 _

@[simp] theorem ofWord16_word16 (n : UInt16) : ofWord16 (word16 n) = n := by
  have hn : n.toNat < 256 ^ 2 := n.toNat_lt
  rw [ofWord16, word16, LittleEndian.value_bytes_of_lt hn, UInt16.ofNat_toNat]

@[simp] theorem ofWord32_word32 (n : UInt32) : ofWord32 (word32 n) = n := by
  have hn : n.toNat < 256 ^ 4 := n.toNat_lt
  rw [ofWord32, word32, LittleEndian.value_bytes_of_lt hn, UInt32.ofNat_toNat]

@[simp] theorem ofWord64_word64 (n : UInt64) : ofWord64 (word64 n) = n := by
  have hn : n.toNat < 256 ^ 8 := n.toNat_lt
  rw [ofWord64, word64, LittleEndian.value_bytes_of_lt hn, UInt64.ofNat_toNat]

/-- Four bytes that go through a `uint32_t` are unchanged. -/
theorem word32_ofWord32 {s : Bytes} (hs : s.length = 4) : word32 (ofWord32 s) = s := by
  have hlt := LittleEndian.value_lt s
  rw [hs] at hlt
  have hn : (UInt32.ofNat (LittleEndian.value s)).toNat = LittleEndian.value s := by
    rw [UInt32.toNat_ofNat']
    exact Nat.mod_eq_of_lt hlt
  rw [word32, ofWord32, hn, ← hs, LittleEndian.bytes_value]

theorem readBytes_append {n : Nat} {s : Bytes} (hs : s.length = n) (p : Bytes) :
    readBytes n (s ++ p) = .ok (s, p) := by
  subst hs
  simp [readBytes]

/-- A block is read to its end. -/
theorem readBytes_all {n : Nat} {s : Bytes} (hs : s.length = n) : readBytes n s = .ok (s, []) := by
  have hread := readBytes_append hs []
  rwa [List.append_nil] at hread

theorem readWord16_append (n : UInt16) (p : Bytes) : readWord16 (word16 n ++ p) = .ok (n, p) := by
  rw [readWord16, readBytes_append (length_word16 n)]
  simp [bind, Except.bind, pure, Except.pure]

theorem readWord32_append (n : UInt32) (p : Bytes) : readWord32 (word32 n ++ p) = .ok (n, p) := by
  rw [readWord32, readBytes_append (length_word32 n)]
  simp [bind, Except.bind, pure, Except.pure]

theorem readWord64_append (n : UInt64) (p : Bytes) : readWord64 (word64 n ++ p) = .ok (n, p) := by
  rw [readWord64, readBytes_append (length_word64 n)]
  simp [bind, Except.bind, pure, Except.pure]

theorem readWord32_word32 (n : UInt32) : readWord32 (word32 n) = .ok (n, []) := by
  have hread := readWord32_append n []
  rwa [List.append_nil] at hread

theorem readWord64_word64 (n : UInt64) : readWord64 (word64 n) = .ok (n, []) := by
  have hread := readWord64_append n []
  rwa [List.append_nil] at hread

theorem writeBytes_ok {capacity : Nat} {written s : Bytes} (h : (written ++ s).length ≤ capacity) :
    writeBytes capacity written s = .ok (written ++ s) := by
  rw [writeBytes, if_neg (by omega)]

/-- A comparison inside of the block. -/
theorem equalsAt_append {a b c text : Bytes} (hb : b.length = text.length) :
    equalsAt (a ++ (b ++ c)) a.length text = .ok (b == text) := by
  have hin : ¬((a.length : Int) < 0 ∨ ((a ++ (b ++ c)).length : Int) < a.length + text.length) := by
    simp only [List.length_append]
    omega
  rw [equalsAt, if_neg hin, Int.toNat_natCast, List.drop_left, ← hb, List.take_left]

end NetCpp
