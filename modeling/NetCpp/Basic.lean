import NetCpp.Library.Decimal

namespace NetCpp
open Library

abbrev Byte := UInt8

abbrev Bytes := List Byte

/-- What ends a call other than its `return`: an exception, an access outside of a buffer, a loop
that never ends, a signed overflow, an `exit` or a failed assertion. `throw new std::runtime_error`
throws a pointer, which a handler for `std::runtime_error` does not catch. -/
inductive Fault where
  | invalidArgument
  | outOfRange
  | lengthError
  | runtimeError (what : String)
  | runtimeErrorPointer (what : String)
  | message (text : String)
  | readOutside
  | writeOutside
  | nullPointer
  | diverges
  | overflow
  | exit (status : Int)
  | abort
deriving DecidableEq, Repr

def cr : Byte := 13

def lf : Byte := 10

def space : Byte := 32

def quote : Byte := 34

def colon : Byte := 58

def crlf : Bytes := [cr, lf]

/-- The bytes of a text written with one `Char` for each byte. -/
def ascii (s : List Char) : Bytes := s.map Char.toUInt8

/-- `char` is signed: a byte from 128 on is negative. -/
def charValue (c : Byte) : Int := c.toInt8.toInt

/-- The conversion of an integer to `size_t`. -/
def toSizeT (n : Int) : Nat := (n % 2 ^ 64).toNat

/-- The conversion of an integer to `ssize_t`. -/
def toSSizeT (n : Int) : Int := n.bmod (2 ^ 64)

/-- `std::stoi`: `strtol` and a check that the value is an `int`. -/
def stoi (s : Bytes) : Except Fault Int :=
  let (negative, digits) := Decimal.readNumeral s
  if digits = [] then .error .invalidArgument
  else
    let n := Decimal.signed negative digits
    if n < -2 ^ 31 ∨ 2 ^ 31 ≤ n then .error .outOfRange else .ok n

/-- `std::stoul`: `strtoul`, which negates a numeral with a minus sign in `unsigned long`. -/
def stoul (s : Bytes) : Except Fault Nat :=
  let (negative, digits) := Decimal.readNumeral s
  if digits = [] then .error .invalidArgument
  else
    let n := Decimal.value digits
    if 2 ^ 64 ≤ n then .error .outOfRange
    else .ok (if negative then toSizeT (-n) else n)

/-- `c_str()`: the string up to its first NUL. -/
def cStr (s : Bytes) : Bytes := s.takeWhile (· ≠ 0)

theorem stoi_ofInt {n : Int} (hl : -2 ^ 31 ≤ n) (hu : n < 2 ^ 31) :
    stoi (Decimal.ofInt n) = .ok n := by
  simp only [stoi, Decimal.readNumeral_ofInt, Decimal.ofNat_ne_nil, if_false, Decimal.signed_ofNat]
  rw [if_neg (by omega)]

theorem stoi_ofNat {n : Nat} (hn : n < 2 ^ 31) : stoi (Decimal.ofNat n) = .ok (n : Int) := by
  rw [← Decimal.ofInt_natCast]
  exact stoi_ofInt (by omega) (by omega)

/-- What `stoi` has checked when it returns. -/
theorem stoi_ok {s : Bytes} {n : Int} (h : stoi s = .ok n) :
    (Decimal.readNumeral s).2 ≠ [] ∧
      n = Decimal.signed (Decimal.readNumeral s).1 (Decimal.readNumeral s).2 ∧
      -2 ^ 31 ≤ n ∧ n < 2 ^ 31 := by
  simp only [stoi] at h
  split at h
  · cases h
  · rename_i hd
    split at h
    · cases h
    · rename_i hr
      cases h
      exact ⟨hd, rfl, by omega, by omega⟩

/-- A numeral that `stoi` reads as a number from 0 on, `stoul` reads as the same. -/
theorem stoul_of_stoi {s : Bytes} {n : Int} (h : stoi s = .ok n) (hn : 0 ≤ n) :
    stoul s = .ok n.toNat := by
  obtain ⟨hd, he, -, hu⟩ := stoi_ok h
  simp only [stoul, if_neg hd]
  cases hneg : (Decimal.readNumeral s).1 with
  | true =>
    have hz : Decimal.value (Decimal.readNumeral s).2 = 0 := by
      simp only [hneg, Decimal.signed, if_true] at he
      omega
    simp only [Decimal.signed, hneg, hz] at he
    simp [hz, he, toSizeT]
  | false =>
    simp only [hneg, Decimal.signed, Bool.false_eq_true, if_false] at he
    rw [if_neg (by omega)]
    simp [he]

theorem stoul_lt {s : Bytes} {n : Nat} (h : stoul s = .ok n) : n < 2 ^ 64 := by
  simp only [stoul] at h
  split at h
  · cases h
  · split at h
    · cases h
    · cases h
      split
      · simp only [toSizeT]
        omega
      · omega

theorem cStr_eq_self {s : Bytes} (hs : (0 : Byte) ∉ s) : cStr s = s :=
  List.takeWhile_eq_self_iff.mpr (fun c hc => by
    have hne : c ≠ 0 := fun h => hs (h ▸ hc)
    simpa using hne)

theorem not_mem_cStr (s : Bytes) : (0 : Byte) ∉ cStr s := by
  intro h
  have := List.mem_takeWhile_imp h
  simp at this

theorem mem_of_mem_cStr {s : Bytes} {c : Byte} (h : c ∈ cStr s) : c ∈ s :=
  (List.takeWhile_prefix _).subset h

/-- The decoders read `raw_data[index++]` with no look at the end. Here the position is the part of
the vector from `index` on, so that the next read takes its first byte and a read outside of the
vector is a read of the empty list. -/
def next : Bytes → Except Fault (Byte × Bytes)
  | [] => .error .readOutside
  | c :: rest => .ok (c, rest)

/-- `while ((c = raw_data[index++]) != stop) s.push_back(c)` -/
def readUntil (stop : Byte) : Bytes → Except Fault (Bytes × Bytes)
  | [] => .error .readOutside
  | c :: rest =>
    if c = stop then .ok ([], rest)
    else
      match readUntil stop rest with
      | .error e => .error e
      | .ok (s, rest) => .ok (c :: s, rest)

/-- `if (raw_data[index++] != c) return -1` for each `c` in turn. -/
def expect : Bytes → Bytes → Except Fault (Option Bytes)
  | [], rest => .ok (some rest)
  | _ :: _, [] => .error .readOutside
  | c :: cs, b :: rest => if b ≠ c then .ok none else expect cs rest

theorem readUntil_append {stop : Byte} {s : Bytes} (hs : stop ∉ s) (rest : Bytes) :
    readUntil stop (s ++ stop :: rest) = .ok (s, rest) := by
  induction s with
  | nil => simp [readUntil]
  | cons c s ih =>
    simp only [List.mem_cons, not_or] at hs
    simp [readUntil, Ne.symm hs.1, ih hs.2]

theorem readUntil_ok {stop : Byte} {raw s rest : Bytes} :
    readUntil stop raw = .ok (s, rest) ↔ raw = s ++ stop :: rest ∧ stop ∉ s := by
  constructor
  · intro h
    induction raw generalizing s with
    | nil => cases h
    | cons c raw ih =>
      unfold readUntil at h
      split at h
      · rename_i hc
        cases h
        simp [hc]
      · rename_i hc
        split at h
        · cases h
        · rename_i hr
          cases h
          obtain ⟨he, hs⟩ := ih hr
          simp [he, hs, Ne.symm hc]
  · rintro ⟨rfl, hs⟩
    exact readUntil_append hs rest

@[simp] theorem expect_nil (rest : Bytes) : expect [] rest = .ok (some rest) := rfl

theorem expect_append (cs rest : Bytes) : expect cs (cs ++ rest) = .ok (some rest) := by
  induction cs with
  | nil => rfl
  | cons c cs ih => simpa [expect] using ih

theorem expect_some {cs raw rest : Bytes} :
    expect cs raw = .ok (some rest) ↔ raw = cs ++ rest := by
  constructor
  · intro h
    induction cs generalizing raw with
    | nil => cases h; rfl
    | cons c cs ih =>
      cases raw with
      | nil => cases h
      | cons b raw =>
        unfold expect at h
        split at h
        · cases h
        · rename_i hc
          simp [ih h, not_not.mp hc]
  · rintro rfl
    exact expect_append cs rest

/-- The only fault of `expect` is a vector that ends inside the expected text. -/
theorem expect_error {cs raw : Bytes} {e : Fault} :
    expect cs raw = .error e ↔ (raw <+: cs ∧ raw ≠ cs) ∧ e = .readOutside := by
  induction cs generalizing raw with
  | nil => simp [expect]
  | cons c cs ih =>
    cases raw with
    | nil => simp [expect, eq_comm]
    | cons b raw =>
      unfold expect
      split
      · rename_i hc
        simp [hc]
      · rename_i hc
        simp [not_not.mp hc, ih]

end NetCpp
