import NetCpp.Library.Decimal

namespace NetCpp.Library.Scanf
open Decimal

inductive Directive where
  | int
  | blank
  | char (c : UInt8)
deriving DecidableEq

/-- What is behind the numeral that `readNumeral` takes. -/
def afterNumeral (s : List UInt8) : List UInt8 :=
  match s.dropWhile isSpace with
  | [] => []
  | c :: rest =>
    if c = minus ∨ c = plus then rest.dropWhile isDigit else (c :: rest).dropWhile isDigit

/-- `%d` -/
def readInt (s : List UInt8) : Option (Int × List UInt8) :=
  let numeral := readNumeral s
  if numeral.2 = [] then none else some (signed numeral.1 numeral.2, afterNumeral s)

/-- A numeral that is not one of an `int` is stored as some `int`. -/
def store (wide : Int → Int32) (n : Int) : Int :=
  if -2 ^ 31 ≤ n ∧ n < 2 ^ 31 then n else (wide n).toInt

/-- The numbers that are stored, as many as `sscanf` returns. (For a text that ends before the first
of them it returns `EOF`.) -/
def sscanf (wide : Int → Int32) : List Directive → List UInt8 → List Int
  | [], _ => []
  | .blank :: format, s => sscanf wide format (s.dropWhile isSpace)
  | .char _ :: _, [] => []
  | .char c :: format, d :: s => if d = c then sscanf wide format s else []
  | .int :: format, s =>
    match readInt s with
    | none => []
    | some (n, rest) => store wide n :: sscanf wide format rest

section
variable {wide : Int → Int32} {format : List Directive} {n : Nat} {rest : List UInt8}

/-- A printed number is read back, up to what follows it. -/
theorem readInt_ofNat (n : Nat) (hrest : ∀ c ∈ rest.head?, isDigit c = false) :
    readInt (ofNat n ++ rest) = some ((n : Int), rest) := by
  have htake : (ofNat n ++ rest).takeWhile isDigit = ofNat n := by
    rw [List.takeWhile_append_of_pos fun c hc => isDigit_of_mem_ofNat hc]
    cases rest with
    | nil => simp
    | cons c rest => rw [List.takeWhile_cons_of_neg (by simp [hrest c rfl]), List.append_nil]
  have hdrop : (ofNat n ++ rest).dropWhile isDigit = rest := by
    rw [List.dropWhile_append_of_pos fun c hc => isDigit_of_mem_ofNat hc]
    cases rest with
    | nil => rfl
    | cons c rest => rw [List.dropWhile_cons_of_neg (by simp [hrest c rfl])]
  obtain ⟨c, s, hs⟩ := List.exists_cons_of_ne_nil (ofNat_ne_nil n)
  have hc : isDigit c = true := isDigit_of_mem_ofNat (by rw [hs]; exact List.mem_cons_self)
  have hspace := isSpace_of_isDigit hc
  have hsign : ¬(c = minus ∨ c = plus) := by
    rintro (rfl | rfl)
    · exact absurd hc (by decide)
    · exact absurd hc (by decide)
  have hnumeral : readNumeral (ofNat n ++ rest) = (false, (ofNat n ++ rest).takeWhile isDigit) := by
    rw [hs, List.cons_append, readNumeral_digit hc]
  have hafter : afterNumeral (ofNat n ++ rest) = rest := by
    rw [hs, List.cons_append] at hdrop ⊢
    rw [afterNumeral, List.dropWhile_cons_of_neg (by simp [hspace])]
    exact (if_neg hsign).trans hdrop
  rw [readInt, hnumeral, htake]
  simp only [ofNat_ne_nil, if_false, hafter, signed, value_ofNat, Bool.false_eq_true]

theorem sscanf_int (hn : n < 2 ^ 31) (hrest : ∀ c ∈ rest.head?, isDigit c = false) :
    sscanf wide (.int :: format) (ofNat n ++ rest) = (n : Int) :: sscanf wide format rest := by
  have hstore : store wide n = n := if_pos ⟨by omega, by omega⟩
  rw [sscanf, readInt_ofNat n hrest]
  dsimp only
  rw [hstore]

@[simp] theorem sscanf_char (c : UInt8) :
    sscanf wide (.char c :: format) (c :: rest) = sscanf wide format rest :=
  if_pos rfl

@[simp] theorem sscanf_nil (s : List UInt8) : sscanf wide [] s = [] := by
  cases s <;> rfl

end

end NetCpp.Library.Scanf
