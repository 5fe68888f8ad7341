import Mathlib

namespace NetCpp.Library.Decimal

/-- Decimal numerals over ASCII bytes: how they are printed, and the prefix that a
C numeral reader (`strtol`, `strtoul`) takes from the front of a string. -/
def digit (d : Nat) : UInt8 := UInt8.ofNat (48 + d)

def isDigit (c : UInt8) : Bool := 48 ≤ c && c ≤ 57

/-- The blanks of the C locale: tab, line feed, vertical tab, form feed, return, space. -/
def isSpace (c : UInt8) : Bool := (9 ≤ c && c ≤ 13) || c == 32

def minus : UInt8 := 45

def plus : UInt8 := 43

def ofNat (n : Nat) : List UInt8 :=
  if n = 0 then [digit 0] else (Nat.digits 10 n).reverse.map digit

def ofInt (n : Int) : List UInt8 :=
  if n < 0 then minus :: ofNat n.natAbs else ofNat n.natAbs

def value (s : List UInt8) : Nat := s.foldl (fun a c => 10 * a + (c.toNat - 48)) 0

def signed (negative : Bool) (s : List UInt8) : Int :=
  if negative then -(value s : Int) else value s

/-- Leading blanks, one optional sign, then the longest run of digits. -/
def readNumeral (s : List UInt8) : Bool × List UInt8 :=
  match s.dropWhile isSpace with
  | [] => (false, [])
  | c :: rest =>
    if c = minus then (true, rest.takeWhile isDigit)
    else if c = plus then (false, rest.takeWhile isDigit)
    else (false, (c :: rest).takeWhile isDigit)

theorem digit_toNat {d : Nat} (hd : d < 10) : (digit d).toNat = 48 + d := by
  simp only [digit, UInt8.toNat_ofNat']
  omega

theorem isDigit_iff {c : UInt8} : isDigit c = true ↔ 48 ≤ c.toNat ∧ c.toNat ≤ 57 := by
  simp [isDigit, UInt8.le_iff_toNat_le]

theorem isDigit_digit {d : Nat} (hd : d < 10) : isDigit (digit d) = true := by
  rw [isDigit_iff, digit_toNat hd]
  omega

theorem isSpace_of_isDigit {c : UInt8} (hc : isDigit c = true) : isSpace c = false := by
  have h := isDigit_iff.mp hc
  have hne : c ≠ 32 := by rintro rfl; simp at h
  simp only [isSpace, Bool.or_eq_false_iff, Bool.and_eq_false_iff, decide_eq_false_iff_not,
    UInt8.le_iff_toNat_le, beq_eq_false_iff_ne]
  exact ⟨Or.inr (by simp; omega), hne⟩

theorem ofNat_ne_nil (n : Nat) : ofNat n ≠ [] := by
  unfold ofNat
  split
  · simp
  · rename_i hn
    simpa using Nat.digits_ne_nil_iff_ne_zero.mpr hn

theorem isDigit_of_mem_ofNat {n : Nat} {c : UInt8} (hc : c ∈ ofNat n) : isDigit c = true := by
  unfold ofNat at hc
  split at hc
  · rw [List.mem_singleton.mp hc]
    exact isDigit_digit (by omega)
  · obtain ⟨d, hd, rfl⟩ := List.mem_map.mp hc
    exact isDigit_digit (Nat.digits_lt_base (by omega) (List.mem_reverse.mp hd))

theorem not_mem_ofNat {n : Nat} {c : UInt8} (hc : isDigit c = false) : c ∉ ofNat n := by
  intro hm
  rw [isDigit_of_mem_ofNat hm] at hc
  cases hc

theorem value_append (s : List UInt8) (c : UInt8) :
    value (s ++ [c]) = 10 * value s + (c.toNat - 48) := by
  simp [value, List.foldl_append]

theorem value_digits (ds : List Nat) (hd : ∀ d ∈ ds, d < 10) :
    value (ds.reverse.map digit) = Nat.ofDigits 10 ds := by
  induction ds with
  | nil => rfl
  | cons d ds ih =>
    have ht := ih (fun e he => hd e (List.mem_cons_of_mem _ he))
    rw [List.reverse_cons, List.map_append, List.map_singleton, value_append, ht,
      digit_toNat (hd d List.mem_cons_self), Nat.ofDigits_cons]
    omega

/-- Reading a printed number back gives the number. -/
theorem value_ofNat (n : Nat) : value (ofNat n) = n := by
  unfold ofNat
  split
  · rename_i hn
    rw [hn]
    rfl
  · rw [value_digits _ (fun d hd => Nat.digits_lt_base (by omega) hd), Nat.ofDigits_digits]

theorem digit_inj {d e : Nat} (hd : d < 10) (he : e < 10) (h : digit d = digit e) : d = e := by
  have hnat := congrArg UInt8.toNat h
  rw [digit_toNat hd, digit_toNat he] at hnat
  omega

/-- Only 0 is printed with a zero in front. -/
theorem head?_ofNat {n : Nat} (h : (ofNat n).head? = some (digit 0)) : ofNat n = [digit 0] := by
  by_cases hn : n = 0
  · rw [ofNat, if_pos hn]
  · have hne : Nat.digits 10 n ≠ [] := Nat.digits_ne_nil_iff_ne_zero.mpr hn
    rw [ofNat, if_neg hn, List.head?_map, List.head?_reverse, List.getLast?_eq_some_getLast hne,
      Option.map_some, Option.some_inj] at h
    have hlast := Nat.digits_lt_base (b := 10) (by omega) (List.getLast_mem hne)
    exact absurd (digit_inj hlast (by omega) h) (Nat.getLast_digit_ne_zero 10 hn)

theorem digit_sub {c : UInt8} (hc : isDigit c = true) :
    c.toNat - 48 < 10 ∧ digit (c.toNat - 48) = c := by
  have hrange := isDigit_iff.mp hc
  have hlt : c.toNat - 48 < 10 := by omega
  refine ⟨hlt, ?_⟩
  apply UInt8.toNat_inj.mp
  rw [digit_toNat hlt]
  omega

theorem map_digit_sub {s : List UInt8} (hs : ∀ c ∈ s, isDigit c = true) :
    (s.map fun c => c.toNat - 48).map digit = s := by
  rw [List.map_map]
  exact (List.map_congr_left fun c hc => (digit_sub (hs c hc)).2).trans (List.map_id s)

/-- The digits of the value of a text without a zero in front are its own. -/
theorem digits_value {s : List UInt8} (hs : ∀ c ∈ s, isDigit c = true)
    (hhead : s.head? ≠ some (digit 0)) :
    Nat.digits 10 (value s) = s.reverse.map fun c => c.toNat - 48 := by
  have hlt (d : Nat) (hd : d ∈ s.reverse.map fun c => c.toNat - 48) : d < 10 := by
    obtain ⟨c, hc, rfl⟩ := List.mem_map.mp hd
    exact (digit_sub (hs c (List.mem_reverse.mp hc))).1
  have hprint : (s.reverse.map fun c => c.toNat - 48).reverse.map digit = s := by
    rw [← List.map_reverse, List.reverse_reverse, map_digit_sub hs]
  have hlast (h : s.reverse.map (fun c => c.toNat - 48) ≠ []) :
      (s.reverse.map fun c => c.toNat - 48).getLast h ≠ 0 := by
    cases s with
    | nil => exact absurd rfl h
    | cons c s =>
      intro hz
      have hzero : c.toNat - 48 = 0 := by simpa using hz
      have hdigit := (digit_sub (hs c List.mem_cons_self)).2
      rw [hzero] at hdigit
      exact hhead (by rw [← hdigit]; rfl)
  have hvalue := value_digits _ hlt
  rw [hprint] at hvalue
  rw [hvalue, Nat.digits_ofDigits 10 (by omega) _ hlt hlast]

/-- Digits without a zero in front are what is printed of their value. -/
theorem ofNat_value {s : List UInt8} (hne : s ≠ []) (hs : ∀ c ∈ s, isDigit c = true)
    (hhead : s.head? = some (digit 0) → s = [digit 0]) : ofNat (value s) = s := by
  by_cases hzero : s = [digit 0]
  · rw [hzero]
    rfl
  · have hdigits := digits_value hs (fun h => hzero (hhead h))
    have hpos : value s ≠ 0 := by
      rw [← Nat.digits_ne_nil_iff_ne_zero (b := 10), hdigits]
      simpa using hne
    rw [ofNat, if_neg hpos, hdigits, ← List.map_reverse, List.reverse_reverse, map_digit_sub hs]

theorem signed_ofNat (n : Int) : signed (decide (n < 0)) (ofNat n.natAbs) = n := by
  simp only [signed, value_ofNat, decide_eq_true_eq]
  split <;> omega

theorem length_ofNat_le {n k : Nat} (hk : 0 < k) (hn : n < 10 ^ k) : (ofNat n).length ≤ k := by
  unfold ofNat
  split
  · exact hk
  · simpa using (Nat.digits_length_le_iff (by omega) n).mpr hn

theorem mem_ofInt {n : Int} {c : UInt8} (hc : c ∈ ofInt n) : isDigit c = true ∨ c = minus := by
  unfold ofInt at hc
  split at hc
  · rcases List.mem_cons.mp hc with rfl | hc
    · exact Or.inr rfl
    · exact Or.inl (isDigit_of_mem_ofNat hc)
  · exact Or.inl (isDigit_of_mem_ofNat hc)

theorem ofInt_ne_nil (n : Int) : ofInt n ≠ [] := by
  unfold ofInt
  split
  · simp
  · exact ofNat_ne_nil _

theorem ofInt_natCast (n : Nat) : ofInt n = ofNat n := by
  simp [ofInt]

theorem length_ofInt_le {n : Int} {k : Nat} (hk : 0 < k) (hn : n.natAbs < 10 ^ k) :
    (ofInt n).length ≤ k + 1 := by
  have h := length_ofNat_le hk hn
  unfold ofInt
  split
  · simpa using h
  · omega

theorem takeWhile_ofNat (n : Nat) : (ofNat n).takeWhile isDigit = ofNat n :=
  List.takeWhile_eq_self_iff.mpr (fun _ hc => isDigit_of_mem_ofNat hc)

theorem readNumeral_digit {c : UInt8} {s : List UInt8} (hc : isDigit c = true) :
    readNumeral (c :: s) = (false, (c :: s).takeWhile isDigit) := by
  have hm : c ≠ minus := by rintro rfl; simp [isDigit, minus] at hc
  have hp : c ≠ plus := by rintro rfl; simp [isDigit, plus] at hc
  simp [readNumeral, isSpace_of_isDigit hc, hm, hp]

/-- A string of digits is read whole. -/
theorem readNumeral_digits {s : List UInt8} (hs : ∀ c ∈ s, isDigit c = true) :
    readNumeral s = (false, s) := by
  cases s with
  | nil => rfl
  | cons c s =>
    rw [readNumeral_digit (hs c List.mem_cons_self), List.takeWhile_eq_self_iff.mpr hs]

/-- The numeral reader inverts the printer, sign included. -/
theorem readNumeral_ofInt (n : Int) : readNumeral (ofInt n) = (decide (n < 0), ofNat n.natAbs) := by
  unfold ofInt
  split
  · rename_i hn
    have hs : isSpace minus = false := by decide
    simp [readNumeral, hs, takeWhile_ofNat, hn]
  · rename_i hn
    rw [readNumeral_digits (fun c hc => isDigit_of_mem_ofNat hc)]
    simp [hn]

end NetCpp.Library.Decimal
