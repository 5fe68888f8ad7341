import NetCpp.Cpt
import NetCpp.Proofs.Documents

namespace NetCpp.Proofs
open Library SettingFile Cpt

inductive ArgType where
  | int
  | double
deriving DecidableEq

def ArgType.text : ArgType → Bytes
  | .int => ascii ['i', 'n', 't']
  | .double => ascii ['d', 'o', 'u', 'b', 'l', 'e']

/-- A parameter as it is declared, an array if it has a size. -/
structure Param where
  type : ArgType
  size : Option Int
  name : Bytes
  named : name ≠ []
  legal : ifNameIllegal name = true
  bounds : ∀ n ∈ size, -2 ^ 31 ≤ n ∧ n < 2 ^ 31

namespace Param

def brackets : Option Int → Bytes
  | none => []
  | some n => bracketLeft :: (Decimal.ofInt n ++ [bracketRight])

def print (p : Param) : Bytes := p.type.text ++ brackets p.size ++ p.name

/-- What the reader should make of a parameter. -/
def built (p : Param) : CptFuncArgs := { type := p.type.text, size := p.size.getD 1, key := p.name }

/-- A `double` with the other type in its name. -/
def Mistaken (p : Param) : Prop :=
  p.type = .double ∧ p.size = none ∧ ArgType.text .int <:+: p.name

instance (p : Param) : Decidable p.Mistaken := inferInstanceAs (Decidable (_ ∧ _ ∧ _))

/-- What the reader makes of a parameter. -/
def read (p : Param) : CptFuncArgs :=
  if p.Mistaken then { type := ArgType.text .int, size := 1, key := p.print.drop 3 } else p.built

theorem read_iff (p : Param) : p.read = p.built ↔ ¬p.Mistaken := by
  unfold read
  by_cases h : p.Mistaken
  · rw [if_pos h]
    refine ⟨fun hread => ?_, fun hnot => absurd h hnot⟩
    have htype := congrArg CptFuncArgs.type hread
    rw [built, h.1] at htype
    have hne : ArgType.text .int ≠ ArgType.text .double := by decide
    exact absurd htype hne
  · rw [if_neg h]
    exact ⟨fun _ => h, fun _ => rfl⟩

theorem illegal_not_mem {c : Byte} (hc : ifIllegal c = false) {name : Bytes}
    (h : ifNameIllegal name = true) : c ∉ name := by
  intro hmem
  rw [List.all_eq_true.mp h c hmem] at hc
  cases hc

theorem legal_type (type : ArgType) : ifNameIllegal type.text = true := by
  cases type <;> decide

theorem not_mem_ofInt {c : Byte} (hdigit : Decimal.isDigit c = false) (hminus : c ≠ Decimal.minus)
    (n : Int) : c ∉ Decimal.ofInt n := by
  intro hmem
  rcases Decimal.mem_ofInt hmem with h | h
  · rw [h] at hdigit
    cases hdigit
  · exact hminus h

theorem comma_not_mem (p : Param) : comma ∉ p.print := by
  have hcomma : ifIllegal comma = false := by decide
  have htype := illegal_not_mem hcomma (legal_type p.type)
  have hname := illegal_not_mem hcomma p.legal
  have hbrackets : comma ∉ brackets p.size := by
    cases p.size with
    | none => exact List.not_mem_nil
    | some n =>
      have hsize := not_mem_ofInt (c := comma) (by decide) (by decide) n
      intro hmem
      rcases List.mem_cons.mp hmem with h | hmem
      · exact absurd h (by decide)
      · rcases List.mem_append.mp hmem with h | h
        · exact hsize h
        · exact absurd (List.mem_singleton.mp h) (by decide)
  intro hmem
  rcases List.mem_append.mp hmem with hmem | hmem
  · exact (List.mem_append.mp hmem).elim htype hbrackets
  · exact hname hmem

theorem int_in_double (name : Bytes) :
    ArgType.text .int <:+: ArgType.text .double ++ name ↔ ArgType.text .int <:+: name := by
  have hnone : 105 ∉ ArgType.text .double := by decide
  exact Strings.infix_append hnone

theorem find_none {c : Byte} (hc : ifIllegal c = false) {type : ArgType} {name : Bytes}
    (h : ifNameIllegal name = true) : Strings.find (type.text ++ name) c 0 = none := by
  rw [Strings.find_eq_none]
  intro hmem
  exact (List.mem_append.mp hmem).elim (illegal_not_mem hc (legal_type type)) (illegal_not_mem hc h)

theorem readStn_found {key stnStr : Bytes} (hkey : key ≠ []) (h : key <:+: stnStr)
    (keys : List Bytes) :
    readStn stnStr (key :: keys) = .ok (0, { key, value := stnStr.drop key.length }) := by
  rw [readStn, if_pos h, substr_from, if_pos h.length_le, if_neg hkey]
  rfl

theorem stnKeys_eq : stnKeys = [ArgType.text .int, ArgType.text .double] := rfl

theorem readStn_type {type : ArgType} {name : Bytes}
    (h : type = .double → ¬ArgType.text .int <:+: name) :
    readStn (type.text ++ name) stnKeys = .ok (0, { key := type.text, value := name }) := by
  have hfound : type.text <:+: type.text ++ name := (List.prefix_append _ _).isInfix
  have hfirst (keys : List Bytes) : readStn (type.text ++ name) (type.text :: keys) =
      .ok (0, { key := type.text, value := name }) := by
    have hne : type.text ≠ [] := by cases type <;> decide
    rw [readStn_found hne hfound, List.drop_left]
  rw [stnKeys_eq]
  cases type with
  | int => exact hfirst _
  | double => rw [readStn, if_neg fun hint => h rfl ((int_in_double name).mp hint), hfirst]

theorem readStn_mistaken {name : Bytes} (h : ArgType.text .int <:+: name) :
    readStn (ArgType.text .double ++ name) stnKeys =
      .ok (0, { key := ArgType.text .int, value := (ArgType.text .double ++ name).drop 3 }) := by
  have hne : ArgType.text .int ≠ [] := by decide
  rw [stnKeys_eq, readStn_found hne ((int_in_double name).mpr h)]
  rfl

theorem dealArg_scalar (p : Param) (h : p.size = none) : dealArg p.print = .ok p.read := by
  have hprint : p.print = p.type.text ++ p.name := by
    rw [print, h, brackets, List.append_nil]
  have hleft : Strings.find p.print bracketLeft 0 = none := by
    rw [hprint]
    exact find_none (by decide) p.legal
  have hright : Strings.find p.print bracketRight 0 = none := by
    rw [hprint]
    exact find_none (by decide) p.legal
  rw [dealArg, hleft, hright]
  by_cases hm : p.Mistaken
  · rw [read, if_pos hm, hprint, hm.1]
    simp only [readStn_mistaken hm.2.2]
    rfl
  · have hint : p.type = .double → ¬ArgType.text .int <:+: p.name :=
      fun htype hin => hm ⟨htype, h, hin⟩
    rw [read, if_neg hm, built, h, hprint]
    simp only [readStn_type hint]
    rfl

theorem extractInt_ofInt {n : Int} (hl : -2 ^ 31 ≤ n) (hu : n < 2 ^ 31) (value : Int) :
    extractInt (Decimal.ofInt n) value = n := by
  have hread := Decimal.readNumeral_ofInt n
  have hblank : (Decimal.ofInt n).dropWhile Decimal.isSpace ≠ [] := by
    intro hnil
    rw [Decimal.readNumeral, hnil] at hread
    exact Decimal.ofNat_ne_nil _ (Prod.mk.inj hread).2.symm
  rw [extractInt, if_neg hblank, hread]
  simp only [Decimal.signed_ofNat]
  omega

theorem dealArg_array (p : Param) {n : Int} (h : p.size = some n) :
    dealArg p.print = .ok p.built := by
  obtain ⟨hl, hu⟩ := p.bounds n h
  have hleft : bracketLeft ∉ p.type.text := illegal_not_mem (by decide) (legal_type p.type)
  have hright : bracketRight ∉ p.type.text ++ bracketLeft :: Decimal.ofInt n := by
    have htype : bracketRight ∉ p.type.text := illegal_not_mem (by decide) (legal_type p.type)
    have hsize : bracketRight ∉ Decimal.ofInt n := not_mem_ofInt (by decide) (by decide) n
    intro hmem
    rcases List.mem_append.mp hmem with hmem | hmem
    · exact htype hmem
    · exact (List.mem_cons.mp hmem).elim (by decide) hsize
  have hopen : p.print =
      p.type.text ++ bracketLeft :: (Decimal.ofInt n ++ bracketRight :: p.name) := by
    simp [print, h, brackets]
  have hclose : p.print = (p.type.text ++ bracketLeft :: Decimal.ofInt n) ++
      bracketRight :: p.name := by
    rw [hopen, List.append_assoc, List.cons_append]
  have hfindl : Strings.find p.print bracketLeft 0 = some p.type.text.length := by
    rw [hopen, Strings.find_append hleft]
  have hfindr : Strings.find p.print bracketRight 0 =
      some (p.type.text.length + 1 + (Decimal.ofInt n).length) := by
    rw [hclose, Strings.find_append hright, List.length_append, List.length_cons]
    congr 1
    omega
  have hsize : substr p.print (p.type.text.length + 1)
      (((p.type.text.length + 1 + (Decimal.ofInt n).length : Nat) : Int) - p.type.text.length - 1) =
      .ok (Decimal.ofInt n) := by
    have hsplit : p.print = (p.type.text ++ [bracketLeft]) ++
        (Decimal.ofInt n ++ bracketRight :: p.name) := by
      rw [hopen, List.append_assoc, List.singleton_append]
    rw [hsplit]
    exact substr_ok (by simp) (by omega)
  have htype : substr p.print 0 p.type.text.length = .ok p.type.text := by
    rw [hopen]
    exact @substr_ok [] p.type.text _ 0 _ rfl rfl
  have hkey : substr p.print (p.type.text.length + 1 + (Decimal.ofInt n).length + 1)
      ((p.print.length : Int) - (p.type.text.length + 1 + (Decimal.ofInt n).length : Nat) - 1) =
      .ok p.name := by
    have hsplit : p.print =
        (p.type.text ++ bracketLeft :: (Decimal.ofInt n ++ [bracketRight])) ++ (p.name ++ []) := by
      simp [hopen]
    have hlen : (p.type.text ++ bracketLeft :: (Decimal.ofInt n ++ [bracketRight])).length =
        p.type.text.length + 1 + (Decimal.ofInt n).length + 1 := by
      simp only [List.length_append, List.length_cons, List.length_nil]
      omega
    have htotal : p.print.length =
        p.type.text.length + 1 + (Decimal.ofInt n).length + 1 + p.name.length := by
      rw [hsplit, List.length_append, hlen, List.append_nil]
    rw [htotal, hsplit]
    exact substr_ok hlen.symm (by omega)
  rw [dealArg, hfindl, hfindr]
  simp only [hsize, htype, hkey, bind, Except.bind]
  rw [extractInt_ofInt hl hu, built, h]
  rfl

theorem dealArg_print (p : Param) : dealArg p.print = .ok p.read := by
  cases h : p.size with
  | none => exact dealArg_scalar p h
  | some n =>
    have hnot : ¬p.Mistaken := fun hm => nomatch h.symm.trans hm.2.1
    rw [dealArg_array p h, read, if_neg hnot]

end Param

/-- Parameters with commas between them. -/
def printAll (params : List Param) : Bytes := [comma].intercalate (params.map Param.print)

theorem printAll_cons (p q : Param) (params : List Param) :
    printAll (p :: q :: params) = p.print ++ comma :: printAll (q :: params) := by
  simp only [printAll, List.map_cons, List.intercalate_cons_cons]
  rw [List.append_assoc, List.singleton_append]

theorem printAll_singleton (p : Param) : printAll [p] = p.print := List.intercalate_singleton

theorem length_printAll (p : Param) (params : List Param) :
    params.length ≤ (printAll (p :: params)).length := by
  induction params generalizing p with
  | nil => exact Nat.zero_le _
  | cons q params ih =>
    have hle := ih q
    rw [printAll_cons, List.length_append, List.length_cons, List.length_cons]
    omega

theorem find_comma (p : Param) (params : List Param) :
    Strings.find (printAll (p :: params)) comma 0 =
    if params = [] then none else some p.print.length := by
  cases params with
  | nil => rw [printAll_singleton, if_pos rfl, Strings.find_eq_none.mpr p.comma_not_mem]
  | cons q params =>
    rw [printAll_cons, Strings.find_append p.comma_not_mem, if_neg (List.cons_ne_nil _ _)]

section
variable (p q : Param) (params : List Param) (before : Bytes)

theorem print_behind : before ++ printAll (p :: q :: params) =
    (before ++ p.print ++ [comma]) ++ printAll (q :: params) := by
  rw [printAll_cons]
  simp only [List.append_assoc, List.singleton_append]

theorem length_before :
    (before ++ p.print ++ [comma]).length = before.length + p.print.length + 1 := by
  rw [List.length_append, List.length_append, List.length_singleton]

/-- A round of the loop reads the parameter up to its comma, and finds the next one. -/
theorem dealCommas_round (fuel : Nat) :
    dealCommas (before ++ printAll (p :: q :: params)) (fuel + 1) before.length
      (before.length + p.print.length) = if params = [] then .ok [p.read, q.read]
      else (dealCommas ((before ++ p.print ++ [comma]) ++ printAll (q :: params)) fuel
        (before ++ p.print ++ [comma]).length
        ((before ++ p.print ++ [comma]).length + q.print.length)).map (p.read :: ·) := by
  have harg : substr (before ++ printAll (p :: q :: params)) before.length
      (((before.length + p.print.length : Nat) : Int) - before.length) = .ok p.print := by
    rw [printAll_cons]
    exact substr_ok rfl (by omega)
  have hfind : Strings.find (before ++ printAll (p :: q :: params)) comma
      (before.length + p.print.length + 1) =
      (if params = [] then none else some q.print.length).map
        ((before ++ p.print ++ [comma]).length + ·) := by
    rw [print_behind, ← length_before, Strings.find_from, find_comma]
  rw [dealCommas]
  simp only [harg, p.dealArg_print, hfind, bind, Except.bind]
  by_cases hlast : params = []
  · subst hlast
    have hrest : substr (before ++ printAll [p, q]) (before.length + p.print.length + 1)
        (((before ++ printAll [p, q]).length : Int) -
          ((before.length + p.print.length + 1 : Nat) : Int)) =
        .ok q.print := by
      rw [substr_from, print_behind, ← length_before, printAll_singleton, List.drop_left, if_pos]
      exact (List.prefix_append _ _).length_le
    simp only [if_pos, Option.map_none, hrest, q.dealArg_print]
    rfl
  · rw [if_neg hlast, if_neg hlast, Option.map_some, print_behind, length_before]
    dsimp only
    generalize dealCommas _ fuel _ _ = rest
    cases rest with
    | error f => rfl
    | ok cfgs => rfl

end

/-- The loop over the commas, from behind a comma on. The induction is on the parameters that are
left. -/
theorem dealCommas_print (p q : Param) (params : List Param) (before : Bytes) (fuel : Nat)
    (hfuel : params.length < fuel) :
    dealCommas (before ++ printAll (p :: q :: params)) fuel before.length
      (before.length + p.print.length) = .ok ((p :: q :: params).map Param.read) := by
  induction params generalizing p q before fuel with
  | nil =>
    obtain ⟨n, rfl⟩ := Nat.exists_eq_add_of_lt hfuel
    rw [dealCommas_round, if_pos rfl]
    rfl
  | cons r params ih =>
    rw [List.length_cons] at hfuel
    obtain ⟨n, rfl⟩ : ∃ n, fuel = n + 1 := ⟨fuel - 1, by omega⟩
    rw [dealCommas_round, if_neg (List.cons_ne_nil _ _), ih q r _ n (by omega)]
    rfl

theorem isgraph_of_legal {c : Byte} (h : ifIllegal c = true) : isgraph c = true := by
  simp only [ifIllegal, isalnum, Bool.or_eq_true, Bool.and_eq_true, Decimal.isDigit_iff,
    decide_eq_true_eq, UInt8.le_iff_toNat_le, beq_iff_eq, UInt8.toNat_ofNat] at h
  simp only [isgraph, Bool.and_eq_true, decide_eq_true_eq, UInt8.le_iff_toNat_le, UInt8.toNat_ofNat]
  rcases h with h | h
  · omega
  · subst h
    decide

/-- All of a scalar counts. -/
theorem filter_print {p : Param} (h : p.size = none) : p.print.filter isgraph = p.print := by
  rw [List.filter_eq_self]
  intro c hc
  rw [Param.print, h, Param.brackets, List.append_nil] at hc
  rcases List.mem_append.mp hc with hc | hc
  · exact isgraph_of_legal (List.all_eq_true.mp (Param.legal_type p.type) c hc)
  · exact isgraph_of_legal (List.all_eq_true.mp p.legal c hc)

theorem legal_print (p : Param) :
    ifNameIllegal (p.print.filter isgraph) = true ↔ p.size = none := by
  constructor
  · intro h
    cases hsize : p.size with
    | none => rfl
    | some n =>
      have hmem : bracketLeft ∈ p.print.filter isgraph := by
        rw [List.mem_filter]
        exact ⟨by simp [Param.print, hsize, Param.brackets], by decide⟩
      exact absurd hmem (Param.illegal_not_mem (by decide) h)
  · intro h
    rw [filter_print h, Param.print, h, Param.brackets, List.append_nil, ifNameIllegal,
      List.all_append, Bool.and_eq_true]
    exact ⟨Param.legal_type p.type, p.legal⟩

theorem length_print (p : Param) : 3 < p.print.length := by
  have htype : 3 ≤ p.type.text.length := by
    cases p.type <;> decide
  have hname := List.length_pos_iff.mpr p.named
  rw [Param.print, List.length_append, List.length_append]
  omega

theorem dealArgs_single (p : Param) : dealArgs (printAll [p]) =
    if p.size = none then .ok [p.read] else .error (.message "func name has illegal char") := by
  have hnone : Strings.find p.print comma 0 = none := Strings.find_eq_none.mpr p.comma_not_mem
  rw [printAll_singleton, dealArgs, hnone]
  by_cases h : p.size = none
  · have hlen : 3 < (p.print.filter isgraph).length := by
      rw [filter_print h]
      exact length_print p
    simp only [(legal_print p).mpr h, if_pos hlen, if_pos h, p.dealArg_print]
    rfl
  · have hillegal : ifNameIllegal (p.print.filter isgraph) = false := by
      rw [← Bool.not_eq_true, legal_print]
      exact h
    simp only [hillegal, if_neg h]
    rfl

theorem dealArgs_several (p q : Param) (params : List Param) :
    dealArgs (printAll (p :: q :: params)) = .ok ((p :: q :: params).map Param.read) := by
  have hfuel : params.length < (printAll (p :: q :: params)).length :=
    length_printAll p (q :: params)
  have hread := dealCommas_print p q params [] _ hfuel
  rw [List.nil_append, List.length_nil, Nat.zero_add] at hread
  rw [dealArgs, find_comma, if_neg (List.cons_ne_nil _ _)]
  exact hread

/-- An array is not alone, and no `double` has the other type in its name. -/
def Told (params : List Param) : Prop :=
  (2 ≤ params.length ∨ ∀ p ∈ params, p.size = none) ∧ ∀ p ∈ params, ¬p.Mistaken

theorem map_read_iff (params : List Param) :
    params.map Param.read = params.map Param.built ↔ ∀ p ∈ params, ¬p.Mistaken := by
  rw [List.map_inj_left]
  exact forall₂_congr fun p _ => p.read_iff

/-- `int[3]n,doubled_1` is read as it is. -/
def sampleParams : List Param :=
  [⟨.int, some 3, ascii ['n'], by decide, by decide, by decide⟩,
    ⟨.double, none, ascii ['d', '_', '1'], by decide, by decide, by decide⟩]

/-- `doublepoint` is read as an `int` with the name `blepoint`. -/
def mistakenParam : Param :=
  ⟨.double, none, ascii ['p', 'o', 'i', 'n', 't'], by decide, by decide, by decide⟩

end NetCpp.Proofs
