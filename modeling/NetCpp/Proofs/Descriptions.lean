import NetCpp.Proofs.Declarations

namespace NetCpp.Proofs
open Library SettingFile Cpt

/-- Parameters that are read as they are. -/
def Legible (params : List Param) : Prop := params = [] ∨ Told params

instance Legible.decide (params : List Param) : Decidable (Legible params) :=
  decidable_of_iff (params.isEmpty ∨ (2 ≤ params.length ∨ ∀ p ∈ params, p.size.isNone) ∧
    ∀ p ∈ params, ¬p.Mistaken)
    (by simp [Legible, Told])

structure Func where
  name : Bytes
  outs : List Param
  ins : List Param
  legal : ifNameIllegal name = true

namespace Func

def print (f : Func) : Bytes :=
  parenLeft ::
    (printAll f.outs ++ parenRight :: (f.name ++ parenLeft :: (printAll f.ins ++ [parenRight])))

/-- What the reader should make of a function. -/
def entry (f : Func) : EntryFunc :=
  { name := f.name, fargsOut := f.outs.map Param.built, fargsIn := f.ins.map Param.built }

end Func

theorem not_mem_print {c : Byte} (hlegal : ifIllegal c = false) (hleft : c ≠ bracketLeft)
    (hright : c ≠ bracketRight) (hminus : c ≠ Decimal.minus) (p : Param) : c ∉ p.print := by
  have hdigit : Decimal.isDigit c = false := by
    simp only [ifIllegal, isalnum, Bool.or_eq_false_iff] at hlegal
    exact hlegal.1.1.1
  have htype := Param.illegal_not_mem hlegal (Param.legal_type p.type)
  have hname := Param.illegal_not_mem hlegal p.legal
  have hbrackets : c ∉ Param.brackets p.size := by
    cases p.size with
    | none => exact List.not_mem_nil
    | some n =>
      intro hmem
      rcases List.mem_cons.mp hmem with h | hmem
      · exact hleft h
      · rcases List.mem_append.mp hmem with h | h
        · exact Param.not_mem_ofInt hdigit hminus n h
        · exact hright (List.mem_singleton.mp h)
  intro hmem
  rcases List.mem_append.mp hmem with hmem | hmem
  · exact (List.mem_append.mp hmem).elim htype hbrackets
  · exact hname hmem

theorem not_mem_printAll {c : Byte} (hlegal : ifIllegal c = false) (hleft : c ≠ bracketLeft)
    (hright : c ≠ bracketRight) (hminus : c ≠ Decimal.minus) (hcomma : c ≠ comma)
    (params : List Param) : c ∉ printAll params := by
  induction params with
  | nil => exact List.not_mem_nil
  | cons p params ih =>
    have hp := not_mem_print hlegal hleft hright hminus p
    cases params with
    | nil => rwa [printAll_singleton]
    | cons q params =>
      rw [printAll_cons]
      intro hmem
      rcases List.mem_append.mp hmem with h | h
      · exact hp h
      · exact (List.mem_cons.mp h).elim hcomma ih

theorem dealArgs_legible {params : List Param} (h : Legible params) :
    dealArgs (printAll params) = .ok (params.map Param.built) := by
  match params, h with
  | [], _ => rfl
  | [p], h =>
    obtain ⟨hsize, htold⟩ := h.resolve_left (List.cons_ne_nil _ _)
    have hnone : p.size = none := hsize.resolve_left (by simp) p (List.mem_singleton_self p)
    rw [dealArgs_single, if_pos hnone, List.map_singleton,
      p.read_iff.mpr (htold p (List.mem_singleton_self p))]
  | p :: q :: params, h =>
    obtain ⟨-, htold⟩ := h.resolve_left (List.cons_ne_nil _ _)
    rw [dealArgs_several, (map_read_iff _).mpr htold]

theorem entryFunc_print {f : Func} (houts : Legible f.outs) (hins : Legible f.ins) :
    entryFunc f.print = .ok f.entry := by
  have hleft (params : List Param) : parenLeft ∉ printAll params :=
    not_mem_printAll (by decide) (by decide) (by decide) (by decide) (by decide) params
  have hright (params : List Param) : parenRight ∉ printAll params :=
    not_mem_printAll (by decide) (by decide) (by decide) (by decide) (by decide) params
  have hnameLeft : parenLeft ∉ f.name := Param.illegal_not_mem (by decide) f.legal
  have hnameRight : parenRight ∉ f.name := Param.illegal_not_mem (by decide) f.legal
  -- the text up to the name, and up to the second pair
  have hfirst : f.print = (parenLeft :: printAll f.outs) ++
      parenRight :: (f.name ++ parenLeft :: (printAll f.ins ++ [parenRight])) := rfl
  have hsecond : f.print = (parenLeft :: printAll f.outs ++ [parenRight]) ++
      (f.name ++ parenLeft :: (printAll f.ins ++ [parenRight])) := by simp [Func.print]
  have hthird : f.print = (parenLeft :: printAll f.outs ++ [parenRight] ++ f.name) ++
      ((parenLeft :: printAll f.ins) ++ parenRight :: []) := by simp [Func.print]
  have hfourth : f.print =
      (parenLeft :: printAll f.outs ++ [parenRight] ++ f.name ++ [parenLeft]) ++
      (printAll f.ins ++ [parenRight]) := by simp [Func.print]
  have hlen : (parenLeft :: printAll f.outs ++ [parenRight]).length =
      (printAll f.outs).length + 2 := by simp
  have hlen' : (parenLeft :: printAll f.outs ++ [parenRight] ++ f.name).length =
      (printAll f.outs).length + 2 + f.name.length := by simp; omega
  have hdqL : Strings.find f.print parenLeft 0 = some 0 :=
    @Strings.find_append _ _ [] _ parenLeft List.not_mem_nil
  have hdqR : Strings.find f.print parenRight 0 = some ((printAll f.outs).length + 1) := by
    rw [hfirst, Strings.find_append]
    · simp
    · exact fun hmem => (List.mem_cons.mp hmem).elim (by decide) (hright f.outs)
  have hyqL : Strings.find f.print parenLeft ((printAll f.outs).length + 1 + 1) =
      some ((printAll f.outs).length + 2 + f.name.length) := by
    rw [hsecond, show (printAll f.outs).length + 1 + 1 = _ from hlen.symm, Strings.find_from,
      Strings.find_append hnameLeft, hlen]
    rfl
  have hyqR : Strings.find f.print parenRight ((printAll f.outs).length + 2 + f.name.length) =
      some ((printAll f.outs).length + 2 + f.name.length + ((printAll f.ins).length + 1)) := by
    rw [hthird, ← hlen', Strings.find_from, Strings.find_append, Option.map_some, List.length_cons]
    exact fun hmem => (List.mem_cons.mp hmem).elim (by decide) (hright f.ins)
  have hargout : substr f.print (0 + 1) (((printAll f.outs).length + 1 : Nat) - (0 : Nat) - 1) =
      .ok (printAll f.outs) :=
    @substr_ok [parenLeft] (printAll f.outs) _ _ _ rfl (by omega)
  have hargin : substr f.print ((printAll f.outs).length + 2 + f.name.length + 1)
      (((printAll f.outs).length + 2 + f.name.length + ((printAll f.ins).length + 1) : Nat) -
        ((printAll f.outs).length + 2 + f.name.length : Nat) - 1) = .ok (printAll f.ins) := by
    rw [hfourth]
    refine substr_ok ?_ (by omega)
    rw [List.length_append, hlen']
    rfl
  have hname : substr f.print ((printAll f.outs).length + 1 + 1)
      (((printAll f.outs).length + 2 + f.name.length : Nat) - ((printAll f.outs).length +
        1 : Nat) - 1) =
      .ok f.name := by
    rw [hsecond]
    exact substr_ok hlen.symm (by omega)
  rw [entryFunc, hdqL, hdqR]
  simp only [hargout, dealArgs_legible houts, bind, Except.bind, hyqL, hyqR, hargin,
    dealArgs_legible hins, hname, f.legal]
  rfl

theorem plainText_print (f : Func) : PlainText f.print := by
  have hnot {c : Byte} (hlegal : ifIllegal c = false) (hleft : c ≠ bracketLeft)
      (hright : c ≠ bracketRight)
      (hminus : c ≠ Decimal.minus) (hcomma : c ≠ comma) (hopen : c ≠ parenLeft)
        (hclose : c ≠ parenRight) :
      c ∉ f.print := by
    have hargs := not_mem_printAll hlegal hleft hright hminus hcomma
    have hname := Param.illegal_not_mem hlegal f.legal
    simp only [Func.print, List.mem_cons, List.mem_append, List.not_mem_nil, hargs, hname,
      hopen, hclose]
    simp
  exact ⟨hnot (by decide) (by decide) (by decide) (by decide) (by decide) (by decide) (by decide),
    hnot (by decide) (by decide) (by decide) (by decide) (by decide) (by decide) (by decide),
    hnot (by decide) (by decide) (by decide) (by decide) (by decide) (by decide) (by decide)⟩

/-- A source file with its functions. -/
structure Source where
  name : Bytes
  funcs : List Func
  legal : ifNameIllegal name = true

/-- The description of a project. -/
structure Description where
  name : Bytes
  sources : List Source
  legal : ifNameIllegal name = true

def srcfile : Bytes := ascii ['s', 'r', 'c', 'f', 'i', 'l', 'e']

def cparts : Bytes := ascii ['c', 'p', 'a', 'r', 't', 's']

def funcDocument (funcs : List Func) : Document Cpt.blockKeys :=
  funcs.foldr (fun f next => .sentence f.print (plainText_print f) next) .nil

def sourceDocument (sources : List Source) : Document Cpt.blockKeys :=
  sources.foldr
    (fun s next => .block srcfile s.name (by decide) s.legal (funcDocument s.funcs) next) .nil

/-- A file of descriptions, one after another. -/
def document (ds : List Description) : Document Cpt.blockKeys :=
  ds.foldr (fun d next => .block cparts d.name (by decide) d.legal (sourceDocument d.sources) next)
    .nil

namespace Description

/-- What is declared, in its order. -/
def entries (d : Description) : List (Bytes × EntryFunc) :=
  d.sources.flatMap (fun s => s.funcs.map (fun f => (srcName s.name, f.entry)))

/-- All parameters are read as they are. -/
def Clear (d : Description) : Prop := ∀ s ∈ d.sources, ∀ f ∈ s.funcs, Legible f.outs ∧ Legible f.ins

instance Clear.decide (d : Description) : Decidable d.Clear :=
  inferInstanceAs (Decidable (∀ s ∈ d.sources, ∀ f ∈ s.funcs, Legible f.outs ∧ Legible f.ins))

end Description

theorem built_funcDocument (funcs : List Func) :
    (funcDocument funcs).built = funcs.map (fun f => { sentence := f.print, ifBlk := false }) :=
  built_foldr (fun _ _ => rfl) funcs

theorem built_sourceDocument (sources : List Source) :
    (sourceDocument sources).built = sources.map (fun s =>
    { key := srcfile, name := s.name, ifBlk := true, childs := (funcDocument s.funcs).built }) :=
  built_foldr (fun _ _ => rfl) sources

theorem built_document (ds : List Description) : (document ds).built = ds.map (fun d =>
    { key := cparts, name := d.name, ifBlk := true, childs := (sourceDocument d.sources).built }) :=
  built_foldr (fun _ _ => rfl) ds

section
variable {srcs : List Bytes} {entries : List (Bytes × EntryFunc)} {cpt : Cpt}

theorem run_dealFunc {src : Bytes} {funcs : List Func} (h : Declared srcs entries cpt)
    (hsrc : src ∈ srcs) (hclear : ∀ f ∈ funcs, Legible f.outs ∧ Legible f.ins) :
    ∃ cpt', run (Cpt.dealFunc src) cpt (funcDocument funcs).built = .ok cpt' ∧
      Declared srcs (entries ++ funcs.map (fun f => (src, f.entry))) cpt' := by
  rw [built_funcDocument]
  induction funcs generalizing entries cpt with
  | nil => exact ⟨cpt, rfl, by simpa using h⟩
  | cons f funcs ih =>
    obtain ⟨hf, hrest⟩ := List.forall_mem_cons.mp hclear
    have hdeal : cpt.dealFunc src { sentence := f.print, ifBlk := false } =
        .ok (cpt.declare src f.entry) := by
      rw [Cpt.dealFunc, if_neg (by simp)]
      simp only [entryFunc_print hf.1 hf.2, bind, Except.bind]
      rfl
    have hlegal : ifNameIllegal f.entry.name = true := f.legal
    obtain ⟨cpt', hrun, hdeclared⟩ := ih (h.declare hsrc hlegal) hrest
    refine ⟨cpt', ?_, by simpa using hdeclared⟩
    rw [List.map_cons, run_cons_ok hdeal, hrun]

theorem run_dealSrc {sources : List Source} (h : Declared srcs entries cpt)
    (hclear : ∀ s ∈ sources, ∀ f ∈ s.funcs, Legible f.outs ∧ Legible f.ins) :
    ∃ cpt', run Cpt.dealSrc cpt (sourceDocument sources).built = .ok cpt' ∧
      Declared (srcs ++ sources.map (fun s => srcName s.name))
        (entries ++ sources.flatMap (fun s => s.funcs.map (fun f => (srcName s.name, f.entry))))
          cpt' := by
  rw [built_sourceDocument]
  induction sources generalizing srcs entries cpt with
  | nil => exact ⟨cpt, rfl, by simpa using h⟩
  | cons s sources ih =>
    obtain ⟨hs, hrest⟩ := List.forall_mem_cons.mp hclear
    have hsrc : srcName s.name ∈ srcs ++ [srcName s.name] :=
      List.mem_append_right srcs (List.mem_singleton_self _)
    obtain ⟨u, hu, hdeclared⟩ := run_dealFunc (h.source (srcName s.name)) hsrc hs
    have hdeal : cpt.dealSrc
        { key := srcfile, name := s.name, ifBlk := true, childs := (funcDocument s.funcs).built } =
          .ok u := by
      rw [Cpt.dealSrc]
      exact (if_pos rfl).trans hu
    obtain ⟨cpt', hrun, hall⟩ := ih hdeclared hrest
    refine ⟨cpt', ?_, by simpa using hall⟩
    rw [List.map_cons, run_cons_ok hdeal, hrun]

end

/-- Two sources, the second of which declares a function again. -/
def sampleDescription : Description where
  name := ascii ['d', 'e', 'm', 'o']
  sources := [
    { name := ascii ['a'], funcs := [
        { name := ascii ['r', 'u', 'n'], outs := [], ins := sampleParams, legal := Eq.refl true },
        { name := ascii ['g'], outs := sampleParams.drop 1, ins := [], legal := Eq.refl true }],
      legal := Eq.refl true },
    { name := ascii ['b'], funcs := [
        { name := ascii ['r', 'u', 'n'], outs := [], ins := [], legal := Eq.refl true }],
      legal := Eq.refl true }]
  legal := Eq.refl true

def sampleDescriptions : List Description :=
  [{ name := ascii ['o', 't', 'h', 'e', 'r'], sources := [], legal := Eq.refl true },
    sampleDescription]

end NetCpp.Proofs
