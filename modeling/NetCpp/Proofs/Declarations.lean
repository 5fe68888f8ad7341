import NetCpp.CptContent
import NetCpp.Library.Maps
import NetCpp.Proofs.Args

namespace NetCpp.Proofs
open Library SettingFile Cpt

/-- The first declaration of a name is what the tables have. -/
structure Declared (srcs : List Bytes) (entries : List (Bytes × EntryFunc)) (cpt : Cpt) : Prop where
  srcFiles : cpt.srcFiles = srcs
  funcsSrc : ∀ n, cpt.funcsSrc[n]? = (entries.find? (·.2.name = n)).map Prod.fst
  fargsOut : ∀ n, cpt.fargsOut[n]? = (entries.find? (·.2.name = n)).map (·.2.fargsOut)
  fargsIn : ∀ n, cpt.fargsIn[n]? = (entries.find? (·.2.name = n)).map (·.2.fargsIn)
  known : ∀ entry ∈ entries, entry.1 ∈ srcs
  legal : ∀ entry ∈ entries, ifNameIllegal entry.2.name = true

section
variable {srcs : List Bytes} {entries : List (Bytes × EntryFunc)} {cpt : Cpt}

theorem getElem?_insertIfNew_find {β : Type} {m : Std.TreeMap Bytes β} {g : Bytes × EntryFunc → β}
    (hm : ∀ n, m[n]? = (entries.find? (·.2.name = n)).map g) (entry : Bytes × EntryFunc)
    (n : Bytes) : (m.insertIfNew entry.2.name (g entry))[n]? =
      ((entries ++ [entry]).find? (·.2.name = n)).map g := by
  rw [Maps.getElem?_insertIfNew, hm, List.find?_append]
  by_cases hname : entry.2.name = n
  · cases hfound : entries.find? (·.2.name = n) with
    | none => simp [hname]
    | some old => simp [hname]
  · simp [hname]

theorem Declared.start : Declared [] [] {} where
  srcFiles := rfl
  funcsSrc := fun _ => Std.TreeMap.getElem?_emptyc
  fargsOut := fun _ => Std.TreeMap.getElem?_emptyc
  fargsIn := fun _ => Std.TreeMap.getElem?_emptyc
  known := fun _ h => absurd h List.not_mem_nil
  legal := fun _ h => absurd h List.not_mem_nil

theorem Declared.source (h : Declared srcs entries cpt) (src : Bytes) :
    Declared (srcs ++ [src]) entries { cpt with srcFiles := cpt.srcFiles ++ [src] } where
  srcFiles := congrArg (· ++ [src]) h.srcFiles
  funcsSrc := h.funcsSrc
  fargsOut := h.fargsOut
  fargsIn := h.fargsIn
  known := fun entry hentry => List.mem_append_left _ (h.known entry hentry)
  legal := h.legal

theorem Declared.declare (h : Declared srcs entries cpt) {src : Bytes} {func : EntryFunc}
    (hsrc : src ∈ srcs) (hlegal : ifNameIllegal func.name = true) :
    Declared srcs (entries ++ [(src, func)]) (cpt.declare src func) where
  srcFiles := h.srcFiles
  funcsSrc := getElem?_insertIfNew_find h.funcsSrc (src, func)
  fargsOut := getElem?_insertIfNew_find h.fargsOut (src, func)
  fargsIn := getElem?_insertIfNew_find h.fargsIn (src, func)
  known := List.forall_mem_append.mpr ⟨h.known, List.forall_mem_singleton.mpr hsrc⟩
  legal := List.forall_mem_append.mpr ⟨h.legal, List.forall_mem_singleton.mpr hlegal⟩

theorem entryFunc_legal {sentence : Bytes} {func : EntryFunc} (h : entryFunc sentence = .ok func) :
    ifNameIllegal func.name = true := by
  rw [entryFunc] at h
  split at h
  · obtain ⟨strArgout, -, h⟩ := bind_ok h
    obtain ⟨cfgo, -, h⟩ := bind_ok h
    split at h
    · cases h
    split at h
    · cases h
    obtain ⟨strArgin, -, h⟩ := bind_ok h
    obtain ⟨cfgi, -, h⟩ := bind_ok h
    obtain ⟨funcName, -, h⟩ := bind_ok h
    cases hname : ifNameIllegal funcName with
    | false =>
      rw [hname] at h
      cases h
    | true =>
      rw [hname] at h
      obtain rfl := Except.ok.inj h
      exact hname
  · cases h

/-- Some declarations from files that the description names. -/
def Tabled (cpt : Cpt) : Prop := ∃ entries, Declared cpt.srcFiles entries cpt

theorem Tabled.dealFunc {src : Bytes} (h : Tabled cpt) (hsrc : src ∈ cpt.srcFiles)
    {func : SettingFileRead} {cpt' : Cpt} (hdeal : cpt.dealFunc src func = .ok cpt') : Tabled cpt' ∧
    src ∈ cpt'.srcFiles := by
  rw [Cpt.dealFunc] at hdeal
  split at hdeal
  · obtain rfl := Except.ok.inj hdeal
    exact ⟨h, hsrc⟩
  · obtain ⟨entry, hentry, hdeal⟩ := bind_ok hdeal
    obtain rfl := Except.ok.inj hdeal
    obtain ⟨entries, hentries⟩ := h
    exact ⟨⟨_, hentries.declare hsrc (entryFunc_legal hentry)⟩, hsrc⟩

theorem Tabled.dealSrc (h : Tabled cpt) {src : SettingFileRead} {cpt' : Cpt}
    (hdeal : cpt.dealSrc src = .ok cpt') : Tabled cpt' := by
  rw [Cpt.dealSrc] at hdeal
  split at hdeal
  · obtain ⟨entries, hentries⟩ := h
    have hstart : Tabled { cpt with srcFiles := cpt.srcFiles ++ [srcName src.name] } :=
      ⟨entries, hentries.source (srcName src.name)⟩
    have hstep : ∀ c func c', Tabled c ∧ srcName src.name ∈ c.srcFiles →
        c.dealFunc (srcName src.name) func = .ok c' → Tabled c' ∧ srcName src.name ∈ c'.srcFiles :=
      fun _ _ _ hc hfunc => hc.1.dealFunc hc.2 hfunc
    exact (run_invariant hstep ⟨hstart, by simp⟩ hdeal).1
  · obtain rfl := Except.ok.inj hdeal
    exact h

theorem tabled_dealContent {name text : Bytes} (h : dealContent name text = .ok cpt) :
    Tabled cpt := by
  obtain ⟨blocks, -, h⟩ := bind_ok h
  split at h
  · cases h
  split at h
  · exact run_invariant (fun _ _ _ hc hsrc => hc.dealSrc hsrc) ⟨[], .start⟩ h
  · obtain rfl := Except.ok.inj h
    exact ⟨[], .start⟩

/-- Whatever text a description is read from, what it declares can be built: the sources of its
functions are among its files, and every function has a legal name and both lists of parameters. -/
theorem dealContent_known {name text : Bytes} (h : dealContent name text = .ok cpt) :
    (∃ file : CptFile, file.srcFiles = cpt.srcFiles ∧ file.funcsSrc = cpt.funcsSrc) ∧
      ∀ func, (func ∈ cpt.funcsSrc ↔ func ∈ cpt.fargsOut) ∧
        (func ∈ cpt.funcsSrc ↔ func ∈ cpt.fargsIn) ∧
        (func ∈ cpt.funcsSrc → ifNameIllegal func = true) := by
  obtain ⟨entries, hentries⟩ := tabled_dealContent h
  constructor
  · refine ⟨⟨cpt.srcFiles, cpt.funcsSrc, ?_⟩, rfl, rfl⟩
    intro func src hsrc
    rw [hentries.funcsSrc] at hsrc
    obtain ⟨entry, hentry, rfl⟩ := Option.map_eq_some_iff.mp hsrc
    exact hentries.known entry (List.mem_of_find?_eq_some hentry)
  · intro func
    simp only [Std.TreeMap.mem_iff_isSome_getElem?, hentries.funcsSrc, hentries.fargsOut,
      hentries.fargsIn, Option.isSome_map, true_and]
    intro hsome
    obtain ⟨entry, hentry⟩ := Option.isSome_iff_exists.mp hsome
    have hname : entry.2.name = func := by simpa using List.find?_some hentry
    exact hname ▸ hentries.legal entry (List.mem_of_find?_eq_some hentry)

end

/-- `cpartsd{srcfilea{()f();};};` -/
def sampleText : Bytes :=
  ascii ['c', 'p', 'a', 'r', 't', 's', 'd', '{', 's', 'r', 'c', 'f', 'i', 'l', 'e', 'a',
  '{', '(', ')', 'f', '(', ')', ';', '}', ';', '}', ';']

theorem dealContent_known_sample : ∃ cpt, dealContent (ascii ['d']) sampleText = .ok cpt ∧
    (∃ file : CptFile, file.srcFiles = cpt.srcFiles ∧ file.funcsSrc = cpt.funcsSrc) ∧
      ∀ func, (func ∈ cpt.funcsSrc ↔ func ∈ cpt.fargsOut) ∧
        (func ∈ cpt.funcsSrc ↔ func ∈ cpt.fargsIn) ∧
        (func ∈ cpt.funcsSrc → ifNameIllegal func = true) := by
  have hok : (dealContent (ascii ['d']) sampleText).isOk = true := by decide +kernel
  obtain ⟨cpt, h⟩ := exists_of_isOk hok
  exact ⟨cpt, h, dealContent_known h⟩

/-- The function is there, with no parameters. -/
example : (dealContent (ascii ['d']) sampleText).toOption.map
    (fun cpt => (cpt.srcFiles, cpt.fargsIn.toList)) =
    some ([srcName (ascii ['a'])], [(ascii ['f'], [])]) := by
  decide +kernel

end NetCpp.Proofs
