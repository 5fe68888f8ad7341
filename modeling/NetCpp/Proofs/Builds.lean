import NetCpp.Library.Maps
import NetCpp.Proofs.Tables

namespace NetCpp.Proofs
open Library Proj

/-- What g++ makes of a text counts as success. -/
def Succeeds (g : Gxx) : Prop := g.rtn ≠ -1 ∧ g.rtn ≠ 127 ∧ g.log = []

/-- The text of a used source. -/
def textOf (disk : Disk) (src : Bytes × Bytes) : Bytes := disk.text src.2 src.1

/-- After the call of g++ for a source, whatever came of it. -/
def tried (t : Tools) (disk : Disk) (b : Building) (src : Bytes × Bytes) : Building :=
  { b with
    libs := if (t.gxx (textOf disk src)).writes then Function.update b.libs (libName src.1)
      (some (textOf disk src)) else b.libs
    calls := b.calls ++ [libName src.1] }

/-- And after its library is in the index. -/
def compiled (t : Tools) (disk : Disk) (b : Building) (src : Bytes × Bytes) : Building :=
  { tried t disk b src with libIndex := b.libIndex.insertIfNew src.1 (libName src.1) }

theorem compileSrcfile_succeeds {t : Tools} {disk : Disk} {src : Bytes × Bytes}
    (h : Succeeds (t.gxx (textOf disk src))) (b : Building) :
    compileSrcfile t disk b src = (compiled t disk b src, .ok ()) := by
  obtain ⟨hfork, hexec, hlog⟩ := h
  unfold textOf at hfork hexec hlog
  simp only [compileSrcfile, buildSrc, andThen, ne_eq, hfork, hexec, hlog, not_false_eq_true,
    and_self, if_true]
  rfl

theorem compileSrcfile_refused {t : Tools} {disk : Disk} {src : Bytes × Bytes}
    (h : ¬ Succeeds (t.gxx (textOf disk src))) (b : Building) :
    ∃ e, compileSrcfile t disk b src = (tried t disk b src, .error e) := by
  unfold Succeeds textOf at h
  unfold compileSrcfile buildSrc
  by_cases hrun : (t.gxx (disk.text src.2 src.1)).rtn ≠ -1 ∧
    (t.gxx (disk.text src.2 src.1)).rtn ≠ 127
  · have hlog : ¬ (t.gxx (disk.text src.2 src.1)).log = [] := fun hlog => h ⟨hrun.1, hrun.2, hlog⟩
    exact ⟨_, by rw [if_pos hrun, if_neg hlog]; rfl⟩
  · exact ⟨_, by rw [if_neg hrun]; rfl⟩

/-- The library of a source is one of a text with this digest, or of a text that was refused. -/
def Recorded (t : Tools) (libs : Bytes → Option Bytes) (name md5 : Bytes) : Prop :=
  ∃ text, libs (libName name) = some text ∧ (t.computeFile text = md5 ∨ ¬ Succeeds (t.gxx text))

section
variable {t : Tools} {disk : Disk} {b : Building} {src : Bytes × Bytes} {name md5 : Bytes}

theorem Recorded.tried_ne (h : Recorded t b.libs name md5) (hne : name ≠ src.1) :
    Recorded t (tried t disk b src).libs name md5 := by
  obtain ⟨text, hlib, hmd5⟩ := h
  refine ⟨text, ?_, hmd5⟩
  have hlibs : libName name ≠ libName src.1 := fun h => hne (libName_injective h)
  simp only [tried]
  split
  · rw [Function.update_of_ne hlibs, hlib]
  · exact hlib

/-- A refused text leaves what is recorded: either the library stays, or it is of the refused
text. -/
theorem Recorded.tried_refused (h : Recorded t b.libs name md5)
    (hrefused : ¬ Succeeds (t.gxx (textOf disk src))) :
    Recorded t (tried t disk b src).libs name md5 := by
  by_cases hne : name = src.1
  · obtain ⟨text, hlib, hmd5⟩ := h
    simp only [tried]
    split
    · exact ⟨textOf disk src, by rw [hne, Function.update_self], .inr hrefused⟩
    · exact ⟨text, hlib, hmd5⟩
  · exact h.tried_ne hne

/-- g++ has written the library where it does not complain. -/
def Writes (t : Tools) : Prop := ∀ text, Succeeds (t.gxx text) → (t.gxx text).writes = true

theorem libs_tried (hwrites : Writes t) (h : Succeeds (t.gxx (textOf disk src))) :
    (tried t disk b src).libs =
      Function.update b.libs (libName src.1) (some (textOf disk src)) := by
  rw [tried, if_pos (hwrites _ h)]

theorem recorded_tried (hwrites : Writes t) (h : Succeeds (t.gxx (textOf disk src))) :
    Recorded t (tried t disk b src).libs src.1 (t.computeFile (textOf disk src)) :=
  ⟨textOf disk src, by rw [libs_tried hwrites h, Function.update_self], .inl rfl⟩

end

structure Coherent (t : Tools) (b : Building) : Prop where
  tables : Tables b.db
  recorded : ∀ r ∈ b.db.srcfiles, Recorded t b.libs r.name r.md5
  index : ∀ s l : Bytes, b.libIndex[s]? = some l → l = libName s ∧ s ∈ b.db.srcfiles.map SrcRow.name

theorem Coherent.tried_refused {t : Tools} {b : Building} (h : Coherent t b) {disk : Disk}
    {src : Bytes × Bytes} (hrefused : ¬ Succeeds (t.gxx (textOf disk src))) :
    Coherent t (tried t disk b src) where
  tables := h.tables
  recorded := fun r hr => (h.recorded r hr).tried_refused hrefused
  index := h.index

/-- The row of a new source. -/
def newRow (t : Tools) (disk : Disk) (id : Nat) (src : Bytes × Bytes) : SrcRow :=
  { id, name := src.1, path := src.2, md5 := t.computeFile (textOf disk src) }

/-- A new source is compiled and gets a row. -/
def added (t : Tools) (disk : Disk) (s : Nat × Building) (src : Bytes × Bytes) : Nat × Building :=
  (s.1 + 1, { compiled t disk s.2 src with db := s.2.db.insertSrc (newRow t disk (s.1 + 1) src) })

theorem addSource_cases (t : Tools) (disk : Disk) (s : Nat × Building) (src : Bytes × Bytes) :
    (src.1 ∈ s.2.db.srcfiles.map SrcRow.name ∧ addSource t disk s src = (s, .ok ())) ∨
    (src.1 ∉ s.2.db.srcfiles.map SrcRow.name ∧ Succeeds (t.gxx (textOf disk src)) ∧
      addSource t disk s src = (added t disk s src, .ok ())) ∨
    (src.1 ∉ s.2.db.srcfiles.map SrcRow.name ∧ ¬ Succeeds (t.gxx (textOf disk src)) ∧
      ∃ e, addSource t disk s src = ((s.1, tried t disk s.2 src), .error e)) := by
  unfold addSource
  by_cases hold : src.1 ∈ s.2.db.srcfiles.map SrcRow.name
  · exact .inl ⟨hold, if_pos hold⟩
  · rw [if_neg hold]
    by_cases hacc : Succeeds (t.gxx (textOf disk src))
    · rw [compileSrcfile_succeeds hacc]
      exact .inr (.inl ⟨hold, hacc, rfl⟩)
    · obtain ⟨e, he⟩ := compileSrcfile_refused hacc s.2
      rw [he]
      exact .inr (.inr ⟨hold, hacc, e, rfl⟩)

/-- In the loop over the new sources no `id` is above `last_id`. -/
structure Adding (t : Tools) (s : Nat × Building) : Prop where
  coherent : Coherent t s.2
  ids : ∀ r ∈ s.2.db.srcfiles, r.id ≤ s.1

theorem insertSrc_new {db : Database} {row : SrcRow} (h : ∀ r ∈ db.srcfiles, r.id < row.id) :
    (db.insertSrc row).srcfiles = db.srcfiles ++ [row] := by
  have hid : row.id ∉ db.srcfiles.map SrcRow.id := by
    intro hmem
    obtain ⟨r, hr, hid⟩ := List.mem_map.mp hmem
    exact absurd (h r hr) (by omega)
  rw [Database.insertSrc, if_neg hid]

theorem Adding.srcfiles {t : Tools} {s : Nat × Building} (h : Adding t s) (disk : Disk)
    (src : Bytes × Bytes) : (added t disk s src).2.db.srcfiles =
      s.2.db.srcfiles ++ [newRow t disk (s.1 + 1) src] :=
  insertSrc_new (fun r hr => Nat.lt_succ_of_le (h.ids r hr))

theorem Adding.added {t : Tools} (hwrites : Writes t) {s : Nat × Building} (h : Adding t s)
    {disk : Disk} {src : Bytes × Bytes} (hnew : src.1 ∉ s.2.db.srcfiles.map SrcRow.name)
    (hacc : Succeeds (t.gxx (textOf disk src))) : Adding t (added t disk s src) := by
  have hrows := h.srcfiles disk src
  refine ⟨⟨h.coherent.tables.insertSrc hnew, ?_, ?_⟩, ?_⟩
  · intro r hr
    rw [hrows] at hr
    rcases List.mem_append.mp hr with hr | hr
    · have hne : r.name ≠ src.1 := fun heq => hnew (heq ▸ List.mem_map_of_mem hr)
      exact (h.coherent.recorded r hr).tried_ne hne
    · rw [List.mem_singleton.mp hr]
      exact recorded_tried hwrites hacc
  · intro n l hl
    rw [hrows, List.map_append]
    change (s.2.libIndex.insertIfNew src.1 (libName src.1))[n]? = some l at hl
    rw [Maps.getElem?_insertIfNew] at hl
    by_cases hn : src.1 = n
    · subst hn
      have hnone : s.2.libIndex[src.1]? = none := by
        cases hold : s.2.libIndex[src.1]? with
        | none => rfl
        | some l' => exact absurd (h.coherent.index src.1 l' hold).2 hnew
      rw [if_pos rfl, hnone, Option.getD_none, Option.some.injEq] at hl
      exact ⟨hl.symm, List.mem_append_right _ List.mem_cons_self⟩
    · rw [if_neg hn] at hl
      obtain ⟨hname, hrow⟩ := h.coherent.index n l hl
      exact ⟨hname, List.mem_append_left _ hrow⟩
  · intro r hr
    rw [hrows] at hr
    rcases List.mem_append.mp hr with hr | hr
    · exact Nat.le_succ_of_le (h.ids r hr)
    · rw [List.mem_singleton.mp hr]
      exact Nat.le_refl _

theorem Adding.step {t : Tools} (hwrites : Writes t) {s : Nat × Building} (h : Adding t s)
    (disk : Disk) (src : Bytes × Bytes) : Adding t (addSource t disk s src).1 := by
  obtain ⟨-, heq⟩ | ⟨hnew, hacc, heq⟩ | ⟨-, hrefused, e, heq⟩ := addSource_cases t disk s src
  · rw [heq]
    exact h
  · rw [heq]
    exact h.added hwrites hnew hacc
  · rw [heq]
    exact ⟨h.coherent.tried_refused hrefused, h.ids⟩

theorem Coherent.adding {t : Tools} {b : Building} (h : Coherent t b) :
    Adding t (lastId (b.db.srcfiles.map SrcRow.id), b) where
  coherent := h
  ids := fun _ hr => (le_foldl_max _ 0).2 _ (List.mem_map_of_mem hr)

theorem Coherent.addSources {t : Tools} (hwrites : Writes t) {b : Building} (h : Coherent t b)
    (disk : Disk) (used : List (Bytes × Bytes)) : Coherent t (addSources t disk used b).1 :=
  (sweep_invariant (I := Adding t) (fun src _ _ hs => hs.step hwrites disk src) h.adding).coherent

theorem addLib_cases (s : Nat × Building) (lib : Bytes) :
    (lib ∈ s.2.db.libfiles.map LibRow.name ∧ addLib s lib = s) ∨
    (lib ∉ s.2.db.libfiles.map LibRow.name ∧
      addLib s lib =
        (s.1 + 1, { s.2 with db := s.2.db.insertLib { id := s.1 + 1, name := lib } })) := by
  by_cases hold : lib ∈ s.2.db.libfiles.map LibRow.name
  · exact .inl ⟨hold, if_pos hold⟩
  · exact .inr ⟨hold, if_neg hold⟩

theorem insertLib_srcfiles (db : Database) (row : LibRow) :
    (db.insertLib row).srcfiles = db.srcfiles := by
  unfold Database.insertLib
  split <;> rfl

/-- The loop over `lib_index` touches the libraries' rows only. -/
theorem foldl_addLib (libs : List Bytes) (s : Nat × Building) :
    (libs.foldl addLib s).2.db.srcfiles = s.2.db.srcfiles ∧
    (libs.foldl addLib s).2.libs = s.2.libs ∧
      (libs.foldl addLib s).2.libIndex = s.2.libIndex ∧ (libs.foldl addLib s).2.calls = s.2.calls ∧
      (libs.foldl addLib s).2.db.functions = s.2.db.functions := by
  induction libs generalizing s with
  | nil => exact ⟨rfl, rfl, rfl, rfl, rfl⟩
  | cons lib libs ih =>
    obtain ⟨-, heq⟩ | ⟨-, heq⟩ := addLib_cases s lib
    · rw [List.foldl_cons, heq]
      exact ih s
    · rw [List.foldl_cons, heq]
      obtain ⟨hsrc, hlibs, hindex, hcalls, hfuncs⟩ :=
        ih (s.1 + 1, { s.2 with db := s.2.db.insertLib { id := s.1 + 1, name := lib } })
      refine ⟨hsrc.trans (insertLib_srcfiles _ _), hlibs, hindex, hcalls, hfuncs.trans ?_⟩
      unfold Database.insertLib
      split <;> rfl

theorem Tables.foldl_addLib {libs : List Bytes} {s : Nat × Building} (h : Tables s.2.db)
    (hlibs : ∀ lib ∈ libs, ∃ r ∈ s.2.db.srcfiles, lib = libName r.name) :
    Tables (libs.foldl addLib s).2.db := by
  induction libs generalizing s with
  | nil => exact h
  | cons lib libs ih =>
    have hrest (lib' : Bytes) (hl : lib' ∈ libs) := hlibs lib' (List.mem_cons_of_mem lib hl)
    obtain ⟨-, heq⟩ | ⟨hnew, heq⟩ := addLib_cases s lib
    · rw [List.foldl_cons, heq]
      exact ih h hrest
    · rw [List.foldl_cons, heq]
      refine ih (h.insertLib hnew (hlibs lib List.mem_cons_self)) (fun lib' hl => ?_)
      simpa only [insertLib_srcfiles] using hrest lib' hl

theorem mem_libIndex {m : Std.TreeMap Bytes Bytes} {lib : Bytes} (h : lib ∈ m.toList.map Prod.snd) :
    ∃ s : Bytes, m[s]? = some lib := by
  obtain ⟨⟨s, l⟩, hmem, rfl⟩ := List.mem_map.mp h
  exact ⟨s, Std.TreeMap.mem_toList_iff_getElem?_eq_some.mp hmem⟩

theorem Coherent.addLibs {t : Tools} {b : Building} (h : Coherent t b) :
    Coherent t (addLibs b) := by
  obtain ⟨hsrc, hlibs, hindex, -, -⟩ :=
    NetCpp.Proofs.foldl_addLib (b.libIndex.toList.map Prod.snd)
      (lastId (b.db.libfiles.map LibRow.id), b)
  refine ⟨Tables.foldl_addLib h.tables ?_, ?_, ?_⟩
  · intro lib hlib
    obtain ⟨s, hs⟩ := mem_libIndex hlib
    obtain ⟨rfl, hrow⟩ := h.index s lib hs
    obtain ⟨r, hr, rfl⟩ := List.mem_map.mp hrow
    exact ⟨r, hr, rfl⟩
  · intro r hr
    change Recorded t (List.foldl addLib _ _).2.libs r.name r.md5
    rw [hlibs]
    exact h.recorded r (hsrc ▸ hr)
  · intro s l hl
    change (List.foldl addLib _ _).2.libIndex[s]? = some l at hl
    rw [hindex] at hl
    change _ ∧ s ∈ (List.foldl addLib _ _).2.db.srcfiles.map SrcRow.name
    rw [hsrc]
    exact h.index s l hl

/-- A modified source is compiled and its digest is renewed. -/
def renewed (t : Tools) (disk : Disk) (b : Building) (src : Bytes × Bytes) : Building :=
  { compiled t disk b src with db := b.db.updateMd5 src.1 (t.computeFile (textOf disk src)) }

theorem renewSource_cases (t : Tools) (disk : Disk) (b : Building) (src : Bytes × Bytes) :
    (b.db.findSrc src.1 = none ∧ renewSource t disk b src = (b, .error .nullPointer)) ∨
    ∃ row, b.db.findSrc src.1 = some row ∧
      ((row.md5 = t.computeFile (textOf disk src) ∧ renewSource t disk b src = (b, .ok ())) ∨
       (row.md5 ≠ t.computeFile (textOf disk src) ∧ Succeeds (t.gxx (textOf disk src)) ∧
         renewSource t disk b src = (renewed t disk b src, .ok ())) ∨
       (row.md5 ≠ t.computeFile (textOf disk src) ∧ ¬ Succeeds (t.gxx (textOf disk src)) ∧
         ∃ e, renewSource t disk b src = (tried t disk b src, .error e))) := by
  unfold renewSource
  cases hfind : b.db.findSrc src.1 with
  | none => exact .inl ⟨rfl, rfl⟩
  | some row =>
    refine .inr ⟨row, rfl, ?_⟩
    by_cases hsame : row.md5 = t.computeFile (textOf disk src)
    · exact .inl ⟨hsame, if_neg (fun hne => hne hsame)⟩
    · simp only
      rw [if_pos (show row.md5 ≠ t.computeFile (disk.text src.2 src.1) from hsame)]
      by_cases hacc : Succeeds (t.gxx (textOf disk src))
      · rw [compileSrcfile_succeeds hacc]
        exact .inr (.inl ⟨hsame, hacc, rfl⟩)
      · obtain ⟨e, he⟩ := compileSrcfile_refused hacc b
        rw [he]
        exact .inr (.inr ⟨hsame, hacc, e, rfl⟩)

theorem Coherent.renewed {t : Tools} (hwrites : Writes t) {b : Building} (h : Coherent t b)
    {disk : Disk} {src : Bytes × Bytes} {row : SrcRow} (hrow : b.db.findSrc src.1 = some row)
    (hacc : Succeeds (t.gxx (textOf disk src))) : Coherent t (renewed t disk b src) := by
  obtain ⟨hmem, hname⟩ := findSrc_some hrow
  refine ⟨h.tables.updateMd5 _ _, ?_, ?_⟩
  · intro r hr
    obtain ⟨r', hr', rfl⟩ := List.mem_map.mp hr
    change Recorded t (tried t disk b src).libs (digested _ _ r').name (digested _ _ r').md5
    by_cases heq : r'.name = src.1
    · rw [digested_name, digested, if_pos heq, heq]
      exact recorded_tried hwrites hacc
    · rw [digested, if_neg heq]
      exact (h.recorded r' hr').tried_ne heq
  · intro s l hl
    change (b.libIndex.insertIfNew src.1 (libName src.1))[s]? = some l at hl
    change _ ∧ s ∈ (b.db.updateMd5 src.1 _).srcfiles.map SrcRow.name
    rw [updateMd5_names]
    rw [Maps.getElem?_insertIfNew] at hl
    by_cases hs : src.1 = s
    · subst hs
      rw [if_pos rfl, Option.some.injEq] at hl
      refine ⟨?_, hname ▸ List.mem_map_of_mem hmem⟩
      cases hold : b.libIndex[src.1]? with
      | none => rw [← hl, hold, Option.getD_none]
      | some l' => rw [← hl, hold, Option.getD_some, (h.index src.1 l' hold).1]
    · rw [if_neg hs] at hl
      exact h.index s l hl

theorem Coherent.renewSource {t : Tools} (hwrites : Writes t) {b : Building} (h : Coherent t b)
    (disk : Disk) (src : Bytes × Bytes) : Coherent t (renewSource t disk b src).1 := by
  obtain ⟨-, heq⟩ | ⟨row, hrow, ⟨-, heq⟩ | ⟨-, hacc, heq⟩ | ⟨-, hrefused, e, heq⟩⟩ :=
    renewSource_cases t disk b src
  · rw [heq]
    exact h
  · rw [heq]
    exact h
  · rw [heq]
    exact h.renewed hwrites hrow hacc
  · rw [heq]
    exact h.tried_refused hrefused

/-- The row of a function, once its source and its library are found. -/
theorem writeFuncInfo_cases (b : Building) (id : Nat) (func : Bytes × Bytes) :
    (∃ e, writeFuncInfo b id func = (b, .error e)) ∨
    ∃ lib src l, b.libIndex[func.2]? = some lib ∧ b.db.findSrc func.2 = some src ∧
    b.db.findLib lib = some l ∧
      writeFuncInfo b id func =
        ({ b with db := b.db.insertFunc
                    { id, name := func.1, srcfileId := src.id, libfileId := l.id } }, .ok ()) := by
  unfold writeFuncInfo
  cases hindex : b.libIndex[func.2]? with
  | none => exact .inl ⟨_, rfl⟩
  | some lib =>
    cases hsrc : b.db.findSrc func.2 with
    | none => exact .inl ⟨_, rfl⟩
    | some src =>
      cases hlib : b.db.findLib lib with
      | none => exact .inl ⟨_, by simp only [hlib]; rfl⟩
      | some l => exact .inr ⟨lib, src, l, rfl, rfl, hlib, by simp only [hlib]⟩

theorem insertFunc_others (db : Database) (row : FuncRow) :
    (db.insertFunc row).srcfiles = db.srcfiles ∧ (db.insertFunc row).libfiles = db.libfiles := by
  unfold Database.insertFunc
  split <;> exact ⟨rfl, rfl⟩

theorem Coherent.writeFuncInfo {t : Tools} {b : Building} (h : Coherent t b) (id : Nat)
    {func : Bytes × Bytes} (hnew : func.1 ∉ b.db.functions.map FuncRow.name) :
    Coherent t (writeFuncInfo b id func).1 := by
  obtain ⟨e, heq⟩ | ⟨lib, src, l, hindex, hsrc, hlib, heq⟩ := writeFuncInfo_cases b id func
  · rw [heq]
    exact h
  · rw [heq]
    obtain ⟨hsrc, hname⟩ := findSrc_some hsrc
    obtain ⟨hlib, hlname⟩ := findLib_some hlib
    have hsame :=
      (insertFunc_others b.db { id, name := func.1, srcfileId := src.id, libfileId := l.id }).1
    refine ⟨h.tables.insertFunc hnew ⟨src, hsrc, l, hlib, rfl, rfl, ?_⟩, ?_, ?_⟩
    · rw [hlname, (h.index func.2 lib hindex).1, hname]
    · rw [hsame]
      exact h.recorded
    · rw [hsame]
      exact h.index

theorem Coherent.writeArgsInfo {t : Tools} {b : Building} (h : Coherent t b) (func : Bytes) :
    Coherent t (writeArgsInfo b func).1 := by
  unfold Proj.writeArgsInfo
  split
  · exact h
  · exact ⟨h.tables.fargs _, h.recorded, h.index⟩

theorem Coherent.addFunc {t : Tools} {b : Building} (h : Coherent t b) (func : Bytes × Bytes) :
    Coherent t (addFunc b func).1 := by
  unfold Proj.addFunc
  split
  · exact h
  · rename_i hnew
    exact andThen_invariant (h.writeFuncInfo _ hnew) (fun b hb => hb.writeArgsInfo func.1)

theorem Coherent.updateSources {t : Tools} (hwrites : Writes t) {b : Building} (h : Coherent t b)
    (disk : Disk) (used funcs : List (Bytes × Bytes)) :
    Coherent t (updateSources t disk used funcs b).1 := by
  unfold Proj.updateSources
  refine andThen_invariant (h.addSources hwrites disk used) (fun b hb => ?_)
  refine andThen_invariant ?_ (fun b hb => ?_)
  · exact sweep_invariant (I := Coherent t) (fun src _ b hb => hb.renewSource hwrites disk src)
      hb.addLibs
  · exact sweep_invariant (I := Coherent t) (fun func _ b hb => hb.addFunc func) hb

end NetCpp.Proofs
