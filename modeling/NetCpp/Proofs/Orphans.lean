import NetCpp.Proofs.Commands

namespace NetCpp.Proofs
open Library Proj

/-- The source has a row and its library has none. -/
structure Orphan (db : Database) (name : Bytes) : Prop where
  src : name ∈ db.srcfiles.map SrcRow.name
  lib : libName name ∉ db.libfiles.map LibRow.name

/-- An orphan in a command, where the index has no library under another's name. -/
structure Deserted (name : Bytes) (b : Building) : Prop where
  orphan : Orphan b.db name
  index : ∀ s l : Bytes, b.libIndex[s]? = some l → l = libName s

theorem index_insertIfNew {m : Std.TreeMap Bytes Bytes}
    (h : ∀ s l : Bytes, m[s]? = some l → l = libName s) (src : Bytes) :
    ∀ s l : Bytes, (m.insertIfNew src (libName src))[s]? = some l → l = libName s := by
  intro s l hl
  rw [Maps.getElem?_insertIfNew] at hl
  by_cases hs : src = s
  · subst hs
    rw [if_pos rfl, Option.some.injEq] at hl
    cases hold : m[src]? with
    | none => rw [← hl, hold, Option.getD_none]
    | some l' => rw [← hl, hold, Option.getD_some, h src l' hold]
  · rw [if_neg hs] at hl
    exact h s l hl

theorem mem_insertSrc {db : Database} {name : Bytes} (h : name ∈ db.srcfiles.map SrcRow.name)
    (row : SrcRow) : name ∈ (db.insertSrc row).srcfiles.map SrcRow.name := by
  unfold Database.insertSrc
  split
  · exact h
  · rw [List.map_append]
    exact List.mem_append_left _ h

theorem insertSrc_libfiles (db : Database) (row : SrcRow) :
    (db.insertSrc row).libfiles = db.libfiles := by
  unfold Database.insertSrc
  split <;> rfl

/-- A source that has a row is not a new one: the loop does not compile it. -/
theorem Deserted.addSource {t : Tools} {disk : Disk} {name : Bytes} {s : Nat × Building}
    (h : Deserted name s.2) (hname : s.2.libIndex[name]? = none) (src : Bytes × Bytes) :
    Deserted name (addSource t disk s src).1.2 ∧
    (addSource t disk s src).1.2.libIndex[name]? = none := by
  obtain ⟨-, heq⟩ | ⟨hnew, -, heq⟩ | ⟨-, -, e, heq⟩ := addSource_cases t disk s src
  · rw [heq]
    exact ⟨h, hname⟩
  · rw [heq]
    have hne : name ≠ src.1 := fun heq => hnew (heq ▸ h.orphan.src)
    refine ⟨⟨⟨mem_insertSrc h.orphan.src _, ?_⟩, index_insertIfNew h.index src.1⟩, ?_⟩
    · change libName name ∉ (s.2.db.insertSrc _).libfiles.map LibRow.name
      rw [insertSrc_libfiles]
      exact h.orphan.lib
    · change (s.2.libIndex.insertIfNew src.1 (libName src.1))[name]? = none
      rw [Maps.getElem?_insertIfNew_ne hne, hname]
  · rw [heq]
    exact ⟨⟨h.orphan, h.index⟩, hname⟩

theorem Deserted.addSources {name : Bytes} {b : Building} (h : Deserted name b)
    (hname : b.libIndex[name]? = none) (t : Tools) (disk : Disk) (used : List (Bytes × Bytes)) :
    Deserted name (addSources t disk used b).1 ∧
    (addSources t disk used b).1.libIndex[name]? = none :=
  sweep_invariant (I := fun s : Nat × Building => Deserted name s.2 ∧ s.2.libIndex[name]? = none)
    (fun src _ _ hs => hs.1.addSource hs.2 src) ⟨h, hname⟩

theorem libNames_foldl_addLib {lib : Bytes} {libs : List Bytes} {s : Nat × Building}
    (h : lib ∉ s.2.db.libfiles.map LibRow.name) (hlibs : lib ∉ libs) :
    lib ∉ (libs.foldl addLib s).2.db.libfiles.map LibRow.name := by
  induction libs generalizing s with
  | nil => exact h
  | cons l libs ih =>
    rw [List.mem_cons, not_or] at hlibs
    obtain ⟨-, heq⟩ | ⟨-, heq⟩ := addLib_cases s l
    · rw [List.foldl_cons, heq]
      exact ih h hlibs.2
    · rw [List.foldl_cons, heq]
      refine ih ?_ hlibs.2
      change lib ∉ (s.2.db.insertLib _).libfiles.map LibRow.name
      unfold Database.insertLib
      split
      · exact h
      · rw [List.map_append, List.mem_append, not_or]
        exact ⟨h, fun hl => hlibs.1 (List.mem_singleton.mp hl)⟩

/-- Only a source that this update has compiled gets a row for its library. -/
theorem Deserted.addLibs {name : Bytes} {b : Building} (h : Deserted name b)
    (hname : b.libIndex[name]? = none) : Deserted name (addLibs b) := by
  obtain ⟨hsrc, -, hindex, -, -⟩ :=
    NetCpp.Proofs.foldl_addLib (b.libIndex.toList.map Prod.snd)
      (lastId (b.db.libfiles.map LibRow.id), b)
  refine ⟨⟨?_, libNames_foldl_addLib h.orphan.lib (fun hlib => ?_)⟩, ?_⟩
  · change name ∈ (List.foldl addLib _ _).2.db.srcfiles.map SrcRow.name
    rw [hsrc]
    exact h.orphan.src
  · obtain ⟨s, hs⟩ := mem_libIndex hlib
    rw [libName_injective (h.index s _ hs), hs] at hname
    cases hname
  · intro s l hl
    change (List.foldl addLib _ _).2.libIndex[s]? = some l at hl
    rw [hindex] at hl
    exact h.index s l hl

theorem Deserted.renewSource {t : Tools} {disk : Disk} {name : Bytes} {b : Building}
    (h : Deserted name b) (src : Bytes × Bytes) : Deserted name (renewSource t disk b src).1 := by
  obtain ⟨-, heq⟩ | ⟨row, -, ⟨-, heq⟩ | ⟨-, -, heq⟩ | ⟨-, -, e, heq⟩⟩ :=
    renewSource_cases t disk b src
  · rw [heq]
    exact h
  · rw [heq]
    exact h
  · rw [heq]
    refine ⟨⟨?_, h.orphan.lib⟩, index_insertIfNew h.index src.1⟩
    change name ∈ (b.db.updateMd5 src.1 _).srcfiles.map SrcRow.name
    rw [updateMd5_names]
    exact h.orphan.src
  · rw [heq]
    exact ⟨h.orphan, h.index⟩

theorem Deserted.addFunc {name : Bytes} {b : Building} (h : Deserted name b)
    (func : Bytes × Bytes) : Deserted name (addFunc b func).1 := by
  unfold Proj.addFunc
  split
  · exact h
  · refine andThen_invariant ?_ (fun b hb => ?_)
    · obtain ⟨e, heq⟩ | ⟨lib, src, l, -, -, -, heq⟩ :=
        writeFuncInfo_cases b (lastId (b.db.functions.map FuncRow.id) + 1) func
      · rw [heq]
        exact h
      · rw [heq]
        obtain ⟨hsrc, hlib⟩ := insertFunc_others b.db
          { id := lastId (b.db.functions.map FuncRow.id) + 1, name := func.1, srcfileId := src.id,
            libfileId := l.id }
        exact ⟨⟨by rw [hsrc]; exact h.orphan.src, by rw [hlib]; exact h.orphan.lib⟩, h.index⟩
    · unfold writeArgsInfo
      split
      · exact hb
      · exact ⟨⟨hb.orphan.src, hb.orphan.lib⟩, hb.index⟩

/-- Its functions find either no entry of the index or no row of the library. -/
theorem Deserted.addFunc_fails {name : Bytes} {b : Building} (h : Deserted name b) {f : Bytes}
    (hf : f ∉ b.db.functions.map FuncRow.name) : (Proj.addFunc b (f, name)).2 ≠ .ok () := by
  unfold Proj.addFunc
  rw [if_neg hf]
  obtain ⟨e, heq⟩ | ⟨lib, src, l, hindex, -, hlib, -⟩ :=
    writeFuncInfo_cases b (lastId (b.db.functions.map FuncRow.id) + 1) (f, name)
  · rw [heq]
    exact fun hok => by cases hok
  · obtain rfl := h.index name lib hindex
    obtain ⟨hmem, hname⟩ := findLib_some hlib
    exact absurd (hname ▸ List.mem_map_of_mem hmem) h.orphan.lib

theorem addFunc_names {b : Building} {func : Bytes × Bytes} {n : Bytes}
    (h : n ∈ (Proj.addFunc b func).1.db.functions.map FuncRow.name) :
    n ∈ b.db.functions.map FuncRow.name ∨ n = func.1 := by
  unfold Proj.addFunc at h
  split at h
  · exact .inl h
  · refine andThen_invariant (I := fun b' : Building => n ∈ b'.db.functions.map FuncRow.name →
      n ∈ b.db.functions.map FuncRow.name ∨ n = func.1) ?_ (fun b' hb' => ?_) h
    · obtain ⟨e, heq⟩ | ⟨lib, src, l, -, -, -, heq⟩ :=
        writeFuncInfo_cases b (lastId (b.db.functions.map FuncRow.id) + 1) func
      · rw [heq]
        exact .inl
      · rw [heq]
        intro hn
        change n ∈ (b.db.insertFunc _).functions.map FuncRow.name at hn
        rw [insertFunc_new (Nat.lt_succ_self _), List.map_append, List.mem_append] at hn
        exact hn.imp id (fun hn => List.mem_singleton.mp hn)
    · unfold writeArgsInfo
      split <;> exact hb'

theorem Deserted.funcs_fail {name f : Bytes} {funcs : List (Bytes × Bytes)}
    (hmem : (f, name) ∈ funcs) (hnodup : (funcs.map Prod.fst).Nodup) {b : Building}
    (h : Deserted name b) (hf : f ∉ b.db.functions.map FuncRow.name) :
    (sweep Proj.addFunc b funcs).2 ≠ .ok () := by
  induction funcs generalizing b with
  | nil => exact absurd hmem List.not_mem_nil
  | cons func funcs ih =>
    rw [List.map_cons, List.nodup_cons] at hnodup
    have happart := h.addFunc func
    have hnames := @addFunc_names b func f
    rcases hstep : Proj.addFunc b func with ⟨b', e | u⟩
    · rw [sweep_cons_error hstep]
      exact fun hok => by cases hok
    · rw [sweep_cons_ok hstep]
      rw [hstep] at happart hnames
      rcases List.mem_cons.mp hmem with rfl | hmem
      · exact absurd (congrArg Prod.snd hstep) (h.addFunc_fails hf)
      · refine ih hmem hnodup.2 happart (fun hn => ?_)
        rcases hnames hn with hold | rfl
        · exact hf hold
        · exact hnodup.1 (List.mem_map.mpr ⟨_, hmem, rfl⟩)

theorem addSource_functions (t : Tools) (disk : Disk) (s : Nat × Building) (src : Bytes × Bytes) :
    (Proj.addSource t disk s src).1.2.db.functions = s.2.db.functions := by
  obtain ⟨-, heq⟩ | ⟨-, -, heq⟩ | ⟨-, -, e, heq⟩ := addSource_cases t disk s src
  · rw [heq]
  · rw [heq]
    change (s.2.db.insertSrc _).functions = _
    unfold Database.insertSrc
    split <;> rfl
  · rw [heq]
    rfl

theorem renewSource_functions (t : Tools) (disk : Disk) (b : Building) (src : Bytes × Bytes) :
    (Proj.renewSource t disk b src).1.db.functions = b.db.functions := by
  obtain ⟨-, heq⟩ | ⟨row, -, ⟨-, heq⟩ | ⟨-, -, heq⟩ | ⟨-, -, e, heq⟩⟩ :=
    renewSource_cases t disk b src
  · rw [heq]
  · rw [heq]
  · rw [heq]
    rfl
  · rw [heq]
    rfl

/-- An update leaves an orphan one, and ends with an error where a function of it is to be added. -/
theorem Deserted.updateSources {name : Bytes} {b : Building} (h : Deserted name b)
    (hname : b.libIndex[name]? = none) (t : Tools) (disk : Disk) (used : List (Bytes × Bytes))
    {funcs : List (Bytes × Bytes)} (hnodup : (funcs.map Prod.fst).Nodup) :
    Orphan (Proj.updateSources t disk used funcs b).1.db name ∧
      ∀ f, (f, name) ∈ funcs → f ∉ b.db.functions.map FuncRow.name →
        (Proj.updateSources t disk used funcs b).2 ≠ .ok () := by
  have hadd := h.addSources hname t disk used
  have haddFuncs : (Proj.addSources t disk used b).1.db.functions = b.db.functions :=
    sweep_invariant (I := fun s : Nat × Building => s.2.db.functions = b.db.functions)
      (fun src _ s hs => (addSource_functions t disk s src).trans hs) rfl
  unfold Proj.updateSources
  rcases hsources : Proj.addSources t disk used b with ⟨b₁, e | u⟩
  · rw [hsources] at hadd
    exact ⟨hadd.1.orphan, fun _ _ _ hok => by cases hok⟩
  · rw [hsources] at hadd haddFuncs
    have hlibs := hadd.1.addLibs hadd.2
    have hlibFuncs : (Proj.addLibs b₁).db.functions = b.db.functions :=
      (NetCpp.Proofs.foldl_addLib _ _).2.2.2.2.trans haddFuncs
    have hrenew : Deserted name (sweep (Proj.renewSource t disk) (Proj.addLibs b₁) used).1 :=
      sweep_invariant (I := Deserted name) (fun src _ b hb => hb.renewSource src) hlibs
    have hrenewFuncs : (sweep (Proj.renewSource t disk) (Proj.addLibs b₁) used).1.db.functions =
        b.db.functions :=
      sweep_invariant (I := fun b' : Building => b'.db.functions = b.db.functions)
        (fun src _ b' hb => (renewSource_functions t disk b' src).trans hb) hlibFuncs
    simp only [andThen]
    rcases hsweep : sweep (Proj.renewSource t disk) (Proj.addLibs b₁) used with ⟨b₂, e | u⟩
    · rw [hsweep] at hrenew
      exact ⟨hrenew.orphan, fun _ _ _ hok => by cases hok⟩
    · rw [hsweep] at hrenew hrenewFuncs
      refine ⟨(sweep_invariant (I := Deserted name)
        (fun func _ b hb => hb.addFunc func) hrenew).orphan, ?_⟩
      intro f hmem hf
      exact hrenew.funcs_fail hmem hnodup (by rw [hrenewFuncs]; exact hf)

theorem Orphan.update {t : Tools} {p : Project} {w : World} {db : Database} (hdb : w.db = some db)
    {name : Bytes} (h : Orphan db name) :
    (∃ db', (update t p w).1.db = some db' ∧ Orphan db' name) ∧
      ∀ f : Bytes, (buildFuncIndex p.cpts)[f]? = some name → f ∉ db.functions.map FuncRow.name →
        (update t p w).2 ≠ .ok () := by
  unfold Proj.update
  simp only [hdb]
  rcases usedSrcfiles w.disk p with e | used
  · exact ⟨⟨db, hdb, h⟩, fun _ _ _ hok => by cases hok⟩
  · have happart : Deserted name { libs := w.libs, db, calls := w.calls } :=
      ⟨h, fun s l hl => absurd hl (by simp)⟩
    obtain ⟨horphan, hfails⟩ := happart.updateSources (by simp) t w.disk used
      (nodup_keys_toList (buildFuncIndex p.cpts))
    refine ⟨⟨_, rfl, horphan⟩, fun f hf hnew => ?_⟩
    exact hfails f (Std.TreeMap.mem_toList_iff_getElem?_eq_some.mpr hf) hnew

theorem Orphan.run {t : Tools} {name : Bytes} {events : List BuildEvent}
    (hevents : ∀ p, .construct p true ∉ events) {w : World} {db : Database} (hdb : w.db = some db)
    (h : Orphan db name) : ∃ db', (runBuild t w events).db = some db' ∧ Orphan db' name := by
  induction events generalizing w db with
  | nil => exact ⟨db, hdb, h⟩
  | cons event events ih =>
    have hrest (p : Project) : .construct p true ∉ events :=
      fun hp => hevents p (List.mem_cons_of_mem event hp)
    cases event with
    | edit disk => exact ih hrest (w := { w with disk }) hdb h
    | construct p force =>
      have hforce : force = false := by
        cases force with
        | false => rfl
        | true => exact absurd List.mem_cons_self (hevents p)
      have hkept : (construct t p force w).1 = w := by
        unfold construct
        rw [if_pos ⟨by rw [hdb]; rfl, hforce⟩]
      refine ih hrest (w := (construct t p force w).1) ?_ h
      rw [hkept, hdb]
    | update p =>
      obtain ⟨⟨db', hdb', h'⟩, -⟩ := Orphan.update (t := t) (p := p) hdb h
      exact ih hrest hdb' h'

/-- Only a database that is built anew gives the source's library a row: as long as there is none,
an update that is to add a function of the source fails. -/
theorem orphan_stays {t : Tools} {w : World} {db : Database} (hdb : w.db = some db) {name : Bytes}
    (h : Orphan db name) {events : List BuildEvent} (hevents : ∀ p, .construct p true ∉ events) :
    ∃ db', (runBuild t w events).db = some db' ∧ Orphan db' name ∧
      ∀ (p : Project) (f : Bytes), (buildFuncIndex p.cpts)[f]? = some name →
      f ∉ db'.functions.map FuncRow.name →
        (update t p (runBuild t w events)).2 ≠ .ok () := by
  obtain ⟨db', hdb', h'⟩ := Orphan.run (t := t) hevents hdb h
  exact ⟨db', hdb', h', fun p f hf hnew => (Orphan.update hdb' h').2 f hf hnew⟩

/-- An update that fails at the second of two new sources leaves the first one so. -/
theorem orphan_stays_sample :
    let w := runBuild sampleTools sampleWorld [.construct firstProject false, .update secondProject]
    ∃ db', (runBuild sampleTools w
        [.edit { sampleDisk with text := fun _ _ => [1] }, .update secondProject]).db = some db' ∧
      Orphan db' bCpp ∧
      ∀ (p : Project) (f : Bytes), (buildFuncIndex p.cpts)[f]? = some bCpp →
        f ∉ db'.functions.map FuncRow.name →
        (update sampleTools p (runBuild sampleTools w
          [.edit { sampleDisk with text := fun _ _ => [1] }, .update secondProject])).2 ≠ .ok () :=
  orphan_stays rfl ⟨by decide +kernel, by decide +kernel⟩ (by simp)

end NetCpp.Proofs
