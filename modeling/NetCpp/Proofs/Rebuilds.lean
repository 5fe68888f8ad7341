import NetCpp.Library.Runs
import NetCpp.Proofs.Builds

namespace NetCpp.Proofs
open Library Proj

theorem nodup_keys_toList {β : Type} (m : Std.TreeMap Bytes β) : (m.toList.map Prod.fst).Nodup := by
  have h := @Std.TreeMap.distinct_keys_toList Bytes β compare m _
  rw [List.nodup_iff_pairwise_ne, List.pairwise_map]
  exact h.imp (fun hne heq => hne (by rw [heq]; exact Std.ReflCmp.compare_self))

theorem nodup_used {disk : Disk} {p : Project} {used : List (Bytes × Bytes)}
    (h : usedSrcfiles disk p = .ok used) : (used.map Prod.fst).Nodup := by
  unfold usedSrcfiles at h
  obtain ⟨srcFiles, -, h⟩ := bind_ok h
  obtain ⟨m, -, h⟩ := bind_ok h
  obtain rfl := Except.ok.inj h
  rw [List.map_map]
  exact nodup_keys_toList m

theorem map_mapIdx {α β γ : Type} {f : Nat → α → β} (g : β → γ) (g' : α → γ)
    (h : ∀ i x, g (f i x) = g' x) (xs : List α) : (xs.mapIdx f).map g = xs.map g' :=
  List.ext_getElem (by simp) (fun i hi hi' => by simp [h])

theorem map_mapIdx_index {α β : Type} {f : Nat → α → β} (g : β → Nat) (h : ∀ i x, g (f i x) = i)
    (xs : List α) : (xs.mapIdx f).map g = List.range xs.length :=
  List.ext_getElem (by simp) (fun i hi hi' => by simp [h])

/-- What `CompileUsedSrcFiles` leaves when it ends. -/
structure AllCompiled (disk : Disk) (used : List (Bytes × Bytes)) (b : Building) : Prop where
  libs : ∀ src ∈ used, b.libs (libName src.1) = some (textOf disk src)
  index : ∀ s l : Bytes, b.libIndex[s]? = some l → l = libName s ∧ s ∈ used.map Prod.fst

theorem allCompiled {t : Tools} (hwrites : Writes t) {disk : Disk} {used : List (Bytes × Bytes)}
    (hnodup : (used.map Prod.fst).Nodup) {b b' : Building} (hindex : b.libIndex = ∅)
    (h : sweep (compileSrcfile t disk) b used = (b', .ok ())) : AllCompiled disk used b' := by
  refine sweep_history (I := AllCompiled disk) ?_ ⟨fun src hs => absurd hs List.not_mem_nil, ?_⟩ h
  · intro past src rest b b' hused hb hstep
    by_cases hacc : Succeeds (t.gxx (textOf disk src))
    · rw [compileSrcfile_succeeds hacc] at hstep
      obtain rfl := congrArg Prod.fst hstep
      have hlibs : (compiled t disk b src).libs =
          Function.update b.libs (libName src.1) (some (textOf disk src)) :=
        libs_tried hwrites hacc
      constructor
      · intro src' hs
        rw [hlibs]
        rcases List.mem_append.mp hs with hs | hs
        · have hne : src'.1 ≠ src.1 := by
            intro heq
            rw [hused, List.map_append, List.map_cons, List.nodup_append] at hnodup
            exact hnodup.2.2 _ (List.mem_map_of_mem hs) _ List.mem_cons_self heq
          rw [Function.update_of_ne (fun heq => hne (libName_injective heq))]
          exact hb.libs src' hs
        · rw [List.mem_singleton.mp hs, Function.update_self]
      · intro s l hl
        change (b.libIndex.insertIfNew src.1 (libName src.1))[s]? = some l at hl
        rw [Maps.getElem?_insertIfNew] at hl
        rw [List.map_append]
        by_cases hs : src.1 = s
        · subst hs
          refine ⟨?_, List.mem_append_right _ List.mem_cons_self⟩
          rw [if_pos rfl, Option.some.injEq] at hl
          cases hold : b.libIndex[src.1]? with
          | none => rw [← hl, hold, Option.getD_none]
          | some l' => rw [← hl, hold, Option.getD_some, (hb.index src.1 l' hold).1]
        · rw [if_neg hs] at hl
          obtain ⟨hname, hmem⟩ := hb.index s l hl
          exact ⟨hname, List.mem_append_left _ hmem⟩
    · obtain ⟨e, he⟩ := compileSrcfile_refused hacc b
      rw [he] at hstep
      exact absurd (congrArg Prod.snd hstep) (fun hne => by cases hne)
  · intro s l hl
    rw [hindex] at hl
    exact absurd hl (by simp)

/-- The rows that a new database starts with. -/
theorem AllCompiled.coherent {t : Tools} {disk : Disk} {used : List (Bytes × Bytes)} {b : Building}
    (h : AllCompiled disk used b) (hnodup : (used.map Prod.fst).Nodup) :
    Coherent t { b with db := {
      srcfiles := used.mapIdx (fun id src =>
        { id, name := src.1, path := src.2, md5 := t.computeFile (disk.text src.2 src.1) })
      libfiles := (b.libIndex.toList.map Prod.snd).mapIdx (fun id name => { id, name }) } } := by
  have hlibs : b.libIndex.toList.map Prod.snd = (b.libIndex.toList.map Prod.fst).map libName := by
    rw [List.map_map]
    exact List.map_congr_left
      (fun e he => (h.index e.1 e.2 (Std.TreeMap.mem_toList_iff_getElem?_eq_some.mp he)).1)
  have hnames : (used.mapIdx (fun id src =>
      ({ id, name := src.1, path := src.2, md5 := t.computeFile (disk.text src.2 src.1) } :
        SrcRow))).map
      SrcRow.name = used.map Prod.fst := map_mapIdx SrcRow.name Prod.fst (fun _ _ => rfl) used
  refine ⟨⟨?_, ?_, ?_, ?_, List.nodup_nil, List.nodup_nil, ?_, fun f hf =>
    absurd hf List.not_mem_nil⟩, ?_, ?_⟩
  · rw [map_mapIdx_index SrcRow.id (fun _ _ => rfl)]
    exact List.nodup_range
  · rw [hnames]
    exact hnodup
  · rw [map_mapIdx_index LibRow.id (fun _ _ => rfl)]
    exact List.nodup_range
  · rw [map_mapIdx LibRow.name id (fun _ _ => rfl), List.map_id, hlibs]
    exact (nodup_keys_toList b.libIndex).map (fun _ _ heq => libName_injective heq)
  · intro l hl
    obtain ⟨i, hi, rfl⟩ := List.mem_mapIdx.mp hl
    obtain ⟨s, hs⟩ := mem_libIndex (List.getElem_mem hi)
    obtain ⟨hname, hmem⟩ := h.index s _ hs
    obtain ⟨r, hr, rfl⟩ := List.mem_map.mp (hnames ▸ hmem)
    exact ⟨r, hr, hname⟩
  · intro r hr
    obtain ⟨i, hi, rfl⟩ := List.mem_mapIdx.mp hr
    exact ⟨_, h.libs _ (List.getElem_mem hi), .inl rfl⟩
  · intro s l hl
    rw [hnames]
    exact h.index s l hl

theorem Coherent.writeFuncs {t : Tools} {funcs : List (Nat × Bytes × Bytes)} {b : Building}
    (h : Coherent t b) (hnew : ∀ f ∈ funcs, f.2.1 ∉ b.db.functions.map FuncRow.name)
    (hnodup : (funcs.map (·.2.1)).Nodup) :
    Coherent t (sweep (fun b func => Proj.writeFuncInfo b func.1 func.2) b funcs).1 := by
  induction funcs generalizing b with
  | nil => exact h
  | cons func funcs ih =>
    have hfunc := h.writeFuncInfo func.1 (hnew func List.mem_cons_self)
    rw [List.map_cons, List.nodup_cons] at hnodup
    obtain ⟨e, heq⟩ | ⟨lib, src, l, -, -, -, heq⟩ := writeFuncInfo_cases b func.1 func.2
    · rw [sweep_cons_error heq]
      exact h
    · rw [sweep_cons_ok heq]
      rw [heq] at hfunc
      refine ih hfunc (fun f hf => ?_) hnodup.2
      intro hmem
      have hsplit : f.2.1 ∈ b.db.functions.map FuncRow.name ∨ f.2.1 = func.2.1 := by
        change f.2.1 ∈ (b.db.insertFunc _).functions.map FuncRow.name at hmem
        unfold Database.insertFunc at hmem
        split at hmem
        · exact .inl hmem
        · rw [List.map_append, List.mem_append] at hmem
          exact hmem.imp id (fun h => List.mem_singleton.mp h)
      rcases hsplit with hold | heq
      · exact hnew f (List.mem_cons_of_mem func hf) hold
      · exact hnodup.1 (heq ▸ List.mem_map_of_mem (f := fun f : Nat × Bytes × Bytes => f.2.1) hf)

/-- A database whose tables hang together, over libraries as they are recorded. -/
def Built (t : Tools) (w : World) : Prop :=
  ∀ db, w.db = some db → Tables db ∧ ∀ r ∈ db.srcfiles, Recorded t w.libs r.name r.md5

theorem Built.start {t : Tools} {w : World} (h : Built t w) {db : Database} (hdb : w.db = some db) :
    Coherent t { libs := w.libs, db, calls := w.calls } where
  tables := (h db hdb).1
  recorded := (h db hdb).2
  index := fun s l hl => absurd hl (by simp)

theorem Coherent.built {t : Tools} {b : Building} (h : Coherent t b) (disk : Disk) :
    Built t { disk, libs := b.libs, db := some b.db, calls := b.calls } := by
  intro db hdb
  obtain rfl := Option.some.inj hdb
  exact ⟨h.tables, h.recorded⟩

theorem Built.update {t : Tools} (hwrites : Writes t) {w : World} (h : Built t w) (p : Project) :
    Built t (update t p w).1 := by
  unfold Proj.update
  split
  · exact h
  · rename_i db hdb
    split
    · exact h
    · rename_i used hused
      exact ((h.start hdb).updateSources hwrites w.disk used _).built w.disk

theorem checkFunc_fst (t : Tools) (b : Building) (funcs : List (Bytes × Bytes)) :
    (sweep (checkFunc t) b funcs).1 = b := by
  refine sweep_invariant (I := fun b' => b' = b) (fun func _ b' hb => ?_) rfl
  subst hb
  unfold checkFunc
  split <;> rfl

theorem AllCompiled.dbProcess {t : Tools} {disk : Disk} {used : List (Bytes × Bytes)} {b : Building}
    (h : AllCompiled disk used b) (hnodup : (used.map Prod.fst).Nodup)
    {funcs : List (Bytes × Bytes)} (hfuncs : (funcs.map Prod.fst).Nodup) :
    Coherent t (dbProcess t disk used funcs b).1 := by
  unfold Proj.dbProcess
  refine andThen_invariant ?_ (fun b hb => ?_)
  · refine (h.coherent hnodup).writeFuncs (fun f _ => List.not_mem_nil) ?_
    rw [map_mapIdx (fun f : Nat × Bytes × Bytes => f.2.1) Prod.fst (fun _ _ => rfl)]
    exact hfuncs
  · exact sweep_invariant (I := Coherent t) (fun func _ b hb => hb.writeArgsInfo func) hb

theorem Built.construct {t : Tools} (hwrites : Writes t) {w : World} (h : Built t w) (p : Project)
    (force : Bool) : Built t (construct t p force w).1 := by
  unfold Proj.construct
  split
  · exact h
  · split
    · exact fun db hdb => absurd hdb (by simp)
    · rename_i used hused
      have hnodup := nodup_used hused
      simp only
      split
      · exact fun db hdb => absurd hdb (by simp)
      · rename_i b hcompiled
        obtain ⟨b', hcompile, hcheck⟩ := andThen_ok hcompiled
        obtain rfl : b' = b := by rw [← checkFunc_fst t b', hcheck]
        exact ((allCompiled hwrites hnodup rfl hcompile).dbProcess hnodup
          (nodup_keys_toList _)).built w.disk

/-- Whatever is edited and whichever commands run and fail. -/
theorem Built.run {t : Tools} (hwrites : Writes t) {w : World} (h : Built t w)
    (events : List BuildEvent) : Built t (runBuild t w events) := by
  induction events generalizing w with
  | nil => exact h
  | cons event events ih =>
    refine ih ?_
    cases event with
    | edit disk => exact h
    | construct p force => exact h.construct hwrites p force
    | update p => exact h.update hwrites p

end NetCpp.Proofs
