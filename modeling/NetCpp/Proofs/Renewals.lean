import NetCpp.Proofs.Rebuilds

namespace NetCpp.Proofs
open Library Proj

theorem findSrc_append (db : Database) (rows : List SrcRow) (row : SrcRow) (name : Bytes)
    (h : db.srcfiles = rows ++ [row]) :
    db.findSrc name = (rows.find? (·.name = name)).or
      (if row.name = name then some row else none) := by
  rw [Database.findSrc, h, List.find?_append]
  congr 1
  by_cases hname : row.name = name
  · simp [hname]
  · simp [hname]

theorem findSrc_updateMd5 (db : Database) (n name md5 : Bytes) :
    (db.updateMd5 name md5).findSrc n = (db.findSrc n).map (digested name md5) := by
  rw [Database.findSrc, updateMd5_srcfiles, List.find?_map]
  congr 2
  funext r
  simp

/-- No row of the database has the name of the source. -/
def lacksRow (db : Database) (src : Bytes × Bytes) : Bool := (db.findSrc src.1).isNone

/-- The digest in the row of the source is another one. -/
def isModified (t : Tools) (disk : Disk) (db : Database) (src : Bytes × Bytes) : Bool :=
  (db.findSrc src.1).any (·.md5 ≠ t.computeFile (textOf disk src))

/-- The database has the digest of the source. -/
def Current (t : Tools) (disk : Disk) (b : Building) (src : Bytes × Bytes) : Prop :=
  ∃ r, b.db.findSrc src.1 = some r ∧ r.md5 = t.computeFile (textOf disk src)

/-- The loop over the new sources, from `b` on, when it has come past some of them. -/
structure Grown (t : Tools) (disk : Disk) (b : Building) (past : List (Bytes × Bytes))
    (s : Nat × Building) : Prop where
  adding : Adding t s
  old : ∀ n ∈ b.db.srcfiles.map SrcRow.name, s.2.db.findSrc n = b.db.findSrc n
  new : ∀ src ∈ past, src.1 ∉ b.db.srcfiles.map SrcRow.name → Current t disk s.2 src
  absent : ∀ n ∉ b.db.srcfiles.map SrcRow.name, n ∉ past.map Prod.fst → s.2.db.findSrc n = none
  calls : s.2.calls = b.calls ++ (past.filter (lacksRow b.db)).map (fun src => libName src.1)

theorem Grown.added {t : Tools} (hwrites : Writes t) {disk : Disk} {b : Building}
    {past : List (Bytes × Bytes)} {s : Nat × Building} (h : Grown t disk b past s)
    {src : Bytes × Bytes} (hnew : src.1 ∉ s.2.db.srcfiles.map SrcRow.name)
    (hacc : Succeeds (t.gxx (textOf disk src))) :
    Grown t disk b (past ++ [src]) (added t disk s src) := by
  have hfirst : src.1 ∉ b.db.srcfiles.map SrcRow.name := by
    intro hmem
    have hnone := findSrc_none.mpr hnew
    rw [h.old _ hmem] at hnone
    exact findSrc_none.mp hnone hmem
  have hfind (n : Bytes) : (Proofs.added t disk s src).2.db.findSrc n =
      (s.2.db.findSrc n).or (if src.1 = n then some (newRow t disk (s.1 + 1) src) else none) :=
    findSrc_append _ _ _ n (h.adding.srcfiles disk src)
  refine ⟨h.adding.added hwrites hnew hacc, ?_, ?_, ?_, ?_⟩
  · intro n hn
    have hne : ¬ src.1 = n := fun heq => hfirst (heq ▸ hn)
    rw [hfind, if_neg hne, Option.or_none, h.old n hn]
  · intro src' hs hn
    rcases List.mem_append.mp hs with hs | hs
    · obtain ⟨r, hr, hmd5⟩ := h.new src' hs hn
      exact ⟨r, by rw [hfind, hr, Option.some_or], hmd5⟩
    · rw [List.mem_singleton.mp hs]
      refine ⟨newRow t disk (s.1 + 1) src, ?_, rfl⟩
      rw [hfind, findSrc_none.mpr hnew, if_pos rfl]
      rfl
  · intro n hn hpast
    rw [List.map_append, List.mem_append, not_or] at hpast
    have hne : ¬ src.1 = n := fun heq => hpast.2 (heq ▸ List.mem_cons_self)
    rw [hfind, if_neg hne, Option.or_none, h.absent n hn hpast.1]
  · have hfilter : [src].filter (lacksRow b.db) = [src] := by
      simp [lacksRow, findSrc_none.mpr hfirst]
    rw [List.filter_append, hfilter, List.map_append, ← List.append_assoc, ← h.calls]
    rfl

theorem Grown.step {t : Tools} (hwrites : Writes t) {disk : Disk} {b : Building}
    {past : List (Bytes × Bytes)} {s s' : Nat × Building} (h : Grown t disk b past s)
    {src : Bytes × Bytes} (hpast : src.1 ∉ past.map Prod.fst)
    (hstep : addSource t disk s src = (s', .ok ())) : Grown t disk b (past ++ [src]) s' := by
  obtain ⟨hold, heq⟩ | ⟨hnew, hacc, heq⟩ | ⟨-, -, e, heq⟩ := addSource_cases t disk s src
  · rw [heq] at hstep
    obtain rfl := congrArg Prod.fst hstep
    have hfirst : src.1 ∈ b.db.srcfiles.map SrcRow.name := by
      by_contra hn
      exact findSrc_none.mp (h.absent src.1 hn hpast) hold
    have hfilter : [src].filter (lacksRow b.db) = [] := by
      simpa [lacksRow, findSrc_none] using hfirst
    refine ⟨h.adding, h.old, ?_, ?_, ?_⟩
    · intro src' hs hn
      rcases List.mem_append.mp hs with hs | hs
      · exact h.new src' hs hn
      · exact absurd (List.mem_singleton.mp hs ▸ hfirst) hn
    · intro n hn hp
      rw [List.map_append, List.mem_append, not_or] at hp
      exact h.absent n hn hp.1
    · rw [List.filter_append, hfilter, List.append_nil, h.calls]
  · rw [heq] at hstep
    obtain rfl := congrArg Prod.fst hstep
    exact h.added hwrites hnew hacc
  · rw [heq] at hstep
    exact absurd (congrArg Prod.snd hstep) (fun hne => by cases hne)

theorem not_mem_past {used past rest : List (Bytes × Bytes)} {src : Bytes × Bytes}
    (hnodup : (used.map Prod.fst).Nodup) (hused : used = past ++ src :: rest) :
    src.1 ∉ past.map Prod.fst := by
  intro hmem
  rw [hused, List.map_append, List.map_cons, List.nodup_append] at hnodup
  exact hnodup.2.2 _ hmem _ List.mem_cons_self rfl

theorem grown_addSources {t : Tools} (hwrites : Writes t) {disk : Disk}
    {used : List (Bytes × Bytes)} (hnodup : (used.map Prod.fst).Nodup) {b b' : Building}
    (hb : Coherent t b) (h : addSources t disk used b = (b', .ok ())) :
    ∃ id, Grown t disk b used (id, b') := by
  rcases hsweep : sweep (addSource t disk) (lastId (b.db.srcfiles.map SrcRow.id), b) used
    with ⟨⟨id, b''⟩, r⟩
  simp only [addSources, hsweep, Prod.mk.injEq] at h
  obtain ⟨rfl, rfl⟩ := h
  have hstart : Grown t disk b [] (lastId (b.db.srcfiles.map SrcRow.id), b) :=
    ⟨hb.adding, fun _ _ => rfl, fun src hs => absurd hs List.not_mem_nil, fun n hn _ =>
      findSrc_none.mpr hn, (List.append_nil _).symm⟩
  exact ⟨id, sweep_history (I := Grown t disk b)
    (fun _ _ _ _ _ hused hs hstep => hs.step hwrites (not_mem_past hnodup hused) hstep)
      hstart hsweep⟩

/-- The loop over the modified sources, from `b` on, when it has come past some of them. -/
structure Renewed (t : Tools) (disk : Disk) (b : Building) (past : List (Bytes × Bytes))
    (b' : Building) : Prop where
  coherent : Coherent t b'
  names : b'.db.srcfiles.map SrcRow.name = b.db.srcfiles.map SrcRow.name
  done : ∀ src ∈ past, Current t disk b' src
  rest : ∀ n ∉ past.map Prod.fst, b'.db.findSrc n = b.db.findSrc n
  calls : b'.calls = b.calls ++
    (past.filter (isModified t disk b.db)).map (fun src => libName src.1)

theorem Renewed.renewed {t : Tools} (hwrites : Writes t) {disk : Disk} {b b' : Building}
    {past : List (Bytes × Bytes)} (h : Renewed t disk b past b') {src : Bytes × Bytes}
    (hpast : src.1 ∉ past.map Prod.fst) {row : SrcRow} (hrow : b'.db.findSrc src.1 = some row)
    (hmd5 : row.md5 ≠ t.computeFile (textOf disk src)) (hacc : Succeeds (t.gxx (textOf disk src))) :
    Renewed t disk b (past ++ [src]) (renewed t disk b' src) := by
  have hfind (n : Bytes) : (Proofs.renewed t disk b' src).db.findSrc n =
      (b'.db.findSrc n).map (digested src.1 (t.computeFile (textOf disk src))) :=
        findSrc_updateMd5 b'.db n src.1 _
  have hfilter : [src].filter (isModified t disk b.db) = [src] := by
    have hold : b.db.findSrc src.1 = some row := by rw [← h.rest src.1 hpast, hrow]
    simp [isModified, hold, hmd5]
  refine ⟨h.coherent.renewed hwrites hrow hacc, ?_, ?_, ?_, ?_⟩
  · rw [← h.names]
    exact updateMd5_names b'.db src.1 _
  · intro src' hs
    rcases List.mem_append.mp hs with hs | hs
    · obtain ⟨r, hr, hr5⟩ := h.done src' hs
      have hne : ¬ r.name = src.1 := by
        intro heq
        rw [(findSrc_some hr).2] at heq
        exact hpast (heq ▸ List.mem_map_of_mem hs)
      exact ⟨r, by rw [hfind, hr, Option.map_some, digested, if_neg hne], hr5⟩
    · rw [List.mem_singleton.mp hs]
      exact ⟨digested src.1 (t.computeFile (textOf disk src)) row, by rw [hfind, hrow]; rfl, by
        rw [digested, if_pos (findSrc_some hrow).2]⟩
  · intro n hn
    rw [List.map_append, List.mem_append, not_or] at hn
    rw [hfind, h.rest n hn.1]
    cases hfound : b.db.findSrc n with
    | none => rfl
    | some r =>
      have hne : ¬ r.name = src.1 := by
        intro heq
        rw [(findSrc_some hfound).2] at heq
        exact hn.2 (heq ▸ List.mem_cons_self)
      rw [Option.map_some, digested, if_neg hne]
  · rw [List.filter_append, hfilter, List.map_append, ← List.append_assoc, ← h.calls]
    rfl

theorem Renewed.step {t : Tools} (hwrites : Writes t) {disk : Disk} {b b' b'' : Building}
    {past : List (Bytes × Bytes)} (h : Renewed t disk b past b') {src : Bytes × Bytes}
    (hpast : src.1 ∉ past.map Prod.fst) (hstep : renewSource t disk b' src = (b'', .ok ())) :
    Renewed t disk b (past ++ [src]) b'' := by
  obtain ⟨-, heq⟩ | ⟨row, hrow, ⟨hmd5, heq⟩ | ⟨hmd5, hacc, heq⟩ | ⟨-, -, e, heq⟩⟩ :=
    renewSource_cases t disk b' src
  · rw [heq] at hstep
    exact absurd (congrArg Prod.snd hstep) (fun hne => by cases hne)
  · rw [heq] at hstep
    obtain rfl := congrArg Prod.fst hstep
    have hfilter : [src].filter (isModified t disk b.db) = [] := by
      have hold : b.db.findSrc src.1 = some row := by rw [← h.rest src.1 hpast, hrow]
      simp [isModified, hold, hmd5]
    refine ⟨h.coherent, h.names, ?_, ?_, ?_⟩
    · intro src' hs
      rcases List.mem_append.mp hs with hs | hs
      · exact h.done src' hs
      · rw [List.mem_singleton.mp hs]
        exact ⟨row, hrow, hmd5⟩
    · intro n hn
      rw [List.map_append, List.mem_append, not_or] at hn
      exact h.rest n hn.1
    · rw [List.filter_append, hfilter, List.append_nil, h.calls]
  · rw [heq] at hstep
    obtain rfl := congrArg Prod.fst hstep
    exact h.renewed hwrites hpast hrow hmd5 hacc
  · rw [heq] at hstep
    exact absurd (congrArg Prod.snd hstep) (fun hne => by cases hne)

theorem renewed_sweep {t : Tools} (hwrites : Writes t) {disk : Disk} {used : List (Bytes × Bytes)}
    (hnodup : (used.map Prod.fst).Nodup) {b b' : Building} (hb : Coherent t b)
    (h : sweep (renewSource t disk) b used = (b', .ok ())) : Renewed t disk b used b' :=
  sweep_history (I := Renewed t disk b)
    (fun _ _ _ _ _ hused hs hstep => hs.step hwrites (not_mem_past hnodup hused) hstep)
    ⟨hb, rfl, fun _ hs => absurd hs List.not_mem_nil, fun _ _ => rfl, (List.append_nil _).symm⟩ h

/-- The loop over the functions leaves the sources and the libraries alone. -/
structure Named (b : Building) (past : List (Bytes × Bytes)) (b' : Building) : Prop where
  libs : b'.libs = b.libs
  libIndex : b'.libIndex = b.libIndex
  srcfiles : b'.db.srcfiles = b.db.srcfiles
  libfiles : b'.db.libfiles = b.db.libfiles
  calls : b'.calls = b.calls
  names : ∀ func ∈ past, func.1 ∈ b'.db.functions.map FuncRow.name
  kept : ∀ n ∈ b.db.functions.map FuncRow.name, n ∈ b'.db.functions.map FuncRow.name

theorem insertFunc_new {db : Database} {row : FuncRow}
    (h : lastId (db.functions.map FuncRow.id) < row.id) :
    (db.insertFunc row).functions = db.functions ++ [row] := by
  rw [Database.insertFunc, if_neg (not_mem_of_lastId_lt h)]

theorem addFunc_ok {b b' : Building} {func : Bytes × Bytes} (h : addFunc b func = (b', .ok ())) :
    Named b [func] b' := by
  unfold addFunc at h
  split at h
  · rename_i hold
    obtain rfl := congrArg Prod.fst h
    exact ⟨rfl, rfl, rfl, rfl, rfl, fun f hf => (List.mem_singleton.mp hf) ▸ hold, fun _ hn => hn⟩
  · rename_i hnew
    obtain ⟨b₁, hfunc, hargs⟩ := andThen_ok h
    obtain ⟨e, heq⟩ | ⟨lib, src, l, -, -, -, heq⟩ :=
      writeFuncInfo_cases b (lastId (b.db.functions.map FuncRow.id) + 1) func
    · rw [heq] at hfunc
      exact absurd (congrArg Prod.snd hfunc) (fun hne => by cases hne)
    · rw [heq] at hfunc
      obtain rfl := congrArg Prod.fst hfunc
      unfold writeArgsInfo at hargs
      split at hargs
      · exact absurd (congrArg Prod.snd hargs) (fun hne => by cases hne)
      · obtain rfl := congrArg Prod.fst hargs
        refine ⟨rfl, rfl, (insertFunc_others _ _).1, (insertFunc_others _ _).2, rfl, ?_, ?_⟩
        · intro f hf
          rw [List.mem_singleton.mp hf]
          change func.1 ∈ (b.db.insertFunc _).functions.map FuncRow.name
          rw [insertFunc_new (Nat.lt_succ_self _), List.map_append]
          exact List.mem_append_right _ List.mem_cons_self
        · intro n hn
          change n ∈ (b.db.insertFunc _).functions.map FuncRow.name
          rw [insertFunc_new (Nat.lt_succ_self _), List.map_append]
          exact List.mem_append_left _ hn

theorem named_sweep {b b' : Building} {funcs : List (Bytes × Bytes)}
    (h : sweep addFunc b funcs = (b', .ok ())) : Named b funcs b' := by
  refine sweep_history (I := Named b) ?_
    ⟨rfl, rfl, rfl, rfl, rfl, fun f hf => absurd hf List.not_mem_nil, fun _ hn => hn⟩ h
  intro past func rest b₁ b₂ _ h₁ hstep
  have h₂ := addFunc_ok hstep
  refine ⟨h₂.libs.trans h₁.libs, h₂.libIndex.trans h₁.libIndex, h₂.srcfiles.trans h₁.srcfiles,
    h₂.libfiles.trans h₁.libfiles,
    h₂.calls.trans h₁.calls, ?_, fun n hn => h₂.kept n (h₁.kept n hn)⟩
  intro f hf
  rcases List.mem_append.mp hf with hf | hf
  · exact h₂.kept _ (h₁.names f hf)
  · exact h₂.names f hf

end NetCpp.Proofs
