import NetCpp.Proofs.Renewals

namespace NetCpp.Proofs
open Library Proj

/-- The database and the libraries after an update of `p` that ended. -/
structure Refreshed (t : Tools) (p : Project) (w w' : World) (used : List (Bytes × Bytes))
    (db db' : Database) : Prop where
  before : w.db = some db
  after : w'.db = some db'
  disk : w'.disk = w.disk
  reads : usedSrcfiles w.disk p = .ok used
  sources : ∀ src ∈ used, ∃ r, db'.findSrc src.1 = some r ∧
    r.md5 = t.computeFile (textOf w.disk src)
  functions : ∀ func ∈ (buildFuncIndex p.cpts).toList, func.1 ∈ db'.functions.map FuncRow.name
  calls : w'.calls = w.calls ++
    (used.filter (lacksRow db) ++ used.filter (isModified t w.disk db)).map
      (fun src => libName src.1)

theorem Grown.modified {t : Tools} {disk : Disk} {b : Building} {used : List (Bytes × Bytes)}
    {s : Nat × Building} (h : Grown t disk b used s) : used.filter (isModified t disk s.2.db) =
      used.filter (isModified t disk b.db) := by
  refine List.filter_congr (fun src hs => ?_)
  unfold isModified
  by_cases hold : src.1 ∈ b.db.srcfiles.map SrcRow.name
  · rw [h.old src.1 hold]
  · obtain ⟨r, hr, hmd5⟩ := h.new src hs hold
    rw [hr, findSrc_none.mpr hold]
    simp [hmd5]

theorem Built.updated {t : Tools} (hwrites : Writes t) {w : World} (hw : Built t w) {p : Project}
    (h : (Proj.update t p w).2 = .ok ()) :
    ∃ used db db', Refreshed t p w (Proj.update t p w).1 used db db' := by
  rcases hdb : w.db with - | db
  · simp only [Proj.update, hdb] at h
    cases h
  rcases hused : usedSrcfiles w.disk p with e | used
  · simp only [Proj.update, hdb, hused] at h
    cases h
  have hnodup := nodup_used hused
  rcases hup : updateSources t w.disk used (buildFuncIndex p.cpts).toList
    { libs := w.libs, db, calls := w.calls } with
    ⟨b, r⟩
  simp only [Proj.update, hdb, hused, hup] at h ⊢
  subst h
  obtain ⟨b₁, hadd, hup⟩ := andThen_ok hup
  obtain ⟨b₂, hrenew, hfuncs⟩ := andThen_ok hup
  obtain ⟨id, hgrown⟩ := grown_addSources hwrites hnodup (hw.start hdb) hadd
  have hlibs :=
    NetCpp.Proofs.foldl_addLib (b₁.libIndex.toList.map Prod.snd)
      (lastId (b₁.db.libfiles.map LibRow.id), b₁)
  have hrenewed := renewed_sweep hwrites hnodup hgrown.adding.coherent.addLibs hrenew
  have hnamed := named_sweep hfuncs
  have hsame : (addLibs b₁).db.srcfiles = b₁.db.srcfiles := hlibs.1
  refine ⟨used, db, b.db, ⟨hdb, rfl, rfl, hused, ?_, hnamed.names, ?_⟩⟩
  · intro src hs
    obtain ⟨r, hr, hmd5⟩ := hrenewed.done src hs
    exact ⟨r, by rw [← hr, Database.findSrc, hnamed.srcfiles, Database.findSrc], hmd5⟩
  · have hmodified : used.filter (isModified t w.disk (addLibs b₁).db) =
        used.filter (isModified t w.disk db) := by
      rw [← hgrown.modified]
      exact List.filter_congr (fun src _ => by simp only [isModified, Database.findSrc, hsame])
    have hcalls : (addLibs b₁).calls = b₁.calls := hlibs.2.2.2.1
    change b.calls = _
    rw [hnamed.calls, hrenewed.calls, hmodified, hcalls, hgrown.calls, List.map_append,
      List.append_assoc]

theorem addLibs_empty {b : Building} (h : b.libIndex = ∅) : addLibs b = b := by
  have hnil : b.libIndex.toList = [] := by
    rw [h]
    rfl
  rw [addLibs, hnil]
  rfl

/-- Where nothing was edited a second update calls nothing and changes nothing. -/
theorem Refreshed.again {t : Tools} {p : Project} {w w' : World} {used : List (Bytes × Bytes)}
    {db db' : Database} (h : Refreshed t p w w' used db db') :
    Proj.update t p w' = (w', .ok ()) := by
  have hrow (src : Bytes × Bytes) (hs : src ∈ used) : src.1 ∈ db'.srcfiles.map SrcRow.name := by
    obtain ⟨r, hr, -⟩ := h.sources src hs
    by_contra hn
    rw [findSrc_none.mpr hn] at hr
    cases hr
  have hadd : addSources t w'.disk used { libs := w'.libs, db := db', calls := w'.calls } =
      ({ libs := w'.libs, db := db', calls := w'.calls }, .ok ()) := by
    unfold addSources
    rw [sweep_unchanged (fun src hs => if_pos (hrow src hs))]
  have hrenew : sweep (renewSource t w'.disk)
      { libs := w'.libs, db := db', calls := w'.calls } used =
      ({ libs := w'.libs, db := db', calls := w'.calls }, .ok ()) := by
    refine sweep_unchanged (fun src hs => ?_)
    obtain ⟨r, hr, hmd5⟩ := h.sources src hs
    obtain ⟨hnone, -⟩ | ⟨row, hfound, ⟨-, heq⟩ | ⟨hne, -⟩ | ⟨hne, -⟩⟩ := renewSource_cases t w'.disk
      { libs := w'.libs, db := db', calls := w'.calls } src
    · rw [hr] at hnone
      cases hnone
    · exact heq
    all_goals
      rw [hr] at hfound
      obtain rfl := Option.some.inj hfound
      rw [h.disk] at hne
      exact absurd hmd5 hne
  have hfuncs : sweep addFunc { libs := w'.libs, db := db', calls := w'.calls }
    (buildFuncIndex p.cpts).toList =
      ({ libs := w'.libs, db := db', calls := w'.calls }, .ok ()) :=
    sweep_unchanged (fun func hf => if_pos (h.functions func hf))
  have hused : usedSrcfiles w'.disk p = .ok used := by rw [h.disk, h.reads]
  have hempty := addLibs_empty (b := { libs := w'.libs, db := db', calls := w'.calls }) rfl
  have hup : updateSources t w'.disk used (buildFuncIndex p.cpts).toList
      { libs := w'.libs, db := db', calls := w'.calls } =
      ({ libs := w'.libs, db := db', calls := w'.calls }, .ok ()) := by
    simp only [updateSources, hadd, andThen, hempty, hrenew, hfuncs]
  simp only [Proj.update, h.after, hused, hup]
  rw [← h.after]

theorem Built.none {t : Tools} {w : World} (h : w.db = none) : Built t w := by
  intro db hdb
  rw [h] at hdb
  cases hdb

def aCpp : Bytes := ascii ['a', '.', 'c', 'p', 'p']

def bCpp : Bytes := ascii ['b', '.', 'c', 'p', 'p']

def cCpp : Bytes := ascii ['c', '.', 'c', 'p', 'p']

def intA : Bytes := ascii ['i', 'n', 't', ' ', 'a', ';']

def intB : Bytes := ascii ['i', 'n', 't', ' ', 'b', ';']

def intC : Bytes := ascii ['i', 'n', 't', ' ', 'c', ';']

/-- A text that g++ refuses. -/
def int : Bytes := ascii ['i', 'n', 't']

/-- What g++ begins its complaint with. -/
def intLog : Bytes := ascii
  ['/', 'c', '.', 'c', 'p', 'p', ':', '1', ':', '4', ':', ' ', 'e', 'r', 'r', 'o', 'r', ':', ' ',
   'e', 'x', 'p', 'e', 'c', 't', 'e', 'd', ' ', 'u', 'n', 'q', 'u', 'a', 'l', 'i', 'f', 'i', 'e',
   'd', '-', 'i', 'd', ' ', 'a', 't', ' ', 'e', 'n', 'd', ' ', 'o', 'f', ' ', 'i', 'n', 'p', 'u',
   't']

def intDigests : List (Bytes × Bytes) := [
  (intA, ascii
    ['5', 'b', '8', 'f', 'f', '0', 'b', '4', '4', 'd', 'f', '6', '0', '8', 'b', '9', 'b', 'b',
     '4', '7', '4', '3', '1', 'c', '2', 'b', '4', '6', 'f', '6', 'c', 'e']),
  (intB, ascii
    ['7', '6', '6', 'c', '0', '8', '3', '1', '0', 'b', '0', '6', '7', '6', 'a', '2', 'a', 'c',
     'f', '7', 'b', '1', '0', '0', '9', '2', 'e', '4', '8', 'c', '7', '0']),
  (intC, ascii
    ['2', 'a', '2', '1', 'a', '2', '7', '9', '7', 'b', '8', 'f', '3', '8', '5', '9', '1', '5',
     'f', '1', '0', 'a', '5', 'e', 'b', '5', '1', '7', 'a', 'e', '8', '1']),
  (int, ascii
    ['f', 'a', '7', '1', '5', '3', 'f', '7', 'e', 'd', '1', 'c', 'b', '6', 'c', '0', 'f', 'c',
     'f', '2', 'f', 'f', 'b', '2', 'f', 'a', 'c', '2', '1', '7', '4', '8'])]

/-- g++ and MD5 at these four texts; `system` gives the exit status in its upper byte. Of another
text nothing is said: it is compiled, and its digest is zero. -/
def sampleTools : Tools where
  gxx text :=
    if text = int then { writes := false, log := intLog, rtn := 256 }
    else { writes := true, log := [], rtn := 0 }
  computeFile text :=
    match intDigests.find? (·.1 = text) with
    | some (_, digest) => digest
    | none => List.replicate 32 48
  resolve _ _ := .ok ()

theorem sampleTools_writes : Writes sampleTools := by
  intro text h
  by_cases htext : text = int
  · have hlog := h.2.2
    simp only [sampleTools, htext, if_true] at hlog
    cases hlog
  · simp [sampleTools, htext]

/-- The third file is refused. -/
def sampleDisk : Disk where
  listing _ := some [aCpp, bCpp, cCpp]
  text _ name := if name = aCpp then intA else if name = bCpp then intB else int

/-- The third file is mended, and the first two are exchanged. -/
def mendedDisk : Disk where
  listing _ := some [aCpp, bCpp, cCpp]
  text _ name := if name = aCpp then intB else if name = bCpp then intA else intC

def sampleWorld : World := { disk := sampleDisk, libs := fun _ => none, db := none, calls := [] }

def firstProject : Project where
  srcPaths := [[47]]
  cpts := [{ srcFiles := [aCpp], funcsSrc := ∅, known := fun _ _ h => absurd h (by simp) }]

def secondProject : Project where
  srcPaths := [[47]]
  cpts := [{ srcFiles := [aCpp, bCpp, cCpp], funcsSrc := ∅
             known := fun _ _ h => absurd h (by simp) }]

end NetCpp.Proofs
