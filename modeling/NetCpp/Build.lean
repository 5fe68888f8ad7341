import NetCpp.Library.Sweeps
import NetCpp.Proj

namespace NetCpp
open Library

/-- A row of `srcfiles`. Names, paths and digests are bound and read back as they are: none of them
has a NUL. -/
structure SrcRow where
  id : Nat
  name : Bytes
  path : Bytes
  md5 : Bytes
deriving DecidableEq, Repr

/-- A row of `libfiles`. -/
structure LibRow where
  id : Nat
  name : Bytes
deriving DecidableEq, Repr

/-- A row of `functions`. -/
structure FuncRow where
  id : Nat
  name : Bytes
  srcfileId : Nat
  libfileId : Nat
deriving DecidableEq, Repr

/-- The tables that the sources, libraries and functions are in, and the functions that have a table
`fargs_`. -/
structure Database where
  srcfiles : List SrcRow := []
  libfiles : List LibRow := []
  functions : List FuncRow := []
  fargs : List Bytes := []
deriving DecidableEq, Repr

/-- The first column of the row with the greatest `id`, which is zero where there is no row. -/
def lastId (ids : List Nat) : Nat := ids.foldl max 0

namespace Database

/-- `INSERT`, which fails where the primary key is there. The failure is printed. -/
def insertSrc (db : Database) (row : SrcRow) : Database :=
  if row.id ∈ db.srcfiles.map SrcRow.id then db else { db with srcfiles := db.srcfiles ++ [row] }

def insertLib (db : Database) (row : LibRow) : Database :=
  if row.id ∈ db.libfiles.map LibRow.id then db else { db with libfiles := db.libfiles ++ [row] }

def insertFunc (db : Database) (row : FuncRow) : Database :=
  if row.id ∈ db.functions.map FuncRow.id then db
  else { db with functions := db.functions ++ [row] }

def updateMd5 (db : Database) (name md5 : Bytes) : Database :=
  { db with
    srcfiles := db.srcfiles.map (fun row => if row.name = name then { row with md5 } else row) }

def findSrc (db : Database) (name : Bytes) : Option SrcRow := db.srcfiles.find? (·.name = name)

def findLib (db : Database) (name : Bytes) : Option LibRow := db.libfiles.find? (·.name = name)

end Database

/-- What g++ does with a text: whether it writes the library, what it prints and what `system`
returns. -/
structure Gxx where
  writes : Bool
  log : Bytes
  rtn : Int
deriving DecidableEq, Repr

/-- The programs and libraries that a build uses: g++, the digest of a file, and `dlopen` with
`dlsym`. -/
structure Tools where
  gxx : Bytes → Gxx
  computeFile : Bytes → Bytes
  resolve : Option Bytes → Bytes → Except Fault Unit

/-- Directories of sources: what `readdir` lists there, and the text of a file. -/
structure Disk where
  listing : Bytes → Option (List Bytes)
  text : Bytes → Bytes → Bytes

/-- `class Cpt`: a function is one of a source file of its own. -/
structure CptFile where
  srcFiles : List Bytes
  funcsSrc : Std.TreeMap Bytes Bytes
  known : ∀ func src : Bytes, funcsSrc[func]? = some src → src ∈ srcFiles

/-- What a project reads from its description. -/
structure Project where
  srcPaths : List Bytes
  cpts : List CptFile

namespace Proj

def libName (srcName : Bytes) : Bytes :=
  ascii ['l', 'i', 'b', '_'] ++ srcName ++ ascii ['.', 's', 'o']

/-- The directory is the `idx`-th one. A name that is in the map stays with its directory. -/
def searchSrc (disk : Disk) (srcFiles : Std.TreeMap Bytes Nat) (idx : Nat) (path : Bytes) :
    Except Fault (Std.TreeMap Bytes Nat) :=
  match disk.listing path with
  | none => .error (.message "path is abnormal")
  | some files =>
    .ok (files.foldl (fun srcFiles file =>
      if ascii ['.', 'c', 'p', 'p'] <:+: file then srcFiles.insertIfNew file idx
        else srcFiles) srcFiles)

/-- The loop of `SearchInfo`, from index `idx` on. -/
def searchInfo (disk : Disk) :
    Std.TreeMap Bytes Nat → Nat → List Bytes → Except Fault (Std.TreeMap Bytes Nat)
  | srcFiles, _, [] => .ok srcFiles
  | srcFiles, idx, path :: srcPaths => do
    let srcFiles ← searchSrc disk srcFiles idx path
    searchInfo disk srcFiles (idx + 1) srcPaths

/-- The loop of `check_cpt` over the files of one description. -/
def checkFiles (srcFiles : Std.TreeMap Bytes Nat) (used : Std.TreeMap Bytes Nat) :
    List Bytes → Except Fault (Std.TreeMap Bytes Nat)
  | [] => .ok used
  | file :: files =>
    match srcFiles[file]? with
    | none => .error (.message "source file not exist")
    | some idx => checkFiles srcFiles (used.insertIfNew file idx) files

def checkCpt (srcFiles : Std.TreeMap Bytes Nat) (cpts : List CptFile) :
    Except Fault (Std.TreeMap Bytes Nat) :=
  checkFiles srcFiles ∅ (cpts.flatMap CptFile.srcFiles)

/-- The source of a function is asked for in the description that declares it first. -/
def buildFuncIndex (cpts : List CptFile) : Std.TreeMap Bytes Bytes :=
  cpts.foldl (fun funcIndex cpt => cpt.funcsSrc.toList.foldl
    (fun funcIndex func => funcIndex.insertIfNew func.1 func.2) funcIndex) ∅

/-- `used_srcfiles`, with the directory in the place of its index. -/
def usedSrcfiles (disk : Disk) (p : Project) : Except Fault (List (Bytes × Bytes)) := do
  let srcFiles ← searchInfo disk ∅ 0 p.srcPaths
  let used ← checkCpt srcFiles p.cpts
  return used.toList.map (fun src => (src.1, p.srcPaths.getD src.2 []))

/-- What a command changes: libraries, tables, `lib_index`, and the texts that g++ was called
for. -/
structure Building where
  libs : Bytes → Option Bytes
  db : Database
  libIndex : Std.TreeMap Bytes Bytes := ∅
  calls : List Bytes := []

abbrev Outcome (σ : Type) := σ × Except Fault Unit

/-- A compiler that prints anything counts as failed, and one that prints nothing as successful. -/
def buildSrc (t : Tools) (b : Building) (lib text : Bytes) : Outcome Building :=
  let g := t.gxx text
  let b := { b with
    libs := if g.writes then Function.update b.libs lib (some text) else b.libs
    calls := b.calls ++ [lib] }
  if g.rtn ≠ -1 ∧ g.rtn ≠ 127 then
    if g.log = [] then (b, .ok ()) else (b, .error (.message "compile error"))
  else (b, .error (.message "fail to build lib file"))

def compileSrcfile (t : Tools) (disk : Disk) (b : Building) (src : Bytes × Bytes) :
    Outcome Building :=
  andThen (buildSrc t b (libName src.1) (disk.text src.2 src.1))
    (fun b => ({ b with libIndex := b.libIndex.insertIfNew src.1 (libName src.1) }, .ok ()))

/-- A table name as SQLite compares it, with no difference between capital and small letters. -/
def foldCase (name : Bytes) : Bytes := name.map (fun c => if 65 ≤ c ∧ c ≤ 90 then c + 32 else c)

/-- `write_args_info`: the rows of the table are those of `writeArgsInfoNoCreateTable`. -/
def writeArgsInfo (b : Building) (func : Bytes) : Outcome Building :=
  if foldCase func ∈ b.db.fargs.map foldCase then (b, .error (.message "fail to create table"))
  else ({ b with db := { b.db with fargs := b.db.fargs ++ [func] } }, .ok ())

/-- `write_func_info` with the `id` that it binds. An iterator behind the last entry is followed
where the source was not compiled by this command. Where there is no row, `size` is not set and not
1. -/
def writeFuncInfo (b : Building) (id : Nat) (func : Bytes × Bytes) : Outcome Building :=
  match b.libIndex[func.2]? with
  | none => (b, .error .readOutside)
  | some lib =>
    match b.db.findSrc func.2, b.db.findLib lib with
    | some src, some lib =>
      ({ b with db := b.db.insertFunc
                  { id, name := func.1, srcfileId := src.id, libfileId := lib.id } }, .ok ())
    | _, _ => (b, .error (.message "database abnormal"))

/-- The loop over the new sources, with `last_id`. -/
def addSource (t : Tools) (disk : Disk) (s : Nat × Building) (src : Bytes × Bytes) :
    Outcome (Nat × Building) :=
  if src.1 ∈ s.2.db.srcfiles.map SrcRow.name then (s, .ok ())
  else
    match compileSrcfile t disk s.2 src with
    | (b, .error e) => ((s.1, b), .error e)
    | (b, .ok ()) =>
      let row :=
        { id := s.1 + 1, name := src.1, path := src.2,
          md5 := t.computeFile (disk.text src.2 src.1) }
      ((s.1 + 1, { b with db := b.db.insertSrc row }), .ok ())

def addSources (t : Tools) (disk : Disk) (used : List (Bytes × Bytes)) (b : Building) :
    Outcome Building :=
  let r := sweep (addSource t disk) (lastId (b.db.srcfiles.map SrcRow.id), b) used
  (r.1.2, r.2)

/-- The loop over `lib_index`. -/
def addLib (s : Nat × Building) (lib : Bytes) : Nat × Building :=
  if lib ∈ s.2.db.libfiles.map LibRow.name then s
  else (s.1 + 1, { s.2 with db := s.2.db.insertLib { id := s.1 + 1, name := lib } })

def addLibs (b : Building) : Building :=
  ((b.libIndex.toList.map Prod.snd).foldl addLib (lastId (b.db.libfiles.map LibRow.id), b)).2

/-- The loop over the sources that were modified. -/
def renewSource (t : Tools) (disk : Disk) (b : Building) (src : Bytes × Bytes) : Outcome Building :=
  match b.db.findSrc src.1 with
  | none => (b, .error .nullPointer)
  | some row =>
    let md5 := t.computeFile (disk.text src.2 src.1)
    if row.md5 ≠ md5 then
      andThen (compileSrcfile t disk b src)
        (fun b => ({ b with db := b.db.updateMd5 src.1 md5 }, .ok ()))
    else (b, .ok ())

/-- The loop over the functions. -/
def addFunc (b : Building) (func : Bytes × Bytes) : Outcome Building :=
  if func.1 ∈ b.db.functions.map FuncRow.name then (b, .ok ())
  else
    andThen (writeFuncInfo b (lastId (b.db.functions.map FuncRow.id) + 1) func)
      (fun b => writeArgsInfo b func.1)

/-- `UpdateProcess` up to the check of the parameters, which is `updateArgs` for each function. -/
def updateSources (t : Tools) (disk : Disk) (used funcs : List (Bytes × Bytes)) (b : Building) :
    Outcome Building :=
  andThen (addSources t disk used b) (fun b =>
    andThen (sweep (renewSource t disk) (addLibs b) used) (fun b => sweep addFunc b funcs))

/-- The loop of `CheckFuncInfo`. -/
def checkFunc (t : Tools) (b : Building) (func : Bytes × Bytes) : Outcome Building :=
  match b.libIndex[func.2]? with
  | none => (b, .error .readOutside)
  | some lib => (b, t.resolve (b.libs lib) func.1)

/-- `DBProcess` up to the tables of the descriptions. -/
def dbProcess (t : Tools) (disk : Disk) (used funcs : List (Bytes × Bytes)) (b : Building) :
    Outcome Building :=
  let srcfiles := used.mapIdx (fun id src =>
    { id, name := src.1, path := src.2, md5 := t.computeFile (disk.text src.2 src.1) })
  let libfiles := (b.libIndex.toList.map Prod.snd).mapIdx (fun id name => { id, name })
  let b := { b with db := { srcfiles, libfiles } }
  andThen (sweep (fun b func => writeFuncInfo b func.1 func.2) b
    (funcs.mapIdx (fun id func => (id, func))))
    (fun b => sweep writeArgsInfo b (funcs.map Prod.fst))

/-- The sources, the libraries and the database of a project. A library is known by the text that it
was made of. -/
structure World where
  disk : Disk
  libs : Bytes → Option Bytes
  db : Option Database
  calls : List Bytes

/-- `construct`: with `-f` the database is removed first, without it one that is there stays. -/
def construct (t : Tools) (p : Project) (force : Bool) (w : World) : Outcome World :=
  if w.db.isSome ∧ force = false then (w, .ok ())
  else
    match usedSrcfiles w.disk p with
    | .error e => ({ w with db := none }, .error e)
    | .ok used =>
      let funcs := (buildFuncIndex p.cpts).toList
      let compiled :=
        andThen
          (sweep (compileSrcfile t w.disk) { libs := w.libs, db := {}, calls := w.calls } used)
        (fun b => sweep (checkFunc t) b funcs)
      match compiled with
      | (b, .error e) => ({ w with libs := b.libs, db := none, calls := b.calls }, .error e)
      | (b, .ok ()) =>
        let (b, r) := dbProcess t w.disk used funcs b
        ({ w with libs := b.libs, db := some b.db, calls := b.calls }, r)

/-- `update`: what it has committed before it throws stays. -/
def update (t : Tools) (p : Project) (w : World) : Outcome World :=
  match w.db with
  | none => (w, .error (.message "database not exist"))
  | some db =>
    match usedSrcfiles w.disk p with
    | .error e => (w, .error e)
    | .ok used =>
      let (b, r) :=
        updateSources t w.disk used (buildFuncIndex p.cpts).toList
          { libs := w.libs, db, calls := w.calls }
      ({ w with libs := b.libs, db := some b.db, calls := b.calls }, r)

/-- What happens to a project: its sources are edited, or a command runs with the descriptions as
they are then. -/
inductive BuildEvent where
  | edit (disk : Disk)
  | construct (p : Project) (force : Bool)
  | update (p : Project)

def buildStep (t : Tools) (w : World) : BuildEvent → World
  | .edit disk => { w with disk }
  | .construct p force => (construct t p force w).1
  | .update p => (update t p w).1

def runBuild (t : Tools) (w : World) (events : List BuildEvent) : World :=
  events.foldl (buildStep t) w

end Proj

end NetCpp
