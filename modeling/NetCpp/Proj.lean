import NetCpp.Cpt

namespace NetCpp
open Library

/-- A row of a table `fargs_`. A statement that is stepped through is the rows that it has not come
past: the first of them is the one whose columns are read. Behind the last row
`sqlite3_column_text` is a null pointer, and no string is made of that. -/
structure FargRow where
  id : Nat
  type : Bytes
  idx : Nat
  io : Nat
  key : Bytes
  size : Int
deriving DecidableEq, Repr

/-- `struct check_table_column`, and what is read of a row of `PRAGMA table_info`. -/
structure CheckTableColumn where
  name : Bytes
  type : Bytes
  notnull : Int
  pk : Int
deriving DecidableEq, Repr

namespace Proj

/-- One of the two loops of `write_args_info_no_create_table`. Texts are bound up to a NUL. -/
def insertArgs (io : Nat) : Nat → Nat → List CptFuncArgs → List FargRow
  | _, _, [] => []
  | idx, sidx, arg :: args =>
    { id := sidx, type := cStr arg.type, idx, io, key := cStr arg.key, size := arg.size } ::
      insertArgs io (idx + 1) (sidx + 1) args

def writeArgsInfoNoCreateTable (table : List FargRow) (pfin pfout : List CptFuncArgs) :
    List FargRow :=
  table ++ insertArgs 0 0 0 pfin ++ insertArgs 1 0 pfin.length pfout

/-- One of the two loops of the argument check, with `if_changed` and the rows that are left. -/
def checkArgs (io : Nat) :
    Nat → List CptFuncArgs → List FargRow → Except Fault (Bool × List FargRow)
  | _, [], rows => .ok (false, rows)
  | _, _ :: _, [] => .error .nullPointer
  | idx, farg :: fargs, row :: rows =>
    if row.idx = idx ∧ row.io = io then
      if row.type = farg.type ∧ row.key = farg.key ∧ row.size = farg.size then
        checkArgs io (idx + 1) fargs rows
      else .ok (true, row :: rows)
    else .ok (true, row :: rows)

/-- The argument check of `UpdateProcess`. -/
def updateArgs (table : List FargRow) (fargsIn fargsOut : List CptFuncArgs) :
    Except Fault (List FargRow) := do
  let (changedIn, rows) ← checkArgs 0 0 fargsIn table
  let (changedOut, _) ← checkArgs 1 0 fargsOut rows
  -- what is there is deleted first
  if changedIn || changedOut then return writeArgsInfoNoCreateTable [] fargsIn fargsOut
  return table

/-- The loop of `check_table`, from the index `i - 1` on. -/
def checkColumns (sctc : List CheckTableColumn) :
    Nat → Nat → List CheckTableColumn → Except Fault Unit
  | 0, _, _ => .ok ()
  | _ + 1, _, [] => .error .nullPointer
  | rounds + 1, i, tctc :: rows =>
    match sctc[i]? with
    | none => .error .readOutside
    | some expected =>
      if tctc ≠ expected then .error (.message "table abnormal")
      else checkColumns sctc rounds (i + 1) rows

/-- A row of `PRAGMA table_info` has six columns, and what is not there has none. -/
def checkTable (cnum : Nat) (sctc rows : List CheckTableColumn) : Except Fault Unit :=
  if rows = [] then .error (.message "table abnormal srcfiles")
  else checkColumns sctc (cnum - 1) 0 rows

end Proj

end NetCpp
