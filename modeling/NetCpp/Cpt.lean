import NetCpp.SettingFile

namespace NetCpp
open Library SettingFile

def comma : Byte := 44

def bracketLeft : Byte := 91

def bracketRight : Byte := 93

/-- `struct cpt_func_args` -/
@[ext] structure CptFuncArgs where
  type : Bytes
  size : Int
  key : Bytes
deriving DecidableEq, Repr

/-- `struct stn_read` -/
structure StnRead where
  key : Bytes := []
  value : Bytes := []
deriving DecidableEq, Repr

/-- `read_stn`, with what it returns. What `find` returns is only compared with `npos`. -/
def SettingFile.readStn (stnStr : Bytes) : List Bytes → Except Fault (Int × StnRead)
  | [] => .ok (-1, {})
  | key :: stnKeys =>
    if key <:+: stnStr then do
      let value ← substr stnStr key.length (stnStr.length - key.length)
      return (if key = [] then -1 else 0, { key, value })
    else readStn stnStr stnKeys

/-- `operator>>` for an `int` that has a value. A stream with nothing but blanks leaves the
value. -/
def extractInt (s : Bytes) (value : Int) : Int :=
  if s.dropWhile Decimal.isSpace = [] then value
  else
    let (negative, digits) := Decimal.readNumeral s
    max (-2 ^ 31) (min (Decimal.signed negative digits) (2 ^ 31 - 1))

namespace Cpt

/-- The types of `deal_arg`, in the order in which they are looked for. -/
def stnKeys : List Bytes := [ascii ['i', 'n', 't'], ascii ['d', 'o', 'u', 'b', 'l', 'e']]

/-- The test for no brackets asks twice for the right one. -/
def dealArg (arg : Bytes) : Except Fault CptFuncArgs :=
  match Strings.find arg bracketLeft 0, Strings.find arg bracketRight 0 with
  | some fqL, some fqR => do
    let sizeStr ← substr arg (fqL + 1) ((fqR : Int) - fqL - 1)
    let type ← substr arg 0 fqL
    let key ← substr arg (fqR + 1) ((arg.length : Int) - fqR - 1)
    return { type, size := extractInt sizeStr 1, key }
  | _, none => do
    let (_, nstnr) ← readStn arg stnKeys
    return { type := nstnr.key, size := 1, key := nstnr.value }
  | none, some _ => .error (.message "syntax error")

/-- The loop over the commas. The fuel is more than the number of commas that are left. -/
def dealCommas (args : Bytes) : Nat → Nat → Nat → Except Fault (List CptFuncArgs)
  | 0, _, _ => .error .diverges
  | fuel + 1, lcmaIdx, cmaIdx => do
    let arg ← substr args lcmaIdx ((cmaIdx : Int) - lcmaIdx)
    let ncfg ← dealArg arg
    let lcmaIdx := cmaIdx + 1
    match Strings.find args comma lcmaIdx with
    | none => do
      let arg ← substr args lcmaIdx ((args.length : Int) - lcmaIdx)
      let last ← dealArg arg
      return [ncfg, last]
    | some cmaIdx => do
      let cfgs ← dealCommas args fuel lcmaIdx cmaIdx
      return ncfg :: cfgs

def dealArgs (args : Bytes) : Except Fault (List CptFuncArgs) :=
  match Strings.find args comma 0 with
  | none =>
    let realArgs := args.filter isgraph
    if !ifNameIllegal realArgs then .error (.message "func name has illegal char")
    else if 3 < realArgs.length then do
      let ncfg ← dealArg args
      return [ncfg]
    else .ok []
  | some cmaIdx => dealCommas args args.length 0 cmaIdx

end Cpt

end NetCpp
