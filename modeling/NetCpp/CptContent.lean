import NetCpp.Build
import NetCpp.Library.Runs

namespace NetCpp
open Library SettingFile

def parenLeft : Byte := 40

def parenRight : Byte := 41

/-- What a sentence of a source file says: an entry function with its parameters. -/
structure EntryFunc where
  name : Bytes
  fargsOut : List CptFuncArgs
  fargsIn : List CptFuncArgs
deriving DecidableEq, Repr

/-- `class Cpt`, as far as a description fills it. -/
structure Cpt where
  srcFiles : List Bytes := []
  funcsSrc : Std.TreeMap Bytes Bytes := ∅
  fargsOut : Std.TreeMap Bytes (List CptFuncArgs) := ∅
  fargsIn : Std.TreeMap Bytes (List CptFuncArgs) := ∅

namespace Cpt

/-- What stands between the parentheses, and between the two pairs of them. -/
def entryFunc (sentence : Bytes) : Except Fault EntryFunc :=
  match Strings.find sentence parenLeft 0, Strings.find sentence parenRight 0 with
  | some dqL, some dqR => do
    let strArgout ← substr sentence (dqL + 1) ((dqR : Int) - dqL - 1)
    let cfgo ← dealArgs strArgout
    match Strings.find sentence parenLeft (dqR + 1) with
    | none => throw (.message "syntax error")
    | some yqL =>
      match Strings.find sentence parenRight yqL with
      | none => throw (.message "syntax error")
      | some yqR => do
        let strArgin ← substr sentence (yqL + 1) ((yqR : Int) - yqL - 1)
        let cfgi ← dealArgs strArgin
        let funcName ← substr sentence (dqR + 1) ((yqL : Int) - dqR - 1)
        if !ifNameIllegal funcName then throw (.message "function name is illegal")
        return { name := funcName, fargsOut := cfgo, fargsIn := cfgi }
  | _, _ => .error (.message "syntax error")

/-- A name that is in a map stays with what it has there. -/
def declare (tsrcName : Bytes) (cpt : Cpt) (func : EntryFunc) : Cpt :=
  { cpt with
    funcsSrc := cpt.funcsSrc.insertIfNew func.name tsrcName
    fargsOut := cpt.fargsOut.insertIfNew func.name func.fargsOut
    fargsIn := cpt.fargsIn.insertIfNew func.name func.fargsIn }

/-- The body of the loop over the sentences of a source file. -/
def dealFunc (tsrcName : Bytes) (cpt : Cpt) (func : SettingFileRead) : Except Fault Cpt :=
  if func.ifBlk then .ok cpt
  else do
    let func ← entryFunc func.sentence
    return cpt.declare tsrcName func

def srcName (name : Bytes) : Bytes := name ++ ascii ['.', 'c', 'p', 'p']

/-- The body of the loop over the source files. -/
def dealSrc (cpt : Cpt) (src : SettingFileRead) : Except Fault Cpt :=
  if src.key = ascii ['s', 'r', 'c', 'f', 'i', 'l', 'e'] then
    run (dealFunc (srcName src.name)) { cpt with srcFiles := cpt.srcFiles ++ [srcName src.name] }
      src.childs
  else .ok cpt

/-- `Cpt::deal_content`, for the description of a project. -/
def dealContent (name dataContent : Bytes) : Except Fault Cpt := do
  let blocks ← readBlocks dataContent blockKeys
  match blocks.find? (·.name = name) with
  | none => throw (.message "proper blocks not found")
  | some block => if block.ifBlk then run dealSrc {} block.childs else return {}

end Cpt

end NetCpp
