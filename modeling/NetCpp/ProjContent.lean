import NetCpp.Library.Runs
import NetCpp.Proj

namespace NetCpp
open Library SettingFile

/-- `class Proj`, as far as its file fills it. -/
@[ext] structure Proj where
  name : Bytes := []
  cptPaths : List Bytes := []
  mapPaths : List Bytes := []
  srcPaths : List Bytes := []
  libPath : Bytes := []
deriving DecidableEq, Repr

namespace Proj

def pathTag : Bytes := ascii ['p', 'a', 't', 'h']

def nameTag : Bytes := ascii ['n', 'a', 'm', 'e']

/-- A sentence with one of the two tags in it. -/
def readTag (stn : SettingFileRead) : Except Fault StnRead := do
  let (rtn, tsread) ← readStn stn.sentence [pathTag, nameTag]
  if rtn = -1 then throw (.message "sentence illegal")
  return tsread

/-- The body of the loop over the sentences of a `cpt` or a `map`, with `tpath` and the paths so
far. -/
def dealPart (ext : Bytes) (twice : String) (read : Bytes × List Bytes) (stn : SettingFileRead) :
    Except Fault (Bytes × List Bytes) :=
  if stn.ifBlk then .ok read
  else do
    let tsread ← readTag stn
    if tsread.key = pathTag then
      if read.1 = [] then return (tsread.value, read.2)
      else throw (.message twice)
    else if tsread.key = nameTag then
      return (read.1, read.2 ++ [read.1 ++ ascii ['/'] ++ (tsread.value ++ ascii ['.'] ++ ext)])
    else return read

/-- The body of the loop over the sentences of a `src_dir`. -/
def dealSrcDir (srcPaths : List Bytes) (stn : SettingFileRead) : Except Fault (List Bytes) :=
  if stn.ifBlk then .ok srcPaths
  else do
    let tsread ← readTag stn
    if tsread.key = pathTag then return srcPaths ++ [tsread.value]
    else return srcPaths

/-- The body of the loop over the sentences of a `lib_dir`. `lib_path` is `tpath` whenever one is
set. -/
def dealLibDir (libPath : Bytes) (stn : SettingFileRead) : Except Fault Bytes :=
  if stn.ifBlk then .ok libPath
  else do
    let tsread ← readTag stn
    if tsread.key = pathTag then
      if libPath = [] then return tsread.value
      else throw (.message "only can a 'lib_dir' block have one 'path' tag")
    else return libPath

def cptKey : Bytes := ascii ['c', 'p', 't']

def mapKey : Bytes := ascii ['m', 'a', 'p']

def srcDirKey : Bytes := ascii ['s', 'r', 'c', '_', 'd', 'i', 'r']

def libDirKey : Bytes := ascii ['l', 'i', 'b', '_', 'd', 'i', 'r']

/-- The body of the loop over the blocks of a project. -/
def dealBlock (proj : Proj) (block : SettingFileRead) : Except Fault Proj :=
  if block.key = cptKey then do
    let read ← run (dealPart cptKey "only can a 'cpt' block have one 'path' tag")
        ([], proj.cptPaths) block.childs
    return { proj with cptPaths := read.2 }
  else if block.key = mapKey then do
    let read ← run (dealPart mapKey "only can a 'map' block have one 'path' tag")
        ([], proj.mapPaths) block.childs
    return { proj with mapPaths := read.2 }
  else if block.key = srcDirKey then do
    let srcPaths ← run dealSrcDir proj.srcPaths block.childs
    return { proj with srcPaths }
  else if block.key = libDirKey then
    if proj.libPath ≠ [] then throw (.message "only can a 'proj' block have one 'lib_dir' block")
    else do
      let libPath ← run dealLibDir proj.libPath block.childs
      return { proj with libPath }
  else return proj

/-- `Proj::deal_content`. The first block of a file without any is outside of it. -/
def dealContent (dataContent : Bytes) : Except Fault Proj := do
  let blocks ← readBlocks dataContent blockKeys
  match blocks with
  | [] => throw .readOutside
  | block :: _ =>
    if block.key = ascii ['p', 'r', 'o', 'j'] ∧ block.ifBlk then
      if block.name = [] then throw (.message "a project must have a name")
      else run dealBlock { name := block.name } block.childs
    else throw (.message "project file illegal")

end Proj

end NetCpp
