import NetCpp.Memory
import NetCpp.Library.Strings

namespace NetCpp
open Library

def semicolon : Byte := 59

def braceLeft : Byte := 123

def braceRight : Byte := 125

/-- `struct setting_file_read` -/
structure SettingFileRead where
  key : Bytes := []
  name : Bytes := []
  sentence : Bytes := []
  ifBlk : Bool
  childs : List SettingFileRead := []
deriving Repr

namespace SettingFile

/-- `isalnum`, in the locale that a program starts with. -/
def isalnum (c : Byte) : Bool := Decimal.isDigit c || (65 ≤ c && c ≤ 90) || (97 ≤ c && c ≤ 122)

/-- `isgraph`. A `char` below zero is in no class. -/
def isgraph (c : Byte) : Bool := 33 ≤ c && c ≤ 126

/-- In spite of its name it tells the characters that are legal. -/
def ifIllegal (c : Byte) : Bool := isalnum c || c == 95

def ifNameIllegal (str : Bytes) : Bool := str.all ifIllegal

def substr (s : Bytes) (pos : Nat) (count : Int) : Except Fault Bytes :=
  match Strings.substr s pos count with
  | none => .error .outOfRange
  | some t => .ok t

/-- The characters up to the brace that closes the block. `blk_stack` is an `int`, which a text with
fewer than 2 ^ 31 - 1 braces does not overflow. -/
def pcsstr : Int → Bytes → Bytes
  | _, [] => []
  | blkStack, c :: tstr =>
    if c = braceLeft then c :: pcsstr (blkStack + 1) tstr
    else if c = braceRight then
      if blkStack - 1 = 1 then [c] else c :: pcsstr (blkStack - 1) tstr
    else c :: pcsstr blkStack tstr

/-- The loop over the keys, with the key and the name of the block. What `find` returns is only
compared with `npos`. -/
def blockKey (pcsstr head : Bytes) (blqIdx : Nat) : List Bytes → Except Fault (Bytes × Bytes)
  | [] => .ok ([], [])
  | key :: blockKeys =>
    if key <:+: head then do
      let keystr ← substr pcsstr 0 key.length
      let namestr ← substr pcsstr key.length (blqIdx - key.length)
      if !ifNameIllegal namestr then throw (.message "block name is illegal")
      return (keystr, namestr)
    else blockKey pcsstr head blqIdx blockKeys

/-- The loop of `read_blocks`, with what it pushes. `curs_idx` is 0 at the start of each round. The
fuel is more than the number of rounds that are left and than the depth. -/
def readLoop (tsfr : List Bytes) : Nat → Bytes → Except Fault (List SettingFileRead)
  | fuel, tstr =>
    if tstr = [] then .ok []
    else
      match fuel with
      | 0 => .error .diverges
      | fuel + 1 =>
        match Strings.find tstr semicolon 0 with
        | none => .ok []
        | some semIdx => do
          let tmpstr ← substr tstr 0 semIdx
          match Strings.find tmpstr braceLeft 0 with
          | none => do
            -- the same search again
            let brqIdx := semIdx
            let pcsstr ← substr tstr 0 brqIdx
            let tstr ← substr tstr (brqIdx + 1) (tstr.length - (brqIdx + 1))
            let blocks ← readLoop tsfr fuel tstr
            return { sentence := pcsstr, ifBlk := false } :: blocks
          | some blqIdx => do
            let pcsstr := pcsstr 1 tstr
            -- `npos + 1` is 0
            let brqIdx : Nat := (Strings.rfind pcsstr braceRight).elim 0 (· + 1)
            let head ← substr pcsstr 0 blqIdx
            let (key, name) ← blockKey pcsstr head blqIdx tsfr
            if key = [] then throw (.message "unknown block key")
            let inblkstr ← substr pcsstr (blqIdx + 1) (brqIdx - blqIdx - 2)
            let childs ← readLoop tsfr fuel inblkstr
            let tstr ← substr tstr (brqIdx + 1) (tstr.length - (brqIdx + 1))
            let blocks ← readLoop tsfr fuel tstr
            return { key, name, ifBlk := true, childs } :: blocks

def readBlocks (str : Bytes) (tsfr : List Bytes) : Except Fault (List SettingFileRead) :=
  readLoop tsfr str.length str

/-- An `ifstream`: what is left to read, and if it has met the end. -/
structure Ifstream where
  rest : Bytes
  eof : Bool := false

/-- `memset` and `read` of `n` bytes of `tmp`: what is not read is zero. No caller asks for more
than its 512 bytes. -/
def Ifstream.readTmp (ifsf : Ifstream) (n : Nat) : Bytes × Ifstream :=
  let tmp := if ifsf.eof then [] else ifsf.rest.take n
  (tmp ++ List.replicate (n - tmp.length) 0,
    { rest := ifsf.rest.drop tmp.length, eof := ifsf.eof || tmp.length < n })

/-- The loop of `read_file`. A size of 512 is in none of its cases. -/
def readFileLoop (size : Nat) : Nat → Ifstream → List (Option Byte) → Nat → Nat →
    Except Fault (List (Option Byte))
  | 0, _, _, _, _ => .error .diverges
  | fuel + 1, ifsf, buff, idx, idxCount =>
    if ifsf.eof = false ∧ idxCount < size then
      if size < 512 then do
        let (tmp, ifsf) := ifsf.readTmp size
        let buff ← copyAt buff idx tmp
        readFileLoop size fuel ifsf buff idx (idxCount + size)
      else if 512 < size then
        if 512 ≤ size - idxCount then do
          let (tmp, ifsf) := ifsf.readTmp 512
          let buff ← copyAt buff idx tmp
          readFileLoop size fuel ifsf buff (idx + 512) (idxCount + 512)
        else do
          let (tmp, ifsf) := ifsf.readTmp (size - idxCount)
          let buff ← copyAt buff idx tmp
          -- the counter is first, and nothing is left to add to the cursor
          let idxCount := idxCount + (size - idxCount)
          readFileLoop size fuel ifsf buff (idx + (size - idxCount)) idxCount
      else readFileLoop size fuel ifsf buff idx idxCount
    else .ok buff

def readFile (file : Bytes) (buff : List (Option Byte)) (size fuel : Nat) :
    Except Fault (List (Option Byte)) :=
  readFileLoop size fuel { rest := file } buff 0 0

/-- A byte that has not been written cannot be read. -/
def written : Option Byte → Except Fault Byte
  | some c => .ok c
  | none => .error .readOutside

/-- `read_settings` of a file that stays as it is from `stat` on. -/
def readSettings (file tstr : Bytes) (fuel : Nat) : Except Fault Bytes := do
  let fbs ← readFile file (List.replicate (file.length + 5) none) file.length fuel
  let chars ← (fbs.take file.length).mapM written
  return tstr ++ chars.filter isgraph

end SettingFile

/-- The keys that `Proj::deal_content` registers. -/
def Proj.blockKeys : List Bytes :=
  [ascii ['p', 'r', 'o', 'j'], ascii ['c', 'p', 't'], ascii ['m', 'a', 'p'],
    ascii ['s', 'r', 'c', '_', 'd', 'i', 'r'], ascii ['l', 'i', 'b', '_', 'd', 'i', 'r']]

/-- The keys that `Cpt::deal_content` registers. -/
def Cpt.blockKeys : List Bytes :=
  [ascii ['c', 'p', 'a', 'r', 't', 's'], ascii ['s', 'r', 'c', 'f', 'i', 'l', 'e']]

end NetCpp
