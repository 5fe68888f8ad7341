import NetCpp.Message

namespace NetCpp
open Library

/-- A digit of `"%02x"`. -/
def isHex (c : Byte) : Bool := Decimal.isDigit c || (97 ≤ c && c ≤ 102)

/-- What the factory uses of `SHA256Generator`: `setRawData` followed by `getHex`, a
function of the bytes with 64 hex digits as its value. -/
structure SHA256Generator where
  getHex : Bytes → Bytes
  length_getHex : ∀ data, (getHex data).length = 64
  isHex_getHex : ∀ data, ∀ c ∈ getHex data, isHex c = true

namespace MessageFactory
open Message

/-- The loop of `calculate_options_hash`; it adds the byte before it looks at the index. -/
def hashLoop (endIndex : Int) : Bytes → Int → Int16 → Int16
  | [], _, sumHash => sumHash
  | c :: rest, index, sumHash =>
    let sumHash := sumHash + Int16.ofInt (charValue c)
    let sumHash := Int16.ofInt (sumHash.toInt.tmod 65535)
    if endIndex ≤ index then sumHash else hashLoop endIndex rest (index + 1) sumHash

/-- `end_index > raw_data.size()` compares as `size_t`: a negative index is larger
than the size of any vector. -/
def calculateOptionsHash (rawData : Bytes) (endIndex : Int32) : Except Fault Int16 :=
  if endIndex.toInt < 0 ∨ rawData.length < endIndex.toInt then
    .error (.runtimeError "end index out of range")
  else .ok (hashLoop endIndex.toInt rawData 0 0)

def encodeHead (m : Message) (rawData : Bytes) : Bytes :=
  rawData ++ msgHead ++ [space] ++ Decimal.ofInt msgVersion.toInt ++ [space] ++
    Decimal.ofInt m.type.toInt ++ [space] ++ Decimal.ofInt m.tid.toInt ++ [cr, lf]

def encodeOption (rawData : Bytes) (o : MessageOption) : Bytes :=
  rawData ++ [quote] ++ o.key ++ [quote, colon, quote] ++ o.value ++ [quote, cr, lf]

def encodeOptions (m : Message) (rawData : Bytes) : Except Fault Bytes :=
  let rawData := m.options.foldl encodeOption rawData
  match calculateOptionsHash rawData (Int32.ofInt (rawData.length - 1)) with
  | .error e => .error e
  | .ok sumHash => .ok (rawData ++ Decimal.ofInt sumHash.toInt ++ crlf ++ crlf)

def encodeBody (m : Message) (rawData : Bytes) : Bytes := rawData ++ m.data ++ crlf

def encodeTail (rawData : Bytes) : Bytes := rawData ++ msgTail

/-- `encodeMessage`: the message, now signed, and the vector with its frame at the end. -/
def encodeMessage (signGen : SHA256Generator) (m : Message) (rawData : Bytes) :
    Except Fault (Message × Bytes) :=
  let m := m.addOption keySign (signGen.getHex m.getData)
  match encodeOptions m (encodeHead m rawData) with
  | .error e => .error e
  | .ok rawData => .ok (m, encodeTail (encodeBody m rawData))

/-- The decoders return the index they have come to, or -1 (here `none`), and leave
what they have read in the message. -/
abbrev Decoded := Except Fault (Option Nat × Message)

def decodeHead (rawData : Bytes) (m : Message) : Decoded := do
  match ← expect (msgHead ++ [space]) rawData with
  | none => return (none, m)
  | some rest =>
    let (sVersion, rest) ← readUntil space rest
    let version := Int16.ofInt (← stoi sVersion)
    if version ≠ msgVersion then return (none, m)
    let (sType, rest) ← readUntil space rest
    let type := Int16.ofInt (← stoi sType)
    let (sTid, rest) ← readUntil cr rest
    let tid := Int32.ofInt (← stoi sTid)
    match ← expect [lf] rest with
    | none => return (none, m)
    | some rest => return (some (rawData.length - rest.length), m.setHead tid type)

/-- The loop over the option lines. It leaves the position at the first byte that is
no quote, where the checksum starts. -/
def optionLines : Nat → Bytes → Message → Except Fault (Option Bytes × Message)
  | 0, _, _ => .error .diverges
  | n + 1, rest, m => do
    let (c, line) ← next rest
    if c ≠ quote then return (some rest, m)
    let (key, line) ← readUntil quote line
    match ← expect [colon, quote] line with
    | none => return (none, m)
    | some line =>
      let (value, line) ← readUntil quote line
      match ← expect crlf line with
      | none => return (none, m)
      | some rest => optionLines n rest (m.addOption (cStr key) (cStr value))

/-- After the option lines: the checksum of the vector up to the byte before `rest`
(`sum_hash_range = index - 2`, with `index` one past the byte that ended the loop). -/
def decodeChecksum (rawData rest : Bytes) (m : Message) : Decoded := do
  let sumHashRange := Int32.ofInt ((rawData.length : Int) - rest.length - 1)
  let (sumHashStr, rest) ← readUntil cr rest
  match ← expect [lf] rest with
  | none => return (none, m)
  | some rest =>
    let sumHash := Int16.ofInt (← stoi sumHashStr)
    let sumHashCheck ← calculateOptionsHash rawData sumHashRange
    if sumHashCheck ≠ sumHash then return (none, m)
    match ← expect crlf rest with
    | none => return (none, m)
    | some rest => return (some (rawData.length - rest.length), m)

def decodeOptions (rawData : Bytes) (offset : Nat) (m : Message) : Decoded := do
  match ← optionLines (rawData.length + 1) (rawData.drop offset) m with
  | (none, m) => return (none, m)
  | (some rest, m) => decodeChecksum rawData rest m

/-- `catch (std::runtime_error e)`, where the handler returns. -/
def catchRuntimeError (x : Except Fault α) : Except Fault (Option α) :=
  match x with
  | .ok a => .ok (some a)
  | .error (.runtimeError _) => .ok none
  | .error e => .error e

/-- A negative size is, as the `size_t` of `pushData`, more than any vector holds. -/
def decodeBody (rawData : Bytes) (offset : Nat) (m : Message) : Decoded := do
  match ← catchRuntimeError (m.getValue keySize) with
  | none => return (none, m)
  | some sSize =>
    let size ← stoi sSize
    if size < 0 then throw .readOutside
    let rest := rawData.drop offset
    let m ← m.pushData rest size.toNat
    match ← expect crlf (rest.drop size.toNat) with
    | none => return (none, m)
    | some rest => return (some (rawData.length - rest.length), m)

def decodeTail (rawData : Bytes) (offset : Nat) (m : Message) : Decoded := do
  match ← expect msgTail (rawData.drop offset) with
  | none => return (none, m)
  | some rest => return (some (rawData.length - rest.length), m)

/-- A decoder as the caller sees it: whether it came to an index. -/
def accepted (r : Decoded) : Except Fault (Bool × Message) :=
  r.map (fun (offset, m) => (offset.isSome, m))

def decodeMessage (rawData : Bytes) (m : Message) : Except Fault (Bool × Message) := do
  match ← decodeHead rawData m.clear with
  | (none, m) => return (false, m)
  | (some offset, m) =>
    match ← decodeOptions rawData offset m with
    | (none, m) => return (false, m)
    | (some offset, m) =>
      match ← decodeBody rawData offset m with
      | (none, m) => return (false, m)
      | (some offset, m) => accepted (decodeTail rawData offset m)

def checkMessageSign (signGen : SHA256Generator) (m : Message) : Except Fault Bool := do
  match ← catchRuntimeError (m.getValue keySign) with
  | none => return false
  | some sign => return signGen.getHex m.getData = sign

def decodeMessageHead (rawData : Bytes) (m : Message) : Except Fault (Bool × Message) :=
  accepted (decodeHead rawData m)

def decodeMessageOption (rawData : Bytes) (m : Message) : Except Fault (Bool × Message) :=
  accepted (decodeOptions rawData 0 m)

def decodeMessageBody (rawData : Bytes) (m : Message) : Except Fault (Bool × Message) :=
  accepted (decodeBody rawData 0 m)

def decodeMessageTail (rawData : Bytes) (m : Message) : Except Fault (Bool × Message) :=
  accepted (decodeTail rawData 0 m)

end MessageFactory

end NetCpp
