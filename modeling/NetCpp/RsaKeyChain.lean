import NetCpp.Requests

namespace NetCpp

/-- What an `RSA` holds of a key. Where nothing has been set there is a null pointer. -/
structure RSA where
  n : Option Nat := none
  e : Option Nat := none
  d : Option Nat := none
  p : Option Nat := none
  q : Option Nat := none
deriving DecidableEq

structure RSAPubKey where
  n : Nat
  e : Nat
deriving DecidableEq

structure RSAPrvKey where
  n : Nat
  e : Nat
  d : Nat
  p : Nat
  q : Nat
deriving DecidableEq

/-- The calls into OpenSSL, which get what they draw at random. A key that cannot be generated
leaves something else in the `RSA`; the other two fail with the text of `ERR_error_string`. -/
structure OpenSSL where
  generatePrimeEx : (bits random : Nat) → Nat
  generateKeyEx : (bits e random : Nat) → RSA → Except RSA RSAPrvKey
  size : (n : Nat) → Nat
  publicEncrypt : (random : Nat) → Bytes → RSA → Except String Bytes
  privateDecrypt : Bytes → RSA → Except String Bytes

/-- `RSA_set0_key` without a `d`. -/
def RSAPubKey.rsa (pubKey : RSAPubKey) : RSA := { n := some pubKey.n, e := some pubKey.e }

/-- `RSA_set0_key` and `RSA_set0_factors`. -/
def RSAPrvKey.rsa (prvKey : RSAPrvKey) : RSA where
  n := some prvKey.n
  e := some prvKey.e
  d := some prvKey.d
  p := some prvKey.p
  q := some prvKey.q

/-- `BN_copy` reads its source. -/
def BigNumber.copyFrom : Option Nat → Except Fault Nat
  | none => .error .nullPointer
  | some t => .ok t

open BigNumber

def RSAPubKey.ofRSA : Option RSA → Except Fault RSAPubKey
  | none => .error .nullPointer
  | some rsa => do
    let n ← copyFrom rsa.n
    let e ← copyFrom rsa.e
    return { n, e }

def RSAPrvKey.ofRSA : Option RSA → Except Fault RSAPrvKey
  | none => .error .nullPointer
  | some rsa => do
    let n ← copyFrom rsa.n
    let e ← copyFrom rsa.e
    let d ← copyFrom rsa.d
    let p ← copyFrom rsa.p
    let q ← copyFrom rsa.q
    return { n, e, d, p, q }

/-- `string::resize` -/
def resize (n : Nat) (s : Bytes) : Bytes := s.take n ++ List.replicate (n - s.length) 0

structure RSAKeyChain where
  keyPair : Option RSA := some {}
  bufferSize : UInt32 := 0
  ifPrvKey : Bool := false
  ifPubKey : Bool := false
deriving DecidableEq

namespace RSAKeyChain

/-- The new chain, and what is left of the old one. -/
def move (t : RSAKeyChain) : RSAKeyChain × RSAKeyChain := (t, { t with keyPair := none })

def ofPubKey (pubKey : RSAPubKey) : RSAKeyChain := { keyPair := some pubKey.rsa, ifPubKey := true }

def ofPrvKey (prvKey : RSAPrvKey) : RSAKeyChain := { keyPair := some prvKey.rsa, ifPrvKey := true }

def getPubKey (chain : RSAKeyChain) : Except Fault RSAPubKey := RSAPubKey.ofRSA chain.keyPair

def getPrvKey (chain : RSAKeyChain) : Except Fault RSAPrvKey := RSAPrvKey.ofRSA chain.keyPair

variable (lib : OpenSSL)

/-- If a key has been generated is not asked, and the test for a null pointer comes after its
use. -/
def generateKeyPair (chain : RSAKeyChain) (random₁ random₂ : Nat) : Except Fault RSAKeyChain :=
  match chain.keyPair with
  | none => .error .nullPointer
  | some rsa => do
    let e := lib.generatePrimeEx 3 random₁
    let keyPair :=
      match lib.generateKeyEx 2048 e random₂ rsa with
      | .ok key => key.rsa
      | .error left => left
    let n ← copyFrom keyPair.n
    return {
      keyPair := some keyPair
      bufferSize := .ofNat (lib.size n)
      ifPrvKey := true
      ifPubKey := true }

/-- The difference of the sizes is one of `uint32_t`, and what is behind the data is filled with
NULs. -/
def publicKeyEncrypt (chain : RSAKeyChain) (random : Nat) (data encryptedData : Bytes) :
    Except Fault Bytes := do
  if chain.ifPubKey = false then throw (.runtimeError "illegal call of publicKeyEncrypt")
  match chain.keyPair with
  | none => throw (.runtimeError "key pair is invalid")
  | some rsa =>
    if chain.bufferSize = 0 then throw .abort
    let room := (chain.bufferSize - 42).toNat
    if room ≤ data.length then throw (.runtimeError "string data is too long")
    let encryptedData := resize chain.bufferSize.toNat encryptedData
    match lib.publicEncrypt random (resize room data) rsa with
    | .error what => throw (.runtimeError what)
    | .ok cipher => do
      let cipher ← writeBytes encryptedData.length [] cipher
      return cipher ++ encryptedData.drop cipher.length

/-- The data ends at the first NUL; behind what has been decrypted nothing is written. -/
def privateKeyDecrypt (chain : RSAKeyChain) (encryptedData : Bytes) : Except Fault Bytes := do
  if chain.ifPrvKey = false then throw (.runtimeError "illegal call of privateKeyDecrypt")
  match chain.keyPair with
  | none => throw (.runtimeError "key pair is invalid")
  | some rsa =>
    if encryptedData.length ≠ chain.bufferSize.toNat then
      throw (.runtimeError "encrypt data's size is abnormal")
    match lib.privateDecrypt encryptedData rsa with
    | .error what => throw (.runtimeError what)
    | .ok message => do
      let pBuffer ← writeBytes chain.bufferSize.toNat [] message
      readCString pBuffer

end RSAKeyChain

end NetCpp
