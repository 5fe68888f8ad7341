import NetCpp.RawData

namespace NetCpp
open Library

/-- The struct has two numbers of 64 bits, which `rsa_modExp` takes as unsigned ones. -/
structure PublicKeyClass where
  modulus : UInt64
  exponent : UInt64
deriving DecidableEq, Repr

structure PrivateKeyClass where
  modulus : UInt64
  exponent : UInt64
deriving DecidableEq, Repr

namespace Rsa

/-- A `long long` is an integer here. For the primes of the list no value leaves its range. -/
def gcd (a b : Int) : Int :=
  if a = 0 then b else gcd (b.tmod a) a
termination_by a.natAbs
decreasing_by
  rw [Int.natAbs_tmod]
  exact Nat.mod_lt _ (by omega)

/-- The loop of `ExtEuclid`. -/
def extEuclidLoop (a gcd x y u v : Int) : Int :=
  if a = 0 then y
  else extEuclidLoop (gcd.tmod a) a u v (x - u * gcd.tdiv a) (y - v * gcd.tdiv a)
termination_by a.natAbs
decreasing_by
  rw [Int.natAbs_tmod]
  exact Nat.mod_lt _ (by omega)

def extEuclid (a b : Int) : Int := extEuclidLoop a b 0 1 1 0

/-- `while(d < 0) d = d+phi_max` -/
def makeNonNegative (d phiMax : Int) : Except Fault Int :=
  if 0 ≤ d then .ok d
  else if phiMax ≤ 0 then .error .diverges
  else makeNonNegative (d + phiMax) phiMax
termination_by (-d).toNat

/-- What `rsa_gen_keys` does with the two numbers it has drawn from the list, where `none`
stands for another round of its loop. -/
def genKeys (p q : Int) : Except Fault (Option (PublicKeyClass × PrivateKeyClass)) :=
  let e : Int := 2 ^ 8 + 1
  let max := p * q
  let phiMax := (p - 1) * (q - 1)
  if ¬(p ≠ 0 ∧ q ≠ 0) ∨ p = q ∨ gcd phiMax e ≠ 1 then .ok none
  else do
    let d ← makeNonNegative (extEuclid phiMax e) phiMax
    return some (⟨.ofInt max, .ofInt e⟩, ⟨.ofInt max, .ofInt d⟩)

/-- The lines of `primes.txt`: the primes from 10007 to 104729, all of them. -/
def PrimeSource (p : Nat) : Prop := p.Prime ∧ 10007 ≤ p ∧ p ≤ 104729

/-- `rsa_modExp`. The exponent only gets smaller, so that it can be a number of any size. -/
def modExp (b : UInt64) (e : Nat) (m : UInt64) : Except Fault UInt64 :=
  if m = 0 then .error (.exit 1)
  else
    let b := b % m
    if e = 0 then .ok 1
    else if e = 1 then .ok b
    else if e % 2 = 0 then do
      let r ← modExp (b * b % m) (e / 2) m
      return r % m
    else do
      let r ← modExp b (e - 1) m
      return b * r % m
termination_by e

/-- `rsa_encrypt`: eight bytes for each byte of the message. -/
def encrypt (message : Bytes) (messageSize : Nat) (pub : PublicKeyClass) : Except Fault Bytes := do
  let (message, _) ← readBytes messageSize message
  let encrypted ← message.mapM (fun c => modExp c.toUInt64 pub.exponent.toNat pub.modulus)
  return encrypted.flatMap word64

/-- The loop of `rsa_decrypt`, which keeps the low byte of each number. -/
def decryptWords (priv : PrivateKeyClass) : Nat → Bytes → Except Fault Bytes
  | 0, _ => .ok []
  | n + 1, message => do
    let (c, message) ← readWord64 message
    let temp ← modExp c priv.exponent.toNat priv.modulus
    let decrypted ← decryptWords priv n message
    return temp.toUInt8 :: decrypted

/-- The result for a size that 8 does not divide is `NULL`. -/
def decrypt (message : Bytes) (messageSize : Nat) (priv : PrivateKeyClass) : Except Fault Bytes :=
  if messageSize % 8 ≠ 0 then .ok [] else decryptWords priv (messageSize / 8) message

end Rsa

namespace Server

def decryptRSARawMsg (rdt : RawData) (pkc : PrivateKeyClass) : Except Fault RawData := do
  let data ← Rsa.decrypt rdt.data rdt.size pkc
  return { rdt with data, size := rdt.size / 8 }

def encryptRSARawMsg (rdt : RawData) (pkc : PublicKeyClass) : Except Fault RawData := do
  let data ← Rsa.encrypt rdt.data rdt.size pkc
  return { rdt with data, size := rdt.size * 8 }

end Server

end NetCpp
