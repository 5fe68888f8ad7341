import Mathlib.Data.Nat.Digits.Defs
import NetCpp.RsaKeyChain
import NetCpp.Library.Runs

namespace NetCpp.Proofs
open Library RSAKeyChain

/-- What the generator has made. -/
def Generated (lib : OpenSSL) (bytes : Nat) (key : RSAPrvKey) : Prop :=
  ∃ e random rsa, lib.generateKeyEx (8 * bytes) e random rsa = .ok key

/-- `RSA_size` is the size of the key in bytes. A message that OAEP has room for is encrypted with
the two public numbers, to as many bytes as the key has, and decrypted with the whole key. -/
structure Lawful (lib : OpenSSL) : Prop where
  size : ∀ {bytes key}, Generated lib bytes key → lib.size key.n = bytes
  encrypts : ∀ {bytes key rsa} random (message : Bytes), Generated lib bytes key →
    rsa.n = some key.n →
    rsa.e = some key.e → message.length + 42 ≤ bytes →
    ∃ cipher, lib.publicEncrypt random message rsa = .ok cipher ∧ cipher.length = bytes
  decrypts : ∀ {bytes key rsa random message cipher}, Generated lib bytes key → rsa.n = some key.n →
    rsa.e = some key.e → lib.publicEncrypt random message rsa = .ok cipher →
    lib.privateDecrypt cipher key.rsa = .ok message

def publicPart (key : RSAPrvKey) : RSAPubKey := { n := key.n, e := key.e }

/-- The chains that hold a generated key or its public part, and if they have been rebuilt. -/
inductive Made (lib : OpenSSL) (key : RSAPrvKey) : Bool → RSAKeyChain → Prop where
  | generated {chain made : RSAKeyChain} {rsa : RSA} {random₁ random₂ : Nat}
      (hrsa : chain.keyPair = some rsa)
    (hkey : lib.generateKeyEx 2048 (lib.generatePrimeEx 3 random₁) random₂ rsa = .ok key)
    (hmade : chain.generateKeyPair lib random₁ random₂ = .ok made) : Made lib key false made
  | ofPubKey {rebuilt : Bool} {chain : RSAKeyChain} {pubKey : RSAPubKey}
      (h : Made lib key rebuilt chain)
    (hget : chain.getPubKey = .ok pubKey) : Made lib key true (.ofPubKey pubKey)
  | ofPrvKey {rebuilt : Bool} {chain : RSAKeyChain} {prvKey : RSAPrvKey}
      (h : Made lib key rebuilt chain)
    (hget : chain.getPrvKey = .ok prvKey) : Made lib key true (.ofPrvKey prvKey)
  | move {rebuilt : Bool} {chain : RSAKeyChain} (h : Made lib key rebuilt chain) :
      Made lib key rebuilt chain.move.1

/-- What a chain of a key holds. Only `generateKeyPair` sets the size of the buffer. -/
structure Holds (key : RSAPrvKey) (rebuilt : Bool) (chain : RSAKeyChain) : Prop where
  keyPair : chain.keyPair = some key.rsa ∨ chain.keyPair = some (publicPart key).rsa ∧
    chain.ifPrvKey = false
  bufferSize : chain.bufferSize = if rebuilt then 0 else 256

theorem Holds.public {key : RSAPrvKey} {rebuilt : Bool} {chain : RSAKeyChain}
    (h : Holds key rebuilt chain) :
    ∃ rsa, chain.keyPair = some rsa ∧ rsa.n = some key.n ∧ rsa.e = some key.e := by
  rcases h.keyPair with hpair | ⟨hpair, -⟩
  · exact ⟨_, hpair, rfl, rfl⟩
  · exact ⟨_, hpair, rfl, rfl⟩

theorem Holds.private {key : RSAPrvKey} {rebuilt : Bool} {chain : RSAKeyChain}
    (h : Holds key rebuilt chain) (hprv : chain.ifPrvKey = true) :
    chain.keyPair = some key.rsa := by
  rcases h.keyPair with hpair | ⟨-, hnot⟩
  · exact hpair
  · rw [hprv] at hnot
    cases hnot

theorem Made.exists_generated {lib : OpenSSL} {key : RSAPrvKey} {rebuilt : Bool}
    {chain : RSAKeyChain} (h : Made lib key rebuilt chain) : Generated lib 256 key := by
  induction h with
  | generated hrsa hkey hmade => exact ⟨_, _, _, hkey⟩
  | ofPubKey h hget ih => exact ih
  | ofPrvKey h hget ih => exact ih
  | move h ih => exact ih

/-- The induction is on how the chain has been made. -/
theorem Made.holds {lib : OpenSSL} (hlib : Lawful lib) {key : RSAPrvKey} {rebuilt : Bool}
    {chain : RSAKeyChain} (h : Made lib key rebuilt chain) : Holds key rebuilt chain := by
  induction h with
  | generated hrsa hkey hmade =>
    simp only [generateKeyPair, hrsa, hkey] at hmade
    cases hmade
    have hsize : lib.size key.n = 256 := hlib.size ⟨_, _, _, hkey⟩
    exact ⟨.inl rfl, by rw [hsize]; rfl⟩
  | ofPubKey h hget ih =>
    obtain ⟨rsa, hpair, hn, he⟩ := ih.public
    simp only [getPubKey, RSAPubKey.ofRSA, hpair, hn, he] at hget
    cases hget
    exact ⟨.inr ⟨rfl, rfl⟩, rfl⟩
  | ofPrvKey h hget ih =>
    rcases ih.keyPair with hpair | ⟨hpair, -⟩
    · rw [getPrvKey, hpair] at hget
      cases hget
      exact ⟨.inl rfl, rfl⟩
    · rw [getPrvKey, hpair] at hget
      cases hget
  | move h ih => exact ih

theorem length_resize (n : Nat) (s : Bytes) : (resize n s).length = n := by
  simp [resize]
  omega

/-- The data as it goes to OpenSSL. -/
def padded (data : Bytes) : Bytes := resize 214 data

theorem padded_eq {data : Bytes} (hshort : data.length < 214) :
    padded data = data ++ 0 :: List.replicate (213 - data.length) 0 := by
  rw [padded, resize, List.take_of_length_le (by omega), ← List.replicate_succ]
  congr 2
  omega

theorem readCString_padded {data : Bytes} (hshort : data.length < 214) :
    readCString (padded data) = .ok (cStr data) := by
  have hcut : cStr (padded data) = cStr data := by
    rw [padded_eq hshort, cStr, List.takeWhile_append]
    split
    · rename_i hall
      have hself : data.takeWhile (· ≠ 0) = data := (List.takeWhile_prefix _).eq_of_length hall
      rw [List.takeWhile_cons_of_neg (by simp), List.append_nil, cStr, hself]
    · rfl
  rw [readCString, if_pos (by rw [padded_eq hshort]; simp)]
  exact congrArg Except.ok hcut

section
variable {lib : OpenSSL} (hlib : Lawful lib) {key : RSAPrvKey} {pub prv : RSAKeyChain}
  {data : Bytes}
include hlib

theorem publicKeyEncrypt_rebuilt (hpub : Made lib key true pub) (hif : pub.ifPubKey = true)
    (random : Nat) (old : Bytes) : pub.publicKeyEncrypt lib random data old = .error .abort := by
  have hholds := hpub.holds hlib
  obtain ⟨rsa, hpair, -, -⟩ := hholds.public
  simp only [publicKeyEncrypt, hif, hpair, hholds.bufferSize]
  rfl

theorem publicKeyEncrypt_generated (hpub : Made lib key false pub) (hif : pub.ifPubKey = true)
    (hshort : data.length < 214) (random : Nat) (old : Bytes) :
    ∃ cipher, pub.publicKeyEncrypt lib random data old = .ok cipher ∧ cipher.length = 256 ∧
      lib.privateDecrypt cipher key.rsa = .ok (padded data) := by
  have hholds := hpub.holds hlib
  have hkey := hpub.exists_generated
  obtain ⟨rsa, hpair, hn, he⟩ := hholds.public
  obtain ⟨cipher, hcipher, hlen⟩ :=
    hlib.encrypts random (padded data) hkey hn he (by rw [padded, length_resize])
  refine ⟨cipher, ?_, hlen, hlib.decrypts hkey hn he hcipher⟩
  have hlate : ¬214 ≤ data.length := by omega
  have hwrite : writeBytes (resize 256 old).length [] cipher = .ok cipher := by
    rw [writeBytes, length_resize, List.nil_append, if_neg (by omega)]
  have hrest : (resize 256 old).drop cipher.length = [] :=
    List.drop_eq_nil_of_le (by rw [length_resize, hlen])
  rw [padded] at hcipher
  simp [publicKeyEncrypt, hif, hpair, hholds.bufferSize, hlate, hcipher, hwrite, hrest, bind,
    Except.bind, pure, Except.pure]

theorem privateKeyDecrypt_rebuilt (hprv : Made lib key true prv) (hif : prv.ifPrvKey = true)
    {cipher : Bytes} (hlen : cipher.length = 256) :
    prv.privateKeyDecrypt lib cipher =
      .error (.runtimeError "encrypt data's size is abnormal") := by
  have hholds := hprv.holds hlib
  simp only [privateKeyDecrypt, hif, hholds.private hif, hholds.bufferSize, hlen]
  rfl

theorem privateKeyDecrypt_generated (hprv : Made lib key false prv) (hif : prv.ifPrvKey = true)
    (hshort : data.length < 214) {cipher : Bytes} (hlen : cipher.length = 256)
    (hcipher : lib.privateDecrypt cipher key.rsa = .ok (padded data)) :
    prv.privateKeyDecrypt lib cipher = .ok (cStr data) := by
  have hholds := hprv.holds hlib
  have hwrite : writeBytes 256 [] (padded data) = .ok (padded data) := by
    rw [writeBytes, List.nil_append, padded, length_resize]
    rfl
  simp [privateKeyDecrypt, hif, hholds.private hif, hholds.bufferSize, hlen, hcipher, hwrite,
    readCString_padded hshort, bind, Except.bind]

/-- The chain that encrypts and the one that decrypts must be what the generator left, and the data
must have no NUL. -/
theorem privateKeyDecrypt_iff {rebuiltPub rebuiltPrv : Bool} (hpub : Made lib key rebuiltPub pub)
    (hprv : Made lib key rebuiltPrv prv) (hifPub : pub.ifPubKey = true)
    (hifPrv : prv.ifPrvKey = true) (hshort : data.length < lib.size key.n - 42) (random : Nat)
    (old : Bytes) : (∃ cipher, pub.publicKeyEncrypt lib random data old = .ok cipher ∧
      prv.privateKeyDecrypt lib cipher = .ok data) ↔
    rebuiltPub = false ∧ rebuiltPrv = false ∧ 0 ∉ data := by
  have hsize : lib.size key.n = 256 := hlib.size hpub.exists_generated
  have hshort : data.length < 214 := by omega
  constructor
  · rintro ⟨cipher, hencrypt, hdecrypt⟩
    cases rebuiltPub with
    | true =>
      rw [publicKeyEncrypt_rebuilt hlib hpub hifPub] at hencrypt
      cases hencrypt
    | false =>
      obtain ⟨made, hmade, hlen, hcipher⟩ :=
        publicKeyEncrypt_generated hlib hpub hifPub hshort random old
      obtain rfl : made = cipher := Except.ok.inj (hmade.symm.trans hencrypt)
      cases rebuiltPrv with
      | true =>
        rw [privateKeyDecrypt_rebuilt hlib hprv hifPrv hlen] at hdecrypt
        cases hdecrypt
      | false =>
        rw [privateKeyDecrypt_generated hlib hprv hifPrv hshort hlen hcipher] at hdecrypt
        exact ⟨rfl, rfl, Except.ok.inj hdecrypt ▸ not_mem_cStr data⟩
  · rintro ⟨rfl, rfl, hnul⟩
    obtain ⟨cipher, hmade, hlen, hcipher⟩ :=
      publicKeyEncrypt_generated hlib hpub hifPub hshort random old
    refine ⟨cipher, hmade, ?_⟩
    rw [privateKeyDecrypt_generated hlib hprv hifPrv hshort hlen hcipher, cStr_eq_self hnul]

end

/-- A key of 2048 bits, and its two factors. -/
def sampleFactor₁ : Nat := Nat.ofDigits 256 (List.map UInt8.toNat (List.reverse
  [236, 46, 157, 7, 110, 2, 119, 121, 94, 20, 84, 253, 141, 206, 14, 15, 241, 129, 103, 4, 74, 74,
   103, 176, 193, 31, 226, 19, 195, 103, 125, 162, 82, 1, 210, 33, 18, 208, 70, 183, 19, 156, 48,
   168, 111, 194, 48, 29, 231, 109, 38, 9, 188, 131, 189, 149, 125, 134, 7, 37, 176, 138, 203, 220,
   14, 58, 2, 41, 17, 48, 183, 55, 31, 6, 208, 110, 165, 243, 122, 69, 145, 61, 171, 28, 13, 196,
   200, 213, 201, 161, 91, 167, 186, 60, 137, 132, 192, 48, 99, 26, 78, 200, 130, 152, 111, 192, 22,
   70, 233, 32, 105, 61, 237, 122, 113, 136, 158, 184, 219, 212, 128, 8, 171, 118, 1, 15, 87, 55]))

def sampleFactor₂ : Nat := Nat.ofDigits 256 (List.map UInt8.toNat (List.reverse
  [209, 209, 107, 176, 133, 248, 121, 94, 11, 113, 230, 51, 235, 104, 160, 220, 46, 29, 123, 132,
   179, 36, 140, 184, 37, 110, 172, 117, 175, 160, 161, 17, 242, 173, 36, 27, 236, 137, 209, 92,
   233, 94, 64, 71, 61, 200, 249, 13, 177, 1, 246, 2, 136, 200, 222, 48, 82, 199, 0, 171, 236, 12,
   17, 37, 245, 21, 229, 53, 86, 102, 220, 94, 107, 44, 20, 163, 95, 236, 190, 242, 28, 43, 73, 192,
   169, 36, 187, 163, 199, 189, 195, 218, 130, 99, 37, 249, 188, 203, 70, 37, 109, 66, 119, 101, 67,
   8, 137, 86, 12, 203, 124, 196, 49, 186, 86, 15, 31, 184, 208, 216, 0, 22, 12, 155, 70, 179, 179,
   109]))

def sampleRsaKey : RSAPrvKey where
  n := sampleFactor₁ * sampleFactor₂
  e := 7
  d := (4 * ((sampleFactor₁ - 1) * (sampleFactor₂ - 1)) + 1) / 7
  p := sampleFactor₁
  q := sampleFactor₂

/-- The two exponents undo each other. -/
example : 7 * sampleRsaKey.d % ((sampleFactor₁ - 1) * (sampleFactor₂ - 1)) = 1 := by decide +kernel

def shortData : Bytes := ascii ['h', 'i']

def nulData : Bytes := ascii ['a', '\x00', 'b']

/-- What `RSA_public_encrypt` makes of the padded data with OAEP under the key, for one seed. -/
def shortCipher : Bytes :=
  [167, 31, 129, 41, 246, 251, 202, 81, 254, 220, 130, 165, 124, 39, 131, 150, 186, 245, 177, 196,
   135, 176, 29, 23, 135, 213, 16, 178, 100, 82, 118, 50, 15, 190, 189, 174, 163, 112, 30, 197, 25,
   237, 152, 229, 147, 41, 247, 151, 237, 160, 153, 45, 72, 124, 48, 74, 141, 12, 104, 108, 73, 251,
   88, 143, 158, 228, 150, 28, 21, 13, 67, 241, 216, 139, 28, 171, 90, 23, 4, 38, 61, 105, 84, 36,
   94, 142, 184, 66, 45, 8, 214, 31, 92, 15, 211, 109, 203, 214, 59, 206, 70, 13, 44, 228, 7, 6,
   107, 180, 15, 61, 114, 178, 66, 93, 153, 243, 140, 98, 80, 144, 170, 211, 162, 249, 161, 67, 114,
   45, 169, 246, 251, 132, 176, 126, 165, 9, 128, 68, 61, 166, 231, 163, 220, 250, 78, 75, 222, 21,
   145, 32, 177, 156, 243, 213, 41, 113, 186, 46, 6, 156, 28, 103, 148, 18, 90, 82, 20, 159, 202, 8,
   179, 59, 92, 55, 40, 246, 222, 21, 193, 14, 36, 193, 175, 150, 138, 244, 253, 16, 192, 237, 120,
   82, 125, 249, 136, 37, 113, 175, 127, 164, 214, 159, 205, 245, 226, 220, 201, 206, 216, 142, 199,
   242, 46, 177, 40, 108, 106, 34, 128, 166, 165, 13, 17, 34, 249, 13, 129, 158, 15, 135, 232, 250,
   2, 195, 101, 43, 18, 114, 34, 55, 63, 116, 168, 192, 20, 251, 156, 150, 247, 40, 121, 130, 107,
   118, 131, 252]

def nulCipher : Bytes :=
  [87, 94, 254, 36, 123, 113, 33, 169, 121, 94, 228, 197, 32, 43, 4, 69, 62, 6, 137, 231, 52, 137,
   155, 14, 121, 218, 166, 181, 25, 8, 46, 18, 160, 105, 167, 24, 29, 64, 151, 95, 212, 132, 110,
   249, 144, 113, 120, 17, 195, 62, 116, 242, 96, 216, 233, 131, 207, 105, 135, 164, 236, 101, 168,
   91, 28, 149, 73, 55, 182, 51, 107, 163, 57, 166, 116, 84, 27, 199, 217, 150, 195, 35, 62, 209,
   217, 176, 114, 70, 160, 114, 8, 241, 62, 153, 144, 3, 19, 71, 190, 21, 31, 227, 227, 174, 15,
   165, 131, 15, 40, 174, 216, 15, 131, 222, 46, 180, 104, 51, 179, 15, 13, 144, 167, 190, 4, 115,
   61, 244, 179, 155, 140, 237, 74, 138, 47, 101, 61, 109, 11, 163, 110, 124, 246, 173, 62, 71, 115,
   55, 37, 97, 185, 239, 201, 27, 151, 90, 60, 68, 72, 49, 49, 211, 190, 11, 70, 42, 11, 221, 188,
   51, 39, 183, 186, 162, 235, 12, 107, 192, 41, 51, 198, 152, 250, 52, 184, 69, 251, 171, 109, 230,
   104, 144, 159, 234, 12, 157, 142, 68, 31, 27, 1, 77, 194, 26, 68, 249, 58, 7, 91, 96, 103, 201,
   182, 3, 33, 61, 26, 247, 36, 188, 178, 191, 238, 199, 68, 137, 177, 41, 72, 65, 208, 252, 98,
   183, 113, 93, 196, 193, 225, 191, 26, 61, 107, 73, 15, 79, 55, 223, 36, 106, 245, 39, 149, 1, 7,
   6]

/-- Calls with the sizes and the errors of OpenSSL. The ciphers of the two messages are real, others
hide nothing. -/
def sampleLib : OpenSSL where
  generatePrimeEx _ _ := 7
  generateKeyEx bits e _ rsa := if bits = 2048 ∧ e = 7 then .ok sampleRsaKey else .error rsa
  size n := n.log2 / 8 + 1
  publicEncrypt _ message rsa :=
    match rsa.n with
    | none => .error "value missing"
    | some n =>
      if n.log2 / 8 + 1 < message.length + 42 then .error "data too large for key size"
      else if message = padded shortData then .ok shortCipher
      else if message = padded nulData then .ok nulCipher
      else .ok (message ++ 1 :: List.replicate (n.log2 / 8 - message.length) 0)
  privateDecrypt cipher _ :=
    if cipher = shortCipher then .ok (padded shortData)
    else if cipher = nulCipher then .ok (padded nulData)
    else .ok (cipher.reverse.dropWhile (· = 0)).tail.reverse

theorem dropWhile_marked (k : Nat) (message : Bytes) :
    ((message ++ 1 :: List.replicate k 0).reverse.dropWhile (· = 0)).tail.reverse = message := by
  rw [List.reverse_append, List.reverse_cons, List.reverse_replicate, List.append_assoc,
    List.dropWhile_append_of_pos (by simp)]
  simp

/-- What is marked ends with its mark or with a NUL. -/
theorem marked_ne {cipher : Bytes} (hlast : ∀ b ∈ cipher.getLast?, 1 < b) (k : Nat)
    (message : Bytes) : message ++ 1 :: List.replicate k 0 ≠ cipher := by
  rintro rfl
  cases k with
  | zero => exact absurd (hlast 1 (by simp)) (by decide)
  | succ k =>
    rw [List.replicate_succ', ← List.cons_append, ← List.append_assoc,
      List.getLast?_concat] at hlast
    exact absurd (hlast 0 rfl) (by decide)

theorem sampleLib_key {bytes : Nat} {key : RSAPrvKey} (h : Generated sampleLib bytes key) :
    bytes = 256 ∧ key = sampleRsaKey := by
  obtain ⟨e, random, rsa, hkey⟩ := h
  by_cases hbits : 8 * bytes = 2048 ∧ e = 7
  · simp only [sampleLib, if_pos hbits, Except.ok.injEq] at hkey
    exact ⟨by omega, hkey.symm⟩
  · simp [sampleLib, if_neg hbits] at hkey

theorem sampleLib_size : sampleRsaKey.n.log2 / 8 + 1 = 256 := by decide +kernel

theorem sampleLib_decrypts (message : Bytes) {rsa : RSA} {random : Nat} {cipher : Bytes}
    (hn : rsa.n = some sampleRsaKey.n)
    (h : sampleLib.publicEncrypt random message rsa = .ok cipher) :
    sampleLib.privateDecrypt cipher sampleRsaKey.rsa = .ok message := by
  simp only [sampleLib, hn, sampleLib_size] at h ⊢
  split at h
  · cases h
  split at h
  · rename_i hshort
    obtain rfl := Except.ok.inj h
    rw [if_pos rfl, hshort]
  split at h
  · rename_i hnul
    obtain rfl := Except.ok.inj h
    rw [if_neg (by decide +kernel), if_pos rfl, hnul]
  · obtain rfl := Except.ok.inj h
    rw [if_neg (marked_ne (by decide +kernel) _ message),
      if_neg (marked_ne (by decide +kernel) _ message), dropWhile_marked]

theorem sampleLib_lawful : Lawful sampleLib where
  size := by
    intro bytes key hkey
    obtain ⟨rfl, rfl⟩ := sampleLib_key hkey
    exact sampleLib_size
  encrypts := by
    intro bytes key rsa random message hkey hn he hroom
    obtain ⟨rfl, rfl⟩ := sampleLib_key hkey
    simp only [sampleLib, hn, sampleLib_size]
    rw [if_neg (by omega)]
    split
    · exact ⟨_, rfl, by decide +kernel⟩
    split
    · exact ⟨_, rfl, by decide +kernel⟩
    · have hsize := sampleLib_size
      exact ⟨_, rfl, by simp; omega⟩
  decrypts := by
    intro bytes key rsa random message cipher hkey hn he hcipher
    obtain ⟨rfl, rfl⟩ := sampleLib_key hkey
    exact sampleLib_decrypts message hn hcipher

def sampleChain : RSAKeyChain where
  keyPair := some sampleRsaKey.rsa
  bufferSize := 256
  ifPrvKey := true
  ifPubKey := true

/-- What is generated with the random numbers 0 and 0. -/
theorem sampleChain_made : Made sampleLib sampleRsaKey false sampleChain :=
  @Made.generated sampleLib sampleRsaKey {} sampleChain {} 0 0 rfl (by decide +kernel)
    (by decide +kernel)

theorem sampleChain_rebuilt :
    Made sampleLib sampleRsaKey true (.ofPubKey (publicPart sampleRsaKey)) :=
  .ofPubKey sampleChain_made rfl

/-- A chain that has been rebuilt fails its assertion, and the data is cut at its NUL. -/
theorem privateKeyDecrypt_cuts :
    Lawful sampleLib ∧
    (Made sampleLib sampleRsaKey true (.ofPubKey (publicPart sampleRsaKey)) ∧
      (RSAKeyChain.ofPubKey (publicPart sampleRsaKey)).publicKeyEncrypt sampleLib 0 nulData [] =
        .error .abort) ∧
    Made sampleLib sampleRsaKey false sampleChain ∧
    ∃ cipher, sampleChain.publicKeyEncrypt sampleLib 0 nulData [] = .ok cipher ∧
      sampleChain.privateKeyDecrypt sampleLib cipher = .ok (ascii ['a']) := by
  refine ⟨sampleLib_lawful, ⟨sampleChain_rebuilt, ?_⟩, sampleChain_made, ?_⟩
  · exact publicKeyEncrypt_rebuilt sampleLib_lawful sampleChain_rebuilt rfl 0 []
  · have hshort : nulData.length < 214 := by decide
    obtain ⟨cipher, hmade, hlen, hcipher⟩ :=
      publicKeyEncrypt_generated sampleLib_lawful sampleChain_made rfl hshort 0 []
    refine ⟨cipher, hmade, ?_⟩
    rw [privateKeyDecrypt_generated sampleLib_lawful sampleChain_made rfl hshort hlen hcipher]
    rfl

theorem privateKeyDecrypt_sample :
    ∃ cipher, sampleChain.publicKeyEncrypt sampleLib 0 shortData [] = .ok cipher ∧
      sampleChain.privateKeyDecrypt sampleLib cipher = .ok shortData :=
  (privateKeyDecrypt_iff sampleLib_lawful sampleChain_made sampleChain_made rfl rfl
    (by decide +kernel) 0 []).mpr
    ⟨rfl, rfl, by decide⟩

end NetCpp.Proofs
