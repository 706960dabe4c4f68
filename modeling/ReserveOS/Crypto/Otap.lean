import ReserveOS.Crypto.Edwards25519
import ReserveOS.General.Base64

/-!
# One-time addresses

`otap.go` and `memo.go` of the package `otap`, and `schnorr25519.go`. A recipient publishes two
points. A sender derives from them a one-time key `P` and an ephemeral key `R`; the recipient finds
out with the scan key that the output is theirs, and spends it with a Schnorr signature under `P`.

`CryptoLib` holds what the packages call: the group, hash functions, HKDF and the AEAD, of which
only that it opens what it has sealed is assumed. What is drawn at random is an argument, `none`
when the source of randomness fails. An error that comes from a library is named after the call.
-/

namespace ReserveOS

/-- The libraries behind `otap` and `schnorr`. -/
structure CryptoLib where
  curve : Edwards25519
  /-- `sha256.Sum256` -/
  sha256 : List UInt8 → Hash
  /-- `sha512.New`, written to and summed -/
  sha512 : List UInt8 → Vector UInt8 64
  /-- the first 32 bytes of `hkdf.New(sha256.New, secret, salt, info)` -/
  hkdf : List UInt8 → List UInt8 → List UInt8 → Vector UInt8 32
  /-- `Seal` of `chacha20poly1305`: key, nonce, plaintext and associated data -/
  aeadSeal : Vector UInt8 32 → List UInt8 → List UInt8 → List UInt8 → List UInt8
  /-- `Open`: key, nonce, ciphertext and associated data -/
  aeadOpen : Vector UInt8 32 → List UInt8 → List UInt8 → List UInt8 → Option (List UInt8)
  aeadOpen_aeadSeal : ∀ key nonce plaintext aad, nonce.length = 12 →
    aeadOpen key nonce (aeadSeal key nonce plaintext aad) aad = some plaintext

/-- The result of a library call, with the error named after the call. -/
def orError {α : Type} (call : String) : Option α → Except String α
  | none => .error call
  | some a => .ok a

/-- `randomScalar`, in both packages. -/
def randomScalar (buf : Option (Vector UInt8 64)) : Except String Scalar := do
  let buf ← orError "rand.Read" buf
  orError "SetUniformBytes" (Scalar.setUniformBytes buf.toList)

/-- `decodeScalar`. -/
def decodeScalar (hex32 : String) : Except String Scalar := do
  let b ← orError "hex.DecodeString" (hexDecode hex32)
  if b.length ≠ 32 then .error "scalar must be 32 bytes"
  else orError "SetCanonicalBytes" (Scalar.setCanonicalBytes b)

/-- `RegistryKeys`. -/
structure RegistryKeys where
  scanPub : String
  spendPub : String

/-- `PrivateKeys`. -/
structure PrivateKeys where
  scanPriv : String
  spendPriv : String

/-- `OTAPOutput`. -/
structure OTAPOutput where
  P : String
  R : String
  tag : String

/-- `OneTimePriv`. -/
def oneTimePriv (vPrivHex : String) (k : Scalar) : Except String Scalar := do
  let v ← decodeScalar vPrivHex
  return v + k

namespace CryptoLib

variable (lib : CryptoLib)

/-- `decodePoint`. -/
def decodePoint (hexComp : String) : Except String lib.curve.Point := do
  let b ← orError "hex.DecodeString" (hexDecode hexComp)
  if b.length ≠ 32 then .error "point must be 32 bytes"
  else orError "SetBytes" (lib.curve.setBytes b)

/-- What `hToScalar` hashes. -/
def sharedInput (K : List UInt8) (chainID context : String) : List UInt8 :=
  stringBytes "ReserveOS:OTAP:v1" ++ stringBytes "|" ++ stringBytes chainID ++ stringBytes "|" ++
    stringBytes context ++ stringBytes "|" ++ K

/-- The digest as a scalar; `hToScalar` and `challenge` end with this. -/
def digestScalar (err : String) (msg : List UInt8) : Except String Scalar :=
  let sum := (lib.sha512 msg).toList
  if sum.length ≠ 64 then .error err else orError "SetUniformBytes" (Scalar.setUniformBytes sum)

/-- `hToScalar`. -/
def hToScalar (K : List UInt8) (chainID context : String) : Except String Scalar :=
  lib.digestScalar "bad sha512 length" (sharedInput K chainID context)

/-- `tag16`. -/
def tag16 (K : List UInt8) : String :=
  hexEncode ((lib.sha256 (K ++ stringBytes "tag")).bytes.toList.take 2)

/-- `GenerateKeys`. -/
def generateKeys (bufS bufV : Option (Vector UInt8 64)) :
    Except String (RegistryKeys × PrivateKeys) := do
  let s ← randomScalar bufS
  let v ← randomScalar bufV
  return (⟨hexEncode (lib.curve.bytes (lib.curve.scalarBaseMult s)),
    hexEncode (lib.curve.bytes (lib.curve.scalarBaseMult v))⟩,
    ⟨hexEncode s.bytes, hexEncode v.bytes⟩)

/-- `BuildOutput`, with the bytes of the shared secret. -/
def buildOutput (chainID context : String) (reg : RegistryKeys) (bufR : Option (Vector UInt8 64)) :
    Except String (OTAPOutput × List UInt8) := do
  let S ← lib.decodePoint reg.scanPub
  let V ← lib.decodePoint reg.spendPub
  let r ← randomScalar bufR
  let R := lib.curve.scalarBaseMult r
  let K := lib.curve.bytes (lib.curve.scalarMult r S)
  let k ← lib.hToScalar K chainID context
  let P := V + lib.curve.scalarBaseMult k
  return (⟨hexEncode (lib.curve.bytes P), hexEncode (lib.curve.bytes R), lib.tag16 K⟩, K)

/-- What `Detect` and `DetectWithK` have in common: the shared secret and its scalar, if the output
is for these keys. -/
def detectSecret (chainID context : String) (out : OTAPOutput) (sPrivHex VpubHex : String) :
    Except String (Option (List UInt8 × Scalar)) := do
  let s ← decodeScalar sPrivHex
  let R ← lib.decodePoint out.R
  let V ← lib.decodePoint VpubHex
  let P ← lib.decodePoint out.P
  let K := lib.curve.bytes (lib.curve.scalarMult s R)
  let k ← lib.hToScalar K chainID context
  if V + lib.curve.scalarBaseMult k ≠ P then return none else return some (K, k)

/-- `Detect`. -/
def detect (chainID context : String) (out : OTAPOutput) (sPrivHex VpubHex : String) :
    Except String (Bool × List UInt8) :=
  (lib.detectSecret chainID context out sPrivHex VpubHex).map fun
    | none => (false, [])
    | some (K, _) => (true, K)

/-- `DetectWithK`. -/
def detectWithK (chainID context : String) (out : OTAPOutput) (sPrivHex VpubHex : String) :
    Except String (Bool × List UInt8 × Option Scalar) :=
  (lib.detectSecret chainID context out sPrivHex VpubHex).map fun
    | none => (false, [], none)
    | some (K, k) => (true, K, some k)

/-! ### Memos -/

/-- `deriveMemoKey`. -/
def deriveMemoKey (K : List UInt8) : Vector UInt8 32 :=
  lib.hkdf (lib.sha256 K).bytes.toList [] (stringBytes "ReserveOS:OTAP:memo")

/-- `EncryptMemo`. -/
def encryptMemo (K plaintext aad : List UInt8) (nonce : Option (Vector UInt8 12)) :
    Except String String := do
  let nonce ← orError "rand.Reader" nonce
  let ct := lib.aeadSeal (lib.deriveMemoKey K) nonce.toList plaintext aad
  return String.ofList (Base64.encode (nonce.toList ++ ct))

/-- `DecryptMemo`. -/
def decryptMemo (K : List UInt8) (enc : String) (aad : List UInt8) :
    Except String (List UInt8) := do
  let b ← orError "base64.DecodeString" (Base64.decode enc.toList)
  if b.length < 12 then .error "enc_memo too short"
  else orError "Open" (lib.aeadOpen (lib.deriveMemoKey K) (b.take 12) (b.drop 12) aad)

/-! ### Schnorr signatures -/

/-- `challenge`. -/
def challenge (R P : lib.curve.Point) (msg : List UInt8) : Except String Scalar :=
  lib.digestScalar "bad hash length" (stringBytes "ReserveOS:Schnorr25519:v1|" ++
    lib.curve.bytes R ++ lib.curve.bytes P ++ msg)

/-- `Sign`. -/
def sign (x : Scalar) (P : lib.curve.Point) (msg : List UInt8) (buf : Option (Vector UInt8 64)) :
    Except String String := do
  let k ← randomScalar buf
  let R := lib.curve.scalarBaseMult k
  let e ← lib.challenge R P msg
  return hexEncode (lib.curve.bytes R ++ (k + e * x : Scalar).bytes)

/-- `Verify`. -/
def verify (P : lib.curve.Point) (msg : List UInt8) (sigHex : String) : Bool :=
  match hexDecode sigHex with
  | none => false
  | some sig =>
      if sig.length ≠ 64 then false
      else
        match lib.curve.setBytes (sig.take 32), Scalar.setCanonicalBytes (sig.drop 32) with
        | some R, some s =>
            match lib.challenge R P msg with
            | .error _ => false
            | .ok e => lib.curve.scalarBaseMult s = R + lib.curve.scalarMult e P
        | _, _ => false

end CryptoLib

end ReserveOS
