import ReserveOS.Chain.Types

/-!
# Canonical byte encodings

The little-endian, length-prefixed encodings of `core/chain/codec.go` and `core/chain/block.go`:
`canonicalTxBytes` is what a transaction signature covers, and `bytesForHash` is what the header
hash covers. `hexDecode` is `encoding/hex`'s `DecodeString`.

The digest itself is a parameter `sha256` of the functions below.
-/

namespace ReserveOS

/-- `[]byte(s)`. -/
def stringBytes (s : String) : List UInt8 := s.toUTF8.data.toList

theorem stringBytes_append (s t : String) :
    stringBytes (s ++ t) = stringBytes s ++ stringBytes t := by
  simp [stringBytes]

/-- The bytes of an ASCII string are its characters. -/
theorem stringBytes_ofList {cs : List Char} (h : ∀ c ∈ cs, c.toNat < 128) :
    stringBytes (String.ofList cs) = cs.map fun c => UInt8.ofNat c.toNat := by
  have hflat : stringBytes (String.ofList cs) = cs.flatMap String.utf8EncodeChar := by
    simp [stringBytes, List.utf8Encode]
  have hone : ∀ c ∈ cs, String.utf8EncodeChar c = [UInt8.ofNat c.toNat] := fun c hc =>
    if_pos (Nat.le_of_lt_succ (h c hc))
  rw [hflat, List.map_eq_flatMap]
  simp only [List.flatMap, List.map_congr_left hone]

/-- `putU32`: four little-endian bytes. -/
def putU32 (v : UInt32) : List UInt8 :=
  (List.range 4).map fun i => (v >>> (8 * UInt32.ofNat i)).toUInt8

/-- `putU64`: eight little-endian bytes. -/
def putU64 (v : UInt64) : List UInt8 :=
  (List.range 8).map fun i => (v >>> (8 * UInt64.ofNat i)).toUInt8

/-- `putI64`: the two's complement of a signed value, as `putU64` writes it. -/
def putI64 (v : Int64) : List UInt8 := putU64 v.toUInt64

/-- `putString`: the length as a `uint32`, then the bytes. -/
def putString (s : String) : List UInt8 :=
  putU32 (UInt32.ofNat (stringBytes s).length) ++ stringBytes s

namespace TxOut

/-- One output inside `CanonicalTxBytes`. -/
def canonicalBytes (o : TxOut) : List UInt8 :=
  putI64 o.amount ++ putString o.asset ++ putString o.address ++ putString o.P ++ putString o.R ++
    putString o.tag ++ putString o.encMemo ++ putU32 o.policyBits

end TxOut

namespace OTAPClaim

/-- The claim inside `CanonicalTxBytes`; its signature is written only when `includeSigs` is. -/
def canonicalBytes (c : OTAPClaim) (includeSigs : Bool) : List UInt8 :=
  putString c.P ++ putString c.R ++ putString c.tag ++ putString c.toId ++ putI64 c.amount ++
    putString (if includeSigs then c.claimSigHex else "")

end OTAPClaim

namespace Tx

/-- `CanonicalTxBytes`. -/
def canonicalTxBytes (tx : Tx) (includeSigs : Bool) : List UInt8 :=
  stringBytes "RSVTX1" ++ putU32 tx.version ++ putString tx.type ++ putString tx.fromId ++
    putString tx.pubKey ++ putU64 tx.nonce ++ putI64 tx.fee ++ putString tx.gasAsset ++
    putU32 (UInt32.ofNat tx.outputs.length) ++ tx.outputs.flatMap TxOut.canonicalBytes ++
    (match tx.otapClaim with
      | none => [0]
      | some c => 1 :: c.canonicalBytes includeSigs) ++
    putString (if includeSigs then tx.sigHex else "")

/-- `SigningBytes`: the canonical bytes without signatures. -/
def signingBytes (tx : Tx) : List UInt8 := tx.canonicalTxBytes false

end Tx

namespace BlockHeader

/-- `BytesForHash`. -/
def bytesForHash (h : BlockHeader) : List UInt8 :=
  putU32 h.version ++ putString h.chainID ++ putU64 h.height ++ putI64 h.timeUnix ++
    h.prevHash.bytes.toList ++ h.stateRoot.bytes.toList ++ h.txRoot.bytes.toList ++
    putU32 h.bits ++ putU64 h.nonce

end BlockHeader

section Digest

variable (sha256 : List UInt8 → Hash)

/-- `sha256d`: SHA-256 applied twice. -/
def sha256d (b : List UInt8) : Hash := sha256 (sha256 b).bytes.toList

/-- `BlockHeader.Hash`. -/
def BlockHeader.hash (h : BlockHeader) : Hash := sha256d sha256 h.bytesForHash

/-- `Tx.ID`: the hexadecimal digest of the signing bytes. -/
def Tx.id (tx : Tx) : String := (sha256d sha256 tx.signingBytes).toHex

/-- `genesisStateRootPlaceholder`. -/
def genesisStateRootPlaceholder (g : Genesis) : Hash :=
  sha256 (stringBytes "reserveos:genesis:stateroot:v0" ++ stringBytes g.chainID ++
    (g.allocations.flatMap fun a => stringBytes a.address ++ [0] ++ stringBytes a.balance ++ [0]) ++
    putU64 g.powLeadingZeroBits.toUInt64)

end Digest

/-- The value of a hexadecimal digit of either case, given as its ASCII byte. -/
def hexValue (c : UInt8) : Option UInt8 :=
  let v := c.toNat
  if 48 ≤ v ∧ v ≤ 57 then some (UInt8.ofNat (v - 48))
  else if 97 ≤ v ∧ v ≤ 102 then some (UInt8.ofNat (v - 87))
  else if 65 ≤ v ∧ v ≤ 70 then some (UInt8.ofNat (v - 55))
  else none

/-- The bytes that hexadecimal digits encode, `none` on an odd length or another byte. -/
def hexDecodeBytes : List UInt8 → Option (List UInt8)
  | [] => some []
  | [_] => none
  | a :: b :: rest =>
      match hexValue a, hexValue b, hexDecodeBytes rest with
      | some x, some y, some bytes => some ((x * 16 + y) :: bytes)
      | _, _, _ => none

/-- `hex.DecodeString`. -/
def hexDecode (s : String) : Option (List UInt8) := hexDecodeBytes (stringBytes s)

/-- `hex.DecodeString` followed by the length check of the key and signature parsers. -/
def hexDecodeLen (len : ℕ) (s : String) : Option (List UInt8) :=
  (hexDecode s).filter fun b => b.length = len

end ReserveOS
