import ReserveOS.Runtime

/-!
# Blocks, transactions and genesis

The data model of `core/chain`: hashes, transactions with their outputs and OTAP claims, block
headers, blocks and the genesis file. Strings are Go strings, `int64` amounts are `Int64`, and
heights and nonces are `UInt64`, so that arithmetic on them wraps where Go's does.

A `Hash` is the 32 bytes of the digest. Every table of the node keys a block by the hexadecimal
form `Hash.toHex`, the source's `Hash.String`.
-/

namespace ReserveOS

/-- A digest of `sha256.Sum256`. -/
structure Hash where
  /-- The 32 bytes of the digest. -/
  bytes : Vector UInt8 32
deriving DecidableEq

namespace Hash

/-- The lower-case hexadecimal digit of a nibble. -/
def hexDigit (nibble : ℕ) : Char :=
  if nibble < 10 then Char.ofNat (48 + nibble) else Char.ofNat (87 + nibble)

/-- `Hash.String`: two hexadecimal digits for each byte. -/
def toHex (h : Hash) : String :=
  String.ofList (h.bytes.toList.flatMap fun (b : UInt8) =>
    [hexDigit (b.toNat / 16), hexDigit (b.toNat % 16)])

/-- The zero hash, the parent of genesis. -/
def zero : Hash := ⟨Vector.replicate 32 0⟩

end Hash

/-- A transaction output: a plain `address`, or the one-time destination `P` with its ephemeral
key `R`. -/
structure TxOut where
  amount : Int64
  asset : String
  address : String
  P : String
  R : String
  tag : String
  encMemo : String
  policyBits : UInt32
deriving DecidableEq

/-- The payload of an `otap_claim` transaction. `toId` is the source's `To`. -/
structure OTAPClaim where
  P : String
  R : String
  tag : String
  toId : String
  amount : Int64
  claimSigHex : String
deriving DecidableEq

/-- A transaction. `fromId` is the source's `From`. `type` is an arbitrary string on the wire: the
code reads `""` as `"transfer"`, and every string other than `"coinbase"` and `"otap_claim"` as a
transfer. -/
structure Tx where
  fromId : String
  pubKey : String
  sigHex : String
  type : String
  otapClaim : Option OTAPClaim
  version : UInt32
  nonce : UInt64
  fee : Int64
  gasAsset : String
  outputs : List TxOut
  memo : String
deriving DecidableEq

namespace Tx

/-- `if tx.Type == "" { tx.Type = "transfer" }`, on the loop's own copy of the transaction. -/
def normalize (tx : Tx) : Tx :=
  if tx.type = "" then { tx with type := "transfer" } else tx

end Tx

/-- A block header. -/
structure BlockHeader where
  version : UInt32
  chainID : String
  height : UInt64
  timeUnix : Int64
  prevHash : Hash
  stateRoot : Hash
  txRoot : Hash
  bits : UInt32
  nonce : UInt64
deriving DecidableEq

/-- A block: its header and its transactions. -/
structure Block where
  header : BlockHeader
  txs : List Tx
deriving DecidableEq

namespace Block

/-- `Block.SizeHint`, the size the block limits are checked against. -/
def sizeHint (b : Block) : ℕ :=
  256 + b.txs.length * 128 + (b.txs.map fun tx => tx.outputs.length * 64).sum

/-- The key of the parent of a block: the hexadecimal form of `PrevHash`. -/
def prevHex (b : Block) : String := b.header.prevHash.toHex

/-- The height of a block as a number. -/
def height (b : Block) : ℕ := b.header.height.toNat

end Block

/-- One entry of the genesis allocation list. -/
structure Allocation where
  address : String
  balance : String
deriving DecidableEq

/-- The genesis file, with the fields that the node reads after start-up. -/
structure Genesis where
  chainID : String
  genesisTimeUnix : Int64
  protocolVersion : UInt32
  powLeadingZeroBits : UInt32
  allocations : List Allocation
deriving DecidableEq

end ReserveOS
