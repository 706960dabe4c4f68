import ReserveOS.Consensus.Pow
import ReserveOS.Storage.DB

/-!
# A node, its configuration and the code it relies on

`Primitives` collects what the repository calls but does not define: SHA-256, Ed25519, the
edwards25519 group behind `schnorr.Verify`, and `pow.NextWorkRequired`. `Config` holds the
configuration fields that the modelled functions read, and `Node` the fields of the Go struct that
are fixed once `Start` has run.

`Issuance.Reward`, which the block rules read but `IssuanceConfig` does not declare, is a field of
its own.
-/

namespace ReserveOS

/-- Code outside the repository, as functions the model is parametric in. -/
structure Primitives where
  /-- `sha256.Sum256`. -/
  sha256 : List UInt8 → Hash
  /-- `ed25519.Sign(priv, msg)`. -/
  ed25519Sign : List UInt8 → List UInt8 → List UInt8
  /-- `ed25519.Verify(pub, msg, sig)`. -/
  ed25519Verify : List UInt8 → List UInt8 → List UInt8 → Bool
  /-- Whether `Point.SetBytes(mustHex32(P))` returns no error. -/
  pointSetBytes : String → Bool
  /-- `schnorr.Verify(P, msg, sigHex)` for the point that `P` encodes. -/
  schnorrVerify : String → List UInt8 → String → Bool
  /-- `pow.NextWorkRequired(getHeader, getBits, height)`. -/
  nextWorkRequired :
    (UInt64 → Option BlockHeader) → (UInt64 → Option UInt32) → UInt64 → Option UInt32

/-! ### Signatures -/

/-- `hex.EncodeToString`. -/
def hexEncode (b : List UInt8) : String :=
  String.ofList (b.flatMap fun (x : UInt8) =>
    [Hash.hexDigit (x.toNat / 16), Hash.hexDigit (x.toNat % 16)])

/-- `finality.ParsePub` and `sig.ParsePub`. -/
def parsePub (pubHex : String) : Option (List UInt8) := hexDecodeLen 32 pubHex

/-- `finality.ParsePriv`. -/
def parsePriv (privHex : String) : Option (List UInt8) := hexDecodeLen 64 privHex

namespace Primitives

variable (prim : Primitives)

/-- `sig.Verify`. -/
def sigVerify (pubHex sigHex : String) (msg : List UInt8) : Bool :=
  match parsePub pubHex, hexDecodeLen 64 sigHex with
  | some pub, some sig => prim.ed25519Verify pub msg sig
  | _, _ => false

/-- `finality.VoteMessage`. -/
def voteMessage (chainID : String) (height : UInt64) (blockHash : String) : List UInt8 :=
  (prim.sha256 (stringBytes "ReserveOS:PoSFinality:v1|" ++ stringBytes chainID ++ stringBytes "|" ++
    stringBytes (toString height.toNat) ++ stringBytes "|" ++ stringBytes blockHash)).bytes.toList

/-- `finality.SignVote`. -/
def signVote (priv : List UInt8) (chainID : String) (height : UInt64) (blockHash : String) :
    String :=
  hexEncode (prim.ed25519Sign priv (prim.voteMessage chainID height blockHash))

/-- `finality.VerifyVote`. -/
def verifyVote (pub : List UInt8) (sigHex chainID : String) (height : UInt64)
    (blockHash : String) : Bool :=
  match hexDecodeLen 64 sigHex with
  | some sig => prim.ed25519Verify pub (prim.voteMessage chainID height blockHash) sig
  | none => false

/-- `finality.ParsePub` followed by `finality.VerifyVote`, as every caller runs them. -/
def checkVote (pubHex sigHex chainID : String) (height : UInt64) (blockHash : String) : Bool :=
  match parsePub pubHex with
  | some pub => prim.verifyVote pub sigHex chainID height blockHash
  | none => false

end Primitives

/-! ### Configuration -/

/-- `IssuanceConfig`, with the undeclared `Reward`. -/
structure IssuanceConfig where
  enabled : Bool
  blockReward : Int64
  reward : Int64
  rewardAsset : String
  coinbaseTo : String

/-- The fee modes. Every mode string other than `DEFENSE` and `CONTAINMENT` acts as `NORMAL`. -/
inductive FeeMode where
  | normal
  | defense
  | containment
deriving DecidableEq

/-- `FeesConfig`. -/
structure FeesConfig where
  gasAsset : String
  baseFeeMin : Int64
  perByte : Int64
  otapMultiplier : Int64
  mode : FeeMode

/-- `LimitsConfig`. -/
structure LimitsConfig where
  maxBlockBytes : ℤ
  maxBlockTxs : ℤ
  maxTxOutputs : ℤ

/-- `ValidationConfig`. -/
structure ValidationConfig where
  validateForkState : Bool
  maxReplayBlocks : UInt64

/-- The configuration. `role`, `readOnly` and `allowPublicSubmit` are those of `NodeRoleConfig`. -/
structure Config where
  issuance : IssuanceConfig
  fees : FeesConfig
  limits : LimitsConfig
  validation : ValidationConfig
  role : String
  readOnly : Bool
  allowPublicSubmit : Bool

/-- A validator of the configured set. -/
structure Validator where
  pubkeyHex : String
  weight : Int64
deriving DecidableEq

/-- A started node. `Config.Validate` replaces a zero checkpoint interval, so it is positive. -/
structure Node where
  cfg : Config
  genesis : Genesis
  finalityEnabled : Bool
  checkpointInterval : UInt64
  thresholdNum : Int64
  thresholdDen : Int64
  validators : List Validator
  localPubHex : String
  localPrivHex : String
  prim : Primitives
  /-- The files under `State.SnapshotDir`. -/
  snapshotDir : Table SnapshotFile
  checkpointInterval_pos : 0 < checkpointInterval

namespace Node

variable (n : Node)

/-- The key of a header in the block tables: `Header.Hash().String()`. -/
def hashHex (h : BlockHeader) : String := (h.hash n.prim.sha256).toHex

/-- The genesis block of the node's genesis file. -/
def genesisBlock : Block := ReserveOS.genesisBlock n.prim.sha256 n.genesis

/-- The key of the genesis block. -/
def genesisHash : String := n.hashHex n.genesisBlock.header

/-- `isReadOnly`. -/
def isReadOnly : Bool := n.cfg.readOnly || n.cfg.role = "observer"

/-- `isLocalValidator`. -/
def isLocalValidator : Bool := n.validators.any fun v => v.pubkeyHex = n.localPubHex

@[simp] theorem genesisBlock_height : n.genesisBlock.header.height = 0 := rfl

/-- A header above height zero is not the genesis header. -/
theorem ne_genesis_of_height_ne_zero {hd : BlockHeader} (h : hd.height ≠ 0) :
    hd ≠ n.genesisBlock.header := by
  rintro rfl
  exact h (genesisBlock_height n)

end Node

end ReserveOS
