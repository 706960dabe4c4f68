import ReserveOS.State.Ledger

/-!
# The node's database

The LevelDB tables of `internal/reservestorage` that block processing and finality use, with one
accessor for each of the source's. Tables that the code only reads by key are functions to
`Option`; tables it iterates are `Table`s. I/O errors of LevelDB are outside the model.

Two independent pairs record what is finalized. `PutFinalized` writes `meta:finalized_height` and
`meta:finalized_hash`; `SetFinalizedHeight` and `SetFinalizedHash` write
`finality:finalized_height` and `finality:finalized_hash`.

Three fields are history variables that no code reads: the votes this node signed and the pairs
each finalization routine ever recorded, newest first.
-/

namespace ReserveOS

/-- A checkpoint record. -/
structure Checkpoint where
  height : UInt64
  hashHex : String
  timeUnix : Int64
deriving DecidableEq

/-- A finality vote as it is sent and stored. -/
structure VoteRecord where
  height : UInt64
  blockHash : String
  chainID : String
  pubkeyHex : String
  sigHex : String
  timeUnix : Int64
deriving DecidableEq

/-- An entry of the on-disk validator registry. -/
structure RegValidator where
  pubkeyHex : String
  name : String
  weight : Int64
  addedUnix : Int64
  slashed : Bool
deriving DecidableEq

/-- The contents of the database. -/
structure DB where
  /-- `meta:genesis` -/
  genesis : Option Genesis
  /-- `blk:hash:` -/
  blockByHash : String → Option Block
  /-- `blk:height:` -/
  hashByHeight : UInt64 → Option String
  /-- `hdr:hash:` -/
  headerByHash : String → Option BlockHeader
  /-- `work:` -/
  work : String → Option UInt64
  /-- `meta:tip_height` -/
  tipHeight : Option UInt64
  /-- `meta:tip_block_id` -/
  tipBlockID : Option String
  /-- `meta:tip_work` -/
  tipWork : Option UInt64
  /-- `meta:finalized_height` and `meta:finalized_hash`, which are only written together -/
  finalized : Option (UInt64 × String)
  /-- `finality:finalized_height` -/
  finalizedHeight : Option UInt64
  /-- `finality:finalized_hash` -/
  finalizedHash : Option String
  /-- `finality:checkpoint:` -/
  checkpoints : UInt64 → Option Checkpoint
  /-- `finality:vote:<height>:`, by public key -/
  votes : UInt64 → Table VoteRecord
  /-- `pos:validator:` -/
  validators : Table RegValidator
  /-- `bal:` and `nonce:` -/
  ledger : Ledger
  /-- `tx:` -/
  txs : String → Option Tx
  /-- `fees:block:` -/
  blockFees : UInt64 → Option Int64
  /-- History: every `(height, hash)` this node signed a vote for. -/
  signLog : List (UInt64 × String)
  /-- History: every pair `PutFinalized` wrote. -/
  finalizedLog : List (UInt64 × String)
  /-- History: every pair `SetFinalizedHeight` and `SetFinalizedHash` wrote. -/
  weightedLog : List (UInt64 × String)

namespace DB

/-- A new database that holds only a validator registry. -/
def fresh (validators : Table RegValidator) : DB where
  genesis := none
  blockByHash := fun _ => none
  hashByHeight := fun _ => none
  headerByHash := fun _ => none
  work := fun _ => none
  tipHeight := none
  tipBlockID := none
  tipWork := none
  finalized := none
  finalizedHeight := none
  finalizedHash := none
  checkpoints := fun _ => none
  votes := fun _ => ∅
  validators := validators
  ledger := Ledger.empty
  txs := fun _ => none
  blockFees := fun _ => none
  signLog := []
  finalizedLog := []
  weightedLog := []

/-! ### Blocks, headers and work -/

/-- `PutBlock`: one batch that stores the block by hash and points its height at it. -/
def putBlock (s : DB) (hashHex : String) (height : UInt64) (b : Block) : DB :=
  { s with
    blockByHash := Function.update s.blockByHash hashHex (some b)
    hashByHeight := Function.update s.hashByHeight height (some hashHex) }

/-- `GetBlockByHeight`: the block the height index names, with its hash. -/
def getBlockByHeight (s : DB) (height : UInt64) : Option (String × Block) :=
  (s.hashByHeight height).bind fun h => (s.blockByHash h).map fun b => (h, b)

/-- `PutHashByHeightOverwrite`. -/
def putHashByHeightOverwrite (s : DB) (height : UInt64) (hashHex : String) : DB :=
  { s with hashByHeight := Function.update s.hashByHeight height (some hashHex) }

/-- `PutHeader`. -/
def putHeader (s : DB) (hashHex : String) (header : BlockHeader) : DB :=
  { s with headerByHash := Function.update s.headerByHash hashHex (some header) }

/-- `PutWork`. -/
def putWork (s : DB) (hashHex : String) (w : UInt64) : DB :=
  { s with work := Function.update s.work hashHex (some w) }

/-- The value `GetWork` returns, zero when there is none. -/
def getWork (s : DB) (hashHex : String) : UInt64 := (s.work hashHex).getD 0

/-! ### Tip -/

/-- `PutTip` and `SetTip`. -/
def putTip (s : DB) (height : UInt64) (blockID : String) : DB :=
  { s with tipHeight := some height, tipBlockID := some blockID }

/-- `GetTip`. -/
def getTip (s : DB) : Option (UInt64 × String) :=
  match s.tipHeight, s.tipBlockID with
  | some h, some id => some (h, id)
  | _, _ => none

/-- `PutTipWork`. -/
def putTipWork (s : DB) (w : UInt64) : DB := { s with tipWork := some w }

/-- The value `GetTipWork` returns, zero when there is none. -/
def getTipWork (s : DB) : UInt64 := s.tipWork.getD 0

/-! ### Finality -/

/-- `PutFinalized`. -/
def putFinalized (s : DB) (height : UInt64) (hashHex : String) : DB :=
  { s with
    finalized := some (height, hashHex)
    finalizedLog := (height, hashHex) :: s.finalizedLog }

/-- `SetFinalizedHeight` followed by `SetFinalizedHash`. -/
def setFinalized (s : DB) (height : UInt64) (hashHex : String) : DB :=
  { s with
    finalizedHeight := some height
    finalizedHash := some hashHex
    weightedLog := (height, hashHex) :: s.weightedLog }

/-- `PutCheckpoint`. -/
def putCheckpoint (s : DB) (height : UInt64) (cp : Checkpoint) : DB :=
  { s with checkpoints := Function.update s.checkpoints height (some cp) }

/-- `PutVote`. -/
def putVote (s : DB) (v : VoteRecord) : DB :=
  { s with
    votes := Function.update s.votes v.height ((s.votes v.height).insert v.pubkeyHex v) }

/-- `HasVote`. -/
def hasVote (s : DB) (height : UInt64) (pubkeyHex : String) : Bool :=
  (s.votes height)[pubkeyHex]?.isSome

/-- `ListVotesForHeight`. -/
def listVotesForHeight (s : DB) (height : UInt64) : List VoteRecord :=
  (s.votes height).toList.map Prod.snd

/-- `ListValidators`: the first entries of the registry, never more than 5000. -/
def listValidators (s : DB) (limit : ℕ) : List RegValidator :=
  (s.validators.toList.map Prod.snd).take (if limit = 0 ∨ 5000 < limit then 5000 else limit)

/-! ### Transaction index and block fees -/

/-- `PutTx`. -/
def putTx (s : DB) (txid : String) (tx : Tx) : DB :=
  { s with txs := Function.update s.txs txid (some tx) }

/-- `PutBlockFeeSum`. -/
def putBlockFeeSum (s : DB) (height : UInt64) (sum : Int64) : DB :=
  { s with blockFees := Function.update s.blockFees height (some sum) }

/-! ### Reading after a write -/

theorem blockByHash_putBlock (s : DB) (x : String) (h : UInt64) (b : Block) :
    (s.putBlock x h b).blockByHash = Function.update s.blockByHash x (some b) := rfl

theorem work_putWork (s : DB) (x : String) (w : UInt64) :
    (s.putWork x w).work = Function.update s.work x (some w) := rfl

@[simp] theorem getTip_putTip (s : DB) (h : UInt64) (id : String) :
    (s.putTip h id).getTip = some (h, id) := rfl

/-- `GetTip` returns a pair exactly when both of its keys are set. -/
theorem getTip_eq_some_iff {s : DB} {h : UInt64} {id : String} :
    s.getTip = some (h, id) ↔ s.tipHeight = some h ∧ s.tipBlockID = some id := by
  unfold getTip
  cases s.tipHeight <;> cases s.tipBlockID <;> simp

/-- `GetTip` only reads the two tip keys. -/
theorem getTip_congr {s s' : DB} (hh : s'.tipHeight = s.tipHeight)
    (hid : s'.tipBlockID = s.tipBlockID) : s'.getTip = s.getTip := by
  rw [getTip, getTip, hh, hid]

/-- `GetBlockByHeight` finds the block that the index entry names. -/
theorem getBlockByHeight_eq_some_iff {s : DB} {k : UInt64} {h : String} {b : Block} :
    s.getBlockByHeight k = some (h, b) ↔ s.hashByHeight k = some h ∧ s.blockByHash h = some b := by
  unfold getBlockByHeight
  cases hk : s.hashByHeight k with
  | none => simp
  | some h' =>
      cases hb : s.blockByHash h' with
      | none => simp only [Option.bind_some, hb]; grind
      | some b' => simp only [Option.bind_some, hb]; grind

/-- A vote is present after it is stored, and the other votes are as before. -/
theorem getElem?_putVote (s : DB) (v : VoteRecord) (k : UInt64) (pub : String) :
    ((s.putVote v).votes k)[pub]? =
      if v.height = k ∧ v.pubkeyHex = pub then some v else (s.votes k)[pub]? := by
  by_cases hk : v.height = k
  · subst hk
    simp [putVote, Table.getElem?_put]
  · simp [putVote, Function.update_of_ne (Ne.symm hk), hk]

end DB

end ReserveOS
