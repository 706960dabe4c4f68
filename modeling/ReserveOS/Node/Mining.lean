import Mathlib.Data.String.Basic
import ReserveOS.Node.Mempool
import ReserveOS.Node.Submit

/-!
# Block assembly

`FilterTxsBySimState` of `block_assemble.go`, `TxRoot` of `txroot.go`, `MineHeader` of `mine.go`,
and `BuildNextBlockHeader` and `MineOne` of `node.go`. The `/mine/template` handler runs the same
selection on the next transactions of all senders, and leaves the mempool as it is.

`sort.Slice` is not stable, so the order of transactions with the same fee and id is an argument.
`DelMempoolTx` deletes records that no function of the model reads, and is left out.
-/

namespace ReserveOS

/-! ### `FilterTxsBySimState` -/

namespace Tx

/-- The order of `FilterTxsBySimState`: by fee, highest first, then by id. -/
def less (sha256 : List UInt8 → Hash) (a b : Tx) : Bool :=
  if a.fee ≠ b.fee then b.fee < a.fee else a.id sha256 < b.id sha256

variable {sha256 : List UInt8 → Hash}

theorem less_eq_false_iff {a b : Tx} :
    b.less sha256 a = false ↔ toLex (OrderDual.toDual a.fee.toInt, a.id sha256) ≤
        toLex (.toDual b.fee.toInt, b.id sha256) := by
  rw [← not_lt, Prod.Lex.lt_iff, less]
  by_cases hfee : b.fee = a.fee
  · simp [hfee]
  · have hne : b.fee.toInt ≠ a.fee.toInt := fun heq => hfee (Int64.toInt_inj.mp heq)
    simp [hfee, hne, Int64.lt_iff_toInt_lt]

instance : Std.Total fun a b : Tx => b.less sha256 a = false where
  total a b := by
    rw [less_eq_false_iff, less_eq_false_iff]
    exact le_total _ _

instance : IsTrans Tx fun a b => b.less sha256 a = false where
  trans a b c := by
    rw [less_eq_false_iff, less_eq_false_iff, less_eq_false_iff]
    exact le_trans

end Tx

/-- `sort.Slice`: it puts a list of transactions in order. -/
structure TxSort (sha256 : List UInt8 → Hash) where
  sort : List Tx → List Tx
  perm : ∀ l, (sort l).Perm l
  sorted : ∀ l, (sort l).Pairwise fun a b => b.less sha256 a = false

/-- One such sort. -/
def TxSort.insertion (sha256 : List UInt8 → Hash) : TxSort sha256 where
  sort l := l.insertionSort fun a b => b.less sha256 a = false
  perm l := l.perm_insertionSort _
  sorted l := l.pairwise_insertionSort _

namespace Sim

/-- The loop body of `FilterTxsBySimState`: the working copy after a transaction that is kept,
`none` for one that is dropped. -/
def filterTx (m : Sim) (tx : Tx) : Option Sim :=
  if tx.type = "coinbase" then
    some (tx.outputs.foldl (fun m o => m.addBal o.address o.amount) m)
  else if tx.nonce ≠ m.nonce tx.fromId + 1 then none
  else
    match (if tx.type = "otap_claim" then tx.otapClaim else none) with
    | some c =>
        let bucket := otapBucket c.P
        let need := c.amount + tx.fee
        if m.bal bucket < need then none
        else
          some (((m.setBal bucket (m.bal bucket - need)).addBal c.toId c.amount).setNonce
            tx.fromId tx.nonce)
    | none =>
        let need := outTotal tx.outputs + tx.fee
        if m.bal tx.fromId < need then none
        else
          some (((m.setBal tx.fromId (m.bal tx.fromId - need)).setNonce
            tx.fromId tx.nonce).creditOutputs tx.outputs)

/-- The loop of `FilterTxsBySimState`. -/
def filterTxs : Sim → List Tx → List Tx
  | _, [] => []
  | m, tx :: txs =>
      match m.filterTx tx with
      | some m' => tx :: filterTxs m' txs
      | none => filterTxs m txs

end Sim

/-! ### `TxRoot` -/

section TxRoot

variable (sha256 : List UInt8 → Hash)

/-- `sha`. -/
def sha (a b : List UInt8) : List UInt8 := (sha256 (a ++ b)).bytes.toList

/-- The level above a level of the tree; a last node without a partner is paired with itself. -/
def nextLevel : List (List UInt8) → List (List UInt8)
  | [] => []
  | [a] => [sha sha256 a a]
  | a :: b :: rest => sha sha256 a b :: nextLevel rest

/-- The loop of `TxRoot`, up to the level of one node. Every level has at most half as many nodes
and one more, so as many rounds as there are nodes are enough. -/
def topNode : ℕ → List (List UInt8) → List UInt8
  | 0, level => level.headD []
  | fuel + 1, level => if 1 < level.length then topNode fuel (nextLevel sha256 level)
      else level.headD []

/-- `TxRoot`. -/
def txRoot (txs : List Tx) : Hash :=
  if txs = [] then sha256d sha256 (stringBytes "txroot:empty")
  else sha256 (topNode sha256 txs.length (txs.map fun tx => stringBytes (tx.id sha256)))

end TxRoot

/-- What `MineOne` leaves to the run time: the iteration order of the account map, the ties of the
heap and of the sort, and the clock where it is read. -/
structure MineEnv (F : Type) [LinearOrder F] (sha256 : List UInt8 → Hash) where
  accts : AcctOrder
  heap : HeapPop F
  sort : TxSort sha256
  drainNow : Int64
  headerNow : Int64
  submitNow : Int64

namespace Node

variable (n : Node)

/-- `FilterTxsBySimState`. -/
def filterTxsBySimState (srt : TxSort n.prim.sha256) (l : Ledger) (txs : List Tx) : List Tx :=
  l.view.filterTxs (srt.sort txs)

/-- The answer of the `/mine/template` handler: the number of transactions and their ids. -/
def mineTemplate {F : Type} (ord : AcctOrder) (srt : TxSort n.prim.sha256) (l : Ledger)
    (pool : Mempool F) : ℕ × List String :=
  let ids := (n.filterTxsBySimState srt l (pool.eligibleSnapshot ord l)).map (Tx.id n.prim.sha256)
  (ids.length, ids)

/-- The coinbase that `MineOne` builds. -/
def coinbaseTx : Tx where
  fromId := ""
  pubKey := ""
  sigHex := ""
  type := "coinbase"
  otapClaim := none
  version := 0
  nonce := 0
  fee := 0
  gasAsset := n.cfg.fees.gasAsset
  outputs := [⟨n.cfg.issuance.blockReward, n.cfg.issuance.rewardAsset, n.cfg.issuance.coinbaseTo,
    "", "", "", "", 0⟩]
  memo := ""

/-- The transactions of the block, coinbase first. -/
def blockTxs (txs : List Tx) : List Tx :=
  if n.cfg.issuance.enabled then n.coinbaseTx :: txs else txs

/-- `BuildNextBlockHeader`. -/
def buildNextBlockHeader (now : Int64) (s : DB) (txs : List Tx) : Res BlockHeader :=
  match s.getTip with
  | none => .error (.error "no tip")
  | some (tipH, tipHash) =>
      match s.blockByHash tipHash with
      | none => .error (.error "missing tip block")
      | some tipBlock =>
          match n.prim.nextWorkRequired (indexHeader s)
              (fun h => (indexHeader s h).map BlockHeader.bits) (tipH + 1) with
          | none => .error (.error "cannot compute expected difficulty")
          | some expectedBits =>
              .ok
                { version := n.genesis.protocolVersion
                  chainID := n.genesis.chainID
                  height := tipH + 1
                  timeUnix := now
                  prevHash := tipBlock.header.hash n.prim.sha256
                  stateRoot := tipBlock.header.stateRoot
                  txRoot := ReserveOS.txRoot n.prim.sha256 txs
                  bits := expectedBits
                  nonce := 0 }

/-- `MineHeader`, for a bounded number of nonces. -/
def mineHeader : ℕ → BlockHeader → Option BlockHeader
  | 0, _ => none
  | fuel + 1, h =>
      if meetsTarget (h.hash n.prim.sha256) h.bits then some h
      else mineHeader fuel { h with nonce := h.nonce + 1 }

variable {F : Type} [LinearOrder F]

/-- What `MineOne` takes out of the mempool, and the mempool after it. -/
def drained (env : MineEnv F n.prim.sha256) (l : Ledger) (pool : Mempool F) :
    List Tx × Mempool F :=
  pool.drain env.accts env.heap l env.drainNow 500

/-- The transactions that `MineOne` selects. -/
def selectedTxs (env : MineEnv F n.prim.sha256) (l : Ledger) (pool : Mempool F) : List Tx :=
  n.filterTxsBySimState env.sort l (n.drained env l pool).1

/-- The block that `MineOne` assembles. There is no result if no nonce meets the target: after
`2 ^ 64` rounds the search starts again. -/
def minedBlock (env : MineEnv F n.prim.sha256) (s : DB) (pool : Mempool F) : Option (Res Block) :=
  let txs := n.blockTxs (n.selectedTxs env s.ledger pool)
  match n.buildNextBlockHeader env.headerNow s txs with
  | .error e => some (.error e)
  | .ok h => (n.mineHeader (2 ^ 64) h).map fun h' => .ok ⟨h', txs⟩

/-- `MineOne`. -/
def mineOne (env : MineEnv F n.prim.sha256) (s : DB) (pool : Mempool F) :
    Option (Res (String × UInt64) × DB × Mempool F) :=
  if n.isReadOnly ∨ n.cfg.role = "observer" then
    some (.error (.error "mining_disabled"), s, pool)
  else
    let rest := (n.drained env s.ledger pool).2
    match n.minedBlock env s pool with
    | none => none
    | some (.error e) => some (.error e, s, rest)
    | some (.ok b) =>
        match n.submitBlock env.submitNow s b with
        | (.error e, s') => some (.error e, s', rest)
        | (.ok _, s') => some (.ok (n.hashHex b.header, b.header.nonce), s', rest)

end Node

end ReserveOS
