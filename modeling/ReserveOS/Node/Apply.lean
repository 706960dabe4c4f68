import ReserveOS.Node.Validate

/-!
# Applying blocks to the stored ledger

`applyBlockTxs` and `rebuildStateFromFinalized` of `state_apply.go`. A failed `AddBalance` ends
the block, and what was written before it stays.
-/

namespace ReserveOS

namespace Ledger

/-- Crediting outputs with `AddBalance`, up to the first error. -/
def creditOutputs : Ledger → List TxOut → Res Unit × Ledger
  | l, [] => (.ok (), l)
  | l, o :: outs =>
      if o.address ≠ "" then
        match l.addBalance o.address o.amount with
        | .error e => (.error e, l)
        | .ok l' => creditOutputs l' outs
      else if o.P ≠ "" then
        match l.addBalance (otapBucket o.P) o.amount with
        | .error e => (.error e, l)
        | .ok l' => creditOutputs l' outs
      else creditOutputs l outs

/-- The loop body of `applyBlockTxs`. A coinbase goes through the transfer branch: it debits its
`From` when that is not empty, and nothing checks a signature for it. -/
def applyTx (l : Ledger) (tx₀ : Tx) : Res Unit × Ledger :=
  let tx := tx₀.normalize
  match (if tx.type = "otap_claim" then tx.otapClaim else none) with
  | some c =>
      let l := l.setNonce tx.fromId tx.nonce
      match l.addBalance (otapBucket c.P) (-(c.amount + tx.fee)) with
      | .error e => (.error e, l)
      | .ok l₁ =>
          match l₁.addBalance c.toId c.amount with
          | .error e => (.error e, l₁)
          | .ok l₂ => (.ok (), l₂)
  | none =>
      if tx.fromId ≠ "" then
        match l.addBalance tx.fromId (-(outTotal tx.outputs + tx.fee)) with
        | .error e => (.error e, l)
        | .ok l₁ => (l₁.setNonce tx.fromId tx.nonce).creditOutputs tx.outputs
      else l.creditOutputs tx.outputs

/-- The ledger side of `applyBlockTxs`. -/
def applyTxs : Ledger → List Tx → Res Unit × Ledger
  | l, [] => (.ok (), l)
  | l, tx :: txs =>
      match l.applyTx tx with
      | (.error e, l') => (.error e, l')
      | (.ok _, l') => applyTxs l' txs

/-- Applying the transactions of a list of blocks in order, up to the first error. -/
def applyBlocks : Ledger → List Block → Res Unit × Ledger
  | l, [] => (.ok (), l)
  | l, b :: bs =>
      match l.applyTxs b.txs with
      | (.error e, l') => (.error e, l')
      | (.ok _, l') => applyBlocks l' bs

/-- The genesis allocations as balances; an `AddBalance` error is dropped. -/
def ofAllocations (allocs : List Allocation) : Ledger :=
  allocs.foldl (fun l a =>
    match l.addBalance a.address (parseInt64 a.balance) with
    | .ok l' => l'
    | .error _ => l) empty

end Ledger

namespace Node

variable (n : Node)

/-- The transaction loop of `applyBlockTxs`: index the transaction, then apply it. -/
def applyTxs : DB → List Tx → Res Unit × DB
  | s, [] => (.ok (), s)
  | s, tx :: txs =>
      let s' := s.putTx (tx.id n.prim.sha256) tx
      match s'.ledger.applyTx tx with
      | (.error e, l) => (.error e, { s' with ledger := l })
      | (.ok _, l) => applyTxs { s' with ledger := l } txs

/-- `applyBlockTxs`. Its fee sum is never added to, so the stored block fee is zero. -/
def applyBlockTxs (s : DB) (b : Block) : Res Unit × DB :=
  match n.applyTxs s b.txs with
  | (.error e, s') => (.error e, s')
  | (.ok _, s') => (.ok (), s'.putBlockFeeSum b.header.height 0)

/-- The replay loop of `rebuildStateFromFinalized`, over `count` heights from `h` on. -/
def replayMainChain : ℕ → UInt64 → DB → Res Unit × DB
  | 0, _, s => (.ok (), s)
  | count + 1, h, s =>
      match s.getBlockByHeight h with
      | none => (.error (.error "missing block on main chain"), s)
      | some (_, b) =>
          match n.applyBlockTxs s b with
          | (.error e, s') => (.error e, s')
          | (.ok _, s') => replayMainChain count (h + 1) s'

/-- The ledger `rebuildStateFromFinalized` starts from and its height: the last snapshot of the
listing when it can be read and is above genesis, else the genesis allocations. -/
def rebuildBase : UInt64 × Ledger :=
  match (listSnapshots n.snapshotDir).getLast?.bind (readSnapshotAuto n.snapshotDir) with
  | some ss =>
      if ss.height = 0 then (0, Ledger.ofAllocations n.genesis.allocations)
      else (ss.height, restoreSnapshot ss)
  | none => (0, Ledger.ofAllocations n.genesis.allocations)

/-- `rebuildStateFromFinalized`. -/
def rebuildStateFromFinalized (s : DB) : Res Unit × DB :=
  let s' := { s with ledger := n.rebuildBase.2 }
  match s'.getTip with
  | none => (.ok (), s')
  | some (tipH, _) =>
      let start := n.rebuildBase.1 + 1
      n.replayMainChain (tipH.toNat + 1 - start.toNat) start s'

end Node

end ReserveOS
