import ReserveOS.Chain.Codec

/-!
# Tables of the network layer

The key ranges that gossip and admission write beside the chain: known peer addresses
(`net:peer:`, `peers.go`) and the persisted copy of the mempool (`mempool:tx:`,
`mempool_persist.go`). A listing reads its range in the order of the keys and stops at its limit.
The clock is an argument.
-/

namespace ReserveOS

/-- `limit <= 0 || limit > cap` is replaced by `cap`, as every listing does. -/
def listLimit (cap : ℕ) (limit : ℤ) : ℕ :=
  if limit ≤ 0 ∨ (cap : ℤ) < limit then cap else limit.toNat

/-! ### Peer addresses -/

/-- `Peer`: a base URL and the time it was added. -/
structure Peer where
  addr : String
  addedUnix : Int64
deriving DecidableEq

/-- The key range `net:peer:`. -/
abbrev PeerTable : Type := Table Peer

namespace PeerTable

/-- `PutPeer`. -/
def putPeer (t : PeerTable) (p : Peer) : PeerTable := t.insert p.addr p

/-- `ListPeers`. -/
def listPeers (t : PeerTable) (limit : ℤ) : List Peer :=
  (t.toList.map Prod.snd).take (listLimit 5000 limit)

end PeerTable

/-! ### The persisted mempool -/

/-- `memTx` of `mempool_persist.go`. -/
structure PersistedTx where
  origin : String
  tx : Tx
  expiresUnix : Int64
deriving DecidableEq

/-- The key range `mempool:tx:`, by transaction ID. -/
abbrev MempoolStore : Type := Table PersistedTx

namespace MempoolStore

variable (sha256 : List UInt8 → Hash) (t : MempoolStore)

/-- `PutMempoolTxWithOrigin`. -/
def putMempoolTxWithOrigin (now : Int64) (tx : Tx) (ttlSeconds : Int64) (origin : String) :
    MempoolStore :=
  t.insert (tx.id sha256) ⟨origin, tx, now + ttlSeconds⟩

/-- `PutMempoolTx`, which leaves the origin empty. -/
def putMempoolTx (now : Int64) (tx : Tx) (ttlSeconds : Int64) : MempoolStore :=
  t.putMempoolTxWithOrigin sha256 now tx ttlSeconds ""

end MempoolStore

end ReserveOS
