import ReserveOS.Node.Admission
import ReserveOS.Node.Submit
import ReserveOS.Storage.NetTables

/-!
# Gossip over HTTP

`gossip.go` and the handler of `POST /gossip/tx`. A node posts what it forwards to every configured
peer and to every address of the peer table, one hop further; it does so for every message it
accepts, as long as the hop in the message is below its own `MaxHops`. `validateTxAdmission` is not
defined in the repository and is a parameter.
-/

namespace ReserveOS

/-- The fields of `cfg.Gossip` that forwarding reads. -/
structure GossipConfig where
  enabled : Bool
  peers : List String
  maxHops : Int64
deriving DecidableEq

/-- `GossipTxMsg`. -/
structure GossipTxMsg where
  hop : Int64
  tx : Tx
deriving DecidableEq

/-- The base URLs that a node posts to. -/
def GossipConfig.targets (cfg : GossipConfig) (known : PeerTable) : List String :=
  cfg.peers ++ (known.listPeers 5000).map Peer.addr

/-- `gossipTx`: the requests it makes. -/
def gossipTx (cfg : GossipConfig) (known : PeerTable) (tx : Tx) (hop : Int64) :
    List (String × GossipTxMsg) :=
  if ¬ cfg.enabled then []
  else if cfg.maxHops ≤ hop then []
  else (cfg.targets known).map fun peer => (peer, ⟨hop + 1, tx⟩)

/-- The handler of `POST /gossip/tx`: the pool it leaves, and the requests it makes. `senderCount`
is what `Add` counts first. -/
def gossipTxHandler {F : Type} (sha256 : List UInt8 → Hash) (fl : FeeFloats F)
    (validateTxAdmission : Tx → Option Tx) (cfg : GossipConfig) (known : PeerTable) (l : Ledger)
    (senderCount : ℤ) (now : Int64) (pool : Mempool F) (msg : GossipTxMsg) :
    Mempool F × List (String × GossipTxMsg) :=
  match validateTxAdmission msg.tx.normalize with
  | none => (pool, [])
  | some tx =>
      match pool.add sha256 fl l senderCount now tx with
      | (.error _, pool) => (pool, [])
      | (.ok _, pool) => (pool, gossipTx cfg known tx msg.hop)

end ReserveOS
