import ReserveOS.Node.Admission
import ReserveOS.Node.Inventory
import ReserveOS.Node.Limiter
import ReserveOS.Node.Submit
import ReserveOS.Node.SyncManager
import ReserveOS.Storage.NetTables

/-!
# The P2P message handler

The handler that `startP2PGossip` of `p2p_gossip.go` installs: `GossipEnv.handle` is one call, with
the variables it leaves and the messages it sends. A branch changes the score of the sender at most
once and no branch reads scores; so a branch returns its `Verdict`, and `handle` writes it.

* The JSON of payloads is a parameter (`GossipCodec`), over any type of payloads.
* `validateTxAdmission` is not defined in the repository and is a parameter; so are the fields
  `Chain.ChainID` and `Chain.GenesisHash`, which the configuration does not declare.
* The caps on payload sizes stand in the case `anchor`, after the comparison, and apply to it only.
* The case `block` stores a transaction `tx` that is not in scope; the line is left out.
* `startSyncManager` runs right after the handler is installed, so `n.sm` is not nil.
* A panic in `SubmitBlock` ends the process: nothing is handled after it.
-/

namespace ReserveOS

/-! ### Messages -/

/-- The types of messages. Every other type is ignored. -/
inductive MsgType where
  | getHello | hello | getAnchor | anchor | getHeaders | headers | getPeers | peers
  | invTx | getTx | tx | invBlock | getBlock | block
  | other
deriving DecidableEq

/-- `reservep2p.Msg`, with payloads in any type. -/
structure Msg (D : Type) where
  type : MsgType
  id : String
  hash : String
  data : D

/-- A message with a payload only. -/
def Msg.ofData {D : Type} (type : MsgType) (data : D) : Msg D := ⟨type, "", "", data⟩

/-- A message that the handler sends: `SendTo` or `SendAll`. -/
inductive Send (D : Type) where
  | to (peer : String) (m : Msg D)
  | all (m : Msg D)

/-- The payload of `hello`, as far as it is read: members that are strings. -/
structure HelloInfo where
  chainID : Option String
  genesisHash : Option String
deriving DecidableEq

/-- The payload of `anchor`. -/
structure AnchorInfo where
  height : UInt64
  hash : String
  set : Bool
deriving DecidableEq

/-- The payload of `get_headers`. -/
structure HeadersReq where
  start : UInt64
  count : Int64
  locator : List String
deriving DecidableEq

/-- The payload of `headers`. -/
structure HeadersResp where
  start : UInt64
  headers : List BlockHeader
  hashes : List String
deriving DecidableEq

/-- `json.Marshal` and `json.Unmarshal` of the payloads. A decoder whose error is ignored returns
what is in the variable afterwards. -/
structure GossipCodec (D : Type) where
  empty : D
  /-- `len(m.Data)` -/
  size : D → ℕ
  encodeHello : String → String → D
  decodeHello : D → HelloInfo
  encodeAnchor : AnchorInfo → D
  decodeAnchor : D → Option AnchorInfo
  decodeHeadersReq : D → HeadersReq
  encodeHeaders : HeadersResp → D
  decodeHeaders : D → HeadersResp
  encodePeers : List Peer → D
  decodePeers : D → Option (List Peer)
  encodeTx : Tx → D
  decodeTx : D → Option Tx
  encodeBlock : Block → D
  decodeBlock : D → Option Block
  decodeTx_encodeTx : ∀ tx, decodeTx (encodeTx tx) = some tx
  decodeBlock_encodeBlock : ∀ b, decodeBlock (encodeBlock b) = some b

/-! ### State -/

/-- The fields of `syncManager` that are kept for each peer, beside the download queue. -/
structure PeerSync where
  queue : SyncManager
  anchorOK : String → Option Bool
  failCount : String → ℕ
  lastFail : String → Int64

namespace PeerSync

/-- `setPeerAnchorOK`. -/
def setPeerAnchorOK (sm : PeerSync) (peer : String) (ok : Bool) : PeerSync :=
  { sm with anchorOK := Function.update sm.anchorOK peer (some ok) }

/-- `isPeerAnchorOK`. -/
def isPeerAnchorOK (sm : PeerSync) (peer : String) : Bool := (sm.anchorOK peer).getD false

/-- `markFail`. -/
def markFail (sm : PeerSync) (now : Int64) (peer : String) : PeerSync :=
  { sm with
    failCount := Function.update sm.failCount peer (sm.failCount peer + 1)
    lastFail := Function.update sm.lastFail peer now }

end PeerSync

/-- What the handler reads and writes. -/
structure GossipState (F : Type) where
  db : DB
  pool : Mempool F
  stats : PeerStats
  limiter : PeerLimiter
  inv : Inventory
  sync : PeerSync
  peers : PeerTable
  persisted : MempoolStore
  /-- a panic has ended the process -/
  crashed : Bool

/-- The readings of the clock in one call: of the limiter in nanoseconds, of `IsBanned`, of the
branch itself, and of the functions that change a score. -/
structure Readings where
  nanos : Int64
  gate : Int64
  now : Int64
  ban : Int64
  stamp : Int64
  stamp' : Int64

/-- What a branch does to the score of the sender. -/
inductive Verdict where
  | none
  /-- `AddPeerScore` -/
  | score (delta : Int64)
  /-- `penalizePeer` -/
  | penalty (delta : Int64)
deriving DecidableEq

/-- The record of a peer after a verdict. -/
def PeerStats.settle (db : PeerStats) (clk : Readings) (peer : String) : Verdict → PeerStats
  | .none => db
  | .score delta => (db.addPeerScore clk.stamp peer delta).2
  | .penalty delta => db.penalizePeer clk.ban clk.stamp clk.stamp' peer delta

/-- What a branch of the handler leaves. -/
structure Handled (F D : Type) where
  state : GossipState F
  sends : List (Send D) := []
  verdict : Verdict := .none

/-! ### Answers -/

namespace Node

variable (n : Node)

/-- The finalized height that `GetFinalizedHeight` returns, if it is above zero. -/
def finalizedAbove (s : DB) : Option UInt64 := s.finalizedHeight.filter fun h => 0 < h

/-- `hash` of an anchor: the hash of the block at a height, if there is one. -/
def indexedHash (s : DB) (h : UInt64) : String :=
  match s.getBlockByHeight h with
  | some (_, b) => n.hashHex b.header
  | none => ""

/-- The answer to `get_anchor`. -/
def localAnchor (s : DB) : AnchorInfo :=
  { height := s.finalizedHeight.getD 0
    hash := ((finalizedAbove s).map (n.indexedHash s)).getD ""
    set := s.finalizedHeight.isSome }

/-- `okMatch` of the case `anchor`. -/
def anchorMatches (s : DB) (a : AnchorInfo) : Bool :=
  match finalizedAbove s with
  | none => true
  | some h => a.set && a.height = h && a.hash = n.indexedHash s h

/-- `start` of `get_headers`: above the first hash of the locator that is stored. -/
def headersStart (s : DB) (req : HeadersReq) : UInt64 :=
  match req.locator.find? fun h => (s.blockByHash h).isSome with
  | some h => ((s.blockByHash h).map fun b => b.header.height + 1).getD req.start
  | none => req.start

/-- `req.Count` after its bounds. -/
def headersCount (req : HeadersReq) : UInt64 :=
  if req.count ≤ 0 then 200 else if 2000 < req.count then 2000 else req.count.toUInt64

/-- The loop of `get_headers`, `for h := req.From; h <= end; h++`, which stops at the first height
without a block. -/
def headersLoop (s : DB) (last : UInt64) : ℕ → UInt64 → List (BlockHeader × String)
  | 0, _ => []
  | fuel + 1, h =>
      if last < h then []
      else
        match s.getBlockByHeight h with
        | none => []
        | some (_, b) => (b.header, n.hashHex b.header) :: headersLoop s last fuel (h + 1)

/-- The answer to `get_headers`. -/
def serveHeaders (s : DB) (req : HeadersReq) : HeadersResp :=
  let start := headersStart s req
  let tipH := (s.getTip.map Prod.fst).getD 0
  let last := start + headersCount req - 1
  let found := n.headersLoop s (if tipH < last then tipH else last) (2 ^ 64) start
  ⟨start, found.map Prod.fst, found.map Prod.snd⟩

end Node

/-! ### The handler -/

/-- What is fixed while the handler runs. -/
structure GossipEnv (F D : Type) where
  node : Node
  allowlist : List String
  /-- `n.cfg.Chain.ChainID` -/
  chainID : String
  /-- `n.cfg.Chain.GenesisHash` -/
  chainGenesisHash : String
  floats : FeeFloats F
  codec : GossipCodec D
  /-- `validateTxAdmission`: the transaction it leaves, or none with an error -/
  validateTxAdmission : DB → Tx → Option Tx

namespace GossipEnv

variable {F D : Type} (env : GossipEnv F D)

/-- A message with an ID only. -/
def withID (type : MsgType) (id : String) : Msg D := ⟨type, id, "", env.codec.empty⟩

/-- A message with a hash only. -/
def withHash (type : MsgType) (hash : String) : Msg D := ⟨type, "", hash, env.codec.empty⟩

/-- The finalized gate of `headers` and `block`: a finalized height above zero is recorded, and the
last anchor of the peer did not match it. -/
def unanchored (s : GossipState F) (peer : String) : Bool :=
  (Node.finalizedAbove s.db).isSome && ! s.sync.isPeerAnchorOK peer

/-- The case `get_hello`. -/
def onGetHello (s : GossipState F) (peer : String) : Handled F D :=
  ⟨s, [.to peer (Msg.ofData .hello (env.codec.encodeHello env.chainID env.chainGenesisHash))],
    .none⟩

/-- The case `hello`. -/
def onHello (s : GossipState F) (m : Msg D) : Handled F D :=
  let h := env.codec.decodeHello m.data
  let cid := h.chainID.getD ""
  let gh := h.genesisHash.getD ""
  if cid ≠ "" ∧ cid ≠ env.chainID then ⟨s, [], .penalty (-100)⟩
  else if env.chainGenesisHash ≠ "" ∧ gh ≠ "" ∧ gh ≠ env.chainGenesisHash then
    ⟨s, [], .penalty (-100)⟩
  else ⟨s, [], .none⟩

/-- The case `get_anchor`. -/
def onGetAnchor (s : GossipState F) (peer : String) : Handled F D :=
  ⟨s, [.to peer (Msg.ofData .anchor (env.codec.encodeAnchor (env.node.localAnchor s.db)))], .none⟩

/-- The case `anchor`. -/
def onAnchor (s : GossipState F) (peer : String) (m : Msg D) : Handled F D :=
  match env.codec.decodeAnchor m.data with
  | none => ⟨s, [], .penalty (-2)⟩
  | some a =>
      let okMatch := env.node.anchorMatches s.db a
      let s := { s with sync := s.sync.setPeerAnchorOK peer okMatch }
      if ¬ okMatch then ⟨s, [], .penalty (-10)⟩
      else if 2 ^ 20 < env.codec.size m.data then ⟨s, [], .penalty (-10)⟩
      else ⟨s, [], .none⟩

/-- The case `get_headers`. -/
def onGetHeaders (s : GossipState F) (peer : String) (m : Msg D) : Handled F D :=
  let resp := env.node.serveHeaders s.db (env.codec.decodeHeadersReq m.data)
  ⟨s, [.to peer (Msg.ofData .headers (env.codec.encodeHeaders resp))], .none⟩

/-- The case `headers`. -/
def onHeaders (s : GossipState F) (peer : String) (m : Msg D) : Handled F D :=
  if unanchored s peer then ⟨s, [], .penalty (-5)⟩
  else
    let resp := env.codec.decodeHeaders m.data
    let queue := s.sync.queue.setHeaders resp.headers.length resp.hashes
    ⟨{ s with sync := { s.sync with queue := queue } }, [], .score 0⟩

/-- The case `get_peers`. -/
def onGetPeers (s : GossipState F) (peer : String) : Handled F D :=
  ⟨s, [.to peer (Msg.ofData .peers (env.codec.encodePeers (s.peers.listPeers 2000)))], .none⟩

/-- The case `peers`. -/
def onPeers (s : GossipState F) (m : Msg D) : Handled F D :=
  match env.codec.decodePeers m.data with
  | none => ⟨s, [], .penalty (-2)⟩
  | some ps =>
      let known := (ps.filter fun p => p.addr ≠ "").foldl PeerTable.putPeer s.peers
      ⟨{ s with peers := known }, [], .none⟩

/-- The request for the body of what a peer has announced. -/
def request (kind : InvKind) (id : String) : Msg D :=
  match kind with
  | .tx => env.withID .getTx id
  | .block => env.withHash .getBlock id

/-- The cases `inv_tx` and `inv_block`. A call that waits for the mutex sends nothing. -/
def onInv (clk : Readings) (s : GossipState F) (peer : String) (kind : InvKind) (id : String) :
    Handled F D :=
  let ann : Announcement := ⟨peer, kind, id, s.stats, clk.now, true⟩
  let inv := (s.inv.announce kind ann).2
  let asked := inv.requests.take (inv.requests.length - s.inv.requests.length)
  ⟨{ s with inv := inv }, asked.map fun r => .to r.1 (env.request r.2.1 r.2.2), .none⟩

/-- The case `get_tx`. -/
def onGetTx (s : GossipState F) (peer : String) (m : Msg D) : Handled F D :=
  if m.id = "" then ⟨s, [], .none⟩
  else
    match s.db.txs m.id with
    | none => ⟨s, [], .none⟩
    | some tx => ⟨s, [.to peer ⟨.tx, m.id, "", env.codec.encodeTx tx⟩], .none⟩

/-- The case `tx`. `senderCount` is what `Add` counts first. -/
def onTx (clk : Readings) (senderCount : ℤ) (s : GossipState F) (peer : String) (m : Msg D) :
    Handled F D :=
  match env.codec.decodeTx m.data with
  | none => ⟨s, [], .penalty (-2)⟩
  | some tx =>
      match env.validateTxAdmission s.db tx.normalize with
      | none => ⟨s, [], .penalty (-5)⟩
      | some tx =>
          match s.pool.add env.node.prim.sha256 env.floats s.db.ledger senderCount clk.now tx with
          | (.error _, pool) => ⟨{ s with pool := pool }, [], .penalty (-3)⟩
          | (.ok _, pool) =>
              let persisted := s.persisted.putMempoolTxWithOrigin env.node.prim.sha256 clk.now tx
                3600 peer
              ⟨{ s with pool := pool, persisted := persisted },
                [.all (env.withID .invTx (tx.id env.node.prim.sha256))], .score 1⟩

/-- The case `get_block`. -/
def onGetBlock (s : GossipState F) (peer : String) (m : Msg D) : Handled F D :=
  if m.hash = "" then ⟨s, [], .none⟩
  else
    match s.db.blockByHash m.hash with
    | none => ⟨s, [], .none⟩
    | some b => ⟨s, [.to peer ⟨.block, "", m.hash, env.codec.encodeBlock b⟩], .none⟩

/-- `clearInFlight` of the case `block`, when the message names a hash. -/
def received (s : GossipState F) (hash : String) : GossipState F :=
  if hash = "" then s
  else { s with sync := { s.sync with queue := s.sync.queue.clearInFlight hash } }

/-- The case `block`. -/
def onBlock (clk : Readings) (s : GossipState F) (peer : String) (m : Msg D) : Handled F D :=
  if unanchored s peer then ⟨s, [], .penalty (-5)⟩
  else
    let s := received s m.hash
    match env.codec.decodeBlock m.data with
    | none => ⟨s, [], .penalty (-2)⟩
    | some b =>
        match env.node.submitBlock clk.now s.db b with
        | (.error (.panic _), db) => ⟨{ s with db := db, crashed := true }, [], .none⟩
        | (.error (.error _), db) =>
            ⟨{ s with db := db, sync := s.sync.markFail clk.now peer }, [], .penalty (-10)⟩
        | (.ok _, db) =>
            ⟨{ s with db := db }, [.all (env.withHash .invBlock (env.node.hashHex b.header))],
              .score 1⟩

/-- The `switch` on the type of the message. -/
def dispatch (clk : Readings) (senderCount : ℤ) (s : GossipState F) (peer : String) (m : Msg D) :
    Handled F D :=
  match m.type with
  | .getHello => env.onGetHello s peer
  | .hello => env.onHello s m
  | .getAnchor => env.onGetAnchor s peer
  | .anchor => env.onAnchor s peer m
  | .getHeaders => env.onGetHeaders s peer m
  | .headers => env.onHeaders s peer m
  | .getPeers => env.onGetPeers s peer
  | .peers => env.onPeers s m
  | .invTx => env.onInv clk s peer .tx m.id
  | .getTx => env.onGetTx s peer m
  | .tx => env.onTx clk senderCount s peer m
  | .invBlock => env.onInv clk s peer .block m.hash
  | .getBlock => env.onGetBlock s peer m
  | .block => env.onBlock clk s peer m
  | .other => ⟨s, [], .none⟩

/-- The allowlist and the ban record let the peer through. -/
def admits (clk : Readings) (s : GossipState F) (peer : String) : Bool :=
  (env.allowlist = [] ∨ peer ∈ env.allowlist) ∧ ¬ s.stats.isBanned clk.gate peer

/-- The message reaches the `switch`. -/
def passes (clk : Readings) (s : GossipState F) (peer : String) : Bool :=
  ! s.crashed && env.admits clk s peer && (s.limiter.allow peer clk.nanos).1

/-- One call of the handler. The limiter is asked only about peers that are let through. -/
def handle (clk : Readings) (senderCount : ℤ) (s : GossipState F) (peer : String) (m : Msg D) :
    Handled F D :=
  if s.crashed ∨ ¬ env.admits clk s peer then ⟨s, [], .none⟩
  else
    let (allowed, limiter) := s.limiter.allow peer clk.nanos
    let s := { s with limiter := limiter }
    if ¬ allowed then ⟨s, [], .none⟩
    else
      let r := env.dispatch clk senderCount s peer m
      { r with state := { r.state with stats := r.state.stats.settle clk peer r.verdict } }

end GossipEnv

end ReserveOS
