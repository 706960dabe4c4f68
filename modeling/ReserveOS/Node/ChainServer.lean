import ReserveOS.Node.Locator
import ReserveOS.Node.Sync

/-!
# The chain served over HTTP

The handlers of `node.go` that `syncOnce` of another node asks: `/chain/info`, `/chain/headers` and
`/chain/block_by_hash`, beside `/chain/locate` (`DB.chainLocate`). The client side
(`fetchChainInfo`, `fetchHeaders` and so on) turns every status but 200 into the error `bad status`.

`PeerAnswers` puts both sides together: each reply that a round of `syncOnce` receives is lost, or
is the reply of the peer.
-/

namespace ReserveOS

/-- A response: the status, and the body behind status 200. -/
abbrev Served (α : Type) : Type := Except ℕ α

namespace DB

/-- The handler of `/chain/info`, as far as `fetchChainInfo` reads the answer. -/
def chainInfo (s : DB) (chainID : String) : Served ChainInfo :=
  match s.getTip with
  | none => .error 503
  | some (h, tip) => .ok ⟨chainID, h, tip⟩

/-- The loop of `/chain/headers`: it ends at the first height without a block. -/
def headersFrom (s : DB) : ℕ → UInt64 → List BlockHeader
  | 0, _ => []
  | count + 1, h =>
      match s.getBlockByHeight h with
      | none => []
      | some (_, b) => b.header :: s.headersFrom count (h + 1)

/-- The handler of `/chain/headers`, on the decimal texts of the query. -/
def chainHeaders (s : DB) (start : Option UInt64) (count : Option ℤ) : Served (List BlockHeader) :=
  match start with
  | none => .error 400
  | some start =>
      match count with
      | none => .error 400
      | some count =>
          if count ≤ 0 then .error 400
          else .ok (s.headersFrom (min count 2000).toNat start)

/-- The handler of `/chain/block_by_hash`. -/
def chainBlockByHash (s : DB) (hash : String) : Served Block :=
  if hash = "" then .error 400
  else
    match s.blockByHash hash with
    | none => .error 404
    | some b => .ok b

end DB

/-- What the client makes of a response. -/
def Served.fetched {α : Type} : Served α → Except String α
  | .ok a => .ok a
  | .error _ => .error "bad status"

/-- What `postLocate` makes of a response. A block that was not found has height zero. -/
def LocateResponse.fetched (r : LocateResponse) : Except String Located :=
  if r.status ≠ 200 then .error "bad status"
  else
    match r.located with
    | none => .ok ⟨false, 0⟩
    | some (_, h) => .ok ⟨true, h⟩

/-! ### The requests of a round -/

/-- The number of headers that `syncOnce` asks for: those between two heights, and at most
`MaxBlocksPerRound`. The difference is converted to `int`. -/
def headerCount (maxBlocks : ℤ) (bestHeight below : UInt64) : ℤ :=
  let need := (bestHeight - below).toInt64.toInt
  if maxBlocks < need then maxBlocks else need

/-- `fetchHeaders` at a peer. `itoaI` writes a negative count as zero. -/
def DB.fetchHeaders (peer : DB) (start : UInt64) (count : ℤ) : Except String (List BlockHeader) :=
  (peer.chainHeaders (some start) (some (max count 0))).fetched

namespace Node

variable (n : Node)

/-- The database after the headers above the tip have been scored. -/
def afterTipHeaders (s : DB) (r : SyncReplies) : List String × UInt64 × DB :=
  n.scoreHeaders s 0 (r.tipHeaders.toOption.getD [])

/-- The hashes whose blocks a round asks for, on the fast path or on the locator path. -/
def requested (s : DB) (r : SyncReplies) : List String :=
  let scored := n.afterTipHeaders s r
  if s.getTipWork < scored.2.1 ∧ scored.1 ≠ [] then scored.1
  else (n.scoreHeaders scored.2.2 0 (r.forkHeaders.toOption.getD [])).1

/-- What arrives in a round is what `peer` answers to the requests of the round, unless it is lost.
Nothing is assumed about the answer to the finalized anchor. -/
structure PeerAnswers (maxBlocks : ℤ) (peer s : DB) (r : SyncReplies) : Prop where
  /-- the peer is the best one, or nobody answers -/
  best : (bestPeer n.genesis.chainID r.chainInfo).1 = "" ∨
    peer.getTip = some (bestPeer n.genesis.chainID r.chainInfo).2
  tipHeaders : ∀ hdrs localH tip, r.tipHeaders = .ok hdrs → s.getTip = some (localH, tip) →
    peer.fetchHeaders (localH + 1)
      (headerCount maxBlocks (bestPeer n.genesis.chainID r.chainInfo).2.1 localH) = .ok hdrs
  located : ∀ anc, r.located = .ok anc →
    (peer.chainLocate ⟨"POST", some ((n.afterTipHeaders s r).2.2.buildBlockLocator 32)⟩).fetched =
      Except.ok anc
  forkHeaders : ∀ hdrs anc, r.forkHeaders = .ok hdrs → r.located = .ok anc →
    peer.fetchHeaders (anc.height + 1)
      (headerCount maxBlocks (bestPeer n.genesis.chainID r.chainInfo).2.1 anc.height) = .ok hdrs
  blocks : ∀ (i : ℕ) (now : Int64) (b : Block), r.blocks[i]? = some (.ok (now, b)) →
    ∃ x, (n.requested s r)[i]? = some x ∧ (peer.chainBlockByHash x).fetched = .ok b

end Node

end ReserveOS
