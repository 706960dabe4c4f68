import ReserveOS.Node.ForkChoice

/-!
# Checkpoint votes and finality

The two finalization routines of the node and everything that calls them. `tryFinalizeHeight` of
`node.go` counts the stored votes for one hash and writes the pair that `GetFinalized` reads;
`TryFinalizeHeight` of `finality_weighted.go` picks the hash with the largest registered weight and
writes the pair that `GetFinalizedHeight` and `GetFinalizedHash` read.

`ListVotes`, which `TryFinalizeHeight` calls and the repository does not define, is read as
`ListVotesForHeight`. The order in which Go iterates the map `tally` is an argument.
-/

namespace ReserveOS

/-- An order in which a Go map may be iterated. -/
structure MapOrder where
  order : List (String × Int64) → List (String × Int64)
  perm : ∀ l, (order l).Perm l

/-- A request to `/finality/submit_vote`; `body` is `none` when it does not decode. -/
structure VoteRequest where
  method : String
  body : Option VoteRecord

/-- An HTTP response. -/
structure Response where
  status : ℕ
  body : String
deriving DecidableEq

/-- `TotalWeight`. -/
def totalWeight (vs : List Validator) : Int64 := vs.foldl (fun t v => t + v.weight) 0

/-- `ReachedThreshold`. -/
def reachedThreshold (sum total num den : Int64) : Bool :=
  0 < total && total * num ≤ sum * den

namespace Node

variable (n : Node)

/-! ### `tryFinalizeHeight` -/

/-- One vote against the registry: every validator that is not slashed adds to the total, and the
voter's own entry adds to the signed weight when the signature verifies. -/
def tallyRegistry (vals : List RegValidator) (height : UInt64) (hashHex : String) (vr : VoteRecord)
    (acc : Int64 × Int64) : Int64 × Int64 :=
  vals.foldl (fun (acc : Int64 × Int64) v =>
    if v.slashed then acc
    else if v.pubkeyHex ≠ vr.pubkeyHex then (acc.1, acc.2 + v.weight)
    else if n.prim.checkVote v.pubkeyHex vr.sigHex n.genesis.chainID height hashHex then
      (acc.1 + v.weight, acc.2 + v.weight)
    else (acc.1, acc.2 + v.weight)) acc

/-- One vote against the configured validators. -/
def tallyConfig (height : UInt64) (hashHex : String) (vr : VoteRecord) (signed : Int64) : Int64 :=
  n.validators.foldl (fun signed v =>
    if v.pubkeyHex ≠ vr.pubkeyHex then signed
    else if n.prim.checkVote v.pubkeyHex vr.sigHex n.genesis.chainID height hashHex then
      signed + v.weight
    else signed) signed

/-- The counting loop of `tryFinalizeHeight`: the signed weight and the total. With a registry the
total grows by the whole registry once for every matching vote. -/
def tallyVotes (s : DB) (height : UInt64) (hashHex : String) : Int64 × Int64 :=
  let valsReg := s.listValidators 5000
  (s.listVotesForHeight height).foldl (fun (acc : Int64 × Int64) vr =>
    if vr.blockHash ≠ hashHex ∨ vr.chainID ≠ n.genesis.chainID then acc
    else if valsReg ≠ [] then n.tallyRegistry valsReg height hashHex vr acc
    else (n.tallyConfig height hashHex vr acc.1, totalWeight n.validators)) (0, 0)

/-- The decision of `tryFinalizeHeight`. -/
def quorumReached (s : DB) (height : UInt64) (hashHex : String) : Bool :=
  (n.tallyVotes s height hashHex).2 ≠ 0 &&
    reachedThreshold (n.tallyVotes s height hashHex).1 (n.tallyVotes s height hashHex).2
      n.thresholdNum n.thresholdDen

/-- `tryFinalizeHeight`. -/
def tryFinalizeHeight (now : Int64) (s : DB) (height : UInt64) (hashHex : String) : DB :=
  if n.quorumReached s height hashHex then
    (s.putFinalized height hashHex).putCheckpoint height ⟨height, hashHex, now⟩
  else s

/-! ### `TryFinalizeHeight` -/

/-- The map `weightByPub` and the total `totalW`. -/
def liveWeights (vals : List RegValidator) : Table Int64 × Int64 :=
  vals.foldl (fun (acc : Table Int64 × Int64) v =>
    if v.slashed ∨ v.weight ≤ 0 then acc
    else (acc.1.insert v.pubkeyHex v.weight, acc.2 + v.weight)) (∅, 0)

/-- The map `tally`: the weight behind each voted hash. -/
def tallyByHash (weightByPub : Table Int64) (votes : List VoteRecord) : Table Int64 :=
  votes.foldl (fun (tally : Table Int64) vr =>
    let w := weightByPub[vr.pubkeyHex]?.getD 0
    if w ≤ 0 then tally
    else tally.insert vr.blockHash (tally[vr.blockHash]?.getD 0 + w)) ∅

/-- The loop that picks the heaviest hash, the first one of equals. -/
def bestTally (entries : List (String × Int64)) : String × Int64 :=
  entries.foldl (fun (best : String × Int64) e => if best.2 < e.2 then e else best) ("", 0)

/-- The hash that `TryFinalizeHeight` finds to have two thirds of the live weight. -/
def weightedWinner (ord : MapOrder) (s : DB) (height : UInt64) : Option String :=
  let live := liveWeights (s.listValidators 5000)
  if s.listValidators 5000 = [] ∨ live.2 ≤ 0 then none
  else
    let best := bestTally (ord.order (tallyByHash live.1 (s.listVotesForHeight height)).toList)
    if best.2 * 3 < live.2 * 2 then none else some best.1

/-- `TryFinalizeHeight`. -/
def TryFinalizeHeight (ord : MapOrder) (s : DB) (height : UInt64) : DB :=
  match weightedWinner ord s height with
  | none => s
  | some bestHash =>
      if s.finalizedHeight.getD 0 < height then
        (s.setFinalized height bestHash).putCheckpoint height ⟨height, bestHash, 0⟩
      else s

/-! ### Signing -/

/-- The vote record a node makes for a checkpoint with its own key. -/
def localVote (now : Int64) (priv : List UInt8) (height : UInt64) (hashHex : String) :
    VoteRecord where
  height := height
  blockHash := hashHex
  chainID := n.genesis.chainID
  pubkeyHex := n.localPubHex
  sigHex := n.prim.signVote priv n.genesis.chainID height hashHex
  timeUnix := now

/-- `SignVote` and `PutVote` with the local key. -/
def signAndStore (now : Int64) (s : DB) (priv : List UInt8) (height : UInt64) (hashHex : String) :
    DB :=
  { s.putVote (n.localVote now priv height hashHex) with
    signLog := (height, hashHex) :: s.signLog }

/-- `processCheckpointVotes`. -/
def processCheckpointVotes (now : Int64) (s : DB) (cp : Checkpoint) : DB :=
  if n.cfg.role = "observer" ∨ n.isReadOnly then s
  else if ¬ n.isLocalValidator then s
  else
    match parsePriv n.localPrivHex with
    | none => s
    | some priv =>
        let s' := if s.hasVote cp.height n.localPubHex then s
          else n.signAndStore now s priv cp.height cp.hashHex
        n.tryFinalizeHeight now s' cp.height cp.hashHex

/-- `storeAndBroadcastVote`, without the posts to the peers. -/
def storeAndBroadcastVote (now : Int64) (s : DB) (height : UInt64) (hashHex : String) : DB :=
  match parsePriv n.localPrivHex with
  | none => s
  | some priv => n.signAndStore now s priv height hashHex

/-- `ensureVoteForHeight`. -/
def ensureVoteForHeight (now : Int64) (s : DB) (h : UInt64) : DB :=
  if s.hasVote h n.localPubHex then s
  else
    match s.getBlockByHeight h with
    | none => s
    | some (hashHex, _) =>
        n.tryFinalizeHeight now (n.storeAndBroadcastVote now s h hashHex) h hashHex

/-- The loop of `ensureVotesUpToTip`: `for h := ...; h <= lastCp; h += interval`. Heights are
`uint64`, so after `2 ^ 64` rounds every height the loop can visit has been visited. -/
def ensureVotesLoop (now : Int64) (lastCp : UInt64) : ℕ → UInt64 → DB → DB
  | 0, _, s => s
  | fuel + 1, h, s =>
      if h ≤ lastCp then
        ensureVotesLoop now lastCp fuel (h + n.checkpointInterval) (n.ensureVoteForHeight now s h)
      else s

/-- `lastCp`: the last checkpoint height not above the tip. -/
def lastCheckpoint (tipH : UInt64) : UInt64 :=
  (tipH / n.checkpointInterval) * n.checkpointInterval

/-- The first height `ensureVotesUpToTip` looks at. -/
def firstCheckpoint (s : DB) : UInt64 :=
  (s.finalized.map Prod.fst).getD 0 + n.checkpointInterval

/-- `ensureVotesUpToTip`, the vote part of the gossip tick. -/
def ensureVotesUpToTip (now : Int64) (s : DB) : DB :=
  match s.getTip with
  | none => s
  | some (tipH, _) =>
      n.ensureVotesLoop now (n.lastCheckpoint tipH) (2 ^ 64) (n.firstCheckpoint s) s

/-! ### Votes from other nodes -/

/-- The configured validator set names this key. -/
def isValidator (pubkeyHex : String) : Bool := n.validators.any fun v => v.pubkeyHex = pubkeyHex

/-- The lookup in the registry, or in the configured set when the registry is empty, that
`ingestVote` starts with. A slashed key is not found. -/
def isRegistered (s : DB) (pubkeyHex : String) : Bool :=
  let valsReg := s.listValidators 5000
  if valsReg ≠ [] then valsReg.any fun v => v.pubkeyHex = pubkeyHex ∧ ¬ v.slashed
  else n.isValidator pubkeyHex

/-- `ingestVote`. The source verifies twice, and between the two looks the key up in the
configured set whichever set the first lookup used. -/
def ingestVote (now : Int64) (s : DB) (vr : VoteRecord) : DB :=
  if ¬ n.finalityEnabled then s
  else if vr.chainID ≠ n.genesis.chainID then s
  else if ¬ n.isRegistered s vr.pubkeyHex ∨ vr.pubkeyHex = "" then s
  else if ¬ n.prim.checkVote vr.pubkeyHex vr.sigHex vr.chainID vr.height vr.blockHash then s
  else if ¬ n.isValidator vr.pubkeyHex then s
  else
    let s' := if s.hasVote vr.height vr.pubkeyHex then s else s.putVote vr
    n.tryFinalizeHeight now s' vr.height vr.blockHash

/-- The `/finality/submit_vote` handler. -/
def submitVote (ord : MapOrder) (now : Int64) (s : DB) (req : VoteRequest) : Response × DB :=
  if req.method ≠ "POST" then (⟨405, ""⟩, s)
  else
    match req.body with
    | none => (⟨400, "\x7b\"error\":\"bad_json\"\x7d"⟩, s)
    | some vr =>
        if ¬ n.finalityEnabled then (⟨400, "\x7b\"error\":\"finality_disabled\"\x7d"⟩, s)
        else if vr.chainID ≠ n.genesis.chainID then
          (⟨400, "\x7b\"error\":\"wrong_chain\"\x7d"⟩, s)
        else if ¬ n.isValidator vr.pubkeyHex then
          (⟨400, "\x7b\"error\":\"unknown_validator\"\x7d"⟩, s)
        else if ¬ n.prim.checkVote vr.pubkeyHex vr.sigHex vr.chainID vr.height vr.blockHash then
          (⟨400, "\x7b\"error\":\"bad_signature\"\x7d"⟩, s)
        else
          -- the weighted routine runs only when the vote is new
          let s' := if s.hasVote vr.height vr.pubkeyHex then s
            else TryFinalizeHeight ord (s.putVote vr) vr.height
          (⟨200, "\x7b\"ok\":true\x7d"⟩, n.tryFinalizeHeight now s' vr.height vr.blockHash)

end Node

end ReserveOS
