import ReserveOS.General.Concurrent
import ReserveOS.Node.Submit

/-!
# `SubmitBlock` access by access

LevelDB makes single reads, single writes and batches atomic, and nothing more: `SubmitBlock` takes
no lock, so another goroutine may run between any two of its accesses. Here `SubmitBlock` and
everything it calls is a program of such accesses, in the order of the source. A `Get` or `Put` is
one access, a batch is one access, and so is an iteration, which reads a snapshot.

`NextWorkRequired`, which the repository does not define, is a program that is given.
-/

namespace ReserveOS

open Concurrent (Prog)

/-- What an access is about: a key of the database, or a key range that is iterated. -/
inductive Key where
  | block (hashHex : String)
  | height (h : UInt64)
  | header (hashHex : String)
  | work (hashHex : String)
  | tipHeight
  | tipBlockID
  | tipWork
  | finalizedHeight
  | finalizedHash
  | checkpoint (h : UInt64)
  | vote (h : UInt64) (pubkeyHex : String)
  | votes (h : UInt64)
  | validators
  | balance (id : String)
  | balances
  | nonce (id : String)
  | nonces
  | tx (id : String)
  | blockFees (h : UInt64)
deriving DecidableEq

/-- The label of an access. -/
inductive Access where
  | get (k : Key)
  | put (k : Key)
deriving DecidableEq

/-- A program of database accesses. -/
abbrev Call (α : Type) : Type := Prog Access DB α

namespace Ledger

/-- The batch of `ResetState`: deletes the listed keys. -/
def deleteKeys (l : Ledger) (bals nonces : List String) : Ledger :=
  ⟨bals.foldl (fun t k => t.erase k) l.bal, nonces.foldl (fun t k => t.erase k) l.nonce⟩

end Ledger

namespace Call

/-- Goes on unless there is an error. -/
def andThen {α β : Type} (p : Call (Res α)) (f : α → Call (Res β)) : Call (Res β) := do
  match ← p with
  | .error e => pure (.error e)
  | .ok a => f a

/-- A loop over a list. -/
def each {α : Type} (f : α → Call Unit) : List α → Call Unit
  | [] => pure ()
  | a :: as => do
      f a
      each f as

/-! ### Storage -/

/-- `GetHashByHeight`. -/
def getHashByHeight (h : UInt64) : Call (Option String) :=
  .read (.get (.height h)) fun s => s.hashByHeight h

/-- `GetBlockByHash`. -/
def getBlockByHash (x : String) : Call (Option Block) :=
  .read (.get (.block x)) fun s => s.blockByHash x

/-- `GetBlockByHeight`. -/
def getBlockByHeight (h : UInt64) : Call (Option (String × Block)) := do
  match ← getHashByHeight h with
  | none => pure none
  | some x =>
      match ← getBlockByHash x with
      | none => pure none
      | some b => pure (some (x, b))

/-- `PutBlock`, one batch. -/
def putBlock (x : String) (h : UInt64) (b : Block) : Call Unit :=
  .write (.put (.block x)) fun s => s.putBlock x h b

/-- `PutHashByHeightOverwrite`. -/
def putHashByHeightOverwrite (h : UInt64) (x : String) : Call Unit :=
  .write (.put (.height h)) fun s => s.putHashByHeightOverwrite h x

/-- `PutHeader`. -/
def putHeader (x : String) (header : BlockHeader) : Call Unit :=
  .write (.put (.header x)) fun s => s.putHeader x header

/-- `GetWork`, zero when there is none. -/
def getWork (x : String) : Call UInt64 := .read (.get (.work x)) fun s => s.getWork x

/-- `PutWork`. -/
def putWork (x : String) (w : UInt64) : Call Unit := .write (.put (.work x)) fun s => s.putWork x w

/-- `GetTip`, two reads. -/
def getTip : Call (Option (UInt64 × String)) := do
  match ← Prog.read (Access.get .tipHeight) (fun s : DB => s.tipHeight) with
  | none => pure none
  | some h =>
      match ← Prog.read (Access.get .tipBlockID) (fun s : DB => s.tipBlockID) with
      | none => pure none
      | some x => pure (some (h, x))

/-- `PutTip` and `SetTip`, two writes. -/
def putTip (h : UInt64) (x : String) : Call Unit := do
  Prog.write (Access.put .tipHeight) fun s : DB => { s with tipHeight := some h }
  Prog.write (Access.put .tipBlockID) fun s : DB => { s with tipBlockID := some x }

/-- `GetTipWork`, zero when there is none. -/
def getTipWork : Call UInt64 := .read (.get .tipWork) fun s => s.getTipWork

/-- `PutTipWork`. -/
def putTipWork (w : UInt64) : Call Unit := .write (.put .tipWork) fun s => s.putTipWork w

/-- `GetFinalized`, two reads. -/
def getFinalized : Call (Option (UInt64 × String)) := do
  match ← Prog.read (Access.get .finalizedHeight) (fun s : DB => s.finalized.map Prod.fst) with
  | none => pure none
  | some h =>
      match ← Prog.read (Access.get .finalizedHash) (fun s : DB => s.finalized.map Prod.snd) with
      | none => pure none
      | some x => pure (some (h, x))

/-- `PutFinalized`, two writes. The database has one field for the pair, so a height without a hash
does not show. -/
def putFinalized (h : UInt64) (x : String) : Call Unit := do
  Prog.write (Access.put .finalizedHeight) fun s : DB =>
    { s with finalized := s.finalized.map fun p => (h, p.2) }
  Prog.write (Access.put .finalizedHash) fun s : DB =>
    { s with
      finalized := some ((s.finalized.map Prod.fst).getD h, x)
      finalizedLog := (h, x) :: s.finalizedLog }

/-- `PutCheckpoint`. -/
def putCheckpoint (h : UInt64) (cp : Checkpoint) : Call Unit :=
  .write (.put (.checkpoint h)) fun s => s.putCheckpoint h cp

/-- `GetBalance`. -/
def getBalance (id : String) : Call Int64 :=
  .read (.get (.balance id)) fun s => s.ledger.getBalance id

/-- `SetBalance`. -/
def setBalance (id : String) (v : Int64) : Call Unit :=
  .write (.put (.balance id)) fun s => { s with ledger := s.ledger.setBalance id v }

/-- `GetNonce`. -/
def getNonce (id : String) : Call UInt64 := .read (.get (.nonce id)) fun s => s.ledger.getNonce id

/-- `SetNonce`. -/
def setNonce (id : String) (k : UInt64) : Call Unit :=
  .write (.put (.nonce id)) fun s => { s with ledger := s.ledger.setNonce id k }

/-- `AddBalance`, a read and a write. -/
def addBalance (id : String) (delta : Int64) : Call (Res Unit) := do
  let cur ← getBalance id
  if cur + delta < 0 then pure (.error (.error "insufficient funds"))
  else do
    setBalance id (cur + delta)
    pure (.ok ())

/-- `ResetState`: two iterations, then one batch that deletes what they found. -/
def resetState : Call Unit := do
  let bals ← Prog.read (Access.get .balances) fun s : DB => s.ledger.bal.toList.map Prod.fst
  let nonces ← Prog.read (Access.get .nonces) fun s : DB => s.ledger.nonce.toList.map Prod.fst
  Prog.write (Access.put .balances) fun s : DB =>
    { s with ledger := s.ledger.deleteKeys bals nonces }

/-- `RestoreSnapshot`. -/
def restoreSnapshot (ss : Snapshot) : Call Unit := do
  resetState
  each (fun e => setBalance e.1 e.2) ss.balances.toList
  each (fun e => setNonce e.1 e.2) ss.nonces.toList

/-! ### Validation against the stored ledger -/

/-- The maps `bal` and `non` of `ValidateBlockStateTip`: what was read or set so far. -/
structure Cache where
  bal : Table Int64
  nonce : Table UInt64

namespace Cache

/-- `getBal`: an account is read from the database once. -/
def getBal (c : Cache) (id : String) : Call (Int64 × Cache) :=
  match c.bal[id]? with
  | some v => pure (v, c)
  | none => do
      let v ← getBalance id
      pure (v, { c with bal := c.bal.insert id v })

/-- `setBal`. -/
def setBal (c : Cache) (id : String) (v : Int64) : Cache := { c with bal := c.bal.insert id v }

/-- `getNon`. -/
def getNon (c : Cache) (id : String) : Call (UInt64 × Cache) :=
  match c.nonce[id]? with
  | some v => pure (v, c)
  | none => do
      let v ← getNonce id
      pure (v, { c with nonce := c.nonce.insert id v })

/-- `setNon`. -/
def setNon (c : Cache) (id : String) (v : UInt64) : Cache := { c with nonce := c.nonce.insert id v }

/-- `setBal(id, getBal(id)+v)`. -/
def addBal (c : Cache) (id : String) (v : Int64) : Call Cache := do
  let r ← c.getBal id
  pure (r.2.setBal id (r.1 + v))

/-- The credits of a transfer. -/
def creditOutputs (c : Cache) : List TxOut → Call Cache
  | [] => pure c
  | o :: outs =>
      if o.address ≠ "" then do
        let c' ← c.addBal o.address o.amount
        c'.creditOutputs outs
      else if o.P ≠ "" then do
        let c' ← c.addBal (otapBucket o.P) o.amount
        c'.creditOutputs outs
      else c.creditOutputs outs

/-- One transaction of the loop of `ValidateBlockStateTip`. -/
def simTx (c : Cache) (tx₀ : Tx) : Call (Res Cache) := do
  let tx := tx₀.normalize
  let cur ← c.getNon tx.fromId
  if tx.nonce ≠ cur.1 + 1 then pure (.error (.error "bad nonce in block"))
  else
    let c := cur.2.setNon tx.fromId tx.nonce
    if tx.type = "otap_claim" then
      match tx.otapClaim with
      | none => pure (.error (.panic "nil pointer dereference"))
      | some cl => do
          let bBal ← c.getBal (otapBucket cl.P)
          let need := cl.amount + tx.fee
          if bBal.1 < need then pure (.error (.error "insufficient otap bucket"))
          else do
            let c' ← (bBal.2.setBal (otapBucket cl.P) (bBal.1 - need)).addBal cl.toId cl.amount
            pure (.ok c')
    else do
      let need := outTotal tx.outputs + tx.fee
      let fromBal ← c.getBal tx.fromId
      if fromBal.1 < need then pure (.error (.error "insufficient funds"))
      else do
        let c' ← (fromBal.2.setBal tx.fromId (fromBal.1 - need)).creditOutputs tx.outputs
        pure (.ok c')

/-- The loop of `ValidateBlockStateTip`. -/
def simTxs (c : Cache) : List Tx → Call (Res Cache)
  | [] => pure (.ok c)
  | tx :: txs => andThen (c.simTx tx) fun c' => c'.simTxs txs

end Cache

end Call

namespace Node

variable (n : Node)

/-- The simulation inside `ValidateBlockStateTip`. -/
def simulateTipCall (b : Block) : Call (Res Call.Cache) :=
  if n.cfg.issuance.enabled then
    match b.txs with
    | [] => pure (.error (.panic "index out of range"))
    | cb :: rest =>
        match cb.outputs with
        | [] => pure (.error (.panic "index out of range"))
        | o :: _ => do
            let c ← (⟨∅, ∅⟩ : Call.Cache).addBal o.address o.amount
            c.simTxs rest
  else (⟨∅, ∅⟩ : Call.Cache).simTxs b.txs

/-- `ValidateBlockStateTip`. -/
def validateBlockStateTipCall (b : Block) : Call (Res Unit) :=
  Call.andThen (n.simulateTipCall b) fun _ => pure (n.coinbaseCoversFees b.txs)

/-- The replay loop of `ValidateBlockStateOnMainParent`. -/
def replayIndexCall : ℕ → UInt64 → Sim → Call (Res Sim)
  | 0, _, m => pure (.ok m)
  | count + 1, h, m => do
      match ← Call.getBlockByHeight h with
      | none => pure (.ok m)
      | some (_, blk) =>
          match n.applyBlockToSim m blk with
          | .error e => pure (.error (wrapReplay e))
          | .ok m' => replayIndexCall count (h + 1) m'

/-- `ValidateBlockStateOnMainParent`. -/
def validateBlockStateOnMainParentCall (b : Block) : Call (Res Unit) :=
  if n.cfg.validation.validateForkState && b.header.height ≠ 0 then do
    let parentH := b.header.height - 1
    match ← Call.getBlockByHeight parentH with
    | none => pure (.ok ())
    | some (_, parent) =>
        if n.hashHex parent.header ≠ b.prevHex then pure (.ok ())
        else do
          let tip ← Call.getTip
          let tipH := (tip.map Prod.fst).getD 0
          if parentH < tipH && n.cfg.validation.maxReplayBlocks < tipH - parentH then pure (.ok ())
          else
            let start := (n.forkBase parentH).1 + 1
            Call.andThen (n.replayIndexCall (parentH.toNat + 1 - start.toNat) start
              (n.forkBase parentH).2) fun m =>
                pure ((n.applyBlockToSim m b).bind fun _ => .ok ())
  else pure (.ok ())

/-- The parent rules and the difficulty rule of `SubmitBlock`. -/
def checkParentCall (nextWork : UInt64 → Call (Option UInt32)) (b : Block) : Call (Res Unit) := do
  match ← Call.getBlockByHash b.prevHex with
  | none => pure (.error (.error "missing parent"))
  | some prevB =>
      if prevB.header.height + 1 ≠ b.header.height then
        pure (.error (.error "bad height linkage"))
      else do
        match ← nextWork b.header.height with
        | none => pure (.ok ())
        | some expected =>
            if b.header.bits ≠ expected then
              pure (.error (.error
                ("bad bits: got " ++ hex32 b.header.bits ++ " want " ++ hex32 expected)))
            else pure (.ok ())

/-! ### Applying blocks -/

/-- The credits of `applyBlockTxs`. -/
def creditOutputsCall : List TxOut → Call (Res Unit)
  | [] => pure (.ok ())
  | o :: outs =>
      if o.address ≠ "" then
        Call.andThen (Call.addBalance o.address o.amount) fun _ => creditOutputsCall outs
      else if o.P ≠ "" then
        Call.andThen (Call.addBalance (otapBucket o.P) o.amount) fun _ => creditOutputsCall outs
      else creditOutputsCall outs

/-- The loop body of `applyBlockTxs`, after the transaction is indexed. -/
def applyTxCall (tx₀ : Tx) : Call (Res Unit) :=
  let tx := tx₀.normalize
  match (if tx.type = "otap_claim" then tx.otapClaim else none) with
  | some c => do
      Call.setNonce tx.fromId tx.nonce
      Call.andThen (Call.addBalance (otapBucket c.P) (-(c.amount + tx.fee))) fun _ =>
        Call.addBalance c.toId c.amount
  | none =>
      if tx.fromId ≠ "" then
        Call.andThen (Call.addBalance tx.fromId (-(outTotal tx.outputs + tx.fee))) fun _ => do
          Call.setNonce tx.fromId tx.nonce
          creditOutputsCall tx.outputs
      else creditOutputsCall tx.outputs

/-- The transaction loop of `applyBlockTxs`. -/
def applyTxsCall : List Tx → Call (Res Unit)
  | [] => pure (.ok ())
  | tx :: txs => do
      Prog.write (Access.put (.tx (tx.id n.prim.sha256))) fun s : DB =>
        s.putTx (tx.id n.prim.sha256) tx
      Call.andThen (applyTxCall tx) fun _ => applyTxsCall txs

/-- `applyBlockTxs`. -/
def applyBlockTxsCall (b : Block) : Call (Res Unit) :=
  Call.andThen (n.applyTxsCall b.txs) fun _ => do
    Prog.write (Access.put (.blockFees b.header.height)) fun s : DB =>
      s.putBlockFeeSum b.header.height 0
    pure (.ok ())

/-- The replay loop of `rebuildStateFromFinalized`. -/
def replayMainChainCall : ℕ → UInt64 → Call (Res Unit)
  | 0, _ => pure (.ok ())
  | count + 1, h => do
      match ← Call.getBlockByHeight h with
      | none => pure (.error (.error "missing block on main chain"))
      | some (_, b) =>
          Call.andThen (n.applyBlockTxsCall b) fun _ => replayMainChainCall count (h + 1)

/-- `ResetState` and the genesis allocations. -/
def resetToGenesisCall : Call Unit := do
  Call.resetState
  Call.each (fun a => do
    let _ ← Call.addBalance a.address (parseInt64 a.balance)
    pure ()) n.genesis.allocations

/-- The part of `rebuildStateFromFinalized` after the base is restored. -/
def replayFromCall (snapHeight : UInt64) : Call (Res Unit) := do
  match ← Call.getTip with
  | none => pure (.ok ())
  | some (tipH, _) =>
      n.replayMainChainCall (tipH.toNat + 1 - (snapHeight + 1).toNat) (snapHeight + 1)

/-- `rebuildStateFromFinalized`. -/
def rebuildStateFromFinalizedCall : Call (Res Unit) :=
  match (listSnapshots n.snapshotDir).getLast?.bind (readSnapshotAuto n.snapshotDir) with
  | some ss => do
      Call.restoreSnapshot ss
      if ss.height = 0 then do
        n.resetToGenesisCall
        n.replayFromCall 0
      else n.replayFromCall ss.height
  | none => do
      n.resetToGenesisCall
      n.replayFromCall 0

/-! ### Checkpoints -/

/-- The counting loop of `tryFinalizeHeight` over votes and registry entries that were read. -/
def tallyOf (votes : List VoteRecord) (valsReg : List RegValidator) (height : UInt64)
    (hashHex : String) : Int64 × Int64 :=
  votes.foldl (fun (acc : Int64 × Int64) vr =>
    if vr.blockHash ≠ hashHex ∨ vr.chainID ≠ n.genesis.chainID then acc
    else if valsReg ≠ [] then n.tallyRegistry valsReg height hashHex vr acc
    else (n.tallyConfig height hashHex vr acc.1, totalWeight n.validators)) (0, 0)

/-- `tryFinalizeHeight`. -/
def tryFinalizeHeightCall (now : Int64) (height : UInt64) (hashHex : String) : Call Unit := do
  let votes ← Prog.read (Access.get (.votes height)) fun s : DB => s.listVotesForHeight height
  let valsReg ← Prog.read (Access.get .validators) fun s : DB => s.listValidators 5000
  let tally := n.tallyOf votes valsReg height hashHex
  if tally.2 ≠ 0 && reachedThreshold tally.1 tally.2 n.thresholdNum n.thresholdDen then do
    Call.putFinalized height hashHex
    Call.putCheckpoint height ⟨height, hashHex, now⟩
  else pure ()

/-- `processCheckpointVotes`. -/
def processCheckpointVotesCall (now : Int64) (cp : Checkpoint) : Call Unit :=
  if n.cfg.role = "observer" ∨ n.isReadOnly then pure ()
  else if ¬ n.isLocalValidator then pure ()
  else
    match parsePriv n.localPrivHex with
    | none => pure ()
    | some priv => do
        let has ← Prog.read (Access.get (.vote cp.height n.localPubHex)) fun s : DB =>
          s.hasVote cp.height n.localPubHex
        if has then n.tryFinalizeHeightCall now cp.height cp.hashHex
        else do
          Prog.write (Access.put (.vote cp.height n.localPubHex)) fun s : DB =>
            n.signAndStore now s priv cp.height cp.hashHex
          n.tryFinalizeHeightCall now cp.height cp.hashHex

/-! ### Fork choice -/

/-- The anchor of `trySwitchMainChain`. -/
def switchAnchorCall : Call (Res (UInt64 × String)) := do
  match ← Call.getFinalized with
  | some fin => pure (.ok fin)
  | none =>
      match ← Call.getBlockByHeight 0 with
      | none => pure (.error (.error "missing genesis"))
      | some (ghash, _) => pure (.ok (0, ghash))

/-- The walk of `trySwitchMainChain`. -/
def walkBackCall (finH : UInt64) : ℕ → String → List String → Call (Res (List String))
  | 0, h, path =>
      if finH = 0 then pure (.ok (h :: path))
      else do
        match ← Call.getBlockByHash h with
        | none => pure (.error (.error "missing block in candidate chain"))
        | some _ => pure (.ok (h :: path))
  | curHeight + 1, h, path =>
      if curHeight + 1 = finH.toNat then pure (.ok (h :: path))
      else do
        match ← Call.getBlockByHash h with
        | none => pure (.error (.error "missing block in candidate chain"))
        | some b =>
            if curHeight < finH.toNat then
              pure (.error (.error "candidate does not reach finalized height"))
            else walkBackCall finH curHeight b.prevHex (h :: path)

/-- The rewriting of the height index along a path. -/
def rewriteIndexCall : UInt64 → List String → Call Unit
  | _, [] => pure ()
  | h, x :: path => do
      Call.putHashByHeightOverwrite h x
      rewriteIndexCall (h + 1) path

/-- `trySwitchMainChain`. -/
def trySwitchMainChainCall (newTipHash : String) (newTipHeight : UInt64) : Call (Res Unit) :=
  Call.andThen switchAnchorCall fun fin =>
    if DB.makesliceFails (DB.pathCap fin.1 newTipHeight) then
      pure (.error (.panic "makeslice: cap out of range"))
    else
      Call.andThen (walkBackCall fin.1 newTipHeight.toNat newTipHash []) fun path =>
        if path.head? ≠ some fin.2 then pure (.error (.error "candidate chain anchor mismatch"))
        else do
          rewriteIndexCall fin.1 path
          Call.putTip newTipHeight newTipHash
          let _ ← n.rebuildStateFromFinalizedCall
          pure (.ok ())

/-! ### `SubmitBlock` -/

/-- The fast path of `SubmitBlock`. -/
def extendTipCall (now : Int64) (b : Block) (cum : UInt64) : Call (Res Unit) :=
  Call.andThen (n.validateBlockStateTipCall b) fun _ => do
    Call.putTip b.header.height (n.hashHex b.header)
    Call.putTipWork cum
    Call.putHashByHeightOverwrite b.header.height (n.hashHex b.header)
    if n.finalityEnabled && b.header.height % n.checkpointInterval = 0 then do
      let cp : Checkpoint := ⟨b.header.height, n.hashHex b.header, b.header.timeUnix⟩
      Call.putCheckpoint b.header.height cp
      n.processCheckpointVotesCall now cp
      pure (.ok ())
    else pure (.ok ())

/-- The fork choice of `SubmitBlock`. -/
def selectForkCall (b : Block) (cum : UInt64) : Call (Res Unit) := do
  let curWork ← Call.getTipWork
  if curWork < cum then do
    match ← n.trySwitchMainChainCall (n.hashHex b.header) b.header.height with
    | .ok _ => do
        Call.putTipWork cum
        pure (.ok ())
    | .error (.error _) => pure (.ok ())
    | .error (.panic msg) => pure (.error (.panic msg))
  else pure (.ok ())

/-- The part of `SubmitBlock` from `PutBlock` on. -/
def storeBlockCall (now : Int64) (b : Block) : Call (Res Unit) := do
  Call.putBlock (n.hashHex b.header) b.header.height b
  Call.putHeader (n.hashHex b.header) b.header
  let parentWork ← Call.getWork b.prevHex
  let cum := cumulative parentWork (work64 b.header.bits)
  Call.putWork (n.hashHex b.header) cum
  match ← Call.getTip with
  | some (tipH, tipHash) =>
      if b.prevHex = tipHash && b.header.height = tipH + 1 then n.extendTipCall now b cum
      else n.selectForkCall b cum
  | none => n.selectForkCall b cum

/-- `SubmitBlock`. -/
def submitBlockCall (nextWork : UInt64 → Call (Option UInt32)) (now : Int64) (b : Block) :
    Call (Res Unit) :=
  if b.header.chainID ≠ n.genesis.chainID then pure (.error (.error "wrong chain_id"))
  else
    match n.validateLimits b with
    | .error e => pure (.error e)
    | .ok _ =>
        Call.andThen (n.validateBlockStateOnMainParentCall b) fun _ =>
          match n.validateBlockBasic b with
          | .error e => pure (.error e)
          | .ok _ =>
              if ¬ meetsTarget (b.header.hash n.prim.sha256) b.header.bits then
                pure (.error (.error "pow does not meet target"))
              else if b.header.height = 0 then pure (.ok ())
              else
                Call.andThen (checkParentCall nextWork b) fun _ => n.storeBlockCall now b

end Node

end ReserveOS
