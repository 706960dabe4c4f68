import ReserveOS.Node.ForkChoice

/-!
# Reorganising to the best header chain

`ReorgToBestHeaderChain` of `reorg_best.go` with `RebuildStateToHeight` of `reorg.go`,
`BlockMatchesStoredHeader` and `enforceFinalizedOnCandidate`. The headers are those of
`headers_index.go`, which are stored apart from the headers of `SubmitBlock`. `ApplyBlock` is read
as `applyBlockTxs`, and `findForkPointCached` as `findForkPoint`; neither of the first names is
defined in the repository.

The walks along previous hashes have no bound in the source. Here they have as many rounds as the
height of their start allows when heights go down, and end in a panic after that.
-/

namespace ReserveOS

/-- The tables of `headers_index.go`. -/
structure HeaderIndex where
  /-- `hdr:` -/
  header : String → Option BlockHeader
  /-- `hdrtip:h` and `hdrtip:hash` -/
  tip : Option (UInt64 × String)

/-! ### Header chains -/

namespace HeaderIndex

variable (hs : HeaderIndex)

/-- The rounds of a walk from a header down to height zero. -/
def depth (hash : String) : ℕ := ((hs.header hash).map fun hdr => hdr.height.toNat).getD 0 + 1

/-- The loop of `headerPathFromTo`. The path is collected lowest header first; the source appends
the hashes in the opposite order and then reverses them. -/
def pathWalk (fromH toH : UInt64) : ℕ → String → List String → Res (List String)
  | 0, _, _ => .error (.panic "endless walk")
  | fuel + 1, cur, seq =>
      match hs.header cur with
      | none => .error (.error "unknown_header")
      | some hdr =>
          if hdr.height < fromH then .ok seq
          else
            let seq := if hdr.height ≤ toH then cur :: seq else seq
            if hdr.height = fromH then .ok seq
            else pathWalk fromH toH fuel hdr.prevHash.toHex seq

/-- `headerPathFromTo`. -/
def headerPathFromTo (fromH toH : UInt64) (tipHash : String) : Res (List String) :=
  if toH < fromH then .ok []
  else if DB.makesliceFails (toH - fromH + 1).toInt64 then
    .error (.panic "makeslice: cap out of range")
  else hs.pathWalk fromH toH (hs.depth tipHash) tipHash []

end HeaderIndex

/-! ### The ledger at a height -/

/-- `WipeStatePrefixes` and `ImportStateMaps`: exactly the entries of the snapshot. -/
def Snapshot.imported (ss : Snapshot) : Ledger := ⟨ss.balances, ss.nonces⟩

/-- The genesis allocations, each written with `SetBalance`. -/
def Ledger.setAllocations (allocs : List Allocation) : Ledger :=
  allocs.foldl (fun l a => l.setBalance a.address (parseInt64 a.balance)) empty

namespace Node

variable (n : Node)

/-- The snapshot that `ApplyStateUpTo` chooses: the highest one not above the target, the last file
of equals. -/
def bestSnapshot (target : UInt64) : Option Snapshot :=
  (listSnapshots n.snapshotDir).foldl (fun best p =>
    match readSnapshotAuto n.snapshotDir p with
    | none => best
    | some ss =>
        if ss.height ≤ target ∧ (best.map Snapshot.height).getD 0 ≤ ss.height then some ss
        else best) none

/-- The ledger that `ApplyStateUpTo` replays on, and its height. -/
def stateBase (target : UInt64) : UInt64 × Ledger :=
  match n.bestSnapshot target with
  | some ss => (ss.height, ss.imported)
  | none => (0, Ledger.setAllocations n.genesis.allocations)

/-- The replay loop of `ApplyStateUpTo`, over `count` heights from `h` on. It goes on as long as the
counter is not above the target, and so does not end once the counter has wrapped around. -/
def replayTo (target : UInt64) : ℕ → UInt64 → DB → Res Unit × DB
  | 0, h, s => (if h ≤ target then .error (.panic "endless loop") else .ok (), s)
  | count + 1, h, s =>
      match s.getBlockByHeight h with
      | none => (.error (.error ("missing_block_" ++ toString h)), s)
      | some (_, b) =>
          match n.applyBlockTxs s b with
          | (.error e, s') => (.error e, s')
          | (.ok _, s') => replayTo target count (h + 1) s'

/-- `ApplyStateUpTo`. -/
def applyStateUpTo (s : DB) (target : UInt64) : Res Unit × DB :=
  let start := (n.stateBase target).1 + 1
  n.replayTo target (target.toNat + 1 - start.toNat) start
    { s with ledger := (n.stateBase target).2 }

/-- `RebuildStateToHeight`. -/
def rebuildStateToHeight (s : DB) (target : UInt64) : Res Unit × DB :=
  match s.finalizedHeight with
  | some finH =>
      if 0 < finH ∧ target < finH then (.error (.error "below_finalized"), s)
      else n.applyStateUpTo s target
  | none => n.applyStateUpTo s target

/-! ### Checks on the candidate -/

/-- The walk of `GetAncestorHashAtHeight`. -/
def ancestorWalk (s : DB) (targetHeight : UInt64) : ℕ → String → Option String
  | 0, _ => none
  | fuel + 1, cur =>
      match s.blockByHash cur with
      | none => none
      | some b =>
          if b.header.height = targetHeight then some (n.hashHex b.header)
          else if b.header.height < targetHeight then none
          else if b.header.height = 0 then none
          else ancestorWalk s targetHeight fuel b.prevHex

/-- `GetAncestorHashAtHeight`, over stored blocks. -/
def getAncestorHashAtHeight (s : DB) (tipHash : String) (targetHeight : UInt64) : Option String :=
  n.ancestorWalk s targetHeight
    (((s.blockByHash tipHash).map fun b => b.header.height.toNat).getD 0 + 1) tipHash

/-- `enforceFinalizedOnCandidate`. -/
def enforceFinalizedOnCandidate (s : DB) (candidateTipHash : String) : Res Unit :=
  match s.finalizedHeight with
  | none => .ok ()
  | some finH =>
      if finH = 0 then .ok ()
      else
        match s.getBlockByHeight finH with
        | none => .ok ()
        | some (_, mainB) =>
            match n.getAncestorHashAtHeight s candidateTipHash finH with
            | none => .ok ()
            | some candHash =>
                if candHash ≠ n.hashHex mainB.header then .error (.error "violates_finalized")
                else .ok ()

/-- The loop of `findForkPoint`. -/
def forkWalk (hs : HeaderIndex) (s : DB) (curH : UInt64) : ℕ → String → Res (UInt64 × String)
  | 0, _ => .error (.panic "endless walk")
  | fuel + 1, cur =>
      match hs.header cur with
      | none => .error (.error "unknown_header")
      | some hdr =>
          if hdr.height = 0 then .ok (0, "")
          else if hdr.height ≤ curH ∧
              (s.getBlockByHeight hdr.height).any (fun e => n.hashHex e.2.header = cur) then
            .ok (hdr.height, cur)
          else forkWalk hs s curH fuel hdr.prevHash.toHex

/-- `findForkPoint`. -/
def findForkPoint (hs : HeaderIndex) (s : DB) (curH : UInt64) (curHash headHash : String) :
    Res (UInt64 × String) :=
  if curHash = "" then .ok (0, "")
  else n.forkWalk hs s curH (hs.depth headHash) headHash

/-- `BlockMatchesStoredHeader`. -/
def blockMatchesStoredHeader (hs : HeaderIndex) (b : Block) : Res Unit :=
  match hs.header (n.hashHex b.header) with
  | none => .error (.error "missing_header")
  | some hdr =>
      if hdr.height ≠ b.header.height then .error (.error "height_mismatch")
      else if hdr.prevHash ≠ b.header.prevHash then .error (.error "prev_mismatch")
      else if hdr.bits ≠ b.header.bits then .error (.error "bits_mismatch")
      else if hdr.timeUnix ≠ b.header.timeUnix then .error (.error "ts_mismatch")
      else if hdr.txRoot ≠ b.header.txRoot then .error (.error "txroot_mismatch")
      else .ok ()

/-! ### The reorganisation -/

/-- The loop over the old branch, over `count` heights from `h` on and up to the first missing
block. Like the replay loop, it does not end once the counter has wrapped around. -/
def oldBranchWalk (s : DB) (curH : UInt64) : ℕ → UInt64 → List Tx → Res (List Tx)
  | 0, h, txs => if h ≤ curH then .error (.panic "endless loop") else .ok txs
  | count + 1, h, txs =>
      match s.getBlockByHeight h with
      | none => .ok txs
      | some (_, b) =>
          oldBranchWalk s curH count (h + 1) (txs ++ b.txs.filter fun tx => tx.type ≠ "coinbase")

/-- The transactions of the old branch, coinbases apart. -/
def oldBranchTxs (s : DB) (curH forkH : UInt64) : Res (List Tx) :=
  if forkH < curH then oldBranchWalk s curH (curH.toNat - forkH.toNat) (forkH + 1) [] else .ok []

/-- The loop of `ReorgToBestHeaderChain` along the path of header hashes. -/
def followPath (hs : HeaderIndex) : DB → List String → Res Unit × DB
  | s, [] => (.ok (), s)
  | s, bh :: path =>
      match s.blockByHash bh with
      | none => (.error (.error ("missing_block_" ++ bh)), s)
      | some blk =>
          match n.blockMatchesStoredHeader hs blk with
          | .error e => (.error e, s)
          | .ok _ =>
              match n.applyBlockTxs s blk with
              | (.error e, s') => (.error e, s')
              | (.ok _, s') => followPath hs (s'.putTip blk.header.height bh) path

/-- The second half of `ReorgToBestHeaderChain`: the ledger goes back to the fork, and the blocks of
the header chain are applied from there on. -/
def moveTo (hs : HeaderIndex) (s : DB) (forkH hH : UInt64) (hHash : String) : Res Unit × DB :=
  match n.rebuildStateToHeight s forkH with
  | (.error e, s') => (.error e, s')
  | (.ok _, s') =>
      match hs.headerPathFromTo (forkH + 1) hH hHash with
      | .error e => (.error e, s')
      | .ok path => n.followPath hs s' path

/-- `ReorgToBestHeaderChain`, with the transactions that it hands to `ReinsertTxs`. -/
def reorgToBestHeaderChain (hs : HeaderIndex) (s : DB) : Res (List Tx) × DB :=
  let cur := s.getTip.getD (0, "")
  match hs.tip with
  | none => (.error (.error "no_header_tip"), s)
  | some (hH, hHash) =>
      if hHash = "" then (.error (.error "no_header_tip"), s)
      else if cur.2 ≠ "" ∧ cur.2 = hHash then (.ok [], s)
      else
        match n.enforceFinalizedOnCandidate s hHash with
        | .error e => (.error e, s)
        | .ok _ =>
            match n.findForkPoint hs s cur.1 cur.2 hHash with
            | .error e => (.error e, s)
            | .ok (forkH, _) =>
                match oldBranchTxs s cur.1 forkH with
                | .error e => (.error e, s)
                | .ok oldTxs =>
                    match n.moveTo hs s forkH hH hHash with
                    | (.error e, s') => (.error e, s')
                    | (.ok _, s') => (.ok oldTxs, s')

end Node

end ReserveOS
