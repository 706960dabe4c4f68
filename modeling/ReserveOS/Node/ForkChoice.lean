import ReserveOS.Node.Apply

/-!
# Forks: replayed validation and chain switches

`ValidateBlockStateOnMainParent` of `block_validate_fork.go`, which replays the height index up to
a block's parent, and `trySwitchMainChain` of `forkchoice.go`, which moves the height index and
the tip to another branch.
-/

namespace ReserveOS

/-- `baseName`. -/
def baseName (p : String) : String :=
  String.ofList (p.toList.reverse.takeWhile fun c => c ≠ '/' ∧ c ≠ '\\').reverse

/-- `strconv.ParseUint(s, 10, 64)`. -/
def parseUint (s : List Char) : Option UInt64 :=
  if s ≠ [] ∧ s.all (fun c => '0' ≤ c ∧ c ≤ '9') then
    let v := s.foldl (fun acc c => acc * 10 + (c.toNat - 48)) 0
    if v < 2 ^ 64 then some (UInt64.ofNat v) else none
  else none

/-- `parseSnapshotHeight`. -/
def parseSnapshotHeight (base : String) : Option UInt64 :=
  if "state_".toList.isPrefixOf base.toList then
    let rest := base.toList.drop 6
    let suf := ".json.gz".toList
    parseUint (if suf.isSuffixOf rest then rest.take (rest.length - suf.length) else rest)
  else none

/-- `pickSnapshotForHeight`: the highest snapshot not above `h`, the last one of equals, and `""`
when there is none. -/
def pickSnapshotForHeight (paths : List String) (h : UInt64) : String :=
  (paths.foldl (fun (best : String × UInt64) p =>
    match parseSnapshotHeight (baseName p) with
    | some k => if k ≤ h ∧ best.2 ≤ k then (p, k) else best
    | none => best) ("", 0)).1

namespace Snapshot

/-- The maps of a snapshot, copied into a working copy. -/
def view (ss : Snapshot) : Sim where
  bal id := ss.balances[id]?.getD 0
  nonce id := ss.nonces[id]?.getD 0

end Snapshot

namespace Sim

/-- The empty Go maps. -/
def empty : Sim := ⟨fun _ => 0, fun _ => 0⟩

/-- `simBal[a.Address] += parseInt64(a.Balance)` for every genesis allocation. -/
def addAllocations (m : Sim) (allocs : List Allocation) : Sim :=
  allocs.foldl (fun m a => m.addBal a.address (parseInt64 a.balance)) m

end Sim

namespace Node

variable (n : Node)

/-- The ledger the genesis allocations give a simulation. -/
def genesisSim : Sim := Sim.empty.addAllocations n.genesis.allocations

/-- The height and working copy that a fork replay starts from. -/
def forkBase (parentH : UInt64) : UInt64 × Sim :=
  let best := pickSnapshotForHeight (listSnapshots n.snapshotDir) parentH
  match (if best = "" then none else readSnapshot n.snapshotDir best) with
  | some ss =>
      if ss.height = 0 then (0, ss.view.addAllocations n.genesis.allocations)
      else (ss.height, ss.view)
  | none => (0, n.genesisSim)

/-- `fmt.Errorf("replay_invalid:%w", err)`; a panic is not an error and passes through. -/
def wrapReplay : Fault → Fault
  | .error msg => .error ("replay_invalid:" ++ msg)
  | .panic msg => .panic msg

/-- The replay loop over `count` heights of the index from `h` on; a missing block ends it. -/
def replayIndex (s : DB) : ℕ → UInt64 → Sim → Res Sim
  | 0, _, m => .ok m
  | count + 1, h, m =>
      match s.getBlockByHeight h with
      | none => .ok m
      | some (_, blk) =>
          match n.applyBlockToSim m blk with
          | .error e => .error (wrapReplay e)
          | .ok m' => replayIndex s count (h + 1) m'

/-- The working copy that `ValidateBlockStateOnMainParent` checks a block of height `parentH + 1`
against. -/
def mainParentSim (s : DB) (parentH : UInt64) : Res Sim :=
  let start := (n.forkBase parentH).1 + 1
  n.replayIndex s (parentH.toNat + 1 - start.toNat) start (n.forkBase parentH).2

/-- The gates of `ValidateBlockStateOnMainParent`: it replays only when configured to, for a block
above genesis whose parent is the index entry below it, within the replay bound. -/
def forkStateChecked (s : DB) (b : Block) : Bool :=
  n.cfg.validation.validateForkState && b.header.height ≠ 0 &&
    (match s.getBlockByHeight (b.header.height - 1) with
      | none => false
      | some (_, parent) => n.hashHex parent.header = b.prevHex) &&
    (let parentH := b.header.height - 1
     let tipH := (s.getTip.map Prod.fst).getD 0
     ! (parentH < tipH && n.cfg.validation.maxReplayBlocks < tipH - parentH))

/-- `ValidateBlockStateOnMainParent`. -/
def validateBlockStateOnMainParent (s : DB) (b : Block) : Res Unit :=
  if n.forkStateChecked s b then
    (n.mainParentSim s (b.header.height - 1)).bind fun m =>
      (n.applyBlockToSim m b).bind fun _ => .ok ()
  else .ok ()

end Node

/-! ### Switching the main chain -/

namespace DB

/-- The walk of `trySwitchMainChain` from hash `h` at height `curHeight` down to `finH`. The path
is returned anchor first; the source appends the hashes in the opposite order. -/
def walkBack (s : DB) (finH : UInt64) : ℕ → String → List String → Res (List String)
  | 0, h, path =>
      if finH = 0 then .ok (h :: path)
      else
        match s.blockByHash h with
        | none => .error (.error "missing block in candidate chain")
        | some _ => .ok (h :: path)
  | curHeight + 1, h, path =>
      if curHeight + 1 = finH.toNat then .ok (h :: path)
      else
        match s.blockByHash h with
        | none => .error (.error "missing block in candidate chain")
        | some b =>
            if curHeight < finH.toNat then
              .error (.error "candidate does not reach finalized height")
            else walkBack s finH curHeight b.prevHex (h :: path)

/-- Rewriting the height index along a path that starts at height `h`. -/
def rewriteIndex : DB → UInt64 → List String → DB
  | s, _, [] => s
  | s, h, x :: path => rewriteIndex (s.putHashByHeightOverwrite h x) (h + 1) path

/-- The writes of a chain switch: the height index along the path, and the tip. -/
def switchTo (s : DB) (finH : UInt64) (path : List String) (newTipHash : String)
    (newTipHeight : UInt64) : DB :=
  (s.rewriteIndex finH path).putTip newTipHeight newTipHash

/-- The anchor of `trySwitchMainChain`: the finalized pair, else the genesis entry of the index. -/
def switchAnchor (s : DB) : Res (UInt64 × String) :=
  match s.finalized with
  | some fin => .ok fin
  | none =>
      match s.getBlockByHeight 0 with
      | none => .error (.error "missing genesis")
      | some (ghash, _) => .ok (0, ghash)

/-- `make([]string, 0, cap)` panics: the capacity is negative, or its strings of 16 bytes each
exceed the address space of 48 bits. -/
def makesliceFails (cap : Int64) : Bool := cap < 0 || 0x100000000000 < cap

/-- The capacity `int(newTipHeight-finH)+1` of the path slice, computed in `uint64` and `int`. -/
def pathCap (finH newTipHeight : UInt64) : Int64 := (newTipHeight - finH).toInt64 + 1

/-- The checks of `trySwitchMainChain`: the path from the anchor to the candidate. -/
def candidatePath (s : DB) (newTipHash : String) (newTipHeight : UInt64) :
    Res (UInt64 × List String) :=
  (s.switchAnchor).bind fun fin =>
    if makesliceFails (pathCap fin.1 newTipHeight) then
      .error (.panic "makeslice: cap out of range")
    else
      (s.walkBack fin.1 newTipHeight.toNat newTipHash []).bind fun path =>
        if path.head? ≠ some fin.2 then .error (.error "candidate chain anchor mismatch")
        else .ok (fin.1, path)

end DB

namespace Node

variable (n : Node)

/-- `trySwitchMainChain`. The error of the state rebuild is dropped. -/
def trySwitchMainChain (s : DB) (newTipHash : String) (newTipHeight : UInt64) : Res Unit × DB :=
  match s.candidatePath newTipHash newTipHeight with
  | .error e => (.error e, s)
  | .ok (finH, path) =>
      (.ok (), (n.rebuildStateFromFinalized (s.switchTo finH path newTipHash newTipHeight)).2)

end Node

end ReserveOS
