import ReserveOS.Chain.Types

/-!
# The genesis file

`Genesis.Validate` of `genesis.go`, which decides whether a node starts from a genesis file.
-/

namespace ReserveOS

/-- The optional finality parameters of the genesis file. -/
structure GenesisFinality where
  checkpointInterval : UInt64
  thresholdNum : Int64
  thresholdDen : Int64
deriving DecidableEq

/-- The genesis file as it is loaded, with the finality parameters. -/
structure GenesisFile extends Genesis where
  finality : Option GenesisFinality
deriving DecidableEq

/-- The loop of `Validate` over the allocations, from index `i` on. Two entries may have the same
address, and every text that is not empty is a balance. -/
def validateAllocations : ℕ → List Allocation → Res Unit
  | _, [] => .ok ()
  | i, a :: allocs =>
      if a.address = "" then
        .error (.error ("genesis.allocations[" ++ toString i ++ "].address required"))
      else if a.balance = "" then
        .error (.error ("genesis.allocations[" ++ toString i ++ "].balance required"))
      else validateAllocations (i + 1) allocs

/-- The check of the finality parameters, where the file has them. -/
def GenesisFinality.validate (f : GenesisFinality) : Res Unit :=
  if f.checkpointInterval = 0 then .error (.error "genesis.finality.checkpoint_interval invalid")
  else if f.thresholdNum ≤ 0 ∨ f.thresholdDen ≤ 0 then
    .error (.error "genesis.finality.threshold invalid")
  else .ok ()

/-- `Genesis.Validate`. -/
def GenesisFile.validate (g : GenesisFile) : Res Unit :=
  if g.chainID = "" then .error (.error "genesis.chain_id required")
  else if g.protocolVersion = 0 then .error (.error "genesis.protocol_version required")
  else if g.genesisTimeUnix ≤ 0 then .error (.error "genesis.genesis_time_unix required")
  else if g.powLeadingZeroBits = 0 ∨ 255 < g.powLeadingZeroBits then
    .error (.error "genesis.consensus.pow_leading_zero_bits invalid")
  else
    (validateAllocations 0 g.allocations).bind fun _ =>
      g.finality.elim (.ok ()) GenesisFinality.validate

end ReserveOS
