import ReserveOS.Node.Config

/-!
# Block validation

The block rules of `limits_validate.go`, `block_validate.go` and `block_validate_fork.go`:

* `validateLimits` bounds sizes;
* `validateBlockBasic` checks coinbase shape, fees and signatures, without any state;
* `simulateTip` and `validateBlockStateTip` run a block on a working copy of the stored ledger;
* `applyBlockToSim` is the second, separately written simulator, used on replayed forks.

Amounts are summed in `int64`, so sums of outputs wrap.
-/

namespace ReserveOS

/-- `outTotal`: the wrapped sum of the output amounts. -/
def outTotal (outs : List TxOut) : Int64 := outs.foldl (fun t o => t + o.amount) 0

/-- `sumFees`: the wrapped sum of the fees of the non-coinbase transactions. -/
def sumFees (txs : List Tx) : Int64 :=
  txs.foldl (fun s tx => if tx.type = "coinbase" then s else s + tx.fee) 0

/-- The claim bucket of a one-time key. -/
def otapBucket (P : String) : String := "otap:" ++ P

/-- `TxSizeHint`. -/
def txSizeHint (outputs : ℕ) : ℕ := 180 + 80 * outputs

/-- `EstimateFee`. -/
def estimateFee (txBytes : ℕ) (isOTAP : Bool) (p : FeesConfig) : Int64 :=
  let base := p.baseFeeMin + p.perByte * Int64.ofNat txBytes
  let fee := if isOTAP ∧ 1 < p.otapMultiplier then base * p.otapMultiplier else base
  let fee := match p.mode with
    | .normal => fee
    | .defense => fee * 2
    | .containment => fee * 4
  if fee < p.baseFeeMin then p.baseFeeMin else fee

/-! ### Working copies -/

namespace Sim

/-- Crediting the outputs of a transfer: to the address, else to the claim bucket of `P`. An
output with neither credits nobody. -/
def creditOutputs (m : Sim) (outs : List TxOut) : Sim :=
  outs.foldl (fun m o =>
    if o.address ≠ "" then m.addBal o.address o.amount
    else if o.P ≠ "" then m.addBal (otapBucket o.P) o.amount
    else m) m

/-- One transaction of the loop of `ValidateBlockStateTip`. -/
def simTx (m : Sim) (tx₀ : Tx) : Res Sim :=
  let tx := tx₀.normalize
  if tx.nonce ≠ m.nonce tx.fromId + 1 then .error (.error "bad nonce in block")
  else
    let m := m.setNonce tx.fromId tx.nonce
    if tx.type = "otap_claim" then
      match tx.otapClaim with
      | none => .error (.panic "nil pointer dereference")
      | some c =>
          let bucket := otapBucket c.P
          let need := c.amount + tx.fee
          if m.bal bucket < need then .error (.error "insufficient otap bucket")
          else .ok ((m.setBal bucket (m.bal bucket - need)).addBal c.toId c.amount)
    else
      let need := outTotal tx.outputs + tx.fee
      if m.bal tx.fromId < need then .error (.error "insufficient funds")
      else .ok ((m.setBal tx.fromId (m.bal tx.fromId - need)).creditOutputs tx.outputs)

/-- The loop of `ValidateBlockStateTip`. -/
def simTxs : Sim → List Tx → Res Sim
  | m, [] => .ok m
  | m, tx :: txs => (m.simTx tx).bind fun m' => simTxs m' txs

/-- One transaction of the loop of `applyBlockToSim`. -/
def applyTxToSim (m : Sim) (tx : Tx) : Res Sim :=
  if tx.type = "coinbase" then
    .ok (tx.outputs.foldl (fun m o => m.addBal o.address o.amount) m)
  else if tx.nonce ≠ m.nonce tx.fromId + 1 then .error (.error "bad_nonce")
  else
    match (if tx.type = "otap_claim" then tx.otapClaim else none) with
    | some c =>
        let bucket := otapBucket c.P
        let need := c.amount + tx.fee
        if m.bal bucket < need then .error (.error "insufficient_otap_bucket")
        else
          .ok (((m.setBal bucket (m.bal bucket - need)).addBal c.toId c.amount).setNonce
            tx.fromId tx.nonce)
    | none =>
        let need := outTotal tx.outputs + tx.fee
        if m.bal tx.fromId < need then .error (.error "insufficient_funds")
        else
          .ok (((m.setBal tx.fromId (m.bal tx.fromId - need)).setNonce
            tx.fromId tx.nonce).creditOutputs tx.outputs)

/-- The loop of `applyBlockToSim`. -/
def applyTxsToSim : Sim → List Tx → Res Sim
  | m, [] => .ok m
  | m, tx :: txs => (m.applyTxToSim tx).bind fun m' => applyTxsToSim m' txs

end Sim

namespace Node

variable (n : Node)

/-- `ValidateLimits`. -/
def validateLimits (b : Block) : Res Unit :=
  let lim := n.cfg.limits
  if 0 < lim.maxBlockTxs ∧ lim.maxBlockTxs < b.txs.length then .error (.error "too_many_txs")
  else if 0 < lim.maxBlockBytes ∧ lim.maxBlockBytes < b.sizeHint then
    .error (.error "block_too_large")
  else if b.txs.any fun tx => 0 < lim.maxTxOutputs ∧ lim.maxTxOutputs < tx.outputs.length then
    .error (.error "tx_too_many_outputs")
  else .ok ()

/-- The coinbase rules of `ValidateBlockBasic`. -/
def coinbaseRules (txs : List Tx) : Res Unit :=
  if n.cfg.issuance.enabled then
    match txs with
    | [] => .error (.error "missing coinbase")
    | cb :: rest =>
        if cb.type ≠ "coinbase" then .error (.error "coinbase must be first")
        else if rest.any fun tx => tx.type = "coinbase" then .error (.error "multiple coinbase")
        else
          match cb.outputs with
          | [o] =>
              if o.amount ≠ n.cfg.issuance.blockReward then .error (.error "bad coinbase amount")
              else .ok ()
          | _ => .error (.error "coinbase must have exactly 1 output")
  else if txs.any fun tx => tx.type = "coinbase" then .error (.error "coinbase disabled")
  else .ok ()

/-- The claim rules of `ValidateBlockBasic`, for a transaction of type `otap_claim`. -/
def checkClaim (tx : Tx) : Res Unit :=
  match tx.otapClaim with
  | none => .error (.error "bad otap_claim")
  | some c =>
      if c.P = "" ∨ c.toId = "" then .error (.error "bad otap_claim")
      else if c.toId ≠ tx.fromId then .error (.error "claim_to must equal from")
      else if c.claimSigHex = "" then .error (.error "missing claim_sig")
      else if ¬ n.prim.pointSetBytes c.P then .error (.error "bad claim P")
      else if ¬ n.prim.schnorrVerify c.P tx.signingBytes c.claimSigHex then
        .error (.error "bad claim signature")
      else .ok ()

/-- The loop body of `ValidateBlockBasic`: fee policy, account signature and claim signature. The
signature is checked on the copy whose empty type has been replaced. -/
def checkTx (tx₀ : Tx) : Res Unit :=
  let tx := tx₀.normalize
  if tx.type = "coinbase" then .error (.error "coinbase forbidden in non-first position")
  else if tx.fee < estimateFee (txSizeHint tx.outputs.length)
      (tx.outputs.any fun o => o.P ≠ "" ∧ o.R ≠ "") n.cfg.fees then
    .error (.error "tx fee below policy")
  else if tx.fromId = "" ∨ tx.pubKey = "" ∨ tx.sigHex = "" then
    .error (.error "missing tx signature")
  else if tx.fromId ≠ tx.pubKey then .error (.error "from/pub mismatch")
  else if ¬ n.prim.sigVerify tx.pubKey tx.sigHex tx.signingBytes then
    .error (.error "bad tx signature")
  else if tx.type = "otap_claim" then n.checkClaim tx
  else .ok ()

/-- The signature loop of `ValidateBlockBasic`. -/
def checkTxs : List Tx → Res Unit
  | [] => .ok ()
  | tx :: txs => (n.checkTx tx).bind fun _ => checkTxs txs

/-- The transactions that the signature loop and the simulation run over: all of them, or all but
the coinbase. -/
def signedTxs (txs : List Tx) : List Tx := if n.cfg.issuance.enabled then txs.tail else txs

/-- The rule both validators end with: a coinbase in first position covers reward and fees. -/
def coinbaseCoversFees (txs : List Tx) : Res Unit :=
  match txs with
  | [] => .ok ()
  | cb :: _ =>
      if cb.type = "coinbase" ∧ outTotal cb.outputs < n.cfg.issuance.reward + sumFees txs then
        .error (.error "coinbase_missing_fees")
      else .ok ()

/-- `ValidateBlockBasic`. -/
def validateBlockBasic (b : Block) : Res Unit :=
  (n.coinbaseRules b.txs).bind fun _ =>
    (n.checkTxs (n.signedTxs b.txs)).bind fun _ => n.coinbaseCoversFees b.txs

/-- The simulation inside `ValidateBlockStateTip`, with its final working copy. -/
def simulateTip (m : Sim) (b : Block) : Res Sim :=
  if n.cfg.issuance.enabled then
    match b.txs with
    | [] => .error (.panic "index out of range")
    | cb :: rest =>
        match cb.outputs with
        | [] => .error (.panic "index out of range")
        | o :: _ => (m.addBal o.address o.amount).simTxs rest
  else m.simTxs b.txs

/-- `ValidateBlockStateTip` against a stored ledger. -/
def validateBlockStateTip (l : Ledger) (b : Block) : Res Unit :=
  (n.simulateTip l.view b).bind fun _ => n.coinbaseCoversFees b.txs

/-- `applyBlockToSim`. -/
def applyBlockToSim (m : Sim) (b : Block) : Res Sim :=
  (n.validateLimits b).bind fun _ =>
    (n.validateBlockBasic b).bind fun _ => m.applyTxsToSim b.txs

end Node

end ReserveOS
