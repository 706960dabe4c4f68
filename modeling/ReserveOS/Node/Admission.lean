import ReserveOS.Node.Finality
import ReserveOS.Node.Mempool

/-!
# Admission of transactions

The handler of `/tx/submit` in `node.go`. It fills in defaults, checks the transaction against the
fee policy, its signature and the stored ledger, and hands it to the mempool. The handler works on
its own copy of the transaction, so the order of checks and defaults matters: a default that is
filled in before a check is what the check sees.

Gossip to peers and the persisted copy of the mempool are left out.
-/

namespace ReserveOS

/-- A request to `/tx/submit`. The body is `none` when it is not the JSON of a transaction. -/
structure TxRequest where
  method : String
  body : Option Tx

/-- `\x7b"error":"<code>"\x7d` with status 400. -/
def badRequest (code : String) : Response := ⟨400, "\x7b\"error\":\"" ++ code ++ "\"\x7d"⟩

/-- The same with the amount that is needed and the amount that is there. -/
def shortOf (code : String) (need have_ : Int64) : Response :=
  ⟨400, "\x7b\"error\":\"" ++ code ++ "\",\"need\":" ++ toString need.toInt ++ ",\"have\":" ++
    toString have_.toInt ++ "\x7d"⟩

/-- The destination of an output: an address, or both keys of a one-time destination. -/
def TxOut.hasDestination (o : TxOut) : Bool := o.address ≠ "" || (o.P ≠ "" && o.R ≠ "")

/-- `if o.Asset == "" { o.Asset = "USDR" }`. -/
def TxOut.fillAsset (o : TxOut) : TxOut := if o.asset = "" then { o with asset := "USDR" } else o

/-- The loop over the outputs, which checks them and fills in the asset. -/
def checkOutputs : List TxOut → Except Response (List TxOut)
  | [] => .ok []
  | o :: outs =>
      if o.amount ≤ 0 then .error (badRequest "bad_amount")
      else if ¬ o.hasDestination then .error (badRequest "missing_destination")
      else (checkOutputs outs).map (o.fillAsset :: ·)

/-- `isOTAP`: some output has both one-time keys. -/
def isOTAP (outs : List TxOut) : Bool := outs.any fun o => o.P ≠ "" ∧ o.R ≠ ""

namespace Node

variable (n : Node)

/-- `if tx.GasAsset == "" { tx.GasAsset = n.cfg.Fees.GasAsset }`. -/
def fillGasAsset (gasAsset : String) : String :=
  if gasAsset = "" then n.cfg.fees.gasAsset else gasAsset

/-- The transaction as the handler has changed it when it calls `Add`. -/
def filled (tx : Tx) : Tx :=
  Tx.normalize
    { tx with outputs := tx.outputs.map TxOut.fillAsset, gasAsset := n.fillGasAsset tx.gasAsset }

/-- The checks of an `otap_claim` against its bucket and its one-time key. -/
def claimChecks (l : Ledger) (tx : Tx) : Except Response Unit :=
  match tx.otapClaim with
  | none => .error (badRequest "bad_otap_claim")
  | some c =>
      if c.P = "" ∨ c.R = "" ∨ c.toId = "" then .error (badRequest "bad_otap_claim")
      else if c.toId ≠ tx.fromId then .error (badRequest "claim_to_must_equal_from")
      else
        let bBal := l.getBalance (otapBucket c.P)
        if bBal < c.amount then .error (shortOf "insufficient_otap_bucket" c.amount bBal)
        else if c.claimSigHex = "" then .error (badRequest "missing_claim_sig")
        else if ¬ n.prim.pointSetBytes c.P then .error (badRequest "bad_claim_P")
        else if ¬ n.prim.schnorrVerify c.P tx.signingBytes c.claimSigHex then
          .error (badRequest "bad_claim_signature")
        else if bBal < c.amount + tx.fee then
          .error (shortOf "insufficient_otap_bucket_for_fee" (c.amount + tx.fee) bBal)
        else .ok ()

/-- The checks of the account: signature, nonce and balance, then the claim. -/
def accountChecks (l : Ledger) (tx : Tx) : Except Response Unit :=
  if tx.fromId = "" ∨ tx.pubKey = "" ∨ tx.sigHex = "" then
    .error (badRequest "missing_from_or_sig")
  else if tx.fromId ≠ tx.pubKey then .error (badRequest "from_pubkey_mismatch")
  else if ¬ n.prim.sigVerify tx.pubKey tx.sigHex tx.signingBytes then
    .error (badRequest "bad_signature")
  else
    let curNonce := l.getNonce tx.fromId
    if tx.nonce ≠ curNonce + 1 then
      .error ⟨400, "\x7b\"error\":\"bad_nonce\",\"need\":" ++ toString (curNonce + 1).toNat ++
        ",\"have\":" ++ toString tx.nonce.toNat ++ "\x7d"⟩
    else
      let bal := l.getBalance tx.fromId
      if bal < outTotal tx.outputs + tx.fee then
        .error (shortOf "insufficient_funds" (outTotal tx.outputs + tx.fee) bal)
      else if tx.type = "otap_claim" then n.claimChecks l tx
      else .ok ()

/-- Everything that the handler checks before `Add`, and the transaction that it passes on. -/
def admissionChecks (l : Ledger) (tx : Tx) : Except Response Tx :=
  if tx.outputs = [] then .error (badRequest "no_outputs")
  else
    (checkOutputs tx.outputs).bind fun outs =>
      let gasAsset := n.fillGasAsset tx.gasAsset
      if gasAsset ≠ n.cfg.fees.gasAsset then .error (badRequest "bad_gas_asset")
      else
        let est := estimateFee (txSizeHint outs.length) (isOTAP outs) n.cfg.fees
        if tx.fee < est then .error (shortOf "insufficient_fee" est tx.fee)
        else
          let tx := Tx.normalize { tx with outputs := outs, gasAsset := gasAsset }
          (n.accountChecks l tx).bind fun _ => .ok tx

variable {F : Type}

/-- The handler of `/tx/submit`. `senderCount` is what `Add` counts first. -/
def txSubmit (fl : FeeFloats F) (senderCount : ℤ) (now : Int64) (s : DB) (pool : Mempool F)
    (req : TxRequest) : Response × DB × Mempool F :=
  if n.isReadOnly then (⟨403, "\x7b\"error\":\"read_only\"\x7d"⟩, s, pool)
  else if ¬ n.cfg.allowPublicSubmit then (⟨403, "\x7b\"error\":\"submit_disabled\"\x7d"⟩, s, pool)
  else if req.method ≠ "POST" then (⟨405, ""⟩, s, pool)
  else
    match req.body with
    | none => (badRequest "bad_json", s, pool)
    | some tx =>
        match n.admissionChecks s.ledger tx with
        | .error resp => (resp, s, pool)
        | .ok tx =>
            match pool.add n.prim.sha256 fl s.ledger senderCount now tx with
            | (.error code, pool') => (badRequest code, s, pool')
            | (.ok _, pool') =>
                let txid := tx.id n.prim.sha256
                (⟨200, "\x7b\"ok\":true,\"txid\":\"" ++ txid ++ "\"\x7d"⟩, s.putTx txid tx, pool')

end Node

end ReserveOS
