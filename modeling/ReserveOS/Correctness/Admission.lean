import ReserveOS.Correctness.Mining
import ReserveOS.Correctness.Pool
import ReserveOS.Node.Admission

/-!
# What `/tx/submit` admits can be mined

The handler of `/tx/submit` repeats the rules of the block validators in its own code and order. A
transaction that it accepts goes into a block of its own behind the coinbase of `MineOne`, with two
exceptions (`admission_sound_iff`). The handler does not look at the type, so it lets a transaction
of type `coinbase` through; and it reads the balance without the block reward, which may make the
sum wrap.
-/

namespace ReserveOS

/-! ### What the checks of the handler establish -/

/-- What the output checks return are the outputs with the default asset. -/
theorem eq_of_checkOutputs {outs outs' : List TxOut} (h : checkOutputs outs = .ok outs') :
    outs' = outs.map TxOut.fillAsset := by
  induction outs generalizing outs' with
  | nil =>
      cases h
      rfl
  | cons o outs ih =>
      rw [checkOutputs] at h
      obtain ⟨-, h⟩ := Res.ite_error_eq_ok.mp h
      obtain ⟨-, h⟩ := Res.ite_error_eq_ok.mp h
      cases hrest : checkOutputs outs with
      | error resp =>
          rw [hrest] at h
          cases h
      | ok rest =>
          rw [hrest] at h
          cases h
          rw [ih hrest, List.map_cons]

theorem Sim.simTxs_singleton (m : Sim) (tx : Tx) : m.simTxs [tx] = m.simTx tx := by
  rw [simTxs]
  cases m.simTx tx <;> rfl

namespace Node

variable {n : Node} {l : Ledger} {tx tx₀ : Tx}

variable (n) in
/-- What the handler has checked of the transaction that it passes on. -/
structure Admissible (l : Ledger) (tx : Tx) : Prop where
  fee : ¬ tx.fee < estimateFee (txSizeHint tx.outputs.length)
    (tx.outputs.any fun o => o.P ≠ "" ∧ o.R ≠ "") n.cfg.fees
  account : n.accountChecks l tx = .ok ()

/-- What passes the checks is the filled transaction, and it is admissible. -/
theorem admissible_of_admissionChecks (h : n.admissionChecks l tx₀ = .ok tx) :
    tx = n.filled tx₀ ∧ n.Admissible l tx := by
  unfold admissionChecks at h
  obtain ⟨-, h⟩ := Res.ite_error_eq_ok.mp h
  cases houts : checkOutputs tx₀.outputs with
  | error resp =>
      rw [houts] at h
      cases h
  | ok outs =>
      rw [houts] at h
      simp only [Except.bind] at h
      obtain ⟨-, h⟩ := Res.ite_error_eq_ok.mp h
      obtain ⟨hfee, h⟩ := Res.ite_error_eq_ok.mp h
      split at h
      · cases h
      next hacct =>
        cases h
        rw [filled, ← eq_of_checkOutputs houts]
        refine ⟨rfl, ?_, hacct⟩
        rw [Tx.fee_normalize, Tx.outputs_normalize]
        exact hfee

/-- What the account checks ask for. -/
theorem accountChecks_eq_ok_iff :
    n.accountChecks l tx = .ok () ↔
      ¬ (tx.fromId = "" ∨ tx.pubKey = "" ∨ tx.sigHex = "") ∧ tx.fromId = tx.pubKey ∧
        n.prim.sigVerify tx.pubKey tx.sigHex tx.signingBytes = true ∧
        tx.nonce = l.getNonce tx.fromId + 1 ∧
        outTotal tx.outputs + tx.fee ≤ l.getBalance tx.fromId ∧
        (tx.type = "otap_claim" → n.claimChecks l tx = .ok ()) := by
  unfold accountChecks
  dsimp only
  split_ifs <;> simp_all

/-- The claim checks of the handler are those of the validator and the two of the bucket. -/
theorem checkClaim_of_claimChecks (h : n.claimChecks l tx = .ok ()) :
    n.checkClaim tx = .ok () ∧
      ∃ c, tx.otapClaim = some c ∧ c.amount + tx.fee ≤ l.getBalance (otapBucket c.P) := by
  unfold claimChecks at h
  unfold checkClaim
  cases hc : tx.otapClaim with
  | none =>
      rw [hc] at h
      cases h
  | some c =>
      rw [hc] at h
      dsimp only at h ⊢
      split_ifs at h
      simp_all

/-- An admissible transaction that is not a coinbase passes the signature loop of
`ValidateBlockBasic`. -/
theorem checkTx_of_admissible (h : n.Admissible l tx) (hnorm : tx.normalize = tx)
    (hcb : tx.type ≠ "coinbase") : n.checkTx tx = .ok () := by
  obtain ⟨hpresent, hpub, hsig, -, -, hclaim⟩ := accountChecks_eq_ok_iff.mp h.account
  unfold checkTx
  rw [hnorm]
  dsimp only
  rw [if_neg hcb, if_neg h.fee, if_neg hpresent, if_neg (not_not.mpr hpub),
    if_neg (not_not.mpr hsig)]
  split
  next hty => exact (checkClaim_of_claimChecks (hclaim hty)).1
  next => rfl

theorem nonce_of_admissible (h : n.Admissible l tx) : tx.nonce = l.getNonce tx.fromId + 1 :=
  (accountChecks_eq_ok_iff.mp h.account).2.2.2.1

/-- The debit of an admissible transaction is covered by the ledger. -/
theorem debit_le_of_admissible (h : n.Admissible l tx) :
    tx.debit.2 ≤ l.getBalance tx.debit.1 := by
  obtain ⟨-, -, -, -, hfunds, hclaim⟩ := accountChecks_eq_ok_iff.mp h.account
  unfold Tx.debit
  split
  next c hc =>
    split_ifs at hc with hty
    obtain ⟨-, c', hc', hbucket⟩ := checkClaim_of_claimChecks (hclaim hty)
    cases hc.symm.trans hc'
    exact hbucket
  next => exact hfunds

/-! ### The answers of the handler -/

/-- A refused output is answered with 400. -/
theorem status_of_checkOutputs {outs : List TxOut} {resp : Response}
    (h : checkOutputs outs = .error resp) : resp.status = 400 := by
  induction outs with
  | nil => cases h
  | cons o outs ih =>
      rw [checkOutputs] at h
      split at h
      · cases h
        rfl
      split at h
      · cases h
        rfl
      cases hrest : checkOutputs outs with
      | error r =>
          rw [hrest] at h
          cases h
          exact ih hrest
      | ok rest =>
          rw [hrest] at h
          cases h

theorem status_of_claimChecks {resp : Response} (h : n.claimChecks l tx = .error resp) :
    resp.status = 400 := by
  unfold claimChecks at h
  split at h
  · cases h
    rfl
  · dsimp only at h
    split_ifs at h <;> cases h <;> rfl

/-- A refusal of the account checks is a 400. -/
theorem status_of_accountChecks {resp : Response} (h : n.accountChecks l tx = .error resp) :
    resp.status = 400 := by
  unfold accountChecks at h
  dsimp only at h
  split_ifs at h
  all_goals first
    | exact status_of_claimChecks h
    | (cases h; rfl)

/-- Whatever check fails, the answer is a bad request. -/
theorem status_of_admissionChecks {resp : Response} (h : n.admissionChecks l tx₀ = .error resp) :
    resp.status = 400 := by
  unfold admissionChecks at h
  split at h
  · cases h
    rfl
  cases houts : checkOutputs tx₀.outputs with
  | error r =>
      rw [houts] at h
      cases h
      exact status_of_checkOutputs houts
  | ok outs =>
      rw [houts] at h
      simp only [Except.bind] at h
      split at h
      · cases h
        rfl
      split at h
      · cases h
        rfl
      split at h
      next r hr =>
        cases h
        exact status_of_accountChecks hr
      next => cases h

variable {F : Type}

/-- A request is answered with 200 exactly for a transaction that goes into the mempool. -/
theorem admissible_of_txSubmit {fl : FeeFloats F} {senderCount : ℤ} {now : Int64} {s : DB}
    {pool : Mempool F} {req : TxRequest} (hbody : req.body = some tx₀)
    (h : (n.txSubmit fl senderCount now s pool req).1.status = 200) :
    n.Admissible s.ledger (n.filled tx₀) := by
  unfold txSubmit at h
  rw [hbody] at h
  split at h
  · cases h
  split at h
  · cases h
  split at h
  · cases h
  dsimp only at h
  split at h
  next resp herr =>
    rw [status_of_admissionChecks herr] at h
    cases h
  next tx hok =>
    obtain ⟨rfl, hadm⟩ := admissible_of_admissionChecks hok
    exact hadm

/-! ### The block of one transaction -/

variable (n) in
/-- `ValidateBlockBasic` up to the rule that the coinbase covers the fees. -/
def basicRules (b : Block) : Res Unit :=
  (n.coinbaseRules b.txs).bind fun _ => n.checkTxs (n.signedTxs b.txs)

variable (n) in
/-- `ValidateBlockStateTip` up to that rule. -/
def stateRules (l : Ledger) (b : Block) : Res Unit := (n.simulateTip l.view b).map fun _ => ()

theorem validateBlockBasic_eq (b : Block) :
    n.validateBlockBasic b = (n.basicRules b).bind fun _ => n.coinbaseCoversFees b.txs := by
  unfold validateBlockBasic basicRules
  cases n.coinbaseRules b.txs <;> rfl

theorem validateBlockStateTip_eq (l : Ledger) (b : Block) :
    n.validateBlockStateTip l b = (n.stateRules l b).bind fun _ => n.coinbaseCoversFees b.txs := by
  unfold validateBlockStateTip stateRules
  cases n.simulateTip l.view b <;> rfl

theorem stateRules_eq_ok_iff {b : Block} :
    n.stateRules l b = .ok () ↔ ∃ m, n.simulateTip l.view b = .ok m := by
  unfold stateRules
  cases n.simulateTip l.view b <;> simp [Except.map]

theorem normalize_filled (n : Node) (tx : Tx) : (n.filled tx).normalize = n.filled tx := by
  unfold filled Tx.normalize
  split <;> rfl

theorem type_filled_coinbase (n : Node) (tx : Tx) :
    (n.filled tx).type = "coinbase" ↔ tx.type = "coinbase" :=
  Tx.type_normalize_coinbase _

/-- A second transaction of type `coinbase` has no place in a block. -/
theorem basicRules_of_coinbase (hcb : tx.type = "coinbase") (hdr : BlockHeader) :
    n.basicRules ⟨hdr, n.blockTxs [tx]⟩ ≠ .ok () := by
  unfold basicRules
  rw [Ne, Res.bind_unit_eq_ok]
  rintro ⟨hrules, -⟩
  unfold coinbaseRules blockTxs at hrules
  split at hrules
  next =>
    have htype : n.coinbaseTx.type = "coinbase" := rfl
    simp [htype, hcb] at hrules
  next => simp [hcb] at hrules

/-- What the handler of `/tx/submit` accepts can be mined, behind the coinbase of `MineOne` and
apart from the rule that the coinbase covers the fees, exactly when it is not itself of type
`coinbase` and the block reward does not take the balance that it spends over the end of `int64`. -/
theorem admission_sound_iff (n : Node) (fl : FeeFloats F) (senderCount : ℤ) (now : Int64) (s : DB)
    (pool : Mempool F) (req : TxRequest) (tx : Tx) (hbody : req.body = some tx)
    (hok : (n.txSubmit fl senderCount now s pool req).1.status = 200) (hdr : BlockHeader) :
    (n.basicRules ⟨hdr, n.blockTxs [n.filled tx]⟩ = .ok () ∧
        n.stateRules s.ledger ⟨hdr, n.blockTxs [n.filled tx]⟩ = .ok ()) ↔
      tx.type ≠ "coinbase" ∧
        (n.cfg.issuance.enabled = true → (n.filled tx).debit.1 = n.cfg.issuance.coinbaseTo →
          (n.filled tx).debit.2 ≤
            s.ledger.getBalance n.cfg.issuance.coinbaseTo + n.cfg.issuance.blockReward) := by
  have hadm := admissible_of_txSubmit hbody hok
  by_cases hcb : tx.type = "coinbase"
  · have hcb' := (type_filled_coinbase n tx).mpr hcb
    exact iff_of_false (fun h => basicRules_of_coinbase hcb' hdr h.1) fun h => h.1 hcb
  have hcheck : n.checkTx (n.filled tx) = .ok () :=
    checkTx_of_admissible hadm (normalize_filled n tx) (mt (type_filled_coinbase n tx).mp hcb)
  have hchecked := txChecked_of_checkTx hcheck
  have hbasic : n.basicRules ⟨hdr, n.blockTxs [n.filled tx]⟩ = .ok () := by
    refine Res.bind_unit_eq_ok.mpr ⟨coinbaseRules_blockTxs (by simpa using hchecked), ?_⟩
    rw [signedTxs_blockTxs]
    exact checkTxs_eq_ok_iff.mpr (by simpa using hcheck)
  -- without the coinbase the transaction goes through
  obtain ⟨m, hm⟩ : ∃ m, s.ledger.view.simTx (n.filled tx) = .ok m := by
    obtain ⟨m, hm⟩ := (Sim.exists_applyTxToSim_iff (m := s.ledger.view) hchecked.not_coinbase).mpr
      ⟨nonce_of_admissible hadm, debit_le_of_admissible hadm⟩
    exact ⟨m, (Sim.applyTxToSim_eq_ok_iff hchecked).mp hm⟩
  rw [and_iff_right hbasic, and_iff_right hcb, stateRules_eq_ok_iff, simulateTip_blockTxs]
  by_cases hon : n.cfg.issuance.enabled = true
  · rw [if_pos hon, forall_prop_of_true hon]
    simp only [Sim.simTxs_singleton]
    exact Sim.simTx_addBal hchecked hm _ _
  · rw [if_neg hon, forall_prop_of_false hon]
    simp only [Sim.simTxs_singleton]
    exact iff_of_true ⟨m, hm⟩ trivial

end Node

namespace Sample

/-- A node with the default fee policy and limits, and without issuance. -/
def gateway : Node :=
  { node with
    cfg := { cfg with
      fees := ⟨"USDR", 100, 2, 10, .normal⟩
      limits := ⟨1000000, 5000, 256⟩ } }

/-- Its database, with 1000 for alice. -/
def gatewayDB : DB := { node.genesisDB ∅ with ledger := Ledger.empty.setBalance alice 1000 }

/-- The default mempool configuration. -/
def poolConfig : MempoolConfig := ⟨0, 5000, 8000000, 1800, false, 50⟩

/-- Alice pays 10 to bob, for the fee that the policy wants, in a transaction of this type. -/
def typed (type : String) : Tx := { transfer alice 1 [pay bob 10] with type := type, fee := 620 }

/-- The block of this transaction alone. -/
def typedBlock (type : String) : Block :=
  ⟨node.genesisBlock.header, gateway.blockTxs [gateway.filled (typed type)]⟩

end Sample

namespace Node

open Sample

/-- A payment that is accepted can be mined. -/
theorem admission_sound_payment :
    (gateway.txSubmit floats 0 0 gatewayDB (Mempool.new poolConfig)
        ⟨"POST", some (typed "")⟩).1.status = 200 ∧
      gateway.validateBlockBasic (typedBlock "") = .ok () ∧
      gateway.validateBlockStateTip gatewayDB.ledger (typedBlock "") = .ok () := by
  have hok : (gateway.txSubmit floats 0 0 gatewayDB (Mempool.new poolConfig)
      ⟨"POST", some (typed "")⟩).1.status = 200 := by decide +kernel
  have hfees : gateway.coinbaseCoversFees (typedBlock "").txs = .ok () := by decide +kernel
  obtain ⟨hbasic, hstate⟩ := (admission_sound_iff gateway floats 0 0 gatewayDB
    (Mempool.new poolConfig) _ (typed "") rfl hok node.genesisBlock.header).mpr
      ⟨by decide, fun hon => by cases hon⟩
  refine ⟨hok, ?_, ?_⟩
  · rw [validateBlockBasic_eq]
    exact Res.bind_unit_eq_ok.mpr ⟨hbasic, hfees⟩
  · rw [validateBlockStateTip_eq]
    exact Res.bind_unit_eq_ok.mpr ⟨hstate, hfees⟩

/-- A transaction of type `coinbase` is accepted as well, and every block with it is refused. -/
theorem not_admission_sound_coinbase :
    (gateway.txSubmit floats 0 0 gatewayDB (Mempool.new poolConfig)
        ⟨"POST", some (typed "coinbase")⟩).1.status = 200 ∧
      gateway.validateBlockBasic (typedBlock "coinbase") = .error (.error "coinbase disabled") := by
  constructor
  · decide +kernel
  · decide +kernel

end Node

end ReserveOS
