import ReserveOS.Node.ForkChoice

/-!
# The two block simulators

`simulateTip` (inside `ValidateBlockStateTip`) and `applyBlockToSim` were written separately. On a
block that `ValidateBlockBasic` accepts they succeed together and end with the same working copy
(`simulateTip_eq_ok_iff`). A path that replays from genesis uses the nonces 1, 2, 3, ... of every
sender in order (`nonces_of_replay`).
-/

namespace ReserveOS

/-! ### What the basic checks give -/

namespace Tx

@[simp] theorem fromId_normalize (tx : Tx) : tx.normalize.fromId = tx.fromId := by
  unfold normalize
  split <;> rfl

@[simp] theorem nonce_normalize (tx : Tx) : tx.normalize.nonce = tx.nonce := by
  unfold normalize
  split <;> rfl

@[simp] theorem fee_normalize (tx : Tx) : tx.normalize.fee = tx.fee := by
  unfold normalize
  split <;> rfl

@[simp] theorem outputs_normalize (tx : Tx) : tx.normalize.outputs = tx.outputs := by
  unfold normalize
  split <;> rfl

@[simp] theorem otapClaim_normalize (tx : Tx) : tx.normalize.otapClaim = tx.otapClaim := by
  unfold normalize
  split <;> rfl

@[simp] theorem pubKey_normalize (tx : Tx) : tx.normalize.pubKey = tx.pubKey := by
  unfold normalize
  split <;> rfl

@[simp] theorem sigHex_normalize (tx : Tx) : tx.normalize.sigHex = tx.sigHex := by
  unfold normalize
  split <;> rfl

/-- Replacing the empty type does not make or unmake a type other than `"transfer"`. -/
theorem type_normalize_eq_iff (tx : Tx) {ty : String} (h0 : ty ≠ "") (h1 : ty ≠ "transfer") :
    tx.normalize.type = ty ↔ tx.type = ty := by
  unfold normalize
  split
  next h =>
    rw [h]
    exact iff_of_false (fun heq => h1 heq.symm) (fun heq => h0 heq.symm)
  next => exact Iff.rfl

theorem type_normalize_claim (tx : Tx) :
    tx.normalize.type = "otap_claim" ↔ tx.type = "otap_claim" :=
  tx.type_normalize_eq_iff (by decide) (by decide)

theorem type_normalize_coinbase (tx : Tx) :
    tx.normalize.type = "coinbase" ↔ tx.type = "coinbase" :=
  tx.type_normalize_eq_iff (by decide) (by decide)

end Tx

namespace Node

variable {n : Node}

variable (n) in
/-- What the signature loop establishes about a transaction. -/
structure TxChecked (tx : Tx) : Prop where
  not_coinbase : tx.type ≠ "coinbase"
  from_eq_pub : tx.fromId = tx.pubKey
  sig : n.prim.sigVerify tx.pubKey tx.sigHex tx.normalize.signingBytes = true
  claim : tx.type = "otap_claim" → ∃ c, tx.otapClaim = some c ∧ c.toId = tx.fromId ∧
    n.prim.schnorrVerify c.P tx.normalize.signingBytes c.claimSigHex = true

/-- What the checks on one transaction establish. -/
theorem txChecked_of_checkTx {tx : Tx} (h : n.checkTx tx = .ok ()) : n.TxChecked tx := by
  unfold checkTx at h
  simp only [Tx.fromId_normalize, Tx.pubKey_normalize, Tx.sigHex_normalize,
    Tx.type_normalize_coinbase, Tx.type_normalize_claim] at h
  obtain ⟨hcb, h⟩ := Res.ite_error_eq_ok.mp h
  obtain ⟨-, h⟩ := Res.ite_error_eq_ok.mp h
  obtain ⟨-, h⟩ := Res.ite_error_eq_ok.mp h
  obtain ⟨hpub, h⟩ := Res.ite_error_eq_ok.mp h
  obtain ⟨hsig, h⟩ := Res.ite_error_eq_ok.mp h
  refine ⟨hcb, not_not.mp hpub, not_not.mp hsig, fun hclaim => ?_⟩
  rw [if_pos hclaim] at h
  unfold checkClaim at h
  simp only [Tx.otapClaim_normalize, Tx.fromId_normalize] at h
  split at h
  · cases h
  next c hc =>
    obtain ⟨-, h⟩ := Res.ite_error_eq_ok.mp h
    obtain ⟨hto, h⟩ := Res.ite_error_eq_ok.mp h
    obtain ⟨-, h⟩ := Res.ite_error_eq_ok.mp h
    obtain ⟨-, h⟩ := Res.ite_error_eq_ok.mp h
    obtain ⟨hschnorr, -⟩ := Res.ite_error_eq_ok.mp h
    exact ⟨c, hc, not_not.mp hto, not_not.mp hschnorr⟩

/-- What the loop over the transactions establishes. -/
theorem txChecked_of_checkTxs {txs : List Tx} (h : n.checkTxs txs = .ok ()) :
    ∀ tx ∈ txs, n.TxChecked tx := by
  induction txs with
  | nil =>
      intro tx htx
      cases htx
  | cons tx txs ih =>
      rw [checkTxs] at h
      obtain ⟨⟨⟩, htx, hrest⟩ := Res.bind_eq_ok.mp h
      intro tx' htx'
      rcases List.mem_cons.mp htx' with rfl | hmem
      · exact txChecked_of_checkTx htx
      · exact ih hrest tx' hmem

variable (n) in
/-- The two shapes of a block that `ValidateBlockBasic` accepts: with issuance a coinbase with one
output of the block reward comes first, and all other transactions are checked. -/
inductive BasicShape : List Tx → Prop
  | issuing {cb : Tx} {o : TxOut} {rest : List Tx} (hon : n.cfg.issuance.enabled = true)
      (hcb : cb.type = "coinbase") (houts : cb.outputs = [o])
      (hreward : o.amount = n.cfg.issuance.blockReward)
      (hrest : ∀ tx ∈ rest, n.TxChecked tx) : BasicShape (cb :: rest)
  | plain {txs : List Tx} (hoff : n.cfg.issuance.enabled = false)
      (htxs : ∀ tx ∈ txs, n.TxChecked tx) : BasicShape txs

/-- An accepted block is a coinbase and checked transactions, or only these. -/
theorem basicShape_of_validateBlockBasic {b : Block} (h : n.validateBlockBasic b = .ok ()) :
    n.BasicShape b.txs := by
  unfold validateBlockBasic at h
  obtain ⟨⟨⟩, hrules, h⟩ := Res.bind_eq_ok.mp h
  obtain ⟨⟨⟩, hcheck, -⟩ := Res.bind_eq_ok.mp h
  have hchecked := txChecked_of_checkTxs hcheck
  unfold coinbaseRules at hrules
  unfold signedTxs at hchecked
  split at hrules
  next hon =>
    rw [if_pos hon] at hchecked
    cases htxs : b.txs with
    | nil =>
        rw [htxs] at hrules
        cases hrules
    | cons cb rest =>
        rw [htxs] at hrules hchecked
        dsimp only at hrules
        obtain ⟨hcb, hrules⟩ := Res.ite_error_eq_ok.mp hrules
        obtain ⟨-, hrules⟩ := Res.ite_error_eq_ok.mp hrules
        split at hrules
        next o houts =>
          obtain ⟨hreward, -⟩ := Res.ite_error_eq_ok.mp hrules
          exact .issuing hon (not_not.mp hcb) houts (not_not.mp hreward) hchecked
        next => cases hrules
  next hoff =>
    rw [if_neg hoff] at hchecked
    exact .plain (Bool.eq_false_iff.mpr hoff) hchecked

end Node

/-! ### The simulators agree -/

namespace Sim

/-- On a checked transaction the two loop bodies succeed together, with the same result. -/
theorem applyTxToSim_eq_ok_iff {n : Node} {tx : Tx} (h : n.TxChecked tx) {m m' : Sim} :
    m.applyTxToSim tx = .ok m' ↔ m.simTx tx = .ok m' := by
  unfold applyTxToSim simTx
  rw [if_neg h.not_coinbase]
  simp only [Tx.fromId_normalize, Tx.nonce_normalize, Tx.fee_normalize, Tx.outputs_normalize,
    Tx.otapClaim_normalize, Tx.type_normalize_claim]
  by_cases hnonce : tx.nonce ≠ m.nonce tx.fromId + 1
  · rw [if_pos hnonce, if_pos hnonce]
    simp
  · rw [if_neg hnonce, if_neg hnonce]
    by_cases hclaim : tx.type = "otap_claim"
    · obtain ⟨c, hc, -, -⟩ := h.claim hclaim
      by_cases hbal : m.bal (otapBucket c.P) < c.amount + tx.fee
      · simp [hclaim, hc, hbal]
      · simp [hclaim, hc, hbal, setNonce_addBal, setNonce_setBal]
    · by_cases hbal : m.bal tx.fromId < outTotal tx.outputs + tx.fee
      · simp [hclaim, hbal]
      · simp [hclaim, hbal, setNonce_setBal]

/-- The two loops agree on a list of checked transactions. -/
theorem applyTxsToSim_eq_ok_iff {n : Node} {txs : List Tx} (h : ∀ tx ∈ txs, n.TxChecked tx)
    {m m' : Sim} : m.applyTxsToSim txs = .ok m' ↔ m.simTxs txs = .ok m' := by
  induction txs generalizing m with
  | nil => exact Iff.rfl
  | cons tx txs ih =>
      have hrest : ∀ tx' ∈ txs, n.TxChecked tx' := fun tx' h' => h tx' (List.mem_cons_of_mem _ h')
      rw [applyTxsToSim, simTxs, Res.bind_eq_ok, Res.bind_eq_ok]
      constructor
      · rintro ⟨m₁, hone, htail⟩
        exact ⟨m₁, (applyTxToSim_eq_ok_iff (h tx List.mem_cons_self)).mp hone, (ih hrest).mp htail⟩
      · rintro ⟨m₁, hone, htail⟩
        exact ⟨m₁, (applyTxToSim_eq_ok_iff (h tx List.mem_cons_self)).mpr hone,
          (ih hrest).mpr htail⟩

end Sim

namespace Node

variable {n : Node}

/-- On a block that passes the basic checks the two simulators agree. -/
theorem simulateTip_eq_ok_iff {b : Block} (h : n.validateBlockBasic b = .ok ()) {m m' : Sim} :
    n.simulateTip m b = .ok m' ↔ m.applyTxsToSim b.txs = .ok m' := by
  have hshape := basicShape_of_validateBlockBasic h
  unfold simulateTip
  generalize b.txs = txs at hshape
  cases hshape with
  | issuing hon hcb houts hreward hrest =>
      rw [if_pos hon]
      dsimp only
      rw [houts, Sim.applyTxsToSim, Sim.applyTxToSim, if_pos hcb, houts]
      exact (Sim.applyTxsToSim_eq_ok_iff hrest).symm
  | plain hoff htxs =>
      rw [if_neg (by rw [hoff]; exact Bool.false_ne_true)]
      exact (Sim.applyTxsToSim_eq_ok_iff htxs).symm

/-- `applyBlockToSim` succeeds when limits, basic checks and the tip simulation do. -/
theorem applyBlockToSim_eq_ok {b : Block} {m m' : Sim} (hlim : n.validateLimits b = .ok ())
    (hbasic : n.validateBlockBasic b = .ok ()) (hsim : n.simulateTip m b = .ok m') :
    n.applyBlockToSim m b = .ok m' := by
  unfold applyBlockToSim
  rw [Res.bind_eq_ok]
  refine ⟨(), hlim, ?_⟩
  rw [Res.bind_eq_ok]
  exact ⟨(), hbasic, (simulateTip_eq_ok_iff hbasic).mp hsim⟩

/-- `applyBlockToSim` succeeds exactly when limits, basic checks and the tip validation do, and then
ends with the working copy of the tip simulation. -/
theorem simulators_agree (n : Node) (l : Ledger) (b : Block) :
    ((∃ m, n.applyBlockToSim l.view b = .ok m) ↔
        n.validateLimits b = .ok () ∧ n.validateBlockBasic b = .ok () ∧
          n.validateBlockStateTip l b = .ok ()) ∧
      ∀ m, n.applyBlockToSim l.view b = .ok m → n.simulateTip l.view b = .ok m := by
  have hsame : ∀ m, n.applyBlockToSim l.view b = .ok m →
      n.validateLimits b = .ok () ∧ n.validateBlockBasic b = .ok () ∧
        n.simulateTip l.view b = .ok m := by
    intro m hm
    obtain ⟨⟨⟩, hlim, hm⟩ := Res.bind_eq_ok.mp hm
    obtain ⟨⟨⟩, hbasic, hm⟩ := Res.bind_eq_ok.mp hm
    exact ⟨hlim, hbasic, (simulateTip_eq_ok_iff hbasic).mpr hm⟩
  refine ⟨⟨?_, ?_⟩, fun m hm => (hsame m hm).2.2⟩
  · rintro ⟨m, hm⟩
    obtain ⟨hlim, hbasic, hsim⟩ := hsame m hm
    -- the rule on fees that both validators end with is already one of the basic checks
    have hcovers : n.coinbaseCoversFees b.txs = .ok () := by
      obtain ⟨⟨⟩, -, hrest⟩ := Res.bind_eq_ok.mp hbasic
      obtain ⟨⟨⟩, -, hcovers⟩ := Res.bind_eq_ok.mp hrest
      exact hcovers
    exact ⟨hlim, hbasic, Res.bind_eq_ok.mpr ⟨m, hsim, hcovers⟩⟩
  · rintro ⟨hlim, hbasic, htip⟩
    obtain ⟨m, hsim, -⟩ := Res.bind_eq_ok.mp htip
    exact ⟨m, applyBlockToSim_eq_ok hlim hbasic hsim⟩

variable (n) in
/-- Replaying the blocks of a path with the rules of `applyBlockToSim`. -/
def replay : Sim → List Block → Res Sim
  | m, [] => .ok m
  | m, b :: bs => (n.applyBlockToSim m b).bind fun m' => replay m' bs

/-- Replaying two paths in a row. -/
theorem replay_append_eq_ok {bs cs : List Block} {m m₂ : Sim} :
    n.replay m (bs ++ cs) = .ok m₂ ↔ ∃ m₁, n.replay m bs = .ok m₁ ∧ n.replay m₁ cs = .ok m₂ := by
  induction bs generalizing m with
  | nil => simp [replay]
  | cons b bs ih =>
      simp only [List.cons_append, replay, Res.bind_eq_ok, ih]
      grind

/-- A longer path replays when its front does and the last block applies. -/
theorem replay_concat {bs : List Block} {b : Block} {m m₁ m₂ : Sim} (h : n.replay m bs = .ok m₁)
    (hb : n.applyBlockToSim m₁ b = .ok m₂) : n.replay m (bs ++ [b]) = .ok m₂ :=
  replay_append_eq_ok.mpr ⟨m₁, h, Res.bind_eq_ok.mpr ⟨m₂, hb, rfl⟩⟩

end Node

/-! ### Nonces along a replay -/

/-- The nonces that the transactions of `id` use, coinbases apart. -/
def noncesOf (id : String) (txs : List Tx) : List UInt64 :=
  (txs.filter fun tx => tx.type ≠ "coinbase" ∧ tx.fromId = id).map Tx.nonce

/-- The `k` values that follow `start`. -/
def following (start : UInt64) (k : ℕ) : List UInt64 :=
  (List.range k).map fun i => start + UInt64.ofNat (i + 1)

theorem following_add (start : UInt64) (j k : ℕ) :
    following start (j + k) = following start j ++ following (start + UInt64.ofNat j) k := by
  unfold following
  rw [List.range_add, List.map_append, List.map_map]
  congr 1
  refine List.map_congr_left fun i _ => ?_
  rw [Function.comp_apply, Nat.add_assoc, UInt64.ofNat_add j, UInt64.add_assoc]

theorem noncesOf_append (id : String) (txs txs' : List Tx) :
    noncesOf id (txs ++ txs') = noncesOf id txs ++ noncesOf id txs' := by
  unfold noncesOf
  rw [List.filter_append, List.map_append]

namespace Sim

@[simp] theorem nonce_creditOutputs (m : Sim) (outs : List TxOut) :
    (m.creditOutputs outs).nonce = m.nonce := by
  unfold creditOutputs
  induction outs generalizing m with
  | nil => rfl
  | cons o outs ih =>
      rw [List.foldl_cons, ih]
      split
      · rfl
      · split <;> rfl

/-- A coinbase leaves the nonces alone; any other transaction uses the next one of its sender. -/
theorem nonce_of_applyTxToSim {m m' : Sim} {tx : Tx} (h : m.applyTxToSim tx = .ok m') :
    (tx.type = "coinbase" ∧ m'.nonce = m.nonce) ∨
      (tx.type ≠ "coinbase" ∧ tx.nonce = m.nonce tx.fromId + 1 ∧
        m'.nonce = Function.update m.nonce tx.fromId tx.nonce) := by
  unfold applyTxToSim at h
  split at h
  next hcb =>
    cases h
    refine Or.inl ⟨hcb, ?_⟩
    generalize tx.outputs = outs
    induction outs generalizing m with
    | nil => rfl
    | cons o outs ih => rw [List.foldl_cons, ih, nonce_addBal]
  next hcb =>
    obtain ⟨hnonce, h⟩ := Res.ite_error_eq_ok.mp h
    refine Or.inr ⟨hcb, not_not.mp hnonce, ?_⟩
    -- both kinds of transactions set the nonce once
    split at h
    all_goals
      dsimp only at h
      obtain ⟨-, h⟩ := Res.ite_error_eq_ok.mp h
      rw [← Except.ok.inj h]
      simp

/-- The nonces a block uses are the ones that follow the sender's, and the last of them is left. -/
theorem nonces_of_applyTxsToSim {m m' : Sim} {txs : List Tx} (h : m.applyTxsToSim txs = .ok m')
    (id : String) : ∃ k, noncesOf id txs = following (m.nonce id) k ∧
      m'.nonce id = m.nonce id + UInt64.ofNat k := by
  induction txs generalizing m with
  | nil =>
      cases h
      exact ⟨0, rfl, by simp⟩
  | cons tx txs ih =>
      rw [applyTxsToSim, Res.bind_eq_ok] at h
      obtain ⟨m₁, hone, htail⟩ := h
      obtain ⟨k, hk, hlast⟩ := ih htail
      have hsplit : noncesOf id (tx :: txs) = noncesOf id [tx] ++ noncesOf id txs :=
        noncesOf_append id [tx] txs
      -- the first transaction uses no nonce of the account, or the next one
      rcases nonce_of_applyTxToSim hone with ⟨hcb, hsame⟩ | ⟨hcb, hnonce, hupd⟩
      · rw [hsame] at hk hlast
        refine ⟨k, ?_, hlast⟩
        rw [hsplit, hk]
        simp [noncesOf, hcb]
      · by_cases hid : tx.fromId = id
        · have hnext : m₁.nonce id = m.nonce id + UInt64.ofNat 1 := by
            rw [hupd, ← hid, Function.update_self, hnonce]
            rfl
          rw [hnext] at hk hlast
          refine ⟨1 + k, ?_, ?_⟩
          · rw [hsplit, hk, following_add]
            simp [noncesOf, following, hcb, hid, hnonce]
          · rw [hlast, UInt64.ofNat_add, UInt64.add_assoc]
        · have hsame : m₁.nonce id = m.nonce id := by
            rw [hupd, Function.update_of_ne (Ne.symm hid)]
          rw [hsame] at hk hlast
          refine ⟨k, ?_, hlast⟩
          rw [hsplit, hk]
          simp [noncesOf, hid]

end Sim

namespace Node

variable {n : Node}

/-- A path that replays uses the nonces that follow the sender's. -/
theorem nonces_of_replay {m m' : Sim} {bs : List Block} (h : n.replay m bs = .ok m')
    (id : String) : ∃ k, noncesOf id (bs.flatMap Block.txs) = following (m.nonce id) k ∧
      m'.nonce id = m.nonce id + UInt64.ofNat k := by
  induction bs generalizing m with
  | nil =>
      cases h
      exact ⟨0, rfl, by simp⟩
  | cons b bs ih =>
      rw [replay, Res.bind_eq_ok] at h
      obtain ⟨m₁, hone, htail⟩ := h
      unfold applyBlockToSim at hone
      obtain ⟨⟨⟩, -, hone⟩ := Res.bind_eq_ok.mp hone
      obtain ⟨⟨⟩, -, hone⟩ := Res.bind_eq_ok.mp hone
      obtain ⟨j, hj, hmid⟩ := Sim.nonces_of_applyTxsToSim hone id
      obtain ⟨k, hk, hlast⟩ := ih htail
      refine ⟨j + k, ?_, ?_⟩
      · rw [List.flatMap_cons, noncesOf_append, hj, hk, hmid, following_add]
      · rw [hlast, hmid, UInt64.ofNat_add, UInt64.add_assoc]

/-- Before the first block no account has used a nonce. -/
theorem nonce_genesisSim (id : String) : n.genesisSim.nonce id = 0 := by
  unfold genesisSim Sim.addAllocations
  generalize n.genesis.allocations = allocs
  suffices h : ∀ m : Sim, (allocs.foldl (fun (m : Sim) a =>
      m.addBal a.address (parseInt64 a.balance)) m).nonce = m.nonce by rw [h]; rfl
  induction allocs with
  | nil => exact fun m => rfl
  | cons a allocs ih => exact fun m => by rw [List.foldl_cons, ih, Sim.nonce_addBal]

end Node

end ReserveOS
