import ReserveOS.Correctness.ApplyRefines
import ReserveOS.Node.Mining

/-!
# What a node accepts of its own blocks

`FilterTxsBySimState` runs the same simulation as `ValidateBlockStateTip`, so what it keeps goes
through. The rest is not looked after: `MineOne` does not count transactions or bytes, its coinbase
pays the block reward alone although both validators want it to cover the fees as well, and the
validators simulate with the coinbase credited, where a sum may wrap. `minedBlock_accepted_iff` says
that nothing else goes wrong.
-/

namespace ReserveOS

/-! ### What the filter keeps -/

namespace Sim

/-- The filter keeps what the fork simulator accepts. -/
theorem filterTx_eq_some_iff {m m' : Sim} {tx : Tx} :
    m.filterTx tx = some m' ↔ m.applyTxToSim tx = .ok m' := by
  unfold filterTx applyTxToSim
  split
  · simp
  split
  · simp
  cases (if tx.type = "otap_claim" then tx.otapClaim else none) with
  | some c =>
      dsimp only
      split <;> simp
  | none =>
      dsimp only
      split <;> simp

/-- The filter only drops. -/
theorem filterTxs_sublist (m : Sim) (txs : List Tx) : (m.filterTxs txs).Sublist txs := by
  induction txs generalizing m with
  | nil => exact List.Sublist.refl _
  | cons tx txs ih =>
      rw [filterTxs]
      cases m.filterTx tx with
      | none => exact (ih m).cons _
      | some m' => exact (ih m').cons_cons _

/-- What the filter keeps goes through from the same working copy. -/
theorem applyTxsToSim_filterTxs (m : Sim) (txs : List Tx) :
    ∃ m', m.applyTxsToSim (m.filterTxs txs) = .ok m' := by
  induction txs generalizing m with
  | nil => exact ⟨m, rfl⟩
  | cons tx txs ih =>
      rw [filterTxs]
      cases hone : m.filterTx tx with
      | none => exact ih m
      | some m₁ =>
          obtain ⟨m', hm'⟩ := ih m₁
          exact ⟨m', Res.bind_eq_ok.mpr ⟨m₁, filterTx_eq_some_iff.mp hone, hm'⟩⟩

end Sim

/-! ### The simulation with a credit -/

/-- The account that a transaction debits, and the amount. -/
def Tx.debit (tx : Tx) : String × Int64 :=
  match (if tx.type = "otap_claim" then tx.otapClaim else none) with
  | some c => (otapBucket c.P, c.amount + tx.fee)
  | none => (tx.fromId, outTotal tx.outputs + tx.fee)

namespace Sim

open BalanceCall

variable {n : Node} {m m' : Sim} {tx : Tx} {txs : List Tx}

/-- A transaction goes through exactly when it has the next nonce and its debit is covered. -/
theorem exists_applyTxToSim_iff (hcb : tx.type ≠ "coinbase") :
    (∃ m', m.applyTxToSim tx = .ok m') ↔
      tx.nonce = m.nonce tx.fromId + 1 ∧ tx.debit.2 ≤ m.bal tx.debit.1 := by
  unfold applyTxToSim Tx.debit
  rw [if_neg hcb]
  by_cases hnonce : tx.nonce = m.nonce tx.fromId + 1
  · rw [if_neg (not_not.mpr hnonce), and_iff_right hnonce]
    cases (if tx.type = "otap_claim" then tx.otapClaim else none) with
    | some c =>
        dsimp only
        rw [← Int64.not_lt]
        split
        next hlow => simp [hlow]
        next hlow => simp [hlow]
    | none =>
        dsimp only
        rw [← Int64.not_lt]
        split
        next hlow => simp [hlow]
        next hlow => simp [hlow]
  · rw [if_pos hnonce]
    simp [hnonce]

/-- What a checked transaction that goes through does to the working copy. -/
theorem eq_of_simTx (h : n.TxChecked tx) (hsim : m.simTx tx = .ok m') :
    m' = ⟨after m.bal tx.calls, Function.update m.nonce tx.fromId tx.nonce⟩ := by
  apply Sim.ext
  · exact bal_of_simTx h h.from_ne hsim
  · rcases nonce_of_applyTxToSim ((applyTxToSim_eq_ok_iff h).mpr hsim) with ⟨hcb, -⟩ | ⟨-, -, hupd⟩
    · exact absurd hcb h.not_coinbase
    · exact hupd

/-- A credit to an account does not change what a list of calls books. -/
theorem after_addBal (m : Sim) (cs : List BalanceCall) (id : String) (v : Int64) :
    after (m.addBal id v).bal cs = Function.update (after m.bal cs) id (after m.bal cs id + v) := by
  funext a
  rw [after_eq, bal_addBal, Function.update_apply, Function.update_apply, after_eq, after_eq]
  split
  next heq => rw [heq, Int64.add_assoc, Int64.add_assoc, Int64.add_comm v]
  next => rfl

/-- A checked transaction that goes through also does after a credit, if the credited balance still
covers its debit, and the credit stays. -/
theorem simTx_addBal (h : n.TxChecked tx) (hsim : m.simTx tx = .ok m') (id : String) (v : Int64) :
    (∃ m₁, (m.addBal id v).simTx tx = .ok m₁) ↔ (tx.debit.1 = id → tx.debit.2 ≤ m.bal id + v) := by
  have hok := (exists_applyTxToSim_iff h.not_coinbase).mp ⟨m', (applyTxToSim_eq_ok_iff h).mpr hsim⟩
  have hiff : (∃ m₁, (m.addBal id v).simTx tx = .ok m₁) ↔
      ∃ m₁, (m.addBal id v).applyTxToSim tx = .ok m₁ :=
    exists_congr fun m₁ => (applyTxToSim_eq_ok_iff h).symm
  rw [hiff, exists_applyTxToSim_iff h.not_coinbase, nonce_addBal, and_iff_right hok.1, bal_addBal,
    Function.update_apply]
  split
  next heq => simp [heq]
  next hne => simp [hne, hok.2]

/-- Transactions that go through also do after a credit, if the credited balance still covers every
debit of the account. -/
theorem simTxs_addBal (h : ∀ tx ∈ txs, n.TxChecked tx) (hsim : m.simTxs txs = .ok m') (id : String)
    (v : Int64) :
    (∃ m₁, (m.addBal id v).simTxs txs = .ok m₁) ↔
      ∀ pre tx post, txs = pre ++ tx :: post → tx.debit.1 = id →
        tx.debit.2 ≤ m.bal id + booked (pre.flatMap Tx.calls) id + v := by
  induction txs generalizing m with
  | nil =>
      refine iff_of_true ⟨_, rfl⟩ fun pre tx post heq => ?_
      simp at heq
  | cons tx txs ih =>
      obtain ⟨m₂, hone, htail⟩ := Res.bind_eq_ok.mp hsim
      have htx := h tx List.mem_cons_self
      have hrest : ∀ tx' ∈ txs, n.TxChecked tx' := fun tx' h' => h tx' (List.mem_cons_of_mem _ h')
      have hm₂ := eq_of_simTx htx hone
      -- after the first transaction the credit is still there
      have hstep : ∀ m₁, (m.addBal id v).simTx tx = .ok m₁ → m₁ = m₂.addBal id v := by
        intro m₁ h₁
        rw [eq_of_simTx htx h₁, hm₂, after_addBal]
        rfl
      have hbal : m.bal id + booked tx.calls id = m₂.bal id := by
        rw [hm₂]
        exact (after_eq m.bal tx.calls id).symm
      rw [forall_split_cons, List.flatMap_nil, booked_nil, Int64.add_zero,
        ← simTx_addBal htx hone id v]
      simp only [List.flatMap_cons, booked_append, ← Int64.add_assoc, hbal]
      rw [← ih hrest htail]
      constructor
      · rintro ⟨m₁, h₁⟩
        obtain ⟨m₃, h₃, h₄⟩ := Res.bind_eq_ok.mp h₁
        exact ⟨⟨m₃, h₃⟩, m₁, hstep m₃ h₃ ▸ h₄⟩
      · rintro ⟨⟨m₃, h₃⟩, m₁, h₁⟩
        exact ⟨m₁, Res.bind_eq_ok.mpr ⟨m₃, h₃, (hstep m₃ h₃).symm ▸ h₁⟩⟩

end Sim

namespace Node

variable {n : Node} {txs : List Tx}

/-! ### The rules on their own -/

/-- The three limits. -/
theorem validateLimits_eq_ok_iff {b : Block} :
    n.validateLimits b = .ok () ↔
      (0 < n.cfg.limits.maxBlockTxs → (b.txs.length : ℤ) ≤ n.cfg.limits.maxBlockTxs) ∧
        (0 < n.cfg.limits.maxBlockBytes → (b.sizeHint : ℤ) ≤ n.cfg.limits.maxBlockBytes) ∧
          ∀ tx ∈ b.txs, 0 < n.cfg.limits.maxTxOutputs →
            (tx.outputs.length : ℤ) ≤ n.cfg.limits.maxTxOutputs := by
  unfold validateLimits
  dsimp only
  split
  next h => simpa using fun h' : _ → _ => absurd (h' h.1) (not_le.mpr h.2)
  next hcount =>
    split
    next h => simpa using fun _ h' => absurd (h' h.1) (not_le.mpr h.2)
    next hsize =>
      rw [not_and, not_lt] at hcount hsize
      rw [and_iff_right hcount, and_iff_right hsize]
      simp

theorem checkTxs_eq_ok_iff : n.checkTxs txs = .ok () ↔ ∀ tx ∈ txs, n.checkTx tx = .ok () := by
  induction txs with
  | nil => simp [checkTxs]
  | cons tx txs ih => rw [checkTxs, Res.bind_unit_eq_ok, ih, List.forall_mem_cons]

variable (n) in
/-- A transaction passes the checks that `ValidateBlockBasic` and `ValidateLimits` make of it
alone. -/
structure PassesAlone (tx : Tx) : Prop where
  check : n.checkTx tx = .ok ()
  outputs : 0 < n.cfg.limits.maxTxOutputs → (tx.outputs.length : ℤ) ≤ n.cfg.limits.maxTxOutputs

/-- A reward that is not negative covers itself and the fees exactly when there are no fees to cover
or the sum wraps. -/
theorem reward_covers_iff {reward fees : Int64} (hreward : 0 ≤ reward) :
    ¬ reward < reward + fees ↔ fees ≤ 0 ∨ 2 ^ 63 ≤ reward.toInt + fees.toInt := by
  rw [Int64.lt_iff_toInt_lt, Int64.toInt_add, Int64.le_iff_toInt_le, Int64.toInt_zero]
  rw [Int64.le_iff_toInt_le, Int64.toInt_zero] at hreward
  have hr := reward.toInt_lt
  have hf := fees.le_toInt
  have hf' := fees.toInt_lt
  rw [Int.bmod_def]
  norm_num at hr hf hf' ⊢
  split <;> omega

/-! ### The assembled block -/

theorem sumFees_coinbaseTx (txs : List Tx) : sumFees (n.coinbaseTx :: txs) = sumFees txs := rfl

theorem outTotal_coinbaseTx : outTotal n.coinbaseTx.outputs = n.cfg.issuance.blockReward :=
  Int64.zero_add _

/-- `MineOne` puts its coinbase where the coinbase rules want it. -/
theorem coinbaseRules_blockTxs (h : ∀ tx ∈ txs, n.TxChecked tx) :
    n.coinbaseRules (n.blockTxs txs) = .ok () := by
  have hnone : ¬ (txs.any fun tx => tx.type = "coinbase") = true := by
    simpa using fun tx htx => (h tx htx).not_coinbase
  have htype : n.coinbaseTx.type = "coinbase" := rfl
  unfold coinbaseRules blockTxs
  split
  next =>
    dsimp only
    rw [if_neg (not_not.mpr htype), if_neg hnone]
    exact if_neg (not_not.mpr rfl)
  next => simp

theorem signedTxs_blockTxs (txs : List Tx) : n.signedTxs (n.blockTxs txs) = txs := by
  unfold signedTxs blockTxs
  split <;> rfl

/-- The coinbase of `MineOne` covers the fees if the reward does. -/
theorem coinbaseCoversFees_blockTxs (h : ∀ tx ∈ txs, n.TxChecked tx) :
    n.coinbaseCoversFees (n.blockTxs txs) = .ok () ↔ (n.cfg.issuance.enabled = true →
        ¬ n.cfg.issuance.blockReward < n.cfg.issuance.reward + sumFees txs) := by
  unfold blockTxs
  split
  next hon =>
    unfold coinbaseCoversFees
    dsimp only
    rw [sumFees_coinbaseTx, outTotal_coinbaseTx, forall_prop_of_true hon]
    split
    next hlow => simp [hlow.2]
    next hhigh => simpa using fun hlow => hhigh ⟨rfl, hlow⟩
  next hoff =>
    rw [forall_prop_of_false hoff]
    cases txs with
    | nil => simp [coinbaseCoversFees]
    | cons tx txs => simp [coinbaseCoversFees, (h tx List.mem_cons_self).not_coinbase]

theorem simulateTip_blockTxs (m : Sim) (hdr : BlockHeader) (txs : List Tx) :
    n.simulateTip m ⟨hdr, n.blockTxs txs⟩ = if n.cfg.issuance.enabled then
        (m.addBal n.cfg.issuance.coinbaseTo n.cfg.issuance.blockReward).simTxs txs
      else m.simTxs txs := by
  unfold simulateTip blockTxs
  split <;> rfl

/-- Of the limits, number and size are left. -/
theorem validateLimits_blockTxs (h : ∀ tx ∈ txs, n.PassesAlone tx) (hdr : BlockHeader) :
    n.validateLimits ⟨hdr, n.blockTxs txs⟩ = .ok () ↔ (0 < n.cfg.limits.maxBlockTxs →
          ((n.blockTxs txs).length : ℤ) ≤ n.cfg.limits.maxBlockTxs) ∧
        (0 < n.cfg.limits.maxBlockBytes →
          ((Block.mk hdr (n.blockTxs txs)).sizeHint : ℤ) ≤ n.cfg.limits.maxBlockBytes) := by
  have hcb : 0 < n.cfg.limits.maxTxOutputs →
      (n.coinbaseTx.outputs.length : ℤ) ≤ n.cfg.limits.maxTxOutputs := fun hpos => hpos
  have hout : ∀ tx ∈ n.blockTxs txs, 0 < n.cfg.limits.maxTxOutputs →
      (tx.outputs.length : ℤ) ≤ n.cfg.limits.maxTxOutputs := by
    unfold blockTxs
    split
    · exact List.forall_mem_cons.mpr ⟨hcb, fun tx htx => (h tx htx).outputs⟩
    · exact fun tx htx => (h tx htx).outputs
  rw [validateLimits_eq_ok_iff, and_iff_left hout]

/-- Only the fee rule can refuse what passes alone. -/
theorem validateBlockBasic_blockTxs (h : ∀ tx ∈ txs, n.PassesAlone tx) (hdr : BlockHeader) :
    n.validateBlockBasic ⟨hdr, n.blockTxs txs⟩ = .ok () ↔
      n.coinbaseCoversFees (n.blockTxs txs) = .ok () := by
  have hrules : n.coinbaseRules (n.blockTxs txs) = .ok () :=
    coinbaseRules_blockTxs fun tx htx => txChecked_of_checkTx (h tx htx).check
  have hsigned : n.checkTxs (n.signedTxs (n.blockTxs txs)) = .ok () := by
    rw [signedTxs_blockTxs]
    exact checkTxs_eq_ok_iff.mpr fun tx htx => (h tx htx).check
  rw [validateBlockBasic, Res.bind_unit_eq_ok, Res.bind_unit_eq_ok, and_iff_right hrules,
    and_iff_right hsigned]

open BalanceCall in
/-- Transactions that go through alone also do behind the coinbase, unless the reward makes the
balance of its account wrap. -/
theorem validateBlockStateTip_blockTxs (h : ∀ tx ∈ txs, n.TxChecked tx) {l : Ledger} {m : Sim}
    (hsim : l.view.simTxs txs = .ok m) (hdr : BlockHeader) :
    n.validateBlockStateTip l ⟨hdr, n.blockTxs txs⟩ = .ok () ↔ (n.cfg.issuance.enabled = true →
        ∀ pre tx post, txs = pre ++ tx :: post → tx.debit.1 = n.cfg.issuance.coinbaseTo →
          tx.debit.2 ≤ l.getBalance n.cfg.issuance.coinbaseTo +
            booked (pre.flatMap Tx.calls) n.cfg.issuance.coinbaseTo + n.cfg.issuance.blockReward) ∧
        n.coinbaseCoversFees (n.blockTxs txs) = .ok () := by
  rw [validateBlockStateTip, Res.bind_eq_ok, exists_and_right, simulateTip_blockTxs]
  apply and_congr_left
  intro _
  by_cases hon : n.cfg.issuance.enabled = true
  · rw [if_pos hon, forall_prop_of_true hon]
    exact Sim.simTxs_addBal h hsim _ _
  · rw [if_neg hon, forall_prop_of_false hon]
    exact iff_of_true ⟨m, hsim⟩ trivial

variable {F : Type} [LinearOrder F] {env : MineEnv F n.prim.sha256}

/-- A mined block holds the coinbase and the selected transactions. -/
theorem txs_of_minedBlock {s : DB} {pool : Mempool F} {b : Block}
    (h : n.minedBlock env s pool = some (.ok b)) :
    b.txs = n.blockTxs (n.selectedTxs env s.ledger pool) := by
  unfold minedBlock at h
  dsimp only at h
  split at h
  · cases h
  · obtain ⟨hdr, -, heq⟩ := Option.map_eq_some_iff.mp h
    cases heq
    rfl

/-- A header that meets the target as it is built is the header of the block. -/
theorem minedBlock_of_header {s : DB} {pool : Mempool F} {hdr : BlockHeader}
    (hsel : n.selectedTxs env s.ledger pool = txs)
    (hbuild : n.buildNextBlockHeader env.headerNow s (n.blockTxs txs) = .ok hdr)
    (hmeets : meetsTarget (hdr.hash n.prim.sha256) hdr.bits = true) :
    n.minedBlock env s pool = some (.ok ⟨hdr, n.blockTxs txs⟩) := by
  have hmine : n.mineHeader (2 ^ 64) hdr = some hdr := by
    rw [show 2 ^ 64 = (2 ^ 64 - 1) + 1 from rfl, mineHeader, if_pos hmeets]
  unfold minedBlock
  dsimp only
  rw [hsel, hbuild]
  dsimp only
  rw [hmine]
  rfl

/-- What is selected was in the pool. -/
theorem mem_of_selectedTxs {l : Ledger} {pool : Mempool F} {tx : Tx}
    (h : tx ∈ n.selectedTxs env l pool) :
    ∃ acct k mt, pool.entry acct k = some mt ∧ mt.tx = tx :=
  Mempool.mem_of_drain ((env.sort.perm _).mem_iff.mp ((Sim.filterTxs_sublist _ _).subset h))

open BalanceCall in
variable (n) in
/-- What `MineOne` leaves to luck about the transactions that it takes from the pool: their number
and size, that there are no fees to cover, and that the reward does not take the balance of the
coinbase account over the end of `int64` before a transaction that spends from it. -/
structure Mineable (l : Ledger) (txs : List Tx) : Prop where
  count : 0 < n.cfg.limits.maxBlockTxs → ((n.blockTxs txs).length : ℤ) ≤ n.cfg.limits.maxBlockTxs
  size : 0 < n.cfg.limits.maxBlockBytes → ((256 + (n.blockTxs txs).length * 128 +
      ((n.blockTxs txs).map fun tx => tx.outputs.length * 64).sum : ℕ) : ℤ) ≤
        n.cfg.limits.maxBlockBytes
  fees : n.cfg.issuance.enabled = true →
    sumFees txs ≤ 0 ∨ 2 ^ 63 ≤ n.cfg.issuance.blockReward.toInt + (sumFees txs).toInt
  funds : n.cfg.issuance.enabled = true →
    ∀ pre tx post, txs = pre ++ tx :: post → tx.debit.1 = n.cfg.issuance.coinbaseTo →
      tx.debit.2 ≤ l.getBalance n.cfg.issuance.coinbaseTo +
        booked (pre.flatMap Tx.calls) n.cfg.issuance.coinbaseTo + n.cfg.issuance.blockReward

/-- The block that `MineOne` assembles is accepted exactly when the transactions that `Drain` and
`FilterTxsBySimState` take from the pool are mineable. -/
theorem minedBlock_accepted_iff (n : Node) (env : MineEnv F n.prim.sha256) (s : DB)
    (pool : Mempool F) (hreward : n.cfg.issuance.reward = n.cfg.issuance.blockReward)
    (hnn : 0 ≤ n.cfg.issuance.blockReward)
    (hpool : ∀ acct k mt, pool.entry acct k = some mt → n.PassesAlone mt.tx) (b : Block)
    (hb : n.minedBlock env s pool = some (.ok b)) :
    n.Accepts s.ledger b ↔ n.Mineable s.ledger (n.selectedTxs env s.ledger pool) := by
  have halone : ∀ tx ∈ n.selectedTxs env s.ledger pool, n.PassesAlone tx := by
    intro tx htx
    obtain ⟨acct, k, mt, hmt, rfl⟩ := mem_of_selectedTxs htx
    exact hpool acct k mt hmt
  have hchecked : ∀ tx ∈ n.selectedTxs env s.ledger pool, n.TxChecked tx :=
    fun tx htx => txChecked_of_checkTx (halone tx htx).check
  -- the filter has run the simulation, but without the coinbase
  obtain ⟨m, hm⟩ := Sim.applyTxsToSim_filterTxs s.ledger.view
    (env.sort.sort (n.drained env s.ledger pool).1)
  have hsim : s.ledger.view.simTxs (n.selectedTxs env s.ledger pool) = .ok m :=
    (Sim.applyTxsToSim_eq_ok_iff hchecked).mp hm
  have hcover := coinbaseCoversFees_blockTxs hchecked
  rw [hreward, reward_covers_iff hnn] at hcover
  have htxs := txs_of_minedBlock hb
  obtain ⟨hdr, txs⟩ := b
  subst htxs
  have hlimits := validateLimits_blockTxs halone hdr
  have hbasic := validateBlockBasic_blockTxs halone hdr
  have htip := validateBlockStateTip_blockTxs hchecked hsim hdr
  rw [hcover] at hbasic htip
  constructor
  · intro hacc
    obtain ⟨hcount, hsize⟩ := hlimits.mp hacc.limits
    exact ⟨hcount, hsize, hbasic.mp hacc.basic, (htip.mp hacc.tip).1⟩
  · intro hmine
    exact ⟨hlimits.mpr ⟨hmine.count, hmine.size⟩, hbasic.mpr hmine.fees,
      htip.mpr ⟨hmine.funds, hmine.fees⟩⟩

end Node

namespace Sample

/-- A node that pays the block reward to bob, at the lowest difficulty. -/
def miner : Node :=
  { node with
    cfg := { cfg with issuance := ⟨true, 5000, 5000, "", bob⟩ }
    prim := { prim with nextWorkRequired := fun _ _ _ => some 0x207fffff } }

/-- Alice pays 10 to bob, for a fee. -/
def spending (fee : Int64) : Tx := { transfer alice 1 [pay bob 10] with fee := fee }

/-- A mempool with this transaction. -/
def spendingPool (fee : Int64) : Mempool ℕ where
  cfg := ⟨0, 5000, 8000000, 3600, false, 50⟩
  byAcct := (∅ : Table (Lane ℕ)).insert alice
    ((∅ : Lane ℕ).insert 1 ⟨spending fee, "", alice, 1, fee, 260, 0, 3600⟩)
  totalTxs := 1
  totalBytes := 260

/-- Maps iterated in order, and no time passing. -/
def mineEnv : MineEnv ℕ miner.prim.sha256 where
  accts := ⟨id, fun _ => List.Perm.refl _⟩
  heap := HeapPop.sortedList ℕ
  sort := TxSort.insertion _
  drainNow := 3600
  headerNow := 3600
  submitNow := 3600

/-- The header that is mined for a list of transactions. -/
def minedHeader (txs : List Tx) : BlockHeader where
  version := 1
  chainID := "sample"
  height := 1
  timeUnix := 3600
  prevHash := node.genesisBlock.header.hash sha256
  stateRoot := node.genesisBlock.header.stateRoot
  txRoot := txRoot sha256 txs
  bits := 0x207fffff
  nonce := 0

/-- The block that is mined from the mempool. -/
def minedSpending (fee : Int64) : Block :=
  ⟨minedHeader [miner.coinbaseTx, spending fee], [miner.coinbaseTx, spending fee]⟩

theorem buildNextBlockHeader_miner (txs : List Tx) :
    miner.buildNextBlockHeader 3600 richDB txs = .ok (minedHeader txs) := by
  have htip : richDB.getTip = some (0, node.genesisHash) := rfl
  have hblk : richDB.blockByHash node.genesisHash = some node.genesisBlock := by
    rw [richDB, Node.blockByHash_genesisDB, Function.update_self]
  unfold Node.buildNextBlockHeader
  rw [htip]
  dsimp only
  rw [hblk]
  rfl

theorem minedBlock_spending (fee : Int64)
    (hsel : miner.selectedTxs mineEnv richDB.ledger (spendingPool fee) = [spending fee])
    (hmeets : meetsTarget ((minedSpending fee).header.hash sha256) 0x207fffff = true) :
    miner.minedBlock mineEnv richDB (spendingPool fee) = some (.ok (minedSpending fee)) := by
  have hbuild : miner.buildNextBlockHeader mineEnv.headerNow richDB
      (miner.blockTxs [spending fee]) = .ok (minedSpending fee).header :=
    buildNextBlockHeader_miner _
  exact Node.minedBlock_of_header hsel hbuild hmeets

theorem passesAlone_spendingPool (fee : Int64) (h : miner.checkTx (spending fee) = .ok ())
    (acct : String) (k : UInt64) (mt : MemTx ℕ) (hmt : (spendingPool fee).entry acct k = some mt) :
    miner.PassesAlone mt.tx := by
  obtain ⟨lane, hlane, hmt⟩ := Option.bind_eq_some_iff.mp hmt
  rw [spendingPool, Table.getElem?_put] at hlane
  split at hlane
  next =>
    cases hlane
    rw [Std.ExtTreeMap.getElem?_insert] at hmt
    split at hmt
    next =>
      cases hmt
      exact ⟨h, fun hpos => absurd hpos (by decide)⟩
    next => simp at hmt
  next => simp at hlane

end Sample

namespace Node

open Sample

/-- Without a fee the block is accepted. -/
theorem minedBlock_accepted_free :
    (miner.cfg.issuance.reward = miner.cfg.issuance.blockReward ∧
      0 ≤ miner.cfg.issuance.blockReward ∧
      (∀ acct k mt, (spendingPool 0).entry acct k = some mt → miner.PassesAlone mt.tx) ∧
      miner.minedBlock mineEnv richDB (spendingPool 0) = some (.ok (minedSpending 0))) ∧
      miner.Accepts richDB.ledger (minedSpending 0) := by
  have hpool := passesAlone_spendingPool 0 (by decide +kernel)
  have hsel : miner.selectedTxs mineEnv richDB.ledger (spendingPool 0) = [spending 0] := by
    decide +kernel
  have hb := minedBlock_spending 0 hsel (by decide +kernel)
  refine ⟨⟨rfl, by decide, hpool, hb⟩, ?_⟩
  apply (minedBlock_accepted_iff miner mineEnv richDB (spendingPool 0) rfl (by decide) hpool _
    hb).mpr
  rw [hsel]
  refine ⟨fun h => absurd h (by decide), fun h => absurd h (by decide), fun _ => Or.inl (by decide),
    fun _ => ?_⟩
  -- the coinbase pays bob, and alice is the only one who is debited
  intro pre tx post hsplit hdebit
  have htx : tx ∈ [spending 0] := hsplit ▸ List.mem_append_right _ List.mem_cons_self
  rw [List.mem_singleton.mp htx] at hdebit
  exact absurd hdebit (by decide +kernel)

/-- With a fee of 1 it is refused: the coinbase that `MineOne` builds does not cover it. -/
theorem not_accepts_minedBlock_fee :
    (miner.cfg.issuance.reward = miner.cfg.issuance.blockReward ∧
      0 ≤ miner.cfg.issuance.blockReward ∧
      (∀ acct k mt, (spendingPool 1).entry acct k = some mt → miner.PassesAlone mt.tx) ∧
      miner.minedBlock mineEnv richDB (spendingPool 1) = some (.ok (minedSpending 1))) ∧
      miner.validateBlockBasic (minedSpending 1) = .error (.error "coinbase_missing_fees") ∧
      ¬ miner.Accepts richDB.ledger (minedSpending 1) := by
  have hbasic : miner.validateBlockBasic (minedSpending 1) =
      .error (.error "coinbase_missing_fees") := by decide +kernel
  have hb := minedBlock_spending 1 (by decide +kernel) (by decide +kernel)
  refine ⟨⟨rfl, by decide, passesAlone_spendingPool 1 (by decide +kernel), hb⟩, hbasic,
    fun hacc => ?_⟩
  rw [hacc.basic] at hbasic
  cases hbasic

end Node

end ReserveOS
