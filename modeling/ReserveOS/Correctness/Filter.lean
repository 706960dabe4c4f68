import ReserveOS.Correctness.Simulators
import ReserveOS.Node.Events
import ReserveOS.Node.SimOver

/-!
# Block assembly

What `FilterTxsBySimState` keeps goes through the validators, and what it drops would not have
(`filterTxs_sound`). The filter and the validators do the same bookings in a different order. In
exact arithmetic bookings commute, so a credit that is there from the start, such as that of the
coinbase, stays beside all of them (`ExactSim.simTxs_filterTxs`).
-/

namespace ReserveOS

/-- Not a coinbase, and a claim carries its record. -/
def Tx.Ordinary (tx : Tx) : Prop :=
  tx.type ≠ "coinbase" ∧ (tx.type = "otap_claim" → tx.otapClaim ≠ none)

/-- The claim record that the loops use. -/
def Tx.usedClaim (tx : Tx) : Option OTAPClaim :=
  if tx.type = "otap_claim" then tx.otapClaim else none

namespace ExactSim

open SimOver

variable (m : ExactSim) (tx : Tx)

/-! ### Bookings -/

theorem setBal_sub (id : String) (v : ℤ) : m.setBal id (m.bal id - v) = m.addBal id (-v) := by
  rw [addBal, sub_eq_add_neg]

theorem bal_addBal_apply (id : String) (v : ℤ) (a : String) :
    (m.addBal id v).bal a = m.bal a + if a = id then v else 0 := by
  show Function.update m.bal id (m.bal id + v) a = _
  rw [Function.update_apply]
  split
  next heq => rw [heq]
  next => rw [add_zero]

theorem addBal_zero (id : String) : m.addBal id 0 = m := by
  ext a
  · rw [bal_addBal_apply, ite_self, add_zero]
  · rfl

theorem addBal_comm (a b : String) (v w : ℤ) :
    (m.addBal a v).addBal b w = (m.addBal b w).addBal a v := by
  ext x
  · rw [bal_addBal_apply, bal_addBal_apply, bal_addBal_apply, bal_addBal_apply, add_right_comm]
  · rfl

/-- A credit commutes with the outputs. -/
theorem creditOutputs_addBal (id : String) (v : ℤ) (outs : List TxOut) :
    (m.addBal id v).creditOutputs .exact outs = (m.creditOutputs .exact outs).addBal id v := by
  induction outs generalizing m with
  | nil => rfl
  | cons o outs ih =>
      unfold creditOutputs at ih ⊢
      rw [List.foldl_cons, List.foldl_cons, ← ih]
      congr 1
      split
      · exact addBal_comm m id _ v _
      split
      · exact addBal_comm m id _ v _
      · rfl

/-! ### One transaction -/

/-- The account that a transaction debits, and the amount. -/
def debit : String × ℤ :=
  match tx.usedClaim with
  | some c => (otapBucket c.P, c.amount.toInt + tx.fee.toInt)
  | none => (tx.fromId, SimOver.outTotal .exact tx.outputs + tx.fee.toInt)

/-- The bookings of a transaction. -/
def after : ExactSim :=
  let m' := (m.setNonce tx.fromId tx.nonce.toNat).setBal (debit tx).1
    (m.bal (debit tx).1 - (debit tx).2)
  match tx.usedClaim with
  | some c => m'.addBal c.toId c.amount.toInt
  | none => m'.creditOutputs .exact tx.outputs

variable {tx}

/-- The filter checks the nonce and the debit. -/
theorem filterTx_eq (hcb : tx.type ≠ "coinbase") :
    m.filterTx .exact tx = if tx.nonce.toNat ≠ m.nonce tx.fromId + 1 then none
      else if m.bal (debit tx).1 < (debit tx).2 then none else some (after m tx) := by
  unfold filterTx after debit Tx.usedClaim
  rw [if_neg hcb]
  cases (if tx.type = "otap_claim" then tx.otapClaim else none) <;> rfl

/-- So does the validator of forks. -/
theorem applyTxToSim_eq (hcb : tx.type ≠ "coinbase") :
    m.applyTxToSim .exact tx =
      if tx.nonce.toNat ≠ m.nonce tx.fromId + 1 then .error (.error "bad_nonce")
      else if m.bal (debit tx).1 < (debit tx).2 then
        .error (.error (if tx.usedClaim.isSome then "insufficient_otap_bucket"
          else "insufficient_funds"))
      else .ok (after m tx) := by
  unfold applyTxToSim after debit Tx.usedClaim
  rw [if_neg hcb]
  cases (if tx.type = "otap_claim" then tx.otapClaim else none) <;> rfl

/-- And so does the validator of the tip, where a claim carries its record. -/
theorem simTx_eq (hord : tx.Ordinary) :
    m.simTx .exact tx =
      if tx.nonce.toNat ≠ m.nonce tx.fromId + 1 then .error (.error "bad nonce in block")
      else if m.bal (debit tx).1 < (debit tx).2 then
        .error (.error (if tx.usedClaim.isSome then "insufficient otap bucket"
          else "insufficient funds"))
      else .ok (after m tx) := by
  unfold simTx after debit Tx.usedClaim
  dsimp only
  rw [Tx.nonce_normalize, Tx.fromId_normalize, Tx.otapClaim_normalize, Tx.fee_normalize,
    Tx.outputs_normalize]
  -- a claim without its record, for which the loop panics, is excluded
  by_cases hclaim : tx.type = "otap_claim"
  · obtain ⟨c, hc⟩ := Option.ne_none_iff_exists'.mp (hord.2 hclaim)
    rw [if_pos ((tx.type_normalize_claim).mpr hclaim), if_pos hclaim, hc]
    rfl
  · rw [if_neg (mt (tx.type_normalize_claim).mp hclaim), if_neg hclaim]
    rfl

variable (tx) in
/-- The transaction has the next nonce, and its debit is covered. -/
def Covers : Prop :=
  tx.nonce.toNat = m.nonce tx.fromId + 1 ∧ (debit tx).2 ≤ m.bal (debit tx).1

variable {m}

theorem Covers.filterTx (h : m.Covers tx) (hcb : tx.type ≠ "coinbase") :
    m.filterTx .exact tx = some (m.after tx) := by
  rw [filterTx_eq m hcb, if_neg (not_not.mpr h.1), if_neg (not_lt.mpr h.2)]

theorem Covers.applyTxToSim (h : m.Covers tx) (hcb : tx.type ≠ "coinbase") :
    m.applyTxToSim .exact tx = .ok (m.after tx) := by
  rw [applyTxToSim_eq m hcb, if_neg (not_not.mpr h.1), if_neg (not_lt.mpr h.2)]

theorem Covers.simTx (h : m.Covers tx) (hord : tx.Ordinary) :
    m.simTx .exact tx = .ok (m.after tx) := by
  rw [simTx_eq m hord, if_neg (not_not.mpr h.1), if_neg (not_lt.mpr h.2)]

theorem filterTx_of_not_covers (h : ¬ m.Covers tx) (hcb : tx.type ≠ "coinbase") :
    m.filterTx .exact tx = none := by
  rw [filterTx_eq m hcb]
  split
  · rfl
  next hnonce => exact if_pos (not_le.mp fun hdebit => h ⟨not_not.mp hnonce, hdebit⟩)

/-- A transaction that is not covered fails one of the three checks. -/
theorem simTx_of_not_covers (h : ¬ m.Covers tx) (hord : tx.Ordinary) :
    ∃ e ∈ ["bad nonce in block", "insufficient otap bucket", "insufficient funds"],
      m.simTx .exact tx = .error (.error e) := by
  rw [simTx_eq m hord]
  split
  · exact ⟨_, by simp, rfl⟩
  next hnonce =>
    rw [if_pos (not_le.mp fun hdebit => h ⟨not_not.mp hnonce, hdebit⟩)]
    split
    · exact ⟨_, by simp, rfl⟩
    · exact ⟨_, by simp, rfl⟩

/-- A credit keeps a debit covered. -/
theorem Covers.addBal (h : m.Covers tx) (id : String) {v : ℤ} (hv : 0 ≤ v) :
    Covers (m.addBal id v) tx := by
  refine ⟨h.1, h.2.trans ?_⟩
  rw [bal_addBal_apply]
  split <;> omega

variable (m tx) in
/-- A credit stays beside the bookings. -/
theorem after_addBal (id : String) (v : ℤ) :
    after (m.addBal id v) tx = (m.after tx).addBal id v := by
  have hdebit : ∀ k : ExactSim, (k.setNonce tx.fromId tx.nonce.toNat).setBal (debit tx).1
      (k.bal (debit tx).1 - (debit tx).2) =
        (k.setNonce tx.fromId tx.nonce.toNat).addBal (debit tx).1 (-(debit tx).2) :=
    fun k => setBal_sub (k.setNonce tx.fromId tx.nonce.toNat) (debit tx).1 (debit tx).2
  unfold after
  rw [hdebit, hdebit, show SimOver.setNonce (m.addBal id v) tx.fromId tx.nonce.toNat =
    SimOver.addBal (m.setNonce tx.fromId tx.nonce.toNat) id v from rfl, addBal_comm]
  split
  · exact addBal_comm _ id _ v _
  · exact creditOutputs_addBal _ id v _

/-! ### The loops -/

variable (m) in
/-- The bookings of a list. -/
def afterAll (txs : List Tx) : ExactSim := txs.foldl after m

variable (m) in
/-- What is kept goes through both validators behind a credit. -/
theorem simTxs_filterTxs {txs : List Tx} (hord : ∀ tx ∈ txs, tx.Ordinary) (id : String) {v : ℤ}
    (hv : 0 ≤ v) :
    (m.addBal id v).simTxs .exact (m.filterTxs .exact txs) =
        .ok ((m.afterAll (m.filterTxs .exact txs)).addBal id v) ∧
      (m.addBal id v).applyTxsToSim .exact (m.filterTxs .exact txs) =
        .ok ((m.afterAll (m.filterTxs .exact txs)).addBal id v) := by
  -- the filter and the validators are in step, up to the credit
  induction txs generalizing m with
  | nil => exact ⟨rfl, rfl⟩
  | cons tx txs ih =>
      have htx := hord tx List.mem_cons_self
      have hrest : ∀ t ∈ txs, t.Ordinary := fun t ht => hord t (List.mem_cons_of_mem _ ht)
      rw [filterTxs]
      by_cases hcov : m.Covers tx
      · have hcov' := hcov.addBal id hv
        rw [hcov.filterTx htx.1, simTxs, applyTxsToSim, hcov'.simTx htx,
          hcov'.applyTxToSim htx.1, after_addBal]
        exact ih (m.after tx) hrest
      · rw [filterTx_of_not_covers hcov htx.1]
        exact ih m hrest

variable (m) in
/-- The filter goes on from the bookings of what it has kept. -/
theorem filterTxs_append {pre : List Tx} (hord : ∀ tx ∈ pre, tx.Ordinary) (post : List Tx) :
    m.filterTxs .exact (pre ++ post) = m.filterTxs .exact pre ++
      (m.afterAll (m.filterTxs .exact pre)).filterTxs .exact post := by
  induction pre generalizing m with
  | nil => rfl
  | cons tx pre ih =>
      have htx := hord tx List.mem_cons_self
      have hrest : ∀ t ∈ pre, t.Ordinary := fun t ht => hord t (List.mem_cons_of_mem _ ht)
      rw [List.cons_append, filterTxs, filterTxs]
      by_cases hcov : m.Covers tx
      · rw [hcov.filterTx htx.1]
        exact congrArg (List.cons tx) (ih (m.after tx) hrest)
      · rw [filterTx_of_not_covers hcov htx.1]
        exact ih m hrest

end ExactSim

/-- `FilterTxsBySimState` in exact arithmetic, for a ledger of any balances and nonces. The kept
list goes through the loops of both validators, from the ledger with any credit. Each transaction is
kept at its turn, or it fails a check of the validator after what was kept before it. -/
theorem filterTxs_sound {sha256 : List UInt8 → Hash} (srt : TxSort sha256) (m : ExactSim)
    (txs : List Tx) (hord : ∀ tx ∈ txs, tx.Ordinary) (id : String) (v : ℤ) (hv : 0 ≤ v) :
    (∃ m', (m.addBal id v).simTxs .exact (m.filterTxs .exact (srt.sort txs)) = .ok m' ∧
      (m.addBal id v).applyTxsToSim .exact (m.filterTxs .exact (srt.sort txs)) = .ok m') ∧
    ∀ pre tx post, srt.sort txs = pre ++ tx :: post →
      ∃ m₁, m.simTxs .exact (m.filterTxs .exact pre) = .ok m₁ ∧
        (m.filterTxs .exact (pre ++ [tx]) = m.filterTxs .exact pre ++ [tx] ∨
          m.filterTxs .exact (pre ++ [tx]) = m.filterTxs .exact pre ∧
          ∃ e ∈ ["bad nonce in block", "insufficient otap bucket", "insufficient funds"],
            m₁.simTx .exact tx = .error (.error e)) := by
  have hsorted : ∀ tx ∈ srt.sort txs, tx.Ordinary := fun tx htx =>
    hord tx ((srt.perm txs).mem_iff.mp htx)
  constructor
  · exact ⟨_, m.simTxs_filterTxs hsorted id hv⟩
  · intro pre tx post hsplit
    rw [hsplit] at hsorted
    have hpre : ∀ t ∈ pre, t.Ordinary := fun t ht => hsorted t (List.mem_append_left _ ht)
    have htx : tx.Ordinary := hsorted tx (List.mem_append_right _ List.mem_cons_self)
    -- the loop of the validator without a credit is the one with a credit of zero
    have hsim := (m.simTxs_filterTxs hpre "" (le_refl 0)).1
    rw [ExactSim.addBal_zero, ExactSim.addBal_zero] at hsim
    refine ⟨_, hsim, ?_⟩
    rw [m.filterTxs_append hpre, SimOver.filterTxs]
    by_cases hcov : (m.afterAll (m.filterTxs .exact pre)).Covers tx
    · rw [hcov.filterTx htx.1]
      exact .inl rfl
    · rw [ExactSim.filterTx_of_not_covers hcov htx.1]
      exact .inr ⟨List.append_nil _, ExactSim.simTx_of_not_covers hcov htx⟩

namespace Sample

/-- Alice pays bob twice, and once without having the money. -/
def orders : List Tx :=
  [transfer alice 1 [pay bob 5], transfer alice 2 [pay alice 5], transfer bob 1 [pay alice 100]]

/-- Ten units for each account, and no transactions yet. -/
def tenEach : ExactSim := ⟨fun _ => 10, fun _ => 0⟩

theorem ordinary_orders : ∀ tx ∈ orders, tx.Ordinary := by
  intro tx htx
  simp only [orders, List.mem_cons, List.not_mem_nil, or_false] at htx
  rcases htx with rfl | rfl | rfl <;> exact ⟨by decide, fun h => absurd h (by decide)⟩

end Sample

open Sample

/-- The payments that are kept go through behind a credit of three. -/
theorem filterTxs_sound_orders :
    orders.length = 3 ∧
    ∃ m', (tenEach.addBal bob 3).simTxs .exact (tenEach.filterTxs .exact
      ((TxSort.insertion sha256).sort orders)) = .ok m' := by
  obtain ⟨⟨m', hm', -⟩, -⟩ := filterTxs_sound (TxSort.insertion sha256) tenEach
    orders ordinary_orders bob 3 (by decide)
  exact ⟨rfl, m', hm'⟩

end ReserveOS
