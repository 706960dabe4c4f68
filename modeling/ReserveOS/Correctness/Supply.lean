import ReserveOS.Correctness.Simulators
import ReserveOS.General.Postings
import ReserveOS.Node.Events

/-!
# Supply accounting

What a block does to balances is a list of exact integer postings, and the simulation computes them
in `int64` (`bal_simulateTip`). So the sum of all balances changes by the coinbase amount, less the
fees, less what is sent to no destination, less what wrap-around takes away (`supply_simulateTip`),
and `supply_iff` says exactly when the last two do not matter.
-/

namespace ReserveOS

open Postings

/-! ### Blocks as postings -/

namespace TxOut

/-- The account that an output of a transfer credits, if any. -/
def dest (o : TxOut) : Option String :=
  if o.address ≠ "" then some o.address else if o.P ≠ "" then some (otapBucket o.P) else none

/-- The credits of a list of outputs. -/
def credits (outs : List TxOut) : List (String × ℤ) :=
  outs.filterMap fun o => o.dest.map fun a => (a, o.amount.toInt)

/-- The exact sum of the output amounts. -/
def amountTotal (outs : List TxOut) : ℤ := (outs.map fun o => o.amount.toInt).sum

/-- The exact sum of the amounts of the outputs without a destination. -/
def burned (outs : List TxOut) : ℤ :=
  ((outs.filter fun o => o.dest = none).map fun o => o.amount.toInt).sum

theorem amountTotal_cons (o : TxOut) (outs : List TxOut) :
    amountTotal (o :: outs) = o.amount.toInt + amountTotal outs := by
  simp [amountTotal]

/-- Every output amount is credited or burned. -/
theorem total_credits (outs : List TxOut) :
    total (credits outs) = amountTotal outs - burned outs := by
  induction outs with
  | nil => rfl
  | cons o outs ih =>
      have hcons : credits (o :: outs) = (match o.dest with
          | some a => (a, o.amount.toInt) :: credits outs
          | none => credits outs) := by
        cases hd : o.dest <;> simp [credits, hd]
      have hburn : burned (o :: outs) = (match o.dest with
          | some _ => burned outs
          | none => o.amount.toInt + burned outs) := by
        cases hd : o.dest <;> simp [burned, hd]
      -- an output is credited or burned, never both
      rw [hcons, hburn, amountTotal_cons]
      cases o.dest with
      | none =>
          dsimp only
          rw [ih]
          omega
      | some a =>
          dsimp only
          rw [total_cons, ih]
          omega

end TxOut

namespace Tx

/-- What a transaction other than a coinbase books, in exact integers. -/
def postings (tx : Tx) : List (String × ℤ) :=
  match (if tx.type = "otap_claim" then tx.otapClaim else none) with
  | some c => [(otapBucket c.P, -(c.amount.toInt + tx.fee.toInt)), (c.toId, c.amount.toInt)]
  | none =>
      (tx.fromId, -(TxOut.amountTotal tx.outputs + tx.fee.toInt)) :: TxOut.credits tx.outputs

/-- What the outputs of a transaction send to no destination. -/
def burned (tx : Tx) : ℤ :=
  match (if tx.type = "otap_claim" then tx.otapClaim else none) with
  | some _ => 0
  | none => TxOut.burned tx.outputs

/-- A transaction moves amounts around, except for its fee and what it burns. -/
theorem total_postings (tx : Tx) : total tx.postings = -tx.fee.toInt - tx.burned := by
  unfold postings burned
  split
  · rw [total_cons, total_cons, total_nil]
    omega
  · rw [total_cons, TxOut.total_credits]
    omega

/-- What a coinbase books in a simulation: every output to its address. -/
def coinbasePostings (tx : Tx) : List (String × ℤ) :=
  tx.outputs.map fun o => (o.address, o.amount.toInt)

theorem total_coinbasePostings (tx : Tx) :
    total tx.coinbasePostings = TxOut.amountTotal tx.outputs := by
  simp [total, coinbasePostings, TxOut.amountTotal, List.map_map, Function.comp_def]

end Tx

/-- What the simulation of a block books. -/
def blockPostings (txs : List Tx) : List (String × ℤ) :=
  txs.flatMap fun tx => if tx.type = "coinbase" then tx.coinbasePostings else tx.postings

/-- The exact amount of the coinbase transactions. -/
def coinbaseTotal (txs : List Tx) : ℤ :=
  (txs.map fun tx => if tx.type = "coinbase" then TxOut.amountTotal tx.outputs else 0).sum

/-- The exact sum of the fees of the other transactions. -/
def feeTotal (txs : List Tx) : ℤ :=
  (txs.map fun tx => if tx.type = "coinbase" then 0 else tx.fee.toInt).sum

/-- The exact amount that the other transactions send to no destination. -/
def burnedTotal (txs : List Tx) : ℤ :=
  (txs.map fun tx => if tx.type = "coinbase" then 0 else tx.burned).sum

/-- The postings of a block add up to coinbase less fees less what is burned. -/
theorem total_blockPostings (txs : List Tx) :
    total (blockPostings txs) = coinbaseTotal txs - feeTotal txs - burnedTotal txs := by
  induction txs with
  | nil => rfl
  | cons tx txs ih =>
      have hcons : blockPostings (tx :: txs) =
          (if tx.type = "coinbase" then tx.coinbasePostings else tx.postings) ++
            blockPostings txs :=
        List.flatMap_cons
      rw [hcons, total_append, ih]
      unfold coinbaseTotal feeTotal burnedTotal
      simp only [List.map_cons, List.sum_cons]
      split
      · rw [Tx.total_coinbasePostings]
        omega
      · rw [Tx.total_postings]
        omega

/-! ### The simulation books the postings modulo 64 bits -/

/-- The sum of the outputs, modulo `2 ^ 64`. -/
theorem outTotal_eq (outs : List TxOut) : outTotal outs = Int64.ofInt (TxOut.amountTotal outs) := by
  have hfold : ∀ t : Int64, outs.foldl (fun t o => t + o.amount) t =
      t + Int64.ofInt (TxOut.amountTotal outs) := by
    induction outs with
    | nil => exact fun t => (Int64.add_zero t).symm
    | cons o outs ih =>
        intro t
        rw [List.foldl_cons, ih, TxOut.amountTotal_cons, Int64.ofInt_add, Int64.ofInt_toInt,
          Int64.add_assoc]
  exact (hfold 0).trans (Int64.zero_add _)

namespace Sim

/-- The balances of `m'` are those of `m` with the postings added, in `int64`. -/
def Books (m : Sim) (ps : List (String × ℤ)) (m' : Sim) : Prop :=
  ∀ a, m'.bal a = m.bal a + Int64.ofInt (effect ps a)

variable {m m₁ m₂ : Sim} {ps qs : List (String × ℤ)}

theorem Books.of_bal_eq (h : m₁.bal = m.bal) : m.Books [] m₁ := by
  intro a
  rw [h]
  exact (Int64.add_zero _).symm

theorem Books.append (h₁ : m.Books ps m₁) (h₂ : m₁.Books qs m₂) : m.Books (ps ++ qs) m₂ := by
  intro a
  rw [h₂ a, h₁ a, effect_append, Int64.ofInt_add, Int64.add_assoc]

theorem Books.setNonce (h : m.Books ps m₁) (id : String) (k : UInt64) :
    m.Books ps (m₁.setNonce id k) := h

theorem books_addBal (m : Sim) (id : String) (x : ℤ) :
    m.Books [(id, x)] (m.addBal id (Int64.ofInt x)) := by
  intro a
  rw [bal_addBal, Function.update_apply, effect_cons, effect_nil, add_zero]
  by_cases h : a = id
  · rw [if_pos h, if_pos h.symm, h]
  · rw [if_neg h, if_neg (Ne.symm h)]
    exact (Int64.add_zero _).symm

/-- A credit of a wire amount. -/
theorem books_credit (m : Sim) (id : String) (v : Int64) :
    m.Books [(id, v.toInt)] (m.addBal id v) := by
  have h := books_addBal m id v.toInt
  rwa [Int64.ofInt_toInt] at h

/-- A debit, as both simulators write it. -/
theorem books_debit (m : Sim) (id : String) (x : ℤ) :
    m.Books [(id, -x)] (m.setBal id (m.bal id - Int64.ofInt x)) := by
  have h := books_addBal m id (-x)
  rwa [addBal, Int64.ofInt_neg, ← Int64.sub_eq_add_neg] at h

/-- The simulation books the credits of the outputs. -/
theorem books_creditOutputs (m : Sim) (outs : List TxOut) :
    m.Books (TxOut.credits outs) (m.creditOutputs outs) := by
  induction outs generalizing m with
  | nil => exact Books.of_bal_eq rfl
  | cons o outs ih =>
      unfold creditOutputs at ih ⊢
      rw [List.foldl_cons]
      by_cases haddr : o.address ≠ ""
      · have hcons : TxOut.credits (o :: outs) =
            [(o.address, o.amount.toInt)] ++ TxOut.credits outs := by
          simp [TxOut.credits, TxOut.dest, haddr]
        rw [hcons, if_pos haddr]
        exact (books_credit m _ _).append (ih _)
      · by_cases hP : o.P ≠ ""
        · have hcons : TxOut.credits (o :: outs) =
              [(otapBucket o.P, o.amount.toInt)] ++ TxOut.credits outs := by
            simp [TxOut.credits, TxOut.dest, not_not.mp haddr, hP]
          rw [hcons, if_neg haddr, if_pos hP]
          exact (books_credit m _ _).append (ih _)
        · -- an output with neither address nor one-time key is skipped
          have hcons : TxOut.credits (o :: outs) = TxOut.credits outs := by
            simp [TxOut.credits, TxOut.dest, not_not.mp haddr, not_not.mp hP]
          rw [hcons, if_neg haddr, if_neg hP]
          exact ih m

theorem books_coinbase (m : Sim) (tx : Tx) :
    m.Books tx.coinbasePostings (tx.outputs.foldl (fun m o => m.addBal o.address o.amount) m) := by
  unfold Tx.coinbasePostings
  generalize tx.outputs = outs
  induction outs generalizing m with
  | nil => exact Books.of_bal_eq rfl
  | cons o outs ih => exact (books_credit m _ _).append (ih _)

/-- One transaction books its postings. -/
theorem books_of_applyTxToSim {m m' : Sim} {tx : Tx} (h : m.applyTxToSim tx = .ok m') :
    m.Books (if tx.type = "coinbase" then tx.coinbasePostings else tx.postings) m' := by
  unfold applyTxToSim at h
  split at h
  next hcb =>
    cases h
    rw [if_pos hcb]
    exact books_coinbase m tx
  next hcb =>
    rw [if_neg hcb]
    obtain ⟨-, h⟩ := Res.ite_error_eq_ok.mp h
    split at h
    next c hc =>
      -- a claim: the bucket pays amount and fee
      have hpost : tx.postings = [(otapBucket c.P, -(c.amount.toInt + tx.fee.toInt)),
          (c.toId, c.amount.toInt)] := by
        simp only [Tx.postings, hc]
      dsimp only at h
      obtain ⟨-, h⟩ := Res.ite_error_eq_ok.mp h
      rw [hpost, ← Except.ok.inj h]
      have hdebit := books_debit m (otapBucket c.P) (c.amount.toInt + tx.fee.toInt)
      rw [Int64.ofInt_add, Int64.ofInt_toInt, Int64.ofInt_toInt] at hdebit
      exact (hdebit.append (books_credit _ c.toId c.amount)).setNonce _ _
    next hc =>
      -- a transfer: the sender pays outputs and fee
      have hpost : tx.postings = (tx.fromId, -(TxOut.amountTotal tx.outputs + tx.fee.toInt)) ::
          TxOut.credits tx.outputs := by
        simp only [Tx.postings, hc]
      dsimp only at h
      obtain ⟨-, h⟩ := Res.ite_error_eq_ok.mp h
      rw [hpost, ← Except.ok.inj h]
      have hdebit := books_debit m tx.fromId (TxOut.amountTotal tx.outputs + tx.fee.toInt)
      rw [Int64.ofInt_add, Int64.ofInt_toInt, ← outTotal_eq] at hdebit
      exact (hdebit.setNonce _ _).append (books_creditOutputs _ _)

/-- It books all postings of a block. -/
theorem books_of_applyTxsToSim {txs : List Tx} {m m' : Sim} (h : m.applyTxsToSim txs = .ok m') :
    m.Books (blockPostings txs) m' := by
  induction txs generalizing m with
  | nil =>
      cases h
      exact Books.of_bal_eq rfl
  | cons tx txs ih =>
      rw [applyTxsToSim, Res.bind_eq_ok] at h
      obtain ⟨m₁, hone, htail⟩ := h
      have hcons : blockPostings (tx :: txs) =
          (if tx.type = "coinbase" then tx.coinbasePostings else tx.postings) ++
            blockPostings txs :=
        List.flatMap_cons
      rw [hcons]
      exact (books_of_applyTxToSim hone).append (ih htail)

/-! ### The sum of all balances -/

/-- The mathematical sum of all balances. -/
noncomputable def supply (m : Sim) : ℤ := ∑ᶠ a, (m.bal a).toInt

/-- What reducing an exact balance to `int64` takes away: a multiple of `2 ^ 64`. -/
def wrapLoss (x : ℤ) : ℤ := x - x.bmod (2 ^ 64)

/-- What wrap-around takes away when the postings are booked on the balances of `m`, over all
accounts. -/
noncomputable def wrapped (m : Sim) (ps : List (String × ℤ)) : ℤ :=
  ∑ᶠ a, wrapLoss ((m.bal a).toInt + effect ps a)

theorem Books.toInt_bal {m' : Sim} (h : m.Books ps m') (a : String) :
    (m'.bal a).toInt =
      ((m.bal a).toInt + effect ps a) - wrapLoss ((m.bal a).toInt + effect ps a) := by
  have hofInt : m'.bal a = Int64.ofInt ((m.bal a).toInt + effect ps a) := by
    rw [h a, Int64.ofInt_add, Int64.ofInt_toInt]
  rw [hofInt, Int64.toInt_ofInt, wrapLoss]
  exact (sub_sub_cancel _ _).symm

/-- The sum of all balances changes by the postings, less what wraps around. -/
theorem Books.supply {m' : Sim} (h : m.Books ps m')
    (hfin : (Function.support fun a => (m.bal a).toInt).Finite) :
    m'.supply = m.supply + total ps - m.wrapped ps := by
  have hsum : (Function.support fun a => (m.bal a).toInt + effect ps a).Finite :=
    (hfin.union (finite_support_effect ps)).subset (Function.support_add _ _)
  have hloss : (Function.support fun a => wrapLoss ((m.bal a).toInt + effect ps a)).Finite := by
    refine hsum.subset fun a ha hzero => ha ?_
    dsimp only at hzero ⊢
    rw [hzero]
    rfl
  calc m'.supply
      = ∑ᶠ a, (((m.bal a).toInt + effect ps a) - wrapLoss ((m.bal a).toInt + effect ps a)) :=
        finsum_congr h.toInt_bal
    _ = (∑ᶠ a, ((m.bal a).toInt + effect ps a)) - m.wrapped ps := finsum_sub_distrib hsum hloss
    _ = m.supply + total ps - m.wrapped ps := by
        rw [finsum_add_distrib hfin (finite_support_effect ps), finsum_effect, Sim.supply]

/-- Nothing wraps around while the exact balances fit. -/
theorem wrapped_eq_zero (h : ∀ a, -2 ^ 63 ≤ (m.bal a).toInt + effect ps a ∧
    (m.bal a).toInt + effect ps a < 2 ^ 63) : m.wrapped ps = 0 := by
  refine finsum_eq_zero_of_forall_eq_zero fun a => ?_
  obtain ⟨hlo, hhi⟩ := h a
  rw [wrapLoss, Int.bmod_eq_of_le (by omega) (by omega), sub_self]

end Sim

/-- A ledger has finitely many entries, all other balances are zero. -/
theorem Ledger.finite_support_view (l : Ledger) :
    (Function.support fun a => (l.view.bal a).toInt).Finite := by
  refine (List.finite_toSet (l.bal.toList.map Prod.fst)).subset fun a ha => ?_
  cases hget : l.bal[a]? with
  | none =>
      refine absurd ?_ ha
      simp [getBalance, hget]
  | some v => exact List.mem_map.mpr ⟨(a, v), (l.bal.mem_toList_iff a v).mpr hget, rfl⟩

namespace Node

/-- The block passes `ValidateLimits`, `ValidateBlockBasic` and `ValidateBlockStateTip` against the
stored ledger. -/
structure Accepts (n : Node) (l : Ledger) (b : Block) : Prop where
  limits : n.validateLimits b = .ok ()
  basic : n.validateBlockBasic b = .ok ()
  tip : n.validateBlockStateTip l b = .ok ()

variable {n : Node} {l : Ledger} {b : Block}

/-- The simulation of an accepted block ends with the block's postings booked. -/
theorem Accepts.books (h : n.Accepts l b) :
    ∃ m', n.simulateTip l.view b = .ok m' ∧ l.view.Books (blockPostings b.txs) m' := by
  have htip := h.tip
  unfold validateBlockStateTip at htip
  obtain ⟨m', hsim, -⟩ := Res.bind_eq_ok.mp htip
  exact ⟨m', hsim, Sim.books_of_applyTxsToSim ((simulateTip_eq_ok_iff h.basic).mp hsim)⟩

/-- For an accepted block the sum of all balances grows by the coinbase amount less the fees,
exactly when what is sent to no destination and what wraps around cancel out. -/
theorem supply_iff (n : Node) (l : Ledger) (b : Block) (h : n.Accepts l b) :
    ∃ m', n.simulateTip l.view b = .ok m' ∧
      (m'.supply = l.view.supply + coinbaseTotal b.txs - feeTotal b.txs ↔
        burnedTotal b.txs + l.view.wrapped (blockPostings b.txs) = 0) := by
  obtain ⟨m', hsim, hbooks⟩ := h.books
  refine ⟨m', hsim, ?_⟩
  rw [hbooks.supply l.finite_support_view, total_blockPostings]
  constructor
  · intro heq
    omega
  · intro heq
    omega

end Node

namespace Sample

/-- A ledger in which alice owns 100. -/
def rich : Ledger := Ledger.empty.setBalance alice 100

theorem getBalance_rich (id : String) : rich.getBalance id = if id = alice then 100 else 0 := by
  rw [rich, Ledger.getBalance_setBalance _ (by decide), Function.update_apply]
  rfl

theorem toInt_bal_rich (id : String) :
    (rich.view.bal id).toInt = if id = alice then 100 else 0 := by
  rw [Ledger.view_bal, getBalance_rich]
  split <;> rfl

/-- Alice pays 60 to bob. -/
def paying : Block := child node.genesisBlock 1 0x20010000 [transfer alice 1 [pay bob 60]]

/-- Alice pays 60 to an output with neither an address nor a one-time key. -/
def burning : Block := child node.genesisBlock 1 0x20010000 [transfer alice 1 [pay "" 60]]

theorem accepts_paying : node.Accepts rich paying :=
  ⟨by decide +kernel, by decide +kernel, by decide +kernel⟩

theorem accepts_burning : node.Accepts rich burning :=
  ⟨by decide +kernel, by decide +kernel, by decide +kernel⟩

end Sample

namespace Node

open Sample

/-- A payment between two accounts keeps the sum of all balances. -/
theorem supply_paying :
    node.Accepts rich paying ∧ ∃ m', node.simulateTip rich.view paying = .ok m' ∧
        m'.supply = rich.view.supply + coinbaseTotal paying.txs -
          feeTotal paying.txs := by
  refine ⟨accepts_paying, ?_⟩
  obtain ⟨m', hsim, hiff⟩ := supply_iff _ _ _ accepts_paying
  refine ⟨m', hsim, hiff.mpr ?_⟩
  have hps : blockPostings paying.txs = [(alice, -60), (bob, 60)] := by
    decide
  have hburn : burnedTotal paying.txs = 0 := by decide
  rw [hburn, zero_add]
  refine Sim.wrapped_eq_zero fun a => ?_
  rw [hps, toInt_bal_rich, effect_cons, effect_cons, effect_nil]
  dsimp only
  split <;> split <;> split <;> omega

/-- An output without destination is taken from the sender and credited to nobody. -/
theorem not_supply_burning :
    node.Accepts rich burning ∧ (∀ id, 0 ≤ rich.getBalance id) ∧
      ∃ m', node.simulateTip rich.view burning = .ok m' ∧
        m'.supply ≠ rich.view.supply + coinbaseTotal burning.txs -
          feeTotal burning.txs := by
  refine ⟨accepts_burning, fun id => ?_, ?_⟩
  · rw [getBalance_rich]
    split <;> decide
  obtain ⟨m', hsim, hbooks⟩ := accepts_burning.books
  refine ⟨m', hsim, ?_⟩
  have hps : blockPostings burning.txs = [(alice, -60)] := by decide
  have hsums : coinbaseTotal burning.txs = 0 ∧ feeTotal burning.txs = 0 := by
    decide
  have hwrap : rich.view.wrapped [(alice, -60)] = 0 := by
    refine Sim.wrapped_eq_zero fun a => ?_
    rw [toInt_bal_rich, effect_cons, effect_nil]
    dsimp only
    split <;> split <;> omega
  rw [hbooks.supply rich.finite_support_view, hps, hsums.1, hsums.2, hwrap, total_cons, total_nil]
  omega

end Node

end ReserveOS
