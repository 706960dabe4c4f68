import ReserveOS.Correctness.LedgerAgreement
import ReserveOS.Correctness.Supply

/-!
# Who may be debited

`applyBlockTxs` is a sequence of `AddBalance` calls, cut at the first refusal. Two kinds of calls
carry no checked signature: the credit of an output, whose amount may be negative, and the debit of
a coinbase's `From`. An accepted block lowers only authorised accounts exactly when the unsigned
calls that are carried out send no other account a negative net amount
(`debits_authorised_iff`).
-/

namespace ReserveOS

open Postings

/-! ### `AddBalance` calls -/

/-- An `AddBalance` call of `applyBlockTxs`. -/
structure BalanceCall where
  id : String
  delta : Int64
  /-- The call belongs to the sender debit or the claim of a transaction whose signatures are
  checked. -/
  signed : Bool

namespace BalanceCall

/-- The calls before the first one that `AddBalance` refuses. -/
def carriedOut : (String → Int64) → List BalanceCall → List BalanceCall
  | _, [] => []
  | bal, c :: cs =>
      if bal c.id + c.delta < 0 then []
      else c :: carriedOut (Function.update bal c.id (bal c.id + c.delta)) cs

/-- The balances after a list of calls none of which is refused. -/
def after (bal : String → Int64) (cs : List BalanceCall) : String → Int64 :=
  cs.foldl (fun bal c => Function.update bal c.id (bal c.id + c.delta)) bal

/-- The amounts of a list of calls, as exact integers. -/
def amounts (cs : List BalanceCall) : List (String × ℤ) := cs.map fun c => (c.id, c.delta.toInt)

theorem carriedOut_subset {cs : List BalanceCall} {bal : String → Int64} :
    carriedOut bal cs ⊆ cs := by
  induction cs generalizing bal with
  | nil => exact List.Subset.refl _
  | cons c cs ih =>
      rw [carriedOut]
      split
      · exact List.nil_subset _
      · exact List.cons_subset_cons c ih

/-- A sum with a non-negative balance that is not refused has not wrapped. -/
theorem toInt_add_of_nonneg {x d : Int64} (hx : 0 ≤ x) (h : ¬ x + d < 0) :
    (x + d).toInt = x.toInt + d.toInt := by
  rw [Int64.lt_iff_toInt_lt, Int64.toInt_add, Int64.toInt_zero] at h
  rw [Int64.le_iff_toInt_le, Int64.toInt_zero] at hx
  have hx' := x.toInt_lt
  have hd := d.le_toInt
  have hd' := d.toInt_lt
  rw [Int64.toInt_add]
  rw [Int.bmod_def] at h ⊢
  norm_num at h hx hx' hd hd' ⊢
  split at h <;> split <;> omega

/-- Calls keep a non-negative balance non-negative and book exact amounts on it. -/
theorem after_of_nonneg {cs : List BalanceCall} {bal : String → Int64} {id : String}
    (h : 0 ≤ bal id) :
    0 ≤ after bal (carriedOut bal cs) id ∧ (after bal (carriedOut bal cs) id).toInt =
        (bal id).toInt + effect (amounts (carriedOut bal cs)) id := by
  induction cs generalizing bal with
  | nil => exact ⟨h, (add_zero _).symm⟩
  | cons c cs ih =>
      rw [carriedOut]
      split
      · exact ⟨h, (add_zero _).symm⟩
      next hok =>
        rw [after, List.foldl_cons, amounts, List.map_cons, effect_cons]
        by_cases hid : c.id = id
        · -- a call on the account: it was not refused, so the sum has not wrapped
          subst hid
          have hstep : Function.update bal c.id (bal c.id + c.delta) c.id = bal c.id + c.delta :=
            Function.update_self ..
          obtain ⟨hnn, heq⟩ := @ih (Function.update bal c.id (bal c.id + c.delta))
            (by rw [hstep]; exact Int64.not_lt.mp hok)
          refine ⟨hnn, heq.trans ?_⟩
          rw [hstep, toInt_add_of_nonneg h hok, if_pos rfl, add_assoc]
          rfl
        · have hstep : Function.update bal c.id (bal c.id + c.delta) id = bal id :=
            Function.update_of_ne (Ne.symm hid) ..
          obtain ⟨hnn, heq⟩ := @ih (Function.update bal c.id (bal c.id + c.delta))
            (by rw [hstep]; exact h)
          refine ⟨hnn, heq.trans ?_⟩
          rw [hstep, if_neg hid, zero_add]
          rfl

/-- Calls never lower a negative balance. -/
theorem le_after_of_neg {cs : List BalanceCall} {bal : String → Int64} {id : String}
    (h : bal id < 0) : bal id ≤ after bal (carriedOut bal cs) id := by
  induction cs generalizing bal with
  | nil => exact Int64.le_refl _
  | cons c cs ih =>
      rw [carriedOut]
      split
      · exact Int64.le_refl _
      next hok =>
        rw [after, List.foldl_cons]
        by_cases hid : c.id = id
        · -- the first call that is accepted leaves a balance that is not negative
          subst hid
          have hnn : 0 ≤ Function.update bal c.id (bal c.id + c.delta) c.id := by
            rw [Function.update_self]
            exact Int64.not_lt.mp hok
          exact Int64.le_trans (Int64.le_of_lt h) (after_of_nonneg hnn).1
        · have hstep : Function.update bal c.id (bal c.id + c.delta) id = bal id :=
            Function.update_of_ne (Ne.symm hid) ..
          have hle := @ih (Function.update bal c.id (bal c.id + c.delta)) (by rwa [hstep])
          rwa [hstep] at hle

end BalanceCall

/-! ### `applyBlockTxs` as a sequence of calls -/

/-- The `AddBalance` calls of one round of the loop of `applyBlockTxs`. -/
def Tx.calls (tx : Tx) : List BalanceCall :=
  match (if tx.type = "otap_claim" then tx.otapClaim else none) with
  | some c => [⟨otapBucket c.P, -(c.amount + tx.fee), true⟩, ⟨c.toId, c.amount, true⟩]
  | none =>
      (if tx.fromId ≠ "" then
        [⟨tx.fromId, -(outTotal tx.outputs + tx.fee), decide (tx.type ≠ "coinbase")⟩] else []) ++
        tx.outputs.filterMap fun o => o.dest.map fun a => ⟨a, o.amount, false⟩

namespace Ledger

open BalanceCall

/-- The result of a list of `AddBalance` calls with nonce writes in between: the first refusal ends
it, and what was written before stays. -/
inductive Ran : Ledger → List BalanceCall → Res Unit × Ledger → Prop
  | done {l : Ledger} : Ran l [] (.ok (), l)
  | setNonce {l : Ledger} {cs : List BalanceCall} {r : Res Unit × Ledger} (id : String)
      (k : UInt64) (h : Ran (l.setNonce id k) cs r) : Ran l cs r
  | refused {l : Ledger} {c : BalanceCall} {cs : List BalanceCall} {e : Fault}
      (h : l.addBalance c.id c.delta = .error e) : Ran l (c :: cs) (.error e, l)
  | accepted {l l' : Ledger} {c : BalanceCall} {cs : List BalanceCall} {r : Res Unit × Ledger}
      (h : l.addBalance c.id c.delta = .ok l') (hrest : Ran l' cs r) : Ran l (c :: cs) r

/-- The balances of a run of calls. -/
theorem Ran.getBalance_eq {l : Ledger} {cs : List BalanceCall} {r : Res Unit × Ledger}
    (h : Ran l cs r) : r.2.getBalance = after l.getBalance (carriedOut l.getBalance cs) := by
  induction h with
  | done => rfl
  | setNonce id k h ih => exact ih
  | @refused l c cs e h =>
      have hneg : l.getBalance c.id + c.delta < 0 := by
        by_contra hnn
        rw [addBalance, if_neg hnn] at h
        cases h
      rw [carriedOut, if_pos hneg]
      rfl
  | @accepted l l' c cs r h hrest ih =>
      obtain ⟨hnn, rfl⟩ := addBalance_eq_ok_iff.mp h
      rw [carriedOut, if_neg hnn, after, List.foldl_cons, ih, getBalance_setBalance l hnn]
      rfl

/-- Calls go on after calls that all succeeded. -/
theorem Ran.append {l l' : Ledger} {cs ds : List BalanceCall} {r r' : Res Unit × Ledger}
    (h : Ran l cs r) (hr : r = (.ok (), l')) (h' : Ran l' ds r') : Ran l (cs ++ ds) r' := by
  induction h with
  | done =>
      cases hr
      exact h'
  | setNonce id k h ih => exact .setNonce id k (ih hr)
  | refused h => cases hr
  | accepted h hrest ih => exact .accepted h (ih hr)

/-- Calls after a refusal are not made. -/
theorem Ran.append_error {l l' : Ledger} {cs ds : List BalanceCall} {r : Res Unit × Ledger}
    {e : Fault} (h : Ran l cs r) (hr : r = (.error e, l')) : Ran l (cs ++ ds) (.error e, l') := by
  induction h with
  | done => cases hr
  | setNonce id k h ih => exact .setNonce id k (ih hr)
  | refused h =>
      cases hr
      exact .refused h
  | accepted h hrest ih => exact .accepted h (ih hr)

/-- Crediting outputs makes one unsigned call for each output with a destination. -/
theorem ran_creditOutputs (l : Ledger) (outs : List TxOut) :
    Ran l (outs.filterMap fun o => o.dest.map fun a => ⟨a, o.amount, false⟩)
      (l.creditOutputs outs) := by
  induction outs generalizing l with
  | nil => exact .done
  | cons o outs ih =>
      rw [creditOutputs, List.filterMap_cons]
      by_cases haddr : o.address ≠ ""
      · have hdest : o.dest = some o.address := if_pos haddr
        rw [if_pos haddr, hdest, Option.map_some]
        dsimp only
        split
        next e hadd => exact .refused hadd
        next l' hadd => exact .accepted hadd (ih l')
      · by_cases hP : o.P ≠ ""
        · have hdest : o.dest = some (otapBucket o.P) := (if_neg haddr).trans (if_pos hP)
          rw [if_neg haddr, if_pos hP, hdest, Option.map_some]
          dsimp only
          split
          next e hadd => exact .refused hadd
          next l' hadd => exact .accepted hadd (ih l')
        · have hdest : o.dest = none := (if_neg haddr).trans (if_neg hP)
          rw [if_neg haddr, if_neg hP, hdest]
          exact ih l

/-- Applying a transaction makes its calls, up to the first refusal. -/
theorem ran_applyTx (l : Ledger) (tx : Tx) : Ran l tx.calls (l.applyTx tx) := by
  unfold applyTx Tx.calls
  simp only [Tx.fromId_normalize, Tx.nonce_normalize, Tx.fee_normalize, Tx.outputs_normalize,
    Tx.otapClaim_normalize, Tx.type_normalize_claim]
  generalize (if tx.type = "otap_claim" then tx.otapClaim else none) = claim
  cases claim with
  | some c =>
      dsimp only
      -- a claim sets the nonce first, then debits the bucket and credits the claimant
      refine .setNonce tx.fromId tx.nonce ?_
      split
      next e hadd => exact .refused hadd
      next l₁ hadd =>
        refine .accepted hadd ?_
        split
        next e hadd' => exact .refused hadd'
        next l₂ hadd' => exact .accepted hadd' .done
  | none =>
      dsimp only
      by_cases hfrom : tx.fromId ≠ ""
      · rw [if_pos hfrom, if_pos hfrom]
        split
        next e hadd => exact .refused hadd
        next l₁ hadd => exact .accepted hadd (.setNonce _ _ (ran_creditOutputs _ _))
      · rw [if_neg hfrom, if_neg hfrom]
        exact ran_creditOutputs l tx.outputs

/-- A list of transactions makes all its calls, up to the first refusal. -/
theorem ran_applyTxs (l : Ledger) (txs : List Tx) :
    Ran l (txs.flatMap Tx.calls) (l.applyTxs txs) := by
  induction txs generalizing l with
  | nil => exact .done
  | cons tx txs ih =>
      have hone := ran_applyTx l tx
      rw [List.flatMap_cons, applyTxs]
      split
      next e l' heq => exact hone.append_error heq
      next u l' heq => exact hone.append heq (ih l')

end Ledger

/-! ### Authorised accounts -/

namespace Node

open BalanceCall

/-- The account signed a transaction of the list, or it is the bucket of a claim in the list whose
claim signature verifies. -/
def Authorised (n : Node) (txs : List Tx) (id : String) : Prop :=
  (∃ tx ∈ txs, tx.fromId = id ∧ tx.fromId = tx.pubKey ∧
    n.prim.sigVerify tx.pubKey tx.sigHex tx.normalize.signingBytes = true) ∨
  ∃ tx ∈ txs, tx.type = "otap_claim" ∧ ∃ c, tx.otapClaim = some c ∧ otapBucket c.P = id ∧
    n.prim.schnorrVerify c.P tx.normalize.signingBytes c.claimSigHex = true

/-- What the unsigned calls book that are carried out on the given balances: the outputs, and the
debit of a coinbase's `From`. -/
def sentUnsigned (bal : String → Int64) (txs : List Tx) : List (String × ℤ) :=
  amounts ((carriedOut bal (txs.flatMap Tx.calls)).filter fun c => !c.signed)

variable {n : Node} {txs : List Tx} {tx : Tx} {c : BalanceCall}

/-- Every transaction but the coinbase went through the signature loop. -/
theorem BasicShape.checked (h : n.BasicShape txs) (htx : tx ∈ txs) (hty : tx.type ≠ "coinbase") :
    n.TxChecked tx := by
  cases h with
  | issuing hon hcb houts hreward hrest =>
      rcases List.mem_cons.mp htx with rfl | hmem
      · exact absurd hcb hty
      · exact hrest tx hmem
  | plain hoff htxs => exact htxs tx htx

/-- The account of a signed call of a checked transaction is authorised. -/
theorem TxChecked.authorised (h : n.TxChecked tx) (htx : tx ∈ txs) (hc : c ∈ tx.calls)
    (hsigned : c.signed = true) : n.Authorised txs c.id := by
  have hsender : n.Authorised txs tx.fromId := Or.inl ⟨tx, htx, rfl, h.from_eq_pub, h.sig⟩
  unfold Tx.calls at hc
  by_cases hclaim : tx.type = "otap_claim"
  · obtain ⟨cl, hcl, hto, hschnorr⟩ := h.claim hclaim
    rw [if_pos hclaim, hcl] at hc
    rcases List.mem_cons.mp hc with rfl | hc
    · exact Or.inr ⟨tx, htx, hclaim, cl, hcl, rfl, hschnorr⟩
    · rw [List.mem_singleton.mp hc]
      dsimp only
      rwa [hto]
  · rw [if_neg hclaim] at hc
    rcases List.mem_append.mp hc with hc | hc
    · split at hc
      · rw [List.mem_singleton.mp hc]
        exact hsender
      · cases hc
    · -- the credit of an output is not a signed call
      obtain ⟨o, -, ho⟩ := List.mem_filterMap.mp hc
      obtain ⟨a, -, rfl⟩ := Option.map_eq_some_iff.mp ho
      cases hsigned

/-- A coinbase makes no signed call. -/
theorem signed_eq_false_of_coinbase (hty : tx.type = "coinbase") (hc : c ∈ tx.calls) :
    c.signed = false := by
  unfold Tx.calls at hc
  rw [if_neg (by rw [hty]; decide)] at hc
  rcases List.mem_append.mp hc with hc | hc
  · split at hc
    · rw [List.mem_singleton.mp hc]
      exact decide_eq_false (not_not.mpr hty)
    · cases hc
  · obtain ⟨o, -, ho⟩ := List.mem_filterMap.mp hc
    obtain ⟨a, -, rfl⟩ := Option.map_eq_some_iff.mp ho
    rfl

/-- Signed calls of a block that passes the basic checks name authorised accounts. -/
theorem BasicShape.authorised (h : n.BasicShape txs) (hc : c ∈ txs.flatMap Tx.calls)
    (hsigned : c.signed = true) : n.Authorised txs c.id := by
  obtain ⟨tx, htx, hc⟩ := List.mem_flatMap.mp hc
  by_cases hty : tx.type = "coinbase"
  · rw [signed_eq_false_of_coinbase hty hc] at hsigned
    cases hsigned
  · exact (h.checked htx hty).authorised htx hc hsigned

/-- An account that no signed call names sees the unsigned calls only. -/
theorem effect_unsigned {cs : List BalanceCall} {id : String}
    (h : ∀ c ∈ cs, c.signed = true → c.id ≠ id) :
    effect (amounts (cs.filter fun c => !c.signed)) id = effect (amounts cs) id := by
  induction cs with
  | nil => rfl
  | cons c cs ih =>
      have htail := ih fun c' hc' => h c' (List.mem_cons_of_mem _ hc')
      have hcons : effect (amounts (c :: cs)) id =
          (if c.id = id then c.delta.toInt else 0) + effect (amounts cs) id := effect_cons ..
      rw [hcons, ← htail, List.filter_cons]
      cases hsigned : c.signed with
      | true => rw [if_neg (by decide), if_neg (h c List.mem_cons_self hsigned), zero_add]
      | false =>
          rw [if_pos (by decide)]
          exact effect_cons ..

/-- What `applyBlockTxs` does to an account that is not authorised and not in debt: the unsigned
calls, exactly. -/
theorem toInt_getBalance_applyBlockTxs {s : DB} {b : Block} {id : String}
    (hbasic : n.validateBlockBasic b = .ok ()) (hid : ¬ n.Authorised b.txs id)
    (hnn : 0 ≤ s.ledger.getBalance id) :
    ((n.applyBlockTxs s b).2.ledger.getBalance id).toInt = (s.ledger.getBalance id).toInt +
      effect (sentUnsigned s.ledger.getBalance b.txs) id := by
  have hran := s.ledger.ran_applyTxs b.txs
  rw [← n.ledger_applyBlockTxs s b] at hran
  have hshape := basicShape_of_validateBlockBasic hbasic
  rw [hran.getBalance_eq, (after_of_nonneg hnn).2, sentUnsigned, effect_unsigned]
  intro c hc hsigned hcid
  refine hid ?_
  rw [← hcid]
  exact hshape.authorised (carriedOut_subset hc) hsigned

/-- An accepted block lowers authorised accounts only, exactly when no other account that is not in
debt is sent a negative net amount by the outputs and the coinbase debit that are carried out. -/
theorem debits_authorised_iff (n : Node) (s : DB) (b : Block) (h : n.Accepts s.ledger b) :
    (∀ id, (n.applyBlockTxs s b).2.ledger.getBalance id < s.ledger.getBalance id →
        n.Authorised b.txs id) ↔
      ∀ id, ¬ n.Authorised b.txs id → 0 ≤ s.ledger.getBalance id →
        0 ≤ effect (sentUnsigned s.ledger.getBalance b.txs) id := by
  constructor
  · intro hauth id hid hnn
    by_contra hneg
    refine hid (hauth id ?_)
    rw [Int64.lt_iff_toInt_lt, toInt_getBalance_applyBlockTxs h.basic hid hnn]
    omega
  · intro hsent id hlow
    by_contra hid
    by_cases hnn : 0 ≤ s.ledger.getBalance id
    · rw [Int64.lt_iff_toInt_lt, toInt_getBalance_applyBlockTxs h.basic hid hnn] at hlow
      have hpos := hsent id hid hnn
      omega
    · -- an account in debt is never lowered
      have hran := s.ledger.ran_applyTxs b.txs
      rw [← n.ledger_applyBlockTxs s b] at hran
      rw [hran.getBalance_eq] at hlow
      exact Int64.not_lt.mpr (le_after_of_neg (Int64.not_le.mp hnn)) hlow

end Node

namespace Sample

/-- A node's database with alice's balance. -/
def richDB : DB := { node.genesisDB ∅ with ledger := rich }

/-- Bob sends 60 to himself and takes it from alice. -/
def stealing : Block :=
  child node.genesisBlock 1 0x20010000 [transfer bob 1 [pay alice (-60), pay bob 60]]

theorem accepts_stealing : node.Accepts rich stealing :=
  ⟨by decide +kernel, by decide +kernel, by decide +kernel⟩

end Sample

namespace Node

open Sample

/-- A payment to another account lowers the sender only. -/
theorem debits_authorised_paying :
    node.Accepts richDB.ledger paying ∧
      ∀ id, (node.applyBlockTxs richDB paying).2.ledger.getBalance id <
          richDB.ledger.getBalance id →
        node.Authorised paying.txs id := by
  refine ⟨accepts_paying, ?_⟩
  refine (debits_authorised_iff _ _ _ accepts_paying).mpr fun id _ _ => ?_
  have hsent : sentUnsigned richDB.ledger.getBalance paying.txs = [(bob, 60)] := by decide +kernel
  rw [hsent, effect_cons, effect_nil]
  dsimp only
  split <;> omega

/-- An output with a negative amount takes from an account that signed nothing. -/
theorem not_debits_authorised_stealing :
    node.Accepts richDB.ledger stealing ∧
      ∃ id, (node.applyBlockTxs richDB stealing).2.ledger.getBalance id <
          richDB.ledger.getBalance id ∧
        ¬ node.Authorised stealing.txs id := by
  refine ⟨accepts_stealing, alice, by decide +kernel, ?_⟩
  have hfrom : ∀ tx ∈ stealing.txs, tx.fromId ≠ alice ∧ tx.type ≠ "otap_claim" := by
    decide +kernel
  rintro (⟨tx, htx, heq, -⟩ | ⟨tx, htx, hty, -⟩)
  · exact (hfrom tx htx).1 heq
  · exact (hfrom tx htx).2 hty

end Node

end ReserveOS
