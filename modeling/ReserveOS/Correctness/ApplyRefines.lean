import ReserveOS.Correctness.Debits

/-!
# Applying an accepted block

`ValidateBlockStateTip` simulates a block on a working copy, and `applyBlockTxs` runs it on the
stored ledger. Both book the calls of `Tx.calls` and set the sender's nonce. They differ in two
ways. `AddBalance` refuses a negative result where the simulation goes on, and `applyBlockTxs`
treats the coinbase as a transfer, with a debit of its `From` and without a credit to an empty
address. `applyRefines_iff` says that nothing else goes wrong.
-/

namespace ReserveOS

/-- A statement about every split of a list, one element at a time. -/
theorem forall_split_cons {α : Type} {P : List α → α → Prop} {a : α} {l : List α} :
    (∀ pre x post, a :: l = pre ++ x :: post → P pre x) ↔
      P [] a ∧ ∀ pre x post, l = pre ++ x :: post → P (a :: pre) x := by
  constructor
  · intro h
    exact ⟨h [] a l rfl, fun pre x post heq => h (a :: pre) x post (by rw [heq, List.cons_append])⟩
  · rintro ⟨hfirst, hrest⟩ pre x post heq
    cases pre with
    | nil =>
        obtain ⟨rfl, -⟩ := List.cons.inj heq
        exact hfirst
    | cons e pre =>
        obtain ⟨rfl, htail⟩ := List.cons.inj heq
        exact hrest pre x post htail

namespace BalanceCall

/-- What a list of calls books on an account, in `int64`. -/
def booked (cs : List BalanceCall) (id : String) : Int64 :=
  ((cs.filter fun c => c.id = id).map BalanceCall.delta).sum

/-- The running balance of every call is not negative. -/
def Covered (bal : String → Int64) (cs : List BalanceCall) : Prop :=
  ∀ pre c post, cs = pre ++ c :: post → 0 ≤ bal c.id + booked pre c.id + c.delta

@[simp] theorem booked_nil (id : String) : booked [] id = 0 := rfl

theorem booked_cons (c : BalanceCall) (cs : List BalanceCall) (id : String) :
    booked (c :: cs) id = (if c.id = id then c.delta else 0) + booked cs id := by
  unfold booked
  by_cases hid : c.id = id
  · simp [hid]
  · simp [hid]

theorem booked_append (cs ds : List BalanceCall) (id : String) :
    booked (cs ++ ds) id = booked cs id + booked ds id := by
  induction cs with
  | nil => simp
  | cons c cs ih => rw [List.cons_append, booked_cons, booked_cons, ih, Int64.add_assoc]

/-- One call changes the balance of its account. -/
theorem update_eq_add (bal : String → Int64) (c : BalanceCall) (id : String) :
    Function.update bal c.id (bal c.id + c.delta) id =
      bal id + (if c.id = id then c.delta else 0) := by
  by_cases hid : c.id = id
  · subst hid
    simp
  · simp [hid, Function.update_of_ne (Ne.symm hid)]

/-- The balance after some calls. -/
theorem after_eq (bal : String → Int64) (cs : List BalanceCall) (id : String) :
    after bal cs id = bal id + booked cs id := by
  induction cs generalizing bal with
  | nil => simp [after]
  | cons c cs ih =>
      have hstep : after bal (c :: cs) =
          after (Function.update bal c.id (bal c.id + c.delta)) cs := rfl
      rw [hstep, ih, update_eq_add, booked_cons, Int64.add_assoc]

theorem covered_nil (bal : String → Int64) : Covered bal [] := by
  intro pre c post h
  simp at h

/-- Calls are covered when the first one is and the others are after it. -/
theorem covered_cons {bal : String → Int64} {c : BalanceCall} {cs : List BalanceCall} :
    Covered bal (c :: cs) ↔
      0 ≤ bal c.id + c.delta ∧ Covered (Function.update bal c.id (bal c.id + c.delta)) cs := by
  unfold Covered
  rw [forall_split_cons, booked_nil, Int64.add_zero]
  -- what is booked before a later call starts with the first one
  simp only [booked_cons, update_eq_add, Int64.add_assoc]

/-- Covered calls are all carried out. -/
theorem carriedOut_of_covered {bal : String → Int64} {cs : List BalanceCall}
    (h : Covered bal cs) : carriedOut bal cs = cs := by
  induction cs generalizing bal with
  | nil => rfl
  | cons c cs ih =>
      obtain ⟨hc, hcs⟩ := covered_cons.mp h
      rw [carriedOut, if_neg (Int64.not_lt.mpr hc), ih hcs]

end BalanceCall

namespace Ledger

open BalanceCall

/-- A list of `AddBalance` calls succeeds exactly when all of them are covered. -/
theorem Ran.eq_ok_iff {l : Ledger} {cs : List BalanceCall} {r : Res Unit × Ledger}
    (h : Ran l cs r) : r.1 = .ok () ↔ Covered l.getBalance cs := by
  induction h with
  | done => exact iff_of_true rfl (covered_nil _)
  | setNonce id k h ih => exact ih
  | @refused l c cs e h =>
      refine iff_of_false (by simp) fun hcov => ?_
      have hnn := Int64.not_lt.mpr (covered_cons.mp hcov).1
      rw [addBalance, if_neg hnn] at h
      cases h
  | @accepted l l' c cs r h hrest ih =>
      obtain ⟨hnn, rfl⟩ := addBalance_eq_ok_iff.mp h
      rw [ih, covered_cons, getBalance_setBalance l hnn]
      exact ⟨fun hcov => ⟨Int64.not_lt.mp hnn, hcov⟩, fun hcov => hcov.2⟩

end Ledger

/-! ### What the two interpreters do to one transaction -/

/-- The nonces after a list of transactions, each of which sets its sender's. -/
def noncesAfter (nonce : String → UInt64) (txs : List Tx) : String → UInt64 :=
  txs.foldl (fun nonce tx => Function.update nonce tx.fromId tx.nonce) nonce

/-- Nonces set before the transactions survive for the accounts that send none of them. -/
theorem noncesAfter_apply (nonce : String → UInt64) (txs : List Tx) (id : String) :
    noncesAfter nonce txs id = if ∃ tx ∈ txs, tx.fromId = id then noncesAfter (fun _ => 0) txs id
      else nonce id := by
  unfold noncesAfter
  induction txs using List.reverseRecOn with
  | nil => simp
  | append_singleton txs tx ih =>
      rw [List.foldl_append, List.foldl_append, List.foldl_cons, List.foldl_cons, List.foldl_nil,
        List.foldl_nil]
      by_cases hid : tx.fromId = id
      · subst hid
        simp
      · rw [Function.update_of_ne (Ne.symm hid), Function.update_of_ne (Ne.symm hid), ih]
        simp [hid]

namespace Sim

open BalanceCall

/-- The simulation credits the outputs that `applyBlockTxs` credits. -/
theorem bal_creditOutputs (m : Sim) (outs : List TxOut) :
    (m.creditOutputs outs).bal =
      after m.bal (outs.filterMap fun o => o.dest.map fun a => ⟨a, o.amount, false⟩) := by
  unfold creditOutputs
  induction outs generalizing m with
  | nil => rfl
  | cons o outs ih =>
      rw [List.foldl_cons, ih, List.filterMap_cons]
      by_cases haddr : o.address ≠ ""
      · have hdest : o.dest = some o.address := if_pos haddr
        rw [if_pos haddr, hdest]
        rfl
      · by_cases hP : o.P ≠ ""
        · have hdest : o.dest = some (otapBucket o.P) := (if_neg haddr).trans (if_pos hP)
          rw [if_neg haddr, if_pos hP, hdest]
          rfl
        · have hdest : o.dest = none := (if_neg haddr).trans (if_neg hP)
          rw [if_neg haddr, if_neg hP, hdest]
          rfl

/-- A checked transaction that the simulation accepts books its calls. -/
theorem bal_of_simTx {n : Node} {m m' : Sim} {tx : Tx} (h : n.TxChecked tx)
    (hfrom : tx.fromId ≠ "") (hsim : m.simTx tx = .ok m') : m'.bal = after m.bal tx.calls := by
  unfold simTx at hsim
  simp only [Tx.fromId_normalize, Tx.nonce_normalize, Tx.fee_normalize, Tx.outputs_normalize,
    Tx.otapClaim_normalize, Tx.type_normalize_claim] at hsim
  obtain ⟨-, hsim⟩ := Res.ite_error_eq_ok.mp hsim
  unfold Tx.calls
  by_cases hclaim : tx.type = "otap_claim"
  · obtain ⟨c, hc, -, -⟩ := h.claim hclaim
    rw [if_pos hclaim, hc] at hsim
    dsimp only at hsim
    obtain ⟨-, hsim⟩ := Res.ite_error_eq_ok.mp hsim
    rw [← Except.ok.inj hsim, if_pos hclaim, hc]
    -- a debit is the addition of a negative amount
    simp only [after, List.foldl_cons, List.foldl_nil, bal_addBal, bal_setBal, bal_setNonce,
      ← Int64.sub_eq_add_neg]
  · rw [if_neg hclaim] at hsim
    obtain ⟨-, hsim⟩ := Res.ite_error_eq_ok.mp hsim
    rw [← Except.ok.inj hsim, if_neg hclaim, if_pos hfrom, bal_creditOutputs]
    simp only [after, List.cons_append, List.nil_append, List.foldl_cons, bal_setBal, bal_setNonce,
      ← Int64.sub_eq_add_neg]

/-- Checked transactions that the simulation accepts book their calls and set their nonces. -/
theorem eq_of_simTxs {n : Node} {txs : List Tx} (h : ∀ tx ∈ txs, n.TxChecked tx)
    (hfrom : ∀ tx ∈ txs, tx.fromId ≠ "") {m m' : Sim} (hsim : m.simTxs txs = .ok m') :
    m' = ⟨after m.bal (txs.flatMap Tx.calls), noncesAfter m.nonce txs⟩ := by
  induction txs generalizing m with
  | nil =>
      cases hsim
      rfl
  | cons tx txs ih =>
      rw [simTxs] at hsim
      obtain ⟨m₁, hone, htail⟩ := Res.bind_eq_ok.mp hsim
      have htx := h tx List.mem_cons_self
      have hbal := bal_of_simTx htx (hfrom tx List.mem_cons_self) hone
      have hnonce : m₁.nonce = Function.update m.nonce tx.fromId tx.nonce := by
        rcases nonce_of_applyTxToSim ((applyTxToSim_eq_ok_iff htx).mpr hone) with
          ⟨hcb, -⟩ | ⟨-, -, hupd⟩
        · exact absurd hcb htx.not_coinbase
        · exact hupd
      rw [ih (fun tx' h' => h tx' (List.mem_cons_of_mem _ h'))
        (fun tx' h' => hfrom tx' (List.mem_cons_of_mem _ h')) htail, hbal, hnonce,
        List.flatMap_cons, after, after, after, List.foldl_append]
      rfl

end Sim

/-- `applyBlockTxs` writes the nonce of the sender: a claim always, another transaction if it has a
sender. -/
def Tx.SetsNonce (tx : Tx) : Prop :=
  (tx.type = "otap_claim" ∧ tx.otapClaim.isSome) ∨ tx.fromId ≠ ""

instance (tx : Tx) : Decidable tx.SetsNonce := inferInstanceAs (Decidable (_ ∨ _))

namespace Ledger

open BalanceCall

theorem getNonce_of_addBalance {l l' : Ledger} {id : String} {d : Int64}
    (h : l.addBalance id d = .ok l') : l'.getNonce = l.getNonce := by
  obtain ⟨-, rfl⟩ := addBalance_eq_ok_iff.mp h
  exact getNonce_setBalance ..

/-- Crediting outputs sets no nonce. -/
theorem getNonce_creditOutputs (l : Ledger) (outs : List TxOut) :
    (l.creditOutputs outs).2.getNonce = l.getNonce := by
  induction outs generalizing l with
  | nil => rfl
  | cons o outs ih =>
      rw [creditOutputs]
      split
      · split
        · rfl
        next l' hadd => rw [ih, getNonce_of_addBalance hadd]
      · split
        · split
          · rfl
          next l' hadd => rw [ih, getNonce_of_addBalance hadd]
        · exact ih l

/-- An applied transaction sets the nonce of its sender, or none. -/
theorem getNonce_applyTx_of_ok {l : Ledger} {tx : Tx} (hok : (l.applyTx tx).1 = .ok ()) :
    (l.applyTx tx).2.getNonce =
      if tx.SetsNonce then Function.update l.getNonce tx.fromId tx.nonce else l.getNonce := by
  have hsets : tx.SetsNonce ↔
      (if tx.type = "otap_claim" then tx.otapClaim else none).isSome ∨ tx.fromId ≠ "" := by
    by_cases htype : tx.type = "otap_claim" <;> simp [Tx.SetsNonce, htype]
  simp only [hsets]
  unfold applyTx at hok ⊢
  simp only [Tx.fromId_normalize, Tx.nonce_normalize, Tx.fee_normalize, Tx.outputs_normalize,
    Tx.otapClaim_normalize, Tx.type_normalize_claim] at hok ⊢
  generalize (if tx.type = "otap_claim" then tx.otapClaim else none) = claim at hok ⊢
  cases claim with
  | some c =>
      dsimp only at hok ⊢
      split at hok
      · cases hok
      next l₁ hdebit =>
        split at hok
        · cases hok
        next l₂ hcredit =>
          rw [if_pos (.inl rfl), getNonce_of_addBalance hcredit, getNonce_of_addBalance hdebit,
            getNonce_setNonce]
  | none =>
      dsimp only at hok ⊢
      by_cases hfrom : tx.fromId ≠ ""
      · rw [if_pos hfrom] at hok ⊢
        split at hok
        · cases hok
        next l₁ hdebit =>
          rw [if_pos (.inr hfrom), getNonce_creditOutputs, getNonce_setNonce,
            getNonce_of_addBalance hdebit]
      · rw [if_neg hfrom, if_neg (by simp [hfrom]), getNonce_creditOutputs]

/-- Applied transactions leave the nonces they set, the last one of each sender. -/
theorem getNonce_applyTxs_of_ok {l : Ledger} {txs : List Tx} (hok : (l.applyTxs txs).1 = .ok ()) :
    (l.applyTxs txs).2.getNonce = noncesAfter l.getNonce (txs.filter Tx.SetsNonce) := by
  induction txs generalizing l with
  | nil => rfl
  | cons tx txs ih =>
      have hone := @getNonce_applyTx_of_ok l tx
      rw [applyTxs] at hok ⊢
      split at hok
      · cases hok
      next u l' heq =>
        rw [heq] at hone
        rw [ih hok, hone rfl]
        by_cases hset : tx.SetsNonce
        · simp [hset, noncesAfter]
        · simp [hset]

/-- Every sender's nonce is set where all transactions have one. -/
theorem getNonce_applyTxs {txs : List Tx} (hfrom : ∀ tx ∈ txs, tx.fromId ≠ "") {l : Ledger}
    (hok : (l.applyTxs txs).1 = .ok ()) :
    (l.applyTxs txs).2.getNonce = noncesAfter l.getNonce txs := by
  have hall : txs.filter Tx.SetsNonce = txs :=
    List.filter_eq_self.mpr fun tx htx => decide_eq_true (.inr (hfrom tx htx))
  rw [getNonce_applyTxs_of_ok hok, hall]

end Ledger

/-! ### The coinbase -/

namespace Node

open BalanceCall

variable {n : Node}

/-- The coinbase does to the ledger what the simulation does with it: its output has an address or
is empty, and a `From` is debited nothing and keeps its nonce, unless it sends a later transaction
of the block. -/
def CoinbaseAlike (l : Ledger) : List Tx → Prop
  | [] => True
  | cb :: rest =>
      ∀ o, cb.type = "coinbase" → cb.outputs = [o] → (o.address ≠ "" ∨ o.amount = 0) ∧
        (cb.fromId = "" ∨ o.amount + cb.fee = 0 ∧
          (cb.nonce = l.getNonce cb.fromId ∨ ∃ tx ∈ rest, tx.fromId = cb.fromId))

/-- The sender of a checked transaction is not empty. -/
theorem TxChecked.from_ne {tx : Tx} (h : n.TxChecked tx) : tx.fromId ≠ "" := by
  intro hempty
  have hsig := h.sig
  rw [← h.from_eq_pub, hempty] at hsig
  have hnone : parsePub "" = none := by decide
  simp [Primitives.sigVerify, hnone] at hsig

theorem otapBucket_ne_empty (P : String) : otapBucket P ≠ "" := by
  unfold otapBucket
  simp

/-- The calls of a coinbase with one output. -/
theorem calls_coinbase {cb : Tx} {o : TxOut} (hcb : cb.type = "coinbase")
    (houts : cb.outputs = [o]) :
    cb.calls = (if cb.fromId ≠ "" then [⟨cb.fromId, -(o.amount + cb.fee), false⟩] else []) ++
      (o.dest.map fun a => (⟨a, o.amount, false⟩ : BalanceCall)).toList := by
  have hcredit : ([o].filterMap fun o => o.dest.map fun a => (⟨a, o.amount, false⟩ : BalanceCall)) =
      (o.dest.map fun a => (⟨a, o.amount, false⟩ : BalanceCall)).toList := by
    rw [List.filterMap_cons]
    cases o.dest <;> rfl
  unfold Tx.calls
  rw [if_neg (by rw [hcb]; decide), houts, hcredit]
  simp [outTotal, hcb]

/-- What the debit and the credit of a coinbase book on an account. -/
theorem booked_calls_coinbase {cb : Tx} {o : TxOut} (hcb : cb.type = "coinbase")
    (houts : cb.outputs = [o]) (id : String) :
    booked cb.calls id = (if cb.fromId ≠ "" ∧ cb.fromId = id then -(o.amount + cb.fee) else 0) +
        (if o.dest = some id then o.amount else 0) := by
  rw [calls_coinbase hcb houts, booked_append]
  congr 1
  · by_cases hfrom : cb.fromId = ""
    · simp [hfrom]
    · simp [hfrom, booked_cons]
  · cases o.dest with
    | none => simp
    | some a => simp [booked_cons]

/-- A coinbase books what the simulation credits exactly when its output has an address or is empty
and its `From` is not debited. -/
theorem booked_coinbase_iff {cb : Tx} {o : TxOut} (hcb : cb.type = "coinbase")
    (houts : cb.outputs = [o]) :
    (∀ id, booked cb.calls id = if o.address = id then o.amount else 0) ↔
      (o.address ≠ "" ∨ o.amount = 0) ∧ (cb.fromId = "" ∨ o.amount + cb.fee = 0) := by
  simp only [booked_calls_coinbase hcb houts]
  by_cases haddr : o.address = ""
  · -- without an address the credit goes to a claim bucket or to nobody
    have hdest : ∀ id, o.dest = some id → id ≠ "" := by
      intro id hid hempty
      rw [TxOut.dest, if_neg (not_not.mpr haddr)] at hid
      split at hid
      · exact otapBucket_ne_empty o.P ((Option.some.inj hid).trans hempty)
      · cases hid
    constructor
    · intro h
      -- the empty account is credited by the simulation only
      have hzero : o.amount = 0 := by
        have hempty := h ""
        rw [if_neg (fun hc => hc.1 hc.2), if_neg (fun hc => hdest "" hc rfl),
          if_pos haddr] at hempty
        simpa using hempty.symm
      refine ⟨Or.inr hzero, ?_⟩
      by_cases hfrom : cb.fromId = ""
      · exact Or.inl hfrom
      · have hdebit := h cb.fromId
        rw [if_pos ⟨hfrom, rfl⟩, hzero, haddr, if_neg (Ne.symm hfrom)] at hdebit
        simp only [ite_self, Int64.add_zero, Int64.zero_add] at hdebit
        rw [hzero]
        exact Or.inr (by grind)
    · rintro ⟨hamount, hfrom⟩ id
      have hzero : o.amount = 0 := hamount.resolve_left (not_not.mpr haddr)
      rcases hfrom with hfrom | hfrom
      · simp [hfrom, hzero]
      · have hfee : cb.fee = 0 := by simpa [hzero] using hfrom
        simp [hfee, hzero]
  · -- with one the credits agree, and only the debit of `From` can differ
    have hdest : o.dest = some o.address := if_pos haddr
    simp only [hdest, Option.some.injEq, haddr, ne_eq, not_false_eq_true, true_or, true_and]
    constructor
    · intro h
      by_cases hfrom : cb.fromId = ""
      · exact Or.inl hfrom
      · have hdebit := h cb.fromId
        rw [if_pos ⟨hfrom, rfl⟩] at hdebit
        exact Or.inr (by grind)
    · rintro (hfrom | hfrom) id
      · simp [hfrom]
      · simp [hfrom]

/-- Setting the nonce of a coinbase's `From` shows in no nonce after the other transactions exactly
when it was set before or is set again. -/
theorem noncesAfter_update_iff (nonce : String → UInt64) (txs : List Tx) (id : String)
    (k : UInt64) :
    noncesAfter (Function.update nonce id k) txs = noncesAfter nonce txs ↔
      k = nonce id ∨ ∃ tx ∈ txs, tx.fromId = id := by
  constructor
  · intro h
    by_cases hsent : ∃ tx ∈ txs, tx.fromId = id
    · exact Or.inr hsent
    · have hid := congrFun h id
      rw [noncesAfter_apply, noncesAfter_apply nonce, if_neg hsent, if_neg hsent,
        Function.update_self] at hid
      exact Or.inl hid
  · intro h
    funext a
    rw [noncesAfter_apply, noncesAfter_apply nonce]
    by_cases ha : a = id
    · subst ha
      rcases h with rfl | hsent
      · rw [Function.update_eq_self]
      · rw [if_pos hsent, if_pos hsent]
    · rw [Function.update_of_ne ha]

/-- The nonces that applying a block leaves, when it ends without error. -/
theorem getNonce_applyTxs_coinbase {l : Ledger} {cb : Tx} {rest : List Tx}
    (hcb : cb.type = "coinbase") (hfrom : ∀ tx ∈ rest, tx.fromId ≠ "")
    (hok : (l.applyTxs (cb :: rest)).1 = .ok ()) :
    (l.applyTxs (cb :: rest)).2.getNonce = if cb.fromId = "" then noncesAfter l.getNonce rest
      else noncesAfter (Function.update l.getNonce cb.fromId cb.nonce) rest := by
  by_cases hempty : cb.fromId = ""
  · -- without a sender the coinbase only credits
    have hone : l.applyTx cb = l.creditOutputs cb.outputs := by
      unfold Ledger.applyTx
      simp only [Tx.fromId_normalize, Tx.outputs_normalize, Tx.type_normalize_claim, hcb, hempty]
      rfl
    have hnonce := Ledger.getNonce_creditOutputs l cb.outputs
    rw [if_pos hempty]
    rw [Ledger.applyTxs, hone] at hok ⊢
    split at hok
    · cases hok
    next u l' heq =>
      rw [heq] at hnonce
      rw [Ledger.getNonce_applyTxs hfrom hok, hnonce]
  · rw [if_neg hempty]
    exact Ledger.getNonce_applyTxs (List.forall_mem_cons.mpr ⟨hempty, hfrom⟩) hok

/-- What the simulation of an accepted block ends with. -/
theorem eq_of_simulateTip_coinbase {l : Ledger} {b : Block} {m : Sim} {cb : Tx} {o : TxOut}
    {rest : List Tx} (hon : n.cfg.issuance.enabled = true) (htxs : b.txs = cb :: rest)
    (houts : cb.outputs = [o]) (hrest : ∀ tx ∈ rest, n.TxChecked tx)
    (hsim : n.simulateTip l.view b = .ok m) :
    m.bal = after l.getBalance (⟨o.address, o.amount, false⟩ :: rest.flatMap Tx.calls) ∧
      m.nonce = noncesAfter l.getNonce rest := by
  unfold simulateTip at hsim
  rw [if_pos hon, htxs] at hsim
  dsimp only at hsim
  rw [houts] at hsim
  rw [Sim.eq_of_simTxs hrest (fun tx htx => (hrest tx htx).from_ne) hsim]
  exact ⟨rfl, rfl⟩

/-- Both end with the same balances exactly when the coinbase books what the simulation credits. -/
theorem after_coinbase_iff (bal : String → Int64) (cb : Tx) (o : TxOut) (cs : List BalanceCall) :
    after bal (⟨o.address, o.amount, false⟩ :: cs) = after bal (cb.calls ++ cs) ↔
      ∀ id, booked cb.calls id = if o.address = id then o.amount else 0 := by
  rw [funext_iff]
  refine forall_congr' fun id => ?_
  rw [after_eq, after_eq, booked_append, booked_cons]
  constructor
  · intro h
    grind
  · intro h
    rw [h]

/-- When a coinbase with one output is booked alike. -/
theorem coinbaseAlike_cons_iff {l : Ledger} {cb : Tx} {o : TxOut} {rest : List Tx}
    (hcb : cb.type = "coinbase") (houts : cb.outputs = [o]) :
    CoinbaseAlike l (cb :: rest) ↔
      (o.address ≠ "" ∨ o.amount = 0) ∧ (cb.fromId = "" ∨ o.amount + cb.fee = 0 ∧
        (cb.nonce = l.getNonce cb.fromId ∨ ∃ tx ∈ rest, tx.fromId = cb.fromId)) := by
  constructor
  · exact fun h => h o hcb houts
  · intro h o' _ houts'
    obtain rfl : o = o' := (List.cons.inj (houts.symm.trans houts')).1
    exact h

/-- For an accepted block, `applyBlockTxs` returns nil with the balances and nonces of the
simulation exactly when every running balance is covered and the coinbase is treated alike. -/
theorem applyRefines_iff (n : Node) (s : DB) (b : Block) (hbasic : n.validateBlockBasic b = .ok ())
    (htip : n.validateBlockStateTip s.ledger b = .ok ()) :
    ((n.applyBlockTxs s b).1 = .ok () ∧
        n.simulateTip s.ledger.view b = .ok (n.applyBlockTxs s b).2.ledger.view) ↔
      Covered s.ledger.getBalance (b.txs.flatMap Tx.calls) ∧ CoinbaseAlike s.ledger b.txs := by
  have hran := s.ledger.ran_applyTxs b.txs
  have hledger := n.ledger_applyBlockTxs s b
  obtain ⟨m, hsim, -⟩ := Res.bind_eq_ok.mp htip
  have hok : (n.applyBlockTxs s b).1 = .ok () ↔
      Covered s.ledger.getBalance (b.txs.flatMap Tx.calls) := by
    rw [← hran.eq_ok_iff, ← hledger]
  rw [hok, hsim]
  refine and_congr_right fun hcov => ?_
  -- all calls are carried out, so both sides are known balance by balance
  have hbal : (n.applyBlockTxs s b).2.ledger.getBalance =
      after s.ledger.getBalance (b.txs.flatMap Tx.calls) := by
    have hall := hran.getBalance_eq
    rw [carriedOut_of_covered hcov, ← hledger] at hall
    exact hall
  have happlied : (s.ledger.applyTxs b.txs).1 = .ok () := hran.eq_ok_iff.mpr hcov
  have hnonce : (n.applyBlockTxs s b).2.ledger.getNonce = (s.ledger.applyTxs b.txs).2.getNonce := by
    rw [← hledger]
  rw [Except.ok.injEq, Sim.ext_iff, Ledger.view_bal, Ledger.view_nonce, hbal, hnonce]
  have hshape := basicShape_of_validateBlockBasic hbasic
  generalize htxs : b.txs = txs at hshape happlied
  cases hshape with
  | @issuing cb o rest hon hcb houts hreward hrest =>
      have hfrom : ∀ tx ∈ rest, tx.fromId ≠ "" := fun tx htx => (hrest tx htx).from_ne
      obtain ⟨hmbal, hmnonce⟩ := eq_of_simulateTip_coinbase hon htxs houts hrest hsim
      rw [hmbal, List.flatMap_cons, after_coinbase_iff, booked_coinbase_iff hcb houts, hmnonce,
        getNonce_applyTxs_coinbase hcb hfrom happlied, coinbaseAlike_cons_iff hcb houts]
      -- what is left is about the nonce of the coinbase's `From`
      by_cases hempty : cb.fromId = ""
      · simp [hempty]
      · rw [if_neg hempty, @eq_comm _ (noncesAfter s.ledger.getNonce rest), noncesAfter_update_iff]
        simp [hempty, and_assoc]
  | plain hoff hall =>
      -- without issuance there is no coinbase, and both do the same
      have hfrom : ∀ tx ∈ txs, tx.fromId ≠ "" := fun tx htx => (hall tx htx).from_ne
      have hm : m = ⟨after s.ledger.getBalance (txs.flatMap Tx.calls),
          noncesAfter s.ledger.getNonce txs⟩ := by
        unfold simulateTip at hsim
        rw [if_neg (by rw [hoff]; exact Bool.false_ne_true), htxs] at hsim
        exact Sim.eq_of_simTxs hall hfrom hsim
      have halike : CoinbaseAlike s.ledger txs := by
        cases txs with
        | nil => exact trivial
        | cons tx rest => exact fun o hcb => absurd hcb (hall tx List.mem_cons_self).not_coinbase
      rw [hm, Ledger.getNonce_applyTxs hfrom happlied]
      exact iff_of_true ⟨rfl, rfl⟩ halike

end Node

namespace Sample

/-- The database of a node that issues, before the first block. -/
def issuingDB : DB := (issuing false).genesisDB ∅

end Sample

namespace Node

open BalanceCall

open Sample

/-- A coinbase to alice and her payment to bob apply as they are simulated. -/
theorem applyRefines_spend :
    ((issuing false).applyBlockTxs issuingDB spend₁).1 = .ok () ∧
      (issuing false).simulateTip issuingDB.ledger.view spend₁ =
        .ok ((issuing false).applyBlockTxs issuingDB
          spend₁).2.ledger.view := by
  refine (applyRefines_iff (issuing false) issuingDB spend₁ (by decide +kernel)
    (by decide +kernel)).mpr ⟨?_, fun o _ houts => ?_⟩
  · exact (issuingDB.ledger.ran_applyTxs spend₁.txs).eq_ok_iff.mp (by decide +kernel)
  · obtain rfl : pay alice 5000 = o := (List.cons.inj houts).1
    exact ⟨Or.inl (by decide), Or.inl rfl⟩

/-- Bob takes 60 from alice, who has nothing. The simulation leaves her with a negative balance, and
`applyBlockTxs` returns an error. -/
theorem not_applyRefines_stealing :
    (∀ id, 0 ≤ (node.genesisDB ∅).ledger.getBalance id) ∧
      node.validateBlockBasic stealing = .ok () ∧
      node.validateBlockStateTip (node.genesisDB ∅).ledger stealing = .ok () ∧
      (node.applyBlockTxs (node.genesisDB ∅) stealing).1 ≠ .ok () := by
  refine ⟨fun id => ?_, by decide +kernel, by decide +kernel, by decide +kernel⟩
  show 0 ≤ Ledger.empty.getBalance id
  simp [Ledger.getBalance, Ledger.empty]

end Node

end ReserveOS
