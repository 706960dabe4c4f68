import ReserveOS.Correctness.ApplyRefines

/-!
# What a failed block leaves behind

`applyBlockTxs` writes to the ledger as it goes, with `AddBalance` and `SetNonce`, and returns at
the first `AddBalance` that fails. Nothing is taken back. The module describes a block by the list
of its writes (`Tx.writes`). The write that fails is the first one whose running balance is negative
(`Overdraws`): the stored balance, what the writes before it add, and its own amount. A block is
applied all or nothing exactly if the writes before this one cancel: what they add to each account
is zero, and the last nonce that they set is the one that was there (`allOrNothing_iff`).
-/

namespace ReserveOS

/-! ### Writes -/

/-- A write of `applyBlockTxs` to the ledger. -/
inductive LedgerWrite
  /-- `SetNonce` -/
  | nonce (id : String) (k : UInt64)
  /-- `AddBalance` -/
  | balance (id : String) (delta : Int64)

namespace LedgerWrite

/-- What a write adds to the balance of an account. -/
def amount (id : String) : LedgerWrite → Int64
  | .nonce _ _ => 0
  | .balance a delta => if a = id then delta else 0

/-- The nonce that a write sets for an account. -/
def setsNonce (id : String) : LedgerWrite → Option UInt64
  | .nonce a k => if a = id then some k else none
  | .balance _ _ => none

/-- What a list of writes adds to the balance of an account, in `int64`. -/
def net (ws : List LedgerWrite) (id : String) : Int64 := (ws.map (amount id)).sum

/-- The nonce of an account after a list of writes. -/
def nonceAfter (k : UInt64) (ws : List LedgerWrite) (id : String) : UInt64 :=
  ws.foldl (fun k w => (w.setsNonce id).getD k) k

/-- The write leaves a negative balance, when it comes after the writes `pre` to the balances
`bal`. -/
def Overdraws (bal : String → Int64) (pre : List LedgerWrite) : LedgerWrite → Prop
  | .nonce _ _ => False
  | .balance id delta => bal id + net pre id + delta < 0

/-- No write of the list overdraws. -/
def Covers (bal : String → Int64) (ws : List LedgerWrite) : Prop :=
  ∀ pre w post, ws = pre ++ w :: post → ¬ Overdraws bal pre w

theorem net_cons (w : LedgerWrite) (ws : List LedgerWrite) (id : String) :
    net (w :: ws) id = w.amount id + net ws id :=
  List.sum_cons

theorem nonceAfter_cons (k : UInt64) (w : LedgerWrite) (ws : List LedgerWrite) (id : String) :
    nonceAfter k (w :: ws) id = nonceAfter ((w.setsNonce id).getD k) ws id :=
  rfl

theorem overdraws_nil {bal : String → Int64} {id : String} {delta : Int64} :
    Overdraws bal [] (.balance id delta) ↔ bal id + delta < 0 := by
  rw [Overdraws, show net [] id = 0 from rfl, Int64.add_zero]

/-- The first of the writes before can be booked on the balances. -/
theorem overdraws_cons {bal : String → Int64} {w v : LedgerWrite} {pre : List LedgerWrite} :
    Overdraws bal (w :: pre) v ↔ Overdraws (fun id => bal id + w.amount id) pre v := by
  cases v with
  | nonce id k => exact Iff.rfl
  | balance id delta => rw [Overdraws, Overdraws, net_cons, ← Int64.add_assoc (bal id)]

theorem covers_cons {bal : String → Int64} {w : LedgerWrite} {ws : List LedgerWrite} :
    Covers bal (w :: ws) ↔ ¬ Overdraws bal [] w ∧ Covers (fun id => bal id + w.amount id) ws := by
  unfold Covers
  rw [forall_split_cons]
  simp only [overdraws_cons]

/-- Two writes that overdraw, with covered writes before each, are at one place. -/
theorem Covers.unique {bal : String → Int64} {pre pre' post post' : List LedgerWrite}
    {w w' : LedgerWrite} (heq : pre ++ w :: post = pre' ++ w' :: post') (h : Covers bal pre)
    (h' : Covers bal pre') (hw : Overdraws bal pre w) (hw' : Overdraws bal pre' w') :
    pre = pre' := by
  rcases List.append_eq_append_iff.mp heq with ⟨mid, rfl, hmid⟩ | ⟨mid, rfl, hmid⟩
  · cases mid with
    | nil => exact (List.append_nil _).symm
    | cons v mid =>
        obtain ⟨rfl, -⟩ := List.cons.inj hmid
        exact absurd hw (h' pre w mid rfl)
  · cases mid with
    | nil => exact List.append_nil _
    | cons v mid =>
        obtain ⟨rfl, -⟩ := List.cons.inj hmid
        exact absurd hw' (h pre' w' mid rfl)

end LedgerWrite

open LedgerWrite

/-- The writes of one round of the loop of `applyBlockTxs`. A claim sets the nonce before its debit
is checked, a transfer after it. -/
def Tx.writes (tx : Tx) : List LedgerWrite :=
  match (if tx.type = "otap_claim" then tx.otapClaim else none) with
  | some c =>
      [.nonce tx.fromId tx.nonce, .balance (otapBucket c.P) (-(c.amount + tx.fee)),
        .balance c.toId c.amount]
  | none =>
      (if tx.fromId ≠ "" then
        [.balance tx.fromId (-(outTotal tx.outputs + tx.fee)), .nonce tx.fromId tx.nonce]
      else []) ++ tx.outputs.filterMap fun o => o.dest.map fun a => .balance a o.amount

namespace Ledger

/-- One write. -/
def write (l : Ledger) : LedgerWrite → Res Ledger
  | .nonce id k => .ok (l.setNonce id k)
  | .balance id delta => l.addBalance id delta

/-- Writes in order, up to the first `AddBalance` that fails. -/
def run : Ledger → List LedgerWrite → Res Unit × Ledger
  | l, [] => (.ok (), l)
  | l, w :: ws =>
      match l.write w with
      | .error e => (.error e, l)
      | .ok l' => run l' ws

/-- The writes leave every account of the ledger as it was. -/
def Cancels (l : Ledger) (ws : List LedgerWrite) : Prop :=
  ∀ id, net ws id = 0 ∧ nonceAfter (l.getNonce id) ws id = l.getNonce id

/-! ### A block as a list of writes -/

/-- Writes go on after writes that all succeeded, and not after a failure. -/
theorem run_append (l : Ledger) (ws vs : List LedgerWrite) :
    (∀ l', l.run ws = (.ok (), l') → l.run (ws ++ vs) = l'.run vs) ∧
      ∀ e l', l.run ws = (.error e, l') → l.run (ws ++ vs) = (.error e, l') := by
  induction ws generalizing l with
  | nil =>
      refine ⟨fun l' hok => ?_, fun e l' herr => ?_⟩
      · cases hok
        rfl
      · cases herr
  | cons w ws ih =>
      rw [List.cons_append, run, run]
      cases l.write w with
      | error e => exact ⟨nofun, fun _ _ herr => herr⟩
      | ok l' => exact ih l'

/-- Crediting outputs runs their writes. -/
theorem creditOutputs_eq_run (l : Ledger) (outs : List TxOut) :
    l.creditOutputs outs =
      l.run (outs.filterMap fun o => o.dest.map fun a => .balance a o.amount) := by
  induction outs generalizing l with
  | nil => rfl
  | cons o outs ih =>
      rw [creditOutputs, List.filterMap_cons]
      by_cases haddr : o.address ≠ ""
      · have hdest : o.dest = some o.address := if_pos haddr
        rw [if_pos haddr, hdest, Option.map_some, run, write]
        cases l.addBalance o.address o.amount with
        | error e => rfl
        | ok l' => exact ih l'
      · by_cases hP : o.P ≠ ""
        · have hdest : o.dest = some (otapBucket o.P) := (if_neg haddr).trans (if_pos hP)
          rw [if_neg haddr, if_pos hP, hdest, Option.map_some, run, write]
          cases l.addBalance (otapBucket o.P) o.amount with
          | error e => rfl
          | ok l' => exact ih l'
        · have hdest : o.dest = none := (if_neg haddr).trans (if_neg hP)
          rw [if_neg haddr, if_neg hP, hdest]
          exact ih l

/-- Applying a transaction runs its writes, up to the first that fails. -/
theorem applyTx_eq_run (l : Ledger) (tx : Tx) : l.applyTx tx = l.run tx.writes := by
  unfold applyTx Tx.writes
  simp only [Tx.fromId_normalize, Tx.nonce_normalize, Tx.fee_normalize, Tx.outputs_normalize,
    Tx.otapClaim_normalize, Tx.type_normalize_claim]
  generalize (if tx.type = "otap_claim" then tx.otapClaim else none) = claim
  cases claim with
  | some c =>
      dsimp only
      -- the nonce is set before the debit, and the credit comes last
      rw [run, write]
      dsimp only
      rw [run, write]
      cases (l.setNonce tx.fromId tx.nonce).addBalance (otapBucket c.P) (-(c.amount + tx.fee)) with
      | error e => rfl
      | ok l₁ =>
          cases hcredit : l₁.addBalance c.toId c.amount with
          | error e => simp [run, write, hcredit]
          | ok l₂ => simp [run, write, hcredit]
  | none =>
      dsimp only
      by_cases hfrom : tx.fromId ≠ ""
      · rw [if_pos hfrom, if_pos hfrom, List.cons_append, List.cons_append, List.nil_append, run,
          write]
        cases l.addBalance tx.fromId (-(outTotal tx.outputs + tx.fee)) with
        | error e => rfl
        | ok l₁ => exact creditOutputs_eq_run _ tx.outputs
      · rw [if_neg hfrom, if_neg hfrom, List.nil_append, creditOutputs_eq_run]

/-- `applyBlockTxs` on the ledger is the list of its writes. -/
theorem applyTxs_eq_run (l : Ledger) (txs : List Tx) :
    l.applyTxs txs = l.run (txs.flatMap Tx.writes) := by
  induction txs generalizing l with
  | nil => rfl
  | cons tx txs ih =>
      obtain ⟨hok, herr⟩ := l.run_append tx.writes (txs.flatMap Tx.writes)
      rw [applyTxs, applyTx_eq_run, List.flatMap_cons]
      split
      next e l' heq => exact (herr e l' heq).symm
      next l' heq => rw [ih, hok l' heq]

/-! ### The write that fails -/

/-- A write that is performed. -/
theorem write_eq_ok {l l' : Ledger} {w : LedgerWrite} (h : l.write w = .ok l') :
    ¬ Overdraws l.getBalance [] w ∧ l'.getBalance = (fun id => l.getBalance id + w.amount id) ∧
      l'.getNonce = fun id => (w.setsNonce id).getD (l.getNonce id) := by
  cases w with
  | nonce a k =>
      obtain rfl : l.setNonce a k = l' := Except.ok.inj h
      refine ⟨id, ?_, ?_⟩
      · ext id
        rw [getBalance_setNonce, amount, Int64.add_zero]
      · ext id
        rw [getNonce_setNonce, Function.update_apply, setsNonce]
        by_cases hid : a = id
        · rw [if_pos hid.symm, if_pos hid, Option.getD_some]
        · rw [if_neg (Ne.symm hid), if_neg hid, Option.getD_none]
  | balance a delta =>
      obtain ⟨hnn, rfl⟩ := addBalance_eq_ok_iff.mp h
      refine ⟨mt overdraws_nil.mp hnn, ?_, ?_⟩
      · ext id
        rw [getBalance_setBalance l hnn, Function.update_apply, amount]
        by_cases hid : a = id
        · rw [if_pos hid.symm, if_pos hid, hid]
        · rw [if_neg (Ne.symm hid), if_neg hid, Int64.add_zero]
      · ext id
        rw [getNonce_setBalance, setsNonce, Option.getD_none]

/-- A write that fails. -/
theorem overdraws_of_write_eq_error {l : Ledger} {w : LedgerWrite} {e : Fault}
    (h : l.write w = .error e) : Overdraws l.getBalance [] w := by
  cases w with
  | nonce a k => cases h
  | balance a delta =>
      by_contra hnn
      exact nomatch h.symm.trans (addBalance_eq_ok_iff.mpr ⟨mt overdraws_nil.mpr hnn, rfl⟩)

/-- What writes that are all performed leave behind. None of them overdraws. -/
theorem covers_of_run {l l' : Ledger} {ws : List LedgerWrite} (h : l.run ws = (.ok (), l')) :
    Covers l.getBalance ws ∧ ∀ id, l'.getBalance id = l.getBalance id + net ws id ∧
      l'.getNonce id = nonceAfter (l.getNonce id) ws id := by
  induction ws generalizing l with
  | nil =>
      cases h
      exact ⟨by simp [Covers], fun id => ⟨(Int64.add_zero _).symm, rfl⟩⟩
  | cons w ws ih =>
      rw [run] at h
      cases hw : l.write w with
      | error e =>
          rw [hw] at h
          cases h
      | ok l₁ =>
          rw [hw] at h
          obtain ⟨hover, hbal, hnonce⟩ := write_eq_ok hw
          obtain ⟨hcovers, hafter⟩ := ih h
          rw [hbal] at hcovers
          refine ⟨covers_cons.mpr ⟨hover, hcovers⟩, fun id => ?_⟩
          rw [(hafter id).1, (hafter id).2, hbal, hnonce, net_cons, Int64.add_assoc,
            nonceAfter_cons]
          exact ⟨rfl, rfl⟩

/-- A run fails at a write that overdraws, with the writes before it performed. -/
theorem exists_overdraws {l l' : Ledger} {ws : List LedgerWrite} {e : Fault}
    (h : l.run ws = (.error e, l')) : ∃ pre w post, ws = pre ++ w :: post ∧
      l.run pre = (.ok (), l') ∧ Overdraws l.getBalance pre w := by
  induction ws generalizing l with
  | nil => cases h
  | cons w ws ih =>
      rw [run] at h
      cases hw : l.write w with
      | error e' =>
          rw [hw] at h
          cases h
          exact ⟨[], w, ws, rfl, rfl, overdraws_of_write_eq_error hw⟩
      | ok l₁ =>
          rw [hw] at h
          obtain ⟨pre, v, post, rfl, hpre, hover⟩ := ih h
          rw [(write_eq_ok hw).2.1, ← overdraws_cons] at hover
          exact ⟨w :: pre, v, post, rfl, by rw [run, hw]; exact hpre, hover⟩

end Ledger

/-! ### Failed blocks -/

namespace Node

/-- If `applyBlockTxs` returns an error, every balance and every nonce is as before. -/
def AllOrNothing (n : Node) (s : DB) (b : Block) : Prop :=
  ∀ e s', n.applyBlockTxs s b = (.error e, s') → ∀ id,
    s'.ledger.getBalance id = s.ledger.getBalance id ∧ s'.ledger.getNonce id = s.ledger.getNonce id

theorem AllOrNothing.same {n : Node} {s : DB} {b : Block} (h : n.AllOrNothing s b) {e : Fault}
    (herr : (n.applyBlockTxs s b).1 = .error e) (id : String) :
    (n.applyBlockTxs s b).2.ledger.getBalance id = s.ledger.getBalance id ∧
      (n.applyBlockTxs s b).2.ledger.getNonce id = s.ledger.getNonce id :=
  h e (n.applyBlockTxs s b).2 (Prod.ext herr rfl) id

/-- A block is applied all or nothing exactly if before the first of its writes that overdraws, if
there is one, the writes cancel. -/
theorem allOrNothing_iff (n : Node) (s : DB) (b : Block) :
    n.AllOrNothing s b ↔ ∀ pre w post, b.txs.flatMap Tx.writes = pre ++ w :: post →
      Overdraws s.ledger.getBalance pre w → Covers s.ledger.getBalance pre →
      s.ledger.Cancels pre := by
  have hrun := n.ledger_applyBlockTxs s b
  rw [Ledger.applyTxs_eq_run] at hrun
  constructor
  · intro hall pre w post heq hover hcovers
    rcases hres : s.ledger.run (b.txs.flatMap Tx.writes) with ⟨⟨e⟩ | u, l'⟩
    · -- the write is the one that failed
      obtain ⟨pre', w', post', heq', hpre', hover'⟩ := Ledger.exists_overdraws hres
      obtain ⟨hcovers', hafter⟩ := Ledger.covers_of_run hpre'
      obtain rfl := hcovers.unique (heq.symm.trans heq') hcovers' hover hover'
      rw [hres] at hrun
      obtain ⟨herr, rfl⟩ := Prod.mk.inj hrun
      intro id
      obtain ⟨hbal, hnonce⟩ := hall.same herr id
      rw [(hafter id).1, Int64.add_eq_left] at hbal
      rw [(hafter id).2] at hnonce
      exact ⟨hbal, hnonce⟩
    · exact absurd hover ((Ledger.covers_of_run hres).1 pre w post heq)
  · intro hcancel e s' hres id
    rw [hres] at hrun
    obtain ⟨pre, w, post, heq, hpre, hover⟩ := Ledger.exists_overdraws hrun.symm
    obtain ⟨hcovers, hafter⟩ := Ledger.covers_of_run hpre
    obtain ⟨hnet, hnonce⟩ := hcancel pre w post heq hover hcovers id
    rw [(hafter id).1, (hafter id).2, hnet, hnonce, Int64.add_zero]
    exact ⟨rfl, rfl⟩

end Node

namespace Sample

/-- Alice pays 60 twice. -/
def overdrawn : Block :=
  child node.genesisBlock 1 0x20010000
    [transfer alice 1 [pay bob 60], transfer alice 2 [pay bob 60]]

/-- Alice claims 60 from an empty bucket. -/
def emptyClaim : Block :=
  child node.genesisBlock 1 0x20010000
    [{ transfer alice 1 [] with
      type := "otap_claim", otapClaim := some ⟨"00", "00", "00", alice, 60, ""⟩ }]

theorem overdrawn_read :
    (node.applyBlockTxs richDB overdrawn).1 = .error (.error "insufficient funds") ∧
      (node.applyBlockTxs richDB overdrawn).2.ledger.getBalance alice = 40 ∧
      richDB.ledger.getBalance alice = 100 := by
  decide +kernel

theorem emptyClaim_read :
    (node.applyBlockTxs richDB emptyClaim).1 = .error (.error "insufficient funds") ∧
      (node.applyBlockTxs richDB emptyClaim).2.ledger.getNonce alice = 1 ∧
      richDB.ledger.getNonce alice = 0 := by
  decide +kernel

end Sample

open Sample in
/-- The second payment fails and the first one stays. A failed claim leaves its nonce. -/
theorem Node.not_allOrNothing_overdrawn :
    ¬ node.AllOrNothing richDB overdrawn ∧ ¬ node.AllOrNothing richDB emptyClaim := by
  constructor
  · obtain ⟨herr, hafter, hbefore⟩ := overdrawn_read
    intro hall
    have hsame := (hall.same herr alice).1
    rw [hafter, hbefore] at hsame
    exact absurd hsame (by decide)
  · obtain ⟨herr, hafter, hbefore⟩ := emptyClaim_read
    intro hall
    have hsame := (hall.same herr alice).2
    rw [hafter, hbefore] at hsame
    exact absurd hsame (by decide)

end ReserveOS
