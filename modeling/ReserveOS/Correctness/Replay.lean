import ReserveOS.Correctness.ApplyRefines
import ReserveOS.General.SortedMap

/-!
# Replaying blocks on different ledgers

Applying blocks books amounts and sets nonces that do not depend on the ledger. So if blocks apply
to two ledgers, the results have the same balances exactly when the ledgers had, and the same nonces
exactly when the ledgers had the same ones for every account that sends nothing in these blocks
(`view_applyBlocks_eq_iff`). Whether blocks apply is a matter of the balances alone
(`applyBlocks_ok_congr`).
-/

namespace ReserveOS

open BalanceCall

namespace Ledger

variable {l l' : Ledger}

/-! ### Blocks as one list of transactions -/

/-- Applying one list after another. -/
theorem applyTxs_append (txs txs' : List Tx) (l : Ledger) :
    l.applyTxs (txs ++ txs') = match l.applyTxs txs with
      | (.error e, l') => (.error e, l')
      | (.ok _, l') => l'.applyTxs txs' := by
  induction txs generalizing l with
  | nil => rfl
  | cons tx txs ih =>
      rw [List.cons_append, applyTxs, applyTxs]
      obtain ⟨r, k⟩ := l.applyTx tx
      cases r with
      | error e => rfl
      | ok u => exact ih k

/-- Applying blocks is applying their transactions. -/
theorem applyBlocks_eq_applyTxs (l : Ledger) (bs : List Block) :
    l.applyBlocks bs = l.applyTxs (bs.flatMap Block.txs) := by
  induction bs generalizing l with
  | nil => rfl
  | cons b bs ih =>
      rw [applyBlocks, List.flatMap_cons, applyTxs_append]
      obtain ⟨r, k⟩ := l.applyTxs b.txs
      cases r with
      | error e => rfl
      | ok u => exact ih k

/-! ### Two ledgers -/

/-- Blocks apply exactly when all their `AddBalance` calls are covered. -/
theorem applyBlocks_ok_iff_covered (l : Ledger) (bs : List Block) :
    (l.applyBlocks bs).1 = .ok () ↔
      Covered l.getBalance ((bs.flatMap Block.txs).flatMap Tx.calls) := by
  rw [applyBlocks_eq_applyTxs, (ran_applyTxs l _).eq_ok_iff]

/-- Whether blocks apply depends only on the balances. -/
theorem applyBlocks_ok_congr (bs : List Block) (h : l.getBalance = l'.getBalance) :
    (l.applyBlocks bs).1 = .ok () ↔ (l'.applyBlocks bs).1 = .ok () := by
  rw [applyBlocks_ok_iff_covered, applyBlocks_ok_iff_covered, h]

/-- The balances after blocks that apply. -/
theorem getBalance_applyBlocks {bs : List Block} (hok : (l.applyBlocks bs).1 = .ok ())
    (id : String) :
    (l.applyBlocks bs).2.getBalance id =
      l.getBalance id + booked ((bs.flatMap Block.txs).flatMap Tx.calls) id := by
  have hran := ran_applyTxs l (bs.flatMap Block.txs)
  have hcov := (applyBlocks_ok_iff_covered l bs).mp hok
  rw [applyBlocks_eq_applyTxs, hran.getBalance_eq, carriedOut_of_covered hcov, after_eq]

/-- An account that a transaction of the blocks sets the nonce of. -/
def Sends (bs : List Block) (id : String) : Prop :=
  ∃ b ∈ bs, ∃ tx ∈ b.txs, tx.SetsNonce ∧ tx.fromId = id

/-- `Sends` on the one list of transactions. -/
theorem sends_iff {bs : List Block} {id : String} :
    Sends bs id ↔ ∃ tx ∈ (bs.flatMap Block.txs).filter Tx.SetsNonce, tx.fromId = id := by
  simp only [Sends, List.mem_filter, List.mem_flatMap, decide_eq_true_eq]
  constructor
  · rintro ⟨b, hb, tx, htx, hset, hid⟩
    exact ⟨tx, ⟨⟨b, hb, htx⟩, hset⟩, hid⟩
  · rintro ⟨tx, ⟨⟨b, hb, htx⟩, hset⟩, hid⟩
    exact ⟨b, hb, tx, htx, hset, hid⟩

/-- The nonce of a sender is that of its last transaction, whatever it was before. -/
theorem getNonce_applyBlocks_of_sends {bs : List Block} (hok : (l.applyBlocks bs).1 = .ok ())
    {id : String} (hid : Sends bs id) : (l.applyBlocks bs).2.getNonce id =
      noncesAfter (fun _ => 0) ((bs.flatMap Block.txs).filter Tx.SetsNonce) id := by
  rw [applyBlocks_eq_applyTxs] at hok ⊢
  rw [getNonce_applyTxs_of_ok hok, noncesAfter_apply, if_pos (sends_iff.mp hid)]

/-- The nonces of the other accounts stay. -/
theorem getNonce_applyBlocks_of_not_sends {bs : List Block} (hok : (l.applyBlocks bs).1 = .ok ())
    {id : String} (hid : ¬ Sends bs id) : (l.applyBlocks bs).2.getNonce id = l.getNonce id := by
  rw [applyBlocks_eq_applyTxs] at hok ⊢
  rw [getNonce_applyTxs_of_ok hok, noncesAfter_apply, if_neg (sends_iff.not.mp hid)]

/-- Blocks that apply to two ledgers lead to the same balances and nonces exactly when the balances
were the same, and the nonces of the accounts that send nothing in the blocks. -/
theorem view_applyBlocks_eq_iff {bs : List Block} (hok : (l.applyBlocks bs).1 = .ok ())
    (hok' : (l'.applyBlocks bs).1 = .ok ()) :
    (l.applyBlocks bs).2.view = (l'.applyBlocks bs).2.view ↔
      l.getBalance = l'.getBalance ∧ ∀ id, ¬ Sends bs id → l.getNonce id = l'.getNonce id := by
  constructor
  · intro h
    constructor
    · -- the same amount has been booked on both sides
      funext id
      have hid := getBalance_congr h id
      rw [getBalance_applyBlocks hok, getBalance_applyBlocks hok'] at hid
      exact (Int64.add_left_inj _).mp hid
    · intro id hid
      have hnonce := congrFun (congrArg Sim.nonce h) id
      rw [view_nonce, view_nonce, getNonce_applyBlocks_of_not_sends hok hid,
        getNonce_applyBlocks_of_not_sends hok' hid] at hnonce
      exact hnonce
  · rintro ⟨hbal, hnonce⟩
    ext1
    · funext id
      rw [view_bal, view_bal, getBalance_applyBlocks hok, getBalance_applyBlocks hok', hbal]
    · funext id
      rw [view_nonce, view_nonce]
      by_cases hid : Sends bs id
      · rw [getNonce_applyBlocks_of_sends hok hid, getNonce_applyBlocks_of_sends hok' hid]
      · rw [getNonce_applyBlocks_of_not_sends hok hid, getNonce_applyBlocks_of_not_sends hok' hid,
          hnonce id hid]

/-! ### Stored balances are not negative -/

/-- No balance is negative. -/
def NonNeg (l : Ledger) : Prop := ∀ id, ¬ l.getBalance id < 0

/-- `AddBalance` leaves no negative balance. -/
theorem NonNeg.of_addBalance (h : l.NonNeg) {id : String} {d : Int64}
    (hadd : l.addBalance id d = .ok l') : l'.NonNeg := by
  obtain ⟨hnn, rfl⟩ := addBalance_eq_ok_iff.mp hadd
  intro a
  rw [getBalance_setBalance l hnn, Function.update_apply]
  split
  · exact hnn
  · exact h a

theorem NonNeg.of_ran {cs : List BalanceCall} {r : Res Unit × Ledger} (hran : Ran l cs r)
    (h : l.NonNeg) : r.2.NonNeg := by
  induction hran with
  | done => exact h
  | setNonce id k _ ih => exact ih h
  | refused _ => exact h
  | accepted hadd _ ih => exact ih (h.of_addBalance hadd)

/-- `AddBalance` leaves no negative balance. -/
theorem nonNeg_ofAllocations (allocs : List Allocation) : (ofAllocations allocs).NonNeg := by
  unfold ofAllocations
  apply List.foldlRecOn (motive := NonNeg)
  · intro id
    simp [getBalance, empty]
  · -- one allocation: a balance that would be negative is not written
    intro l h a _
    split
    next l' hadd => exact h.of_addBalance hadd
    next => exact h

theorem NonNeg.applyBlocks (h : l.NonNeg) (bs : List Block) : (l.applyBlocks bs).2.NonNeg := by
  rw [applyBlocks_eq_applyTxs]
  exact h.of_ran (ran_applyTxs l _)

end Ledger

/-! ### Restored snapshots -/

theorem Ledger.foldl_setBalance (es : List (String × Int64)) (l : Ledger) :
    es.foldl (fun l e => l.setBalance e.1 e.2) l =
      { l with bal := es.foldl (fun t e => t.insert e.1 (if e.2 < 0 then 0 else e.2)) l.bal } := by
  induction es generalizing l with
  | nil => rfl
  | cons e es ih => exact ih _

theorem Ledger.foldl_setNonce (es : List (String × UInt64)) (l : Ledger) :
    es.foldl (fun l e => l.setNonce e.1 e.2) l =
      { l with nonce := es.foldl (fun t e => t.insert e.1 e.2) l.nonce } := by
  induction es generalizing l with
  | nil => rfl
  | cons e es ih => exact ih _

section Restore

variable (ss : Snapshot) (id : String)

/-- A restored balance is the one in the file, or zero if that is negative. -/
theorem getBalance_restoreSnapshot : (restoreSnapshot ss).getBalance id =
    if ss.view.bal id < 0 then 0 else ss.view.bal id := by
  have hread := SortedMap.getElem?_foldl_insert_entries (List.Perm.refl ss.balances.toList)
    (g := fun i => i) (fun _ _ h => h) (fun v : Int64 => if v < 0 then 0 else v)
    (∅ : Table Int64) id
  rw [restoreSnapshot, Ledger.foldl_setNonce, Ledger.foldl_setBalance]
  show (ss.balances.toList.foldl _ ∅)[id]?.getD 0 = _
  rw [hread]
  cases h : ss.balances[id]? <;> simp [Snapshot.view, h]

theorem getNonce_restoreSnapshot : (restoreSnapshot ss).getNonce id = ss.view.nonce id := by
  have hread := SortedMap.getElem?_foldl_insert_entries (List.Perm.refl ss.nonces.toList)
    (g := fun i => i) (fun _ _ h => h) (fun v : UInt64 => v) (∅ : Table UInt64) id
  rw [restoreSnapshot, Ledger.foldl_setNonce, Ledger.foldl_setBalance]
  show (ss.nonces.toList.foldl _ ∅)[id]?.getD 0 = _
  rw [hread]
  simp [Snapshot.view]

end Restore

end ReserveOS
