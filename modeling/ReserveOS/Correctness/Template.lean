import ReserveOS.Correctness.Pool
import ReserveOS.Correctness.SignedBytes
import ReserveOS.Node.Mining

/-!
# Block templates

The mempool lists its accounts in the random order of a Go map, and `sort.Slice` may leave ties in
any order. Where ids are pairwise different there are no ties, so the sorted list is determined by
the set (`TxSort.sort_eq_of_perm`), and so is all that `FilterTxsBySimState` does with it. The next
transactions of different senders have different ids, unless SHA-256 collides on them
(`Mempool.distinctEligible_of_valid`).
-/

namespace ReserveOS

variable {sha256 : List UInt8 → Hash}

/-- Transactions with the same place in the order have the same id. -/
theorem Tx.id_eq_of_less {a b : Tx} (hab : b.less sha256 a = false)
    (hba : a.less sha256 b = false) : a.id sha256 = b.id sha256 := by
  rw [Tx.less_eq_false_iff] at hab hba
  have heq := toLex_inj.mp (le_antisymm hab hba)
  exact congrArg Prod.snd heq

/-- All sorts return the same list for all orders of transactions with different ids. -/
theorem TxSort.sort_eq_of_perm (srt srt' : TxSort sha256) {txs txs' : List Tx}
    (hperm : txs.Perm txs') (hnodup : (txs.map (Tx.id sha256)).Nodup) :
    srt.sort txs = srt'.sort txs' := by
  have hsorted : (srt.sort txs).Perm (srt'.sort txs') :=
    (srt.perm txs).trans (hperm.trans (srt'.perm txs').symm)
  refine hsorted.eq_of_pairwise ?_ (srt.sorted txs) (srt'.sorted txs')
  intro a b ha hb hab hba
  have ha : a ∈ txs := (srt.perm txs).mem_iff.mp ha
  have hb : b ∈ txs := hperm.mem_iff.mpr ((srt'.perm txs').mem_iff.mp hb)
  exact List.inj_on_of_nodup_map hnodup ha hb (Tx.id_eq_of_less hab hba)

namespace Mempool

variable {F : Type} {m : Mempool F}

theorem eligibleSnapshot_perm (ord ord' : AcctOrder) (l : Ledger) :
    (m.eligibleSnapshot ord l).Perm (m.eligibleSnapshot ord' l) :=
  List.Perm.filterMap _ ((ord.perm _).trans (ord'.perm _).symm)

/-- The next transactions of different senders have different ids. -/
def DistinctEligible (sha256 : List UInt8 → Hash) (m : Mempool F) (l : Ledger) : Prop :=
  ∀ acct acct' mt mt', m.entry acct (l.getNonce acct + 1) = some mt →
    m.entry acct' (l.getNonce acct' + 1) = some mt' → mt.tx.id sha256 = mt'.tx.id sha256 →
      acct = acct'

/-- In a valid mempool they do, if SHA-256 does not collide on what is hashed for them. -/
theorem distinctEligible_of_valid (h : m.Valid sha256) {l : Ledger}
    (hshort : ∀ acct mt, m.entry acct (l.getNonce acct + 1) = some mt → mt.tx.Short)
    (hfree : ∀ acct acct' mt mt', m.entry acct (l.getNonce acct + 1) = some mt →
      m.entry acct' (l.getNonce acct' + 1) = some mt' →
        CollisionFreeOn sha256 (mt.tx.idInputs sha256 ++ mt'.tx.idInputs sha256)) :
    m.DistinctEligible sha256 l := by
  intro acct acct' mt mt' hmt hmt' hid
  have hbytes := (Tx.id_eq_iff (hfree acct acct' mt mt' hmt hmt')).mp hid
  rw [Tx.signingBytes, Tx.signingBytes, Tx.canonicalTxBytes_false, Tx.canonicalTxBytes_false]
    at hbytes
  -- the bytes determine the sender
  obtain ⟨heq, -⟩ := Tx.parse_canonicalTxBytes (r := []) (s := [])
    (hshort acct mt hmt).withoutSigs (hshort acct' mt' hmt').withoutSigs (by rw [hbytes])
  have hfrom : mt.tx.withoutSigs.withoutMemo.fromId = mt'.tx.withoutSigs.withoutMemo.fromId :=
    congrArg Tx.fromId heq
  rw [← (h.stored _ _ _ hmt).from_eq, ← (h.stored _ _ _ hmt').from_eq]
  exact hfrom

/-- The next transactions are listed with different ids. -/
theorem DistinctEligible.nodup {l : Ledger} (h : m.DistinctEligible sha256 l) (ord : AcctOrder) :
    ((m.eligibleSnapshot ord l).map (Tx.id sha256)).Nodup := by
  rw [eligibleSnapshot, List.map_filterMap]
  -- every account lists at most one id, and no other account lists the same
  refine (nodup_order m ord).filterMap fun acct acct' x hx hx' => ?_
  simp only [Option.mem_def, Option.map_map, Option.map_eq_some_iff] at hx hx'
  obtain ⟨mt, hmt, rfl⟩ := hx
  obtain ⟨mt', hmt', hid⟩ := hx'
  exact h acct acct' mt mt' hmt hmt' hid.symm

end Mempool

namespace Node

variable (n : Node)

/-- `FilterTxsBySimState` returns the same list for all orders of transactions with different ids,
whatever the sort does with ties, and `/mine/template` gives the same answer for all orders in which
the accounts are listed. -/
theorem template_deterministic (l : Ledger) (srt srt' : TxSort n.prim.sha256) :
    (∀ txs txs' : List Tx, txs.Perm txs' → (txs.map (Tx.id n.prim.sha256)).Nodup →
      n.filterTxsBySimState srt l txs = n.filterTxsBySimState srt' l txs') ∧
    ∀ (F : Type) (pool : Mempool F), pool.DistinctEligible n.prim.sha256 l →
      ∀ ord ord' : AcctOrder, n.mineTemplate ord srt l pool = n.mineTemplate ord' srt' l pool := by
  have hfilter : ∀ txs txs' : List Tx, txs.Perm txs' → (txs.map (Tx.id n.prim.sha256)).Nodup →
      n.filterTxsBySimState srt l txs = n.filterTxsBySimState srt' l txs' := by
    intro txs txs' hperm hnodup
    rw [filterTxsBySimState, filterTxsBySimState, srt.sort_eq_of_perm srt' hperm hnodup]
  refine ⟨hfilter, fun F pool hpool ord ord' => ?_⟩
  rw [mineTemplate, mineTemplate, hfilter _ _ (Mempool.eligibleSnapshot_perm ord ord' l)
    (hpool.nodup ord)]

end Node

namespace Sample

/-- An order of the accounts: the one in which they are listed, or its reverse. -/
def acctOrder (back : Bool) : AcctOrder where
  order l := if back then l.reverse else l
  perm l := by
    cases back
    · exact List.Perm.refl _
    · exact l.reverse_perm

/-- A mempool with the first payments of alice and bob. -/
def firstPayments : Mempool ℕ :=
  ((Mempool.new narrow).put alice 1 (Mempool.newEntry wideHash floats 0
    (transfer alice 1 [pay bob 5]))).put bob 1 (Mempool.newEntry wideHash floats 0
      (transfer bob 1 [pay alice 5]))

/-- The ledger in which both have 100. -/
def funded : Ledger := (Ledger.empty.setBalance alice 100).setBalance bob 100

/-- The next transactions of alice and bob have different IDs. -/
theorem distinctEligible_firstPayments : firstPayments.DistinctEligible wideHash funded := by
  have hnonce : ∀ acct, funded.getNonce acct + 1 = 1 := fun _ => rfl
  have hids : (transfer alice 1 [pay bob 5]).id wideHash ≠
      (transfer bob 1 [pay alice 5]).id wideHash := by decide +kernel
  have hentry : ∀ acct mt, firstPayments.entry acct 1 = some mt →
      bob = acct ∧ mt.tx = transfer bob 1 [pay alice 5] ∨
        alice = acct ∧ mt.tx = transfer alice 1 [pay bob 5] := by
    intro acct mt hmt
    rw [firstPayments, Mempool.entry_put, Mempool.entry_put] at hmt
    split at hmt
    next h => exact .inl ⟨h.1, by cases hmt; rfl⟩
    next =>
      split at hmt
      next h => exact .inr ⟨h.1, by cases hmt; rfl⟩
      next => simp [Mempool.entry, Mempool.new] at hmt
  intro acct acct' mt mt' hmt hmt' hid
  rw [hnonce] at hmt hmt'
  rcases hentry acct mt hmt with ⟨ha, htx⟩ | ⟨ha, htx⟩ <;>
    rcases hentry acct' mt' hmt' with ⟨ha', htx'⟩ | ⟨ha', htx'⟩
  · exact ha.symm.trans ha'
  · rw [htx, htx'] at hid
    exact absurd hid.symm hids
  · rw [htx, htx'] at hid
    exact absurd hid hids
  · exact ha.symm.trans ha'

end Sample

open Sample

/-- The two orders of two accounts: both payments are in the template. -/
theorem template_deterministic_twoAccounts :
    firstPayments.DistinctEligible wideHash funded ∧
    (wideNode.mineTemplate (acctOrder false) (.insertion _) funded
      firstPayments).2.length = 2 ∧
    wideNode.mineTemplate (acctOrder false) (.insertion _) funded
        firstPayments =
      wideNode.mineTemplate (acctOrder true) (.insertion _) funded
        firstPayments :=
  ⟨distinctEligible_firstPayments, by decide +kernel,
    (wideNode.template_deterministic funded (.insertion _) (.insertion _)).2 ℕ
      firstPayments distinctEligible_firstPayments _ _⟩

end ReserveOS
