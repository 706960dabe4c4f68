import Mathlib.Algebra.Order.BigOperators.Group.List
import ReserveOS.Node.Events
import ReserveOS.Node.Mempool

/-!
# The books of the mempool

The three mutators of the mempool keep its counters by hand. `Valid` is the invariant they maintain:
`totalTxs` counts the stored entries, `totalBytes` is the sum of their size hints, and each entry is
stored under the sender and the nonce of its transaction.

`Add` compares the counters with the limits of the configuration when it adds an entry, and not when
it replaces one, so a replacement with more outputs may take the pool above `MaxBytes`.
`withinLimits_iff` says that nothing else does.
-/

namespace ReserveOS

namespace Mempool

variable {F : Type} {m : Mempool F} {acct acct' : String} {k k' : UInt64} {mt cur old : MemTx F}
  {now : Int64}

/-- The stored entries. -/
def entries (m : Mempool F) : List (MemTx F) := SortedMap.leaves m.byAcct

/-! ### What the writes do to the entries -/

theorem entries_pruneLocked (m : Mempool F) (now : Int64) :
    (m.pruneLocked now).entries =
      m.entries.filter fun mt => ! decide (mt.addedAt ≤ now - m.cfg.txTTLSeconds) :=
  SortedMap.leaves_filterMap m.byAcct _

theorem expired_eq (m : Mempool F) (cut : Int64) :
    m.expired cut = m.entries.filter fun mt => mt.addedAt ≤ cut := by
  unfold expired entries SortedMap.leaves
  rw [List.filter_flatMap, SortedMap.vals, List.flatMap_map]
  rfl

@[simp] theorem entry_openLane : (m.openLane acct).entry acct' k = m.entry acct' k := by
  rw [entry_eq, entry_eq, openLane, Table.getElem?_put]
  split
  next h => rw [h, Option.getD_some]
  next => rfl

theorem entries_openLane_perm (m : Mempool F) (acct : String) :
    (m.openLane acct).entries.Perm m.entries :=
  (SortedMap.leaves_insert_perm _ _ _).trans (SortedMap.leaves_perm_getD _ _).symm

theorem entry_put :
    (m.put acct k mt).entry acct' k' =
      if acct = acct' ∧ k = k' then some mt else m.entry acct' k' := by
  rw [entry_eq, entry_eq, put, Table.getElem?_put]
  by_cases hacct : acct = acct'
  · subst hacct
    rw [if_pos rfl, Option.getD_some, Std.ExtTreeMap.getElem?_insert]
    simp
  · simp [hacct]

/-- The entries of one account besides the given nonce, and those of the other accounts. -/
def others (m : Mempool F) (acct : String) (k : UInt64) : List (MemTx F) :=
  SortedMap.vals ((m.byAcct[acct]?.getD ∅).erase k) ++ SortedMap.leaves (m.byAcct.erase acct)

theorem entries_perm_of_some (h : m.entry acct k = some old) :
    m.entries.Perm (old :: m.others acct k) := by
  rw [entry_eq] at h
  exact (SortedMap.leaves_perm_getD _ acct).trans ((SortedMap.vals_perm_cons h).append_right _)

theorem entries_perm_of_none (h : m.entry acct k = none) :
    m.entries.Perm (m.others acct k) := by
  rw [entry_eq] at h
  unfold others
  rw [SortedMap.erase_eq_self h]
  exact SortedMap.leaves_perm_getD _ acct

theorem entries_put_perm (m : Mempool F) (acct : String) (k : UInt64) (mt : MemTx F) :
    (m.put acct k mt).entries.Perm (mt :: m.others acct k) :=
  (SortedMap.leaves_insert_perm _ _ _).trans
    ((SortedMap.vals_insert_perm _ _ _).append_right _)

/-- Deleting an entry, up to order. -/
theorem entries_remove_perm (m : Mempool F) (acct : String) (k : UInt64) (cur : MemTx F) :
    (m.remove acct k cur).entries.Perm (m.others acct k) := by
  unfold entries remove others
  dsimp only
  split
  next hempty =>
    rw [Std.ExtTreeMap.isEmpty_iff] at hempty
    rw [hempty]
    exact List.Perm.refl _
  next => exact SortedMap.leaves_insert_perm _ _ _

end Mempool

/-! ### The invariant -/

/-- An entry as `Add` makes it, stored where `Add` stores it. -/
structure MemTx.StoredAt {F : Type} (sha256 : List UInt8 → Hash) (mt : MemTx F) (acct : String)
    (k : UInt64) : Prop where
  from_eq : mt.tx.fromId = acct
  nonce_eq : mt.tx.nonce = k
  id_eq : mt.txID = mt.tx.id sha256
  acct_eq : mt.fromId = acct
  acct_ne : acct ≠ ""
  size_eq : mt.sizeHint = txSizeHint mt.tx.outputs.length

/-- An operation on the mempool, with what it reads besides the mempool. -/
inductive PoolOp (F : Type) [LinearOrder F] where
  | add (l : Ledger) (senderCount : ℤ) (now : Int64) (tx : Tx)
  | drain (ord : AcctOrder) (hp : HeapPop F) (l : Ledger) (now : Int64) (maxCount : ℤ)
  | prune (now : Int64)

namespace Mempool

variable {F : Type}

/-- The mempool after an operation. -/
def step [LinearOrder F] (sha256 : List UInt8 → Hash) (fl : FeeFloats F) (m : Mempool F) :
    PoolOp F → Mempool F
  | .add l senderCount now tx => (m.add sha256 fl l senderCount now tx).2
  | .drain ord hp l now maxCount => (m.drain ord hp l now maxCount).2
  | .prune now => m.pruneLocked now

/-- The representation invariant of the mempool. -/
structure Valid (sha256 : List UInt8 → Hash) (m : Mempool F) : Prop where
  count : m.totalTxs = m.entries.length
  bytes : m.totalBytes = (m.entries.map MemTx.sizeHint).sum
  stored : ∀ acct k mt, m.entry acct k = some mt → mt.StoredAt sha256 acct k

variable {sha256 : List UInt8 → Hash} {fl : FeeFloats F} {m : Mempool F} {acct : String}
  {k : UInt64} {mt cur : MemTx F} {now : Int64}

theorem valid_new (cfg : MempoolConfig) : (new cfg : Mempool F).Valid sha256 where
  count := rfl
  bytes := rfl
  stored acct k mt h := by simp [entry, new] at h

/-- Dropping expired entries keeps the books. -/
theorem Valid.pruneLocked (h : m.Valid sha256) (now : Int64) :
    (m.pruneLocked now).Valid sha256 := by
  -- the entries are split into those that are deleted and those that stay
  have hsplit : (m.expired (now - m.cfg.txTTLSeconds) ++ (m.pruneLocked now).entries).Perm
      m.entries := by
    rw [expired_eq, entries_pruneLocked]
    exact List.filter_append_perm _ _
  have hlen := hsplit.length_eq
  have hsum := (hsplit.map MemTx.sizeHint).sum_eq
  rw [List.length_append] at hlen
  rw [List.map_append, List.sum_append] at hsum
  constructor
  · show m.totalTxs - _ = _
    rw [h.count]
    omega
  · show m.totalBytes - _ = _
    rw [h.bytes]
    omega
  · exact fun acct k mt hmt => h.stored acct k mt (entry_of_pruneLocked hmt)

/-- An empty lane changes no count. -/
theorem Valid.openLane (h : m.Valid sha256) (acct : String) : (m.openLane acct).Valid sha256 where
  count := by
    rw [(entries_openLane_perm m acct).length_eq]
    exact h.count
  bytes := by
    rw [((entries_openLane_perm m acct).map _).sum_eq]
    exact h.bytes
  stored acct' k mt hmt := h.stored acct' k mt (by rwa [entry_openLane] at hmt)

/-- Storing an entry keeps the books, for a new key and for a replaced entry: the listing changes by
one entry, and the counters by its size hint. -/
theorem Valid.putEntry (h : m.Valid sha256) (hmt : mt.StoredAt sha256 mt.fromId mt.nonce) :
    (m.putEntry fl mt).2.Valid sha256 := by
  have hput := entries_put_perm m mt.fromId mt.nonce mt
  have hstored : ∀ acct k x, (m.put mt.fromId mt.nonce mt).entry acct k = some x →
      x.StoredAt sha256 acct k := by
    intro acct k x hx
    rw [entry_put] at hx
    split at hx
    next heq =>
      cases hx
      rwa [← heq.1, ← heq.2]
    next => exact h.stored acct k x hx
  unfold Mempool.putEntry
  split
  next old hold =>
    split
    · exact h
    -- a replacement: the other entries stay, and there is one for the sender and nonce
    have hold := entries_perm_of_some hold
    refine ⟨?_, ?_, hstored⟩
    · show m.totalTxs = _
      rw [h.count, hold.length_eq]
      exact congrArg _ hput.length_eq.symm
    · show m.totalBytes + (mt.sizeHint - old.sizeHint) = _
      rw [h.bytes, (hold.map _).sum_eq]
      refine Eq.trans ?_ (hput.map MemTx.sizeHint).sum_eq.symm
      rw [List.map_cons, List.map_cons, List.sum_cons, List.sum_cons]
      omega
  next hnone =>
    split
    · exact h
    split
    · exact h
    have hnone := entries_perm_of_none hnone
    refine ⟨?_, ?_, hstored⟩
    · show m.totalTxs + 1 = _
      rw [h.count, hnone.length_eq]
      exact congrArg _ hput.length_eq.symm
    · show m.totalBytes + mt.sizeHint = _
      rw [h.bytes, (hnone.map _).sum_eq]
      refine Eq.trans ?_ (hput.map MemTx.sizeHint).sum_eq.symm
      rw [List.map_cons, List.sum_cons]
      omega

/-- `Add` keeps the books, whatever it answers. -/
theorem Valid.add (h : m.Valid sha256) (l : Ledger) (senderCount : ℤ) (now : Int64) (tx : Tx) :
    (m.add sha256 fl l senderCount now tx).2.Valid sha256 := by
  have hpruned := h.pruneLocked now
  unfold Mempool.add
  split
  · exact h
  dsimp only
  split
  · exact hpruned
  next hfrom =>
    split
    · exact hpruned
    · exact (hpruned.openLane _).putEntry ⟨rfl, rfl, rfl, rfl, hfrom, rfl⟩

/-- Deleting a stored entry keeps the books. -/
theorem Valid.remove (h : m.Valid sha256) (hcur : m.entry acct k = some cur) :
    (m.remove acct k cur).Valid sha256 := by
  have hbefore := entries_perm_of_some hcur
  have hafter := entries_remove_perm m acct k cur
  refine ⟨?_, ?_, fun acct' k' mt hmt => h.stored acct' k' mt (entry_of_remove hmt)⟩
  · show m.totalTxs - 1 = _
    rw [h.count, hbefore.length_eq, hafter.length_eq, List.length_cons]
    omega
  · show m.totalBytes - cur.sizeHint = _
    rw [h.bytes, (hbefore.map _).sum_eq, (hafter.map _).sum_eq, List.map_cons, List.sum_cons]
    omega

/-- Handing out a transaction keeps the books. -/
theorem Valid.take (st : Draining F) (h : st.pool.Valid sha256) (mt : MemTx F) :
    (st.take mt).pool.Valid sha256 := by
  unfold Draining.take
  dsimp only
  split
  · exact h
  next cur hcur =>
    split
    · exact h
    · exact h.remove hcur

variable [LinearOrder F]

/-- The loop of `Drain` keeps the books. -/
theorem Valid.loop (st : Draining F) (h : st.pool.Valid sha256) (hp : HeapPop F) (maxCount : ℤ)
    (fuel : ℕ) : (st.loop hp maxCount fuel).pool.Valid sha256 := by
  induction fuel generalizing st with
  | zero => exact h
  | succ fuel ih =>
      rw [Draining.loop]
      split
      · exact h
      cases hp.pop st.heap with
      | none => exact h
      | some p => exact ih _ (Valid.take { st with heap := p.2 } h p.1)

theorem Valid.drain (h : m.Valid sha256) (ord : AcctOrder) (hp : HeapPop F) (l : Ledger)
    (now : Int64) (maxCount : ℤ) : (m.drain ord hp l now maxCount).2.Valid sha256 :=
  Valid.loop ((m.pruneLocked now).draining ord l) (h.pruneLocked now) hp maxCount _

theorem Valid.step (h : m.Valid sha256) (op : PoolOp F) : (m.step sha256 fl op).Valid sha256 := by
  cases op with
  | add l senderCount now tx => exact h.add l senderCount now tx
  | drain ord hp l now maxCount => exact h.drain ord hp l now maxCount
  | prune now => exact h.pruneLocked now

/-- The counters are right and the entries are stored under their own keys in every state of a
mempool, for every ledger that the operations read and every clock. -/
theorem valid_of_ops (sha256 : List UInt8 → Hash) (fl : FeeFloats F) (cfg : MempoolConfig)
    (ops : List (PoolOp F)) :
    ∀ m ∈ Run.states (step sha256 fl) (new cfg) ops,
      m.totalTxs = m.entries.length ∧ m.totalBytes = (m.entries.map MemTx.sizeHint).sum ∧
        ∀ acct k mt, m.entry acct k = some mt →
          mt.tx.fromId = acct ∧ mt.tx.nonce = k ∧ mt.txID = mt.tx.id sha256 := by
  intro m hm
  have hadm : Run.Admitted (step sha256 fl) (fun _ _ => True) (new cfg) ops :=
    Run.admitted_of_forall _ fun _ _ _ => trivial
  have hvalid : m.Valid sha256 :=
    Run.invariant (E := fun _ => True) (fun _ op h _ _ => h.step op) (fun _ _ => trivial)
      (valid_new cfg) hadm m hm
  refine ⟨hvalid.count, hvalid.bytes, fun acct k mt hmt => ?_⟩
  have hstored := hvalid.stored acct k mt hmt
  exact ⟨hstored.from_eq, hstored.nonce_eq, hstored.id_eq⟩

/-! ### The limits -/

/-- The mempool is within the limits of its configuration. -/
structure WithinLimits (m : Mempool F) : Prop where
  txs : (m.entries.length : ℤ) ≤ m.cfg.maxTxs
  bytes : (m.entries.map MemTx.sizeHint).sum ≤ m.cfg.maxBytes

/-- The call of `Add` replaces the entry `old`. -/
structure Replaces (fl : FeeFloats F) (m : Mempool F) (l : Ledger) (senderCount : ℤ) (now : Int64)
    (tx : Tx) (old : MemTx F) : Prop where
  uncapped : ¬ (0 < m.cfg.maxTxsPerSender ∧ m.cfg.maxTxsPerSender ≤ senderCount)
  from_ne : tx.fromId ≠ ""
  nonce : checkNonce m.cfg (l.getNonce tx.fromId) tx.nonce = .ok ()
  entry : (m.pruneLocked now).entry tx.fromId tx.nonce = some old
  bump : ¬ tx.fee < fl.minBump old.fee

/-- If the operation replaces an entry, the bytes of the new one fit in the place of the old one. -/
def ReplacesWithin (fl : FeeFloats F) (m : Mempool F) : PoolOp F → Prop
  | .add l senderCount now tx =>
      ∀ old, m.Replaces fl l senderCount now tx old →
        ((m.pruneLocked now).entries.map MemTx.sizeHint).sum - old.sizeHint +
          txSizeHint tx.outputs.length ≤ m.cfg.maxBytes
  | _ => True

omit [LinearOrder F] in
theorem mem_entries_iff : mt ∈ m.entries ↔ ∃ acct k, m.entry acct k = some mt := by
  simp only [entries, SortedMap.leaves, List.mem_flatMap, SortedMap.mem_vals_iff, entry,
    Option.bind_eq_some_iff]
  grind

omit [LinearOrder F] in
theorem Valid.sizeHint_nonneg (h : m.Valid sha256) (hmt : mt ∈ m.entries) : 0 ≤ mt.sizeHint := by
  obtain ⟨acct, k, hk⟩ := mem_entries_iff.mp hmt
  rw [(h.stored acct k mt hk).size_eq]
  exact Int.natCast_nonneg _

omit [LinearOrder F] in
/-- Deleting entries keeps the mempool within its limits. -/
theorem WithinLimits.of_perm_append (h : m.WithinLimits) (hvalid : m.Valid sha256) {m' : Mempool F}
    (gone : List (MemTx F)) (hcfg : m'.cfg = m.cfg) (hperm : m.entries.Perm (gone ++ m'.entries)) :
    m'.WithinLimits := by
  have hgone : 0 ≤ (gone.map MemTx.sizeHint).sum := by
    apply List.sum_nonneg
    intro sz hsz
    obtain ⟨mt, hmt, rfl⟩ := List.mem_map.mp hsz
    exact hvalid.sizeHint_nonneg (hperm.mem_iff.mpr (List.mem_append_left _ hmt))
  have htxs := h.txs
  have hbytes := h.bytes
  rw [hperm.length_eq, List.length_append] at htxs
  rw [(hperm.map _).sum_eq, List.map_append, List.sum_append] at hbytes
  constructor
  · rw [hcfg]
    omega
  · rw [hcfg]
    omega

omit [LinearOrder F] in
theorem WithinLimits.pruneLocked (h : m.WithinLimits) (hvalid : m.Valid sha256) (now : Int64) :
    (m.pruneLocked now).WithinLimits := by
  refine h.of_perm_append hvalid (m.expired (now - m.cfg.txTTLSeconds)) rfl ?_
  rw [expired_eq, entries_pruneLocked]
  exact (List.filter_append_perm _ _).symm

omit [LinearOrder F] in
/-- An empty lane counts nothing. -/
theorem withinLimits_openLane_iff : (m.openLane acct).WithinLimits ↔ m.WithinLimits := by
  have hperm := entries_openLane_perm m acct
  constructor
  · rintro ⟨htxs, hbytes⟩
    rw [hperm.length_eq] at htxs
    rw [(hperm.map _).sum_eq] at hbytes
    exact ⟨htxs, hbytes⟩
  · rintro ⟨htxs, hbytes⟩
    rw [← hperm.length_eq] at htxs
    rw [← (hperm.map _).sum_eq] at hbytes
    exact ⟨htxs, hbytes⟩

omit [LinearOrder F] in
/-- Whether a written entry is within the limits is read off the new listing. -/
theorem withinLimits_put_iff {rest : List (MemTx F)}
    (hperm : (m.put acct k mt).entries.Perm (mt :: rest)) {txs bytes : ℤ} :
    WithinLimits { m.put acct k mt with totalTxs := txs, totalBytes := bytes } ↔
      (rest.length + 1 : ℤ) ≤ m.cfg.maxTxs ∧
        (rest.map MemTx.sizeHint).sum + mt.sizeHint ≤ m.cfg.maxBytes := by
  have hlen : ((m.put acct k mt).entries.length : ℤ) = rest.length + 1 := by
    rw [hperm.length_eq, List.length_cons, Nat.cast_succ]
  have hsum : ((m.put acct k mt).entries.map MemTx.sizeHint).sum =
      (rest.map MemTx.sizeHint).sum + mt.sizeHint := by
    rw [(hperm.map _).sum_eq, List.map_cons, List.sum_cons, Int.add_comm]
  constructor
  · rintro ⟨htxs, hbytes⟩
    exact ⟨hlen.symm.trans_le htxs, hsum.symm.trans_le hbytes⟩
  · rintro ⟨htxs, hbytes⟩
    exact ⟨hlen.trans_le htxs, hsum.trans_le hbytes⟩

omit [LinearOrder F] in
/-- Of the two ways in which an entry gets into the mempool, only the replacement does not look at
the limits. -/
theorem withinLimits_putEntry_iff (hvalid : m.Valid sha256) (h : m.WithinLimits) :
    (m.putEntry fl mt).2.WithinLimits ↔
      ∀ old, m.entry mt.fromId mt.nonce = some old → ¬ mt.fee < fl.minBump old.fee →
        (m.entries.map MemTx.sizeHint).sum - old.sizeHint + mt.sizeHint ≤ m.cfg.maxBytes := by
  have hput := entries_put_perm m mt.fromId mt.nonce mt
  have htxs := h.txs
  unfold putEntry
  cases hentry : m.entry mt.fromId mt.nonce with
  | some old =>
      have hperm := entries_perm_of_some hentry
      have hsum := (hperm.map MemTx.sizeHint).sum_eq
      rw [List.map_cons, List.sum_cons] at hsum
      rw [hperm.length_eq, List.length_cons, Nat.cast_succ] at htxs
      simp only [Option.some.injEq, forall_eq']
      split
      next hlow => simpa [hlow] using h
      next hbump =>
        -- the number of entries stays, so only the bytes are in question
        rw [forall_prop_of_true hbump, withinLimits_put_iff hput, and_iff_right htxs, hsum]
        exact iff_of_eq (congrArg (· ≤ _) (by omega))
  | none =>
      have hperm := entries_perm_of_none hentry
      have hcount := hvalid.count
      have hbytes := hvalid.bytes
      rw [hperm.length_eq] at hcount
      rw [(hperm.map _).sum_eq] at hbytes
      refine iff_of_true ?_ (by simp)
      dsimp only
      -- the two tests of `Add` compare the counters, and the counters are right
      split
      · exact h
      split
      · exact h
      rw [withinLimits_put_iff hput]
      omega

omit [LinearOrder F] in
/-- `Add` leaves the limits only by replacing an entry with a larger one. -/
theorem withinLimits_add_iff (hvalid : m.Valid sha256) (h : m.WithinLimits) (l : Ledger)
    (senderCount : ℤ) (now : Int64) (tx : Tx) :
    (m.add sha256 fl l senderCount now tx).2.WithinLimits ↔
      ∀ old, m.Replaces fl l senderCount now tx old →
        ((m.pruneLocked now).entries.map MemTx.sizeHint).sum - old.sizeHint +
          txSizeHint tx.outputs.length ≤ m.cfg.maxBytes := by
  have hpruned := h.pruneLocked hvalid now
  unfold add
  split
  next hcap => exact iff_of_true h fun old hrep => absurd hcap hrep.uncapped
  next hcap =>
    dsimp only
    split
    next hfrom => exact iff_of_true hpruned fun old hrep => absurd hfrom hrep.from_ne
    next hfrom =>
      split
      next e herr =>
        refine iff_of_true hpruned fun old hrep => ?_
        cases herr.symm.trans hrep.nonce
      next hnonce =>
        -- opening a lane for the sender leaves the entries as they are
        rw [withinLimits_putEntry_iff ((hvalid.pruneLocked now).openLane _)
          (withinLimits_openLane_iff.mpr hpruned), ((entries_openLane_perm _ _).map _).sum_eq]
        simp only [entry_openLane]
        constructor
        · exact fun hall old hrep => hall old hrep.entry hrep.bump
        · exact fun hall old hold hbump => hall old ⟨hcap, hfrom, hnonce, hold, hbump⟩

omit [LinearOrder F] in
/-- Handing out a transaction keeps the limits. -/
theorem WithinLimits.take (st : Draining F) (h : st.pool.WithinLimits)
    (hvalid : st.pool.Valid sha256) (mt : MemTx F) : (st.take mt).pool.WithinLimits := by
  unfold Draining.take
  dsimp only
  split
  · exact h
  next cur hcur =>
    split
    · exact h
    · refine h.of_perm_append hvalid [cur] rfl ?_
      exact (entries_perm_of_some hcur).trans ((entries_remove_perm _ _ _ _).symm.cons cur)

/-- The loop of `Drain` keeps the limits. -/
theorem WithinLimits.loop (st : Draining F) (h : st.pool.WithinLimits)
    (hvalid : st.pool.Valid sha256) (hp : HeapPop F) (maxCount : ℤ) (fuel : ℕ) :
    (st.loop hp maxCount fuel).pool.WithinLimits := by
  induction fuel generalizing st with
  | zero => exact h
  | succ fuel ih =>
      rw [Draining.loop]
      split
      · exact h
      cases hp.pop st.heap with
      | none => exact h
      | some p =>
          exact ih _ (WithinLimits.take { st with heap := p.2 } h hvalid p.1)
            (Valid.take { st with heap := p.2 } hvalid p.1)

/-- One operation keeps the limits unless a replacement exceeds them. -/
theorem withinLimits_step_iff (hvalid : m.Valid sha256) (h : m.WithinLimits) (op : PoolOp F) :
    (m.step sha256 fl op).WithinLimits ↔ m.ReplacesWithin fl op := by
  cases op with
  | add l senderCount now tx => exact withinLimits_add_iff hvalid h l senderCount now tx
  | drain ord hp l now maxCount =>
      refine iff_of_true ?_ trivial
      exact WithinLimits.loop ((m.pruneLocked now).draining ord l) (h.pruneLocked hvalid now)
        (hvalid.pruneLocked now) hp maxCount _
  | prune now => exact iff_of_true (h.pruneLocked hvalid now) trivial

/-- A mempool is within its limits throughout a sequence of operations exactly when every
replacement fits. -/
theorem withinLimits_iff (sha256 : List UInt8 → Hash) (fl : FeeFloats F) (cfg : MempoolConfig)
    (htxs : 0 < cfg.maxTxs) (hbytes : 0 < cfg.maxBytes) (ops : List (PoolOp F)) :
    (∀ m ∈ Run.states (step sha256 fl) (new cfg) ops, m.WithinLimits) ↔
      Run.Admitted (step sha256 fl) (ReplacesWithin fl) (new cfg) ops := by
  refine Run.forall_states_iff (I := Valid sha256) (E := fun _ => True)
    (fun m op hm _ => hm.step op) (fun m op hm _ hlim => withinLimits_step_iff hm hlim op)
    (fun _ _ => trivial) (valid_new cfg) ⟨?_, ?_⟩
  · exact htxs.le
  · exact hbytes.le

end Mempool

namespace Sample

/-- Fee rates for each thousand units of size, and a replacement that pays a tenth more. -/
def floats : FeeFloats ℕ where
  feeRate fee sz := (fee.toInt * 1000 / max 1 sz).toNat
  minBump fee := fee + fee / 10

/-- A mempool configuration with room for one transaction of one output. -/
def narrow : MempoolConfig := ⟨0, 5000, 300, 1800, false, 50⟩

/-- Alice's first payment, with so many outputs. -/
def payments (count : ℕ) (fee : Int64) : Tx :=
  { transfer alice 1 (List.replicate count (pay bob 1)) with fee := fee }

/-- Alice's first payment, and one with so many outputs that replaces it. -/
def bumping (count : ℕ) : List (PoolOp ℕ) :=
  [.add Ledger.empty 0 0 (payments 1 620), .add Ledger.empty 0 0 (payments count 780)]

/-- The mempool between the two calls. -/
def bumped : Mempool ℕ :=
  (Mempool.new narrow).step sha256 floats (.add Ledger.empty 0 0 (payments 1 620))

end Sample

namespace Mempool

open Sample

/-- After a replacement the mempool holds one entry, with its counters and keys right. -/
theorem valid_bumping :
    ∃ m ∈ Run.states (step sha256 floats) (new narrow) (bumping 1), m.totalTxs = 1 ∧
      m.totalTxs = m.entries.length ∧ m.totalBytes = (m.entries.map MemTx.sizeHint).sum ∧
        ∀ acct k mt, m.entry acct k = some mt →
          mt.tx.fromId = acct ∧ mt.tx.nonce = k ∧ mt.txID = mt.tx.id sha256 := by
  have hmem := Run.foldl_mem_states (step sha256 floats) (new narrow) (bumping 1)
  refine ⟨_, hmem, ?_, valid_of_ops sha256 floats narrow (bumping 1) _ hmem⟩
  decide +kernel

/-- A replacement of the same size fits. -/
theorem withinLimits_bumping :
    (0 < narrow.maxTxs ∧ 0 < narrow.maxBytes) ∧
      ∀ m ∈ Run.states (step sha256 floats) (new narrow) (bumping 1), m.WithinLimits := by
  refine ⟨by decide, (withinLimits_iff sha256 floats narrow (by decide) (by decide) _).mpr ?_⟩
  refine ⟨fun old hrep => ?_, fun old hrep => ?_, trivial⟩
  · -- there is nothing to replace yet
    have hnone : ((new narrow : Mempool ℕ).pruneLocked 0).entry alice 1 = none := rfl
    cases hnone.symm.trans hrep.entry
  · have hsize : ((bumped.pruneLocked 0).entry alice 1).map MemTx.sizeHint = some 260 := by
      decide +kernel
    have hold : (bumped.pruneLocked 0).entry alice 1 = some old := hrep.entry
    rw [hold] at hsize
    have hsum : ((bumped.pruneLocked 0).entries.map MemTx.sizeHint).sum = 260 := by decide +kernel
    show ((bumped.pruneLocked 0).entries.map MemTx.sizeHint).sum - old.sizeHint + 260 ≤ 300
    rw [hsum, Option.some.inj hsize]
    decide

/-- A replacement with one output more takes the mempool above its limit. -/
theorem not_withinLimits_bumping :
    (0 < narrow.maxTxs ∧ 0 < narrow.maxBytes) ∧
      ∃ m ∈ Run.states (step sha256 floats) (new narrow) (bumping 2),
        m.cfg.maxBytes < (m.entries.map MemTx.sizeHint).sum := by
  refine ⟨by decide, _, Run.foldl_mem_states _ _ _, ?_⟩
  decide +kernel

end Mempool

end ReserveOS
