import Mathlib.Data.List.Sort
import Mathlib.Data.Prod.Lex
import ReserveOS.General.SortedMap
import ReserveOS.Node.Validate

/-!
# The mempool

`Mempool` of `mempool.go` with its three mutators: `Add`, `pruneLocked` and `Drain`.

Two things that Go leaves open are arguments: the order in which the map of accounts is iterated,
and which of several least elements `heap.Pop` returns. What the source computes in `float64` is an
argument as well, with fee rates in an arbitrary linear order. The check that `Add` and `Drain`
start with counts entries of undeclared names and does not compile. In `Add` the count is an
arbitrary number, so the check may reject; in `Drain` and `EligibleSnapshot` it is read as absent.
-/

namespace ReserveOS

/-- `memTx`. -/
structure MemTx (F : Type) where
  tx : Tx
  txID : String
  fromId : String
  nonce : UInt64
  fee : Int64
  sizeHint : ℤ
  feeRate : F
  addedAt : Int64

/-- `MempoolConfig`. The factor `RBFMinFeeBump` is in `FeeFloats`. -/
structure MempoolConfig where
  maxTxsPerSender : ℤ
  maxTxs : ℤ
  maxBytes : ℤ
  txTTLSeconds : Int64
  allowFutureNonces : Bool
  maxNonceGap : UInt64

/-- What `Add` computes in `float64`. -/
structure FeeFloats (F : Type) where
  /-- `float64(fee) / float64(max(1, sz))` -/
  feeRate : Int64 → ℤ → F
  /-- `int64(float64(fee) * RBFMinFeeBump)` -/
  minBump : Int64 → Int64

/-- The entries of one account, by nonce. -/
abbrev Lane (F : Type) : Type := Std.ExtTreeMap UInt64 (MemTx F)

/-- `Mempool`. -/
structure Mempool (F : Type) where
  cfg : MempoolConfig
  byAcct : Table (Lane F)
  totalTxs : ℤ
  totalBytes : ℤ

namespace Mempool

variable {F : Type}

/-- `NewMempool`. -/
def new (cfg : MempoolConfig) : Mempool F := ⟨cfg, ∅, 0, 0⟩

/-- `m.byAcct[acct][nonce]`. -/
def entry (m : Mempool F) (acct : String) (nonce : UInt64) : Option (MemTx F) :=
  m.byAcct[acct]?.bind fun lane => lane[nonce]?

/-- The entries that `pruneLocked` deletes. -/
def expired (m : Mempool F) (cut : Int64) : List (MemTx F) :=
  m.byAcct.toList.flatMap fun p => (p.2.toList.map Prod.snd).filter fun mt => mt.addedAt ≤ cut

/-- `pruneLocked`. -/
def pruneLocked (m : Mempool F) (now : Int64) : Mempool F :=
  let cut := now - m.cfg.txTTLSeconds
  { m with
    byAcct := m.byAcct.filterMap fun _ lane =>
      let live := lane.filter fun _ mt => ! decide (mt.addedAt ≤ cut)
      if live.isEmpty then none else some live
    totalTxs := m.totalTxs - (m.expired cut).length
    totalBytes := m.totalBytes - ((m.expired cut).map MemTx.sizeHint).sum }

/-- `m.byAcct[acct]`, created if it is nil. -/
def openLane (m : Mempool F) (acct : String) : Mempool F :=
  { m with byAcct := m.byAcct.insert acct (m.byAcct[acct]?.getD ∅) }

/-- `m.byAcct[acct][nonce] = mt`. -/
def put (m : Mempool F) (acct : String) (nonce : UInt64) (mt : MemTx F) : Mempool F :=
  { m with byAcct := m.byAcct.insert acct ((m.byAcct[acct]?.getD ∅).insert nonce mt) }

/-- The nonce policy of `Add`, for the nonce that the ledger has for the sender. -/
def checkNonce (cfg : MempoolConfig) (curNonce nonce : UInt64) : Except String Unit :=
  let expected := curNonce + 1
  if cfg.allowFutureNonces then
    if nonce < expected then .error "nonce_too_low"
    else if cfg.maxNonceGap < nonce - expected then .error "nonce_gap_too_large"
    else .ok ()
  else if nonce ≠ expected then .error "nonce_not_next"
  else .ok ()

/-- The entry that `Add` makes of a transaction. -/
def newEntry (sha256 : List UInt8 → Hash) (fl : FeeFloats F) (now : Int64) (tx : Tx) : MemTx F :=
  let sz : ℤ := txSizeHint tx.outputs.length
  ⟨tx, tx.id sha256, tx.fromId, tx.nonce, tx.fee, sz, fl.feeRate tx.fee sz, now⟩

/-- The end of `Add`: replacing the entry `old` with the same sender and nonce, or adding one. The
errors of `Add` are `ErrMempool` strings. -/
def putEntry (m : Mempool F) (fl : FeeFloats F) (mt : MemTx F) : Except String Bool × Mempool F :=
  match m.entry mt.fromId mt.nonce with
  | some old =>
      if mt.fee < fl.minBump old.fee then (.error "rbf_fee_bump_too_small", m)
      else
        (.ok true, { m.put mt.fromId mt.nonce mt with
          totalBytes := m.totalBytes + (mt.sizeHint - old.sizeHint) })
  | none =>
      if m.cfg.maxTxs < m.totalTxs + 1 then (.error "mempool_full", m)
      else if m.cfg.maxBytes < m.totalBytes + mt.sizeHint then
        (.error "mempool_bytes_full", m)
      else
        (.ok false, { m.put mt.fromId mt.nonce mt with
          totalTxs := m.totalTxs + 1
          totalBytes := m.totalBytes + mt.sizeHint })

/-- `Add`. `senderCount` is what its first check counts. -/
def add (sha256 : List UInt8 → Hash) (fl : FeeFloats F) (m : Mempool F) (l : Ledger)
    (senderCount : ℤ) (now : Int64) (tx : Tx) : Except String Bool × Mempool F :=
  if 0 < m.cfg.maxTxsPerSender ∧ m.cfg.maxTxsPerSender ≤ senderCount then
    (.error "sender_cap", m)
  else
    let m := m.pruneLocked now
    if tx.fromId = "" then (.error "missing_from", m)
    else
      match checkNonce m.cfg (l.getNonce tx.fromId) tx.nonce with
      | .error e => (.error e, m)
      | .ok _ => (m.openLane tx.fromId).putEntry fl (newEntry sha256 fl now tx)

/-- The writes of `Drain` for one transaction that it hands out. -/
def remove (m : Mempool F) (acct : String) (nonce : UInt64) (cur : MemTx F) : Mempool F :=
  let lane := (m.byAcct[acct]?.getD ∅).erase nonce
  { m with
    byAcct := if lane.isEmpty then m.byAcct.erase acct else m.byAcct.insert acct lane
    totalTxs := m.totalTxs - 1
    totalBytes := m.totalBytes - cur.sizeHint }

end Mempool

/-! ### The heap -/

namespace MemTx

variable {F : Type} [LinearOrder F]

/-- `txHeap.Less`. -/
def less (a b : MemTx F) : Bool :=
  if a.feeRate = b.feeRate then b.fee < a.fee else b.feeRate < a.feeRate

/-- What `txHeap.Less` compares: fee rates, then fees, highest first. -/
def key (a : MemTx F) : Fᵒᵈ ×ₗ ℤᵒᵈ := toLex (.toDual a.feeRate, .toDual a.fee.toInt)

theorem less_eq_false_iff {a b : MemTx F} : b.less a = false ↔ a.key ≤ b.key := by
  rw [← not_lt, Prod.Lex.lt_iff, less]
  by_cases hrate : b.feeRate = a.feeRate
  · simp [key, hrate, Int64.lt_iff_toInt_lt]
  · simp [key, hrate]

instance : Std.Total fun a b : MemTx F => b.less a = false where
  total a b := by
    rw [less_eq_false_iff, less_eq_false_iff]
    exact le_total a.key b.key

instance : IsTrans (MemTx F) fun a b => b.less a = false where
  trans a b c := by
    rw [less_eq_false_iff, less_eq_false_iff, less_eq_false_iff]
    exact le_trans

end MemTx

/-- `heap.Pop`: it removes a least element. -/
structure HeapPop (F : Type) [LinearOrder F] where
  pop : List (MemTx F) → Option (MemTx F × List (MemTx F))
  eq_none_iff : ∀ h, pop h = none ↔ h = []
  perm : ∀ h x rest, pop h = some (x, rest) → (x :: rest).Perm h
  least : ∀ h x rest, pop h = some (x, rest) → ∀ y ∈ rest, y.less x = false

/-- One such heap: a sorted list. -/
def HeapPop.sortedList (F : Type) [LinearOrder F] : HeapPop F where
  pop h :=
    match h.insertionSort fun a b => b.less a = false with
    | [] => none
    | x :: rest => some (x, rest)
  eq_none_iff h := by
    have hperm := h.perm_insertionSort fun a b => b.less a = false
    split
    next hnil =>
      rw [hnil] at hperm
      simp [hperm.nil_eq]
    next x rest hcons =>
      rw [hcons] at hperm
      simpa using fun hnil => by simp [hnil] at hperm
  perm h x rest hpop := by
    have hperm := h.perm_insertionSort fun a b => b.less a = false
    split at hpop
    next => cases hpop
    next hcons =>
      cases hpop
      rwa [hcons] at hperm
  least h x rest hpop := by
    have hsorted := h.pairwise_insertionSort fun a b => b.less a = false
    split at hpop
    next => cases hpop
    next hcons =>
      cases hpop
      rw [hcons] at hsorted
      exact (List.pairwise_cons.mp hsorted).1

/-- An order in which Go may iterate the accounts. -/
structure AcctOrder where
  order : List String → List String
  perm : ∀ l, (order l).Perm l

/-! ### `Drain` -/

/-- The variables of the loop of `Drain`. -/
structure Draining (F : Type) where
  heap : List (MemTx F)
  expected : Table UInt64
  pool : Mempool F
  out : List Tx

namespace Draining

variable {F : Type}

/-- The loop body of `Drain` for the element that `heap.Pop` returned. An element that is no longer
the next one of its sender is skipped. -/
def take (st : Draining F) (mt : MemTx F) : Draining F :=
  let exp := st.expected[mt.fromId]?.getD 0
  match st.pool.entry mt.fromId exp with
  | none => st
  | some cur =>
      if cur.txID ≠ mt.txID then st
      else
        let pool := st.pool.remove mt.fromId exp cur
        { heap := st.heap ++ (pool.entry mt.fromId (exp + 1)).toList
          expected := st.expected.insert mt.fromId (exp + 1)
          pool := pool
          out := st.out ++ [cur.tx] }

/-- `maxCount > 0` and as many transactions have been handed out. -/
def full (st : Draining F) (maxCount : ℤ) : Bool := 0 < maxCount && maxCount ≤ st.out.length

/-- The loop of `Drain`, for a bounded number of rounds. -/
def loop [LinearOrder F] (hp : HeapPop F) (maxCount : ℤ) : ℕ → Draining F → Draining F
  | 0, st => st
  | fuel + 1, st =>
      if st.full maxCount then st
      else
        match hp.pop st.heap with
        | none => st
        | some (mt, rest) => loop hp maxCount fuel (take { st with heap := rest } mt)

/-- A bound on the rounds that are left: every round pops an element, and pushes one only if it
removes an entry. -/
def size (st : Draining F) : ℕ :=
  st.heap.length + SortedMap.total Std.ExtTreeMap.size st.pool.byAcct

end Draining

namespace Mempool

variable {F : Type}

/-- The loop variables before the first round: the next transaction of every sender. -/
def draining (m : Mempool F) (ord : AcctOrder) (l : Ledger) : Draining F :=
  let accts := ord.order (m.byAcct.toList.map Prod.fst)
  { heap := accts.filterMap fun acct => m.entry acct (l.getNonce acct + 1)
    expected := accts.foldl (fun t acct => t.insert acct (l.getNonce acct + 1)) ∅
    pool := m
    out := [] }

/-- `Drain`: the transactions that are handed out, and the pool without them. -/
def drain [LinearOrder F] (m : Mempool F) (ord : AcctOrder) (hp : HeapPop F) (l : Ledger)
    (now : Int64) (maxCount : ℤ) : List Tx × Mempool F :=
  let st := (m.pruneLocked now).draining ord l
  let done := st.loop hp maxCount st.size
  (done.out, done.pool)

/-- `make([]chain.Tx, 0, maxCount)` panics: the capacity is negative, or its transactions of 152
bytes each exceed the address space of 48 bits. -/
def makesliceFails (maxCount : ℤ) : Bool := maxCount < 0 || 2 ^ 48 < 152 * maxCount

/-- `Drain` with the allocation of the slice that it returns. -/
def drainCall [LinearOrder F] (m : Mempool F) (ord : AcctOrder) (hp : HeapPop F) (l : Ledger)
    (now : Int64) (maxCount : ℤ) : Res (List Tx) × Mempool F :=
  if makesliceFails maxCount then
    (.error (.panic "makeslice: cap out of range"), m.pruneLocked now)
  else (.ok (m.drain ord hp l now maxCount).1, (m.drain ord hp l now maxCount).2)

/-- `EligibleSnapshot`: the next transaction of every sender. -/
def eligibleSnapshot (m : Mempool F) (ord : AcctOrder) (l : Ledger) : List Tx :=
  (ord.order (m.byAcct.toList.map Prod.fst)).filterMap fun acct =>
    (m.entry acct (l.getNonce acct + 1)).map MemTx.tx

end Mempool

/-! ### Entries -/

namespace Mempool

variable {F : Type} {m : Mempool F} {acct acct' : String} {k k' : UInt64} {mt cur : MemTx F}

/-- Accounts with an entry are visited when Go iterates the accounts. -/
theorem mem_order (ord : AcctOrder) (h : m.entry acct k = some mt) :
    acct ∈ ord.order (m.byAcct.toList.map Prod.fst) := by
  obtain ⟨lane, hlane, -⟩ := Option.bind_eq_some_iff.mp h
  rw [(ord.perm _).mem_iff]
  exact List.mem_map.mpr ⟨(acct, lane), (Table.mem_toList_iff _ _ _).mpr hlane, rfl⟩

/-- No account is visited twice. -/
theorem nodup_order (m : Mempool F) (ord : AcctOrder) :
    (ord.order (m.byAcct.toList.map Prod.fst)).Nodup :=
  (ord.perm _).nodup_iff.mpr (Table.nodup_keys_toList m.byAcct)

/-- Pruning only removes entries. -/
theorem entry_of_pruneLocked {now : Int64} (h : (m.pruneLocked now).entry acct k = some mt) :
    m.entry acct k = some mt := by
  obtain ⟨lane, hlane, hmt⟩ := Option.bind_eq_some_iff.mp h
  rw [pruneLocked, Std.ExtTreeMap.getElem?_filterMap] at hlane
  obtain ⟨lane', hlane', hif⟩ := Option.pbind_eq_some_iff.mp hlane
  dsimp only at hif
  split at hif
  · cases hif
  cases hif
  rw [Std.ExtTreeMap.getElem?_filter] at hmt
  obtain ⟨hmem, -⟩ := Option.pfilter_eq_some_iff.mp hmt
  exact Option.bind_eq_some_iff.mpr ⟨lane', hlane', hmem⟩

theorem entry_eq (m : Mempool F) (acct : String) (k : UInt64) :
    m.entry acct k = (m.byAcct[acct]?.getD ∅)[k]? := by
  unfold entry
  cases m.byAcct[acct]? with
  | none => simp
  | some lane => rfl

/-- Removing an entry leaves the others. -/
theorem entry_remove :
    (m.remove acct k cur).entry acct' k' =
      if acct = acct' ∧ k = k' then none else m.entry acct' k' := by
  have hlane : (m.remove acct k cur).byAcct[acct']?.getD ∅ =
      if acct = acct' then (m.byAcct[acct']?.getD ∅).erase k else m.byAcct[acct']?.getD ∅ := by
    unfold remove
    dsimp only
    by_cases hacct : acct = acct'
    · subst hacct
      split
      next hempty =>
        rw [Std.ExtTreeMap.isEmpty_iff] at hempty
        simp [hempty]
      next => simp
    · split
      · simp [Std.ExtTreeMap.getElem?_erase, hacct]
      · simp [Std.ExtTreeMap.getElem?_insert, hacct]
  rw [entry_eq, entry_eq, hlane]
  by_cases hacct : acct = acct'
  · simp [hacct, Std.ExtTreeMap.getElem?_erase]
  · simp [hacct]

theorem entry_of_remove (h : (m.remove acct k cur).entry acct' k' = some mt) :
    m.entry acct' k' = some mt := by
  rw [entry_remove] at h
  exact (Option.ite_none_left_eq_some.mp h).2

/-- Removing an entry leaves one entry less. -/
theorem total_remove (h : m.entry acct k = some cur) :
    SortedMap.total Std.ExtTreeMap.size (m.remove acct k cur).byAcct + 1 =
      SortedMap.total Std.ExtTreeMap.size m.byAcct := by
  obtain ⟨lane, hlane, hcur⟩ := Option.bind_eq_some_iff.mp h
  have hmem : lane.contains k = true := by
    rw [Std.ExtTreeMap.contains_eq_isSome_getElem?, hcur]
    rfl
  have hpos : lane.size ≠ 0 := by
    intro hzero
    rw [Std.ExtTreeMap.eq_empty_iff_size_eq_zero.mpr hzero] at hcur
    simp at hcur
  have hsize : (lane.erase k).size + 1 = lane.size := by
    rw [Std.ExtTreeMap.size_erase, if_pos hmem]
    omega
  rw [SortedMap.total_eq_add _ hlane, remove]
  dsimp only
  rw [hlane, Option.getD_some]
  split
  next hempty =>
    rw [Std.ExtTreeMap.isEmpty_iff] at hempty
    rw [hempty, Std.ExtTreeMap.size_empty] at hsize
    omega
  next =>
    rw [SortedMap.total_insert]
    omega

end Mempool

namespace Draining

variable {F : Type} {st : Draining F}

/-- Handing out a transaction leaves no more to do. -/
theorem size_take_le (st : Draining F) (mt : MemTx F) : (st.take mt).size ≤ st.size := by
  unfold take
  dsimp only
  split
  · exact le_refl _
  next cur hcur =>
    split
    · exact le_refl _
    · have htotal := Mempool.total_remove hcur
      have hpush := Option.length_toList_le
        (o := (st.pool.remove mt.fromId (st.expected[mt.fromId]?.getD 0) cur).entry mt.fromId
          (st.expected[mt.fromId]?.getD 0 + 1))
      unfold size
      dsimp only
      rw [List.length_append]
      omega

variable [LinearOrder F]

/-- The bound on the rounds is enough: the loop ends because the heap is empty or the count is
reached. -/
theorem loop_done (hp : HeapPop F) (maxCount : ℤ) {fuel : ℕ} (h : st.size ≤ fuel) :
    (loop hp maxCount fuel st).full maxCount = true ∨ (loop hp maxCount fuel st).heap = [] := by
  induction fuel generalizing st with
  | zero =>
      right
      apply List.length_eq_zero_iff.mp
      unfold size at h
      rw [loop]
      omega
  | succ fuel ih =>
      rw [loop]
      split
      next hfull => exact Or.inl hfull
      next =>
        cases hpop : hp.pop st.heap with
        | none => exact Or.inr ((hp.eq_none_iff _).mp hpop)
        | some p =>
            apply ih
            have hlen := (hp.perm _ _ _ hpop).length_eq
            have hle := size_take_le { st with heap := p.2 } p.1
            unfold size at h hle ⊢
            rw [List.length_cons] at hlen
            dsimp only at hle
            omega

/-- What `Drain` hands out was in the pool. -/
theorem mem_of_loop (hp : HeapPop F) (maxCount : ℤ) {m : Mempool F} {fuel : ℕ}
    (hpool : ∀ acct k x, st.pool.entry acct k = some x → m.entry acct k = some x)
    (hout : ∀ tx ∈ st.out, ∃ acct k x, m.entry acct k = some x ∧ x.tx = tx) :
    ∀ tx ∈ (loop hp maxCount fuel st).out, ∃ acct k x, m.entry acct k = some x ∧ x.tx = tx := by
  induction fuel generalizing st with
  | zero => exact hout
  | succ fuel ih =>
      rw [loop]
      split
      · exact hout
      cases hp.pop st.heap with
      | none => exact hout
      | some p =>
          dsimp only
          unfold take
          dsimp only
          split
          · exact ih hpool hout
          next cur hcur =>
            split
            · exact ih hpool hout
            · -- the entry goes from the pool to the output
              refine ih (fun acct k x hx => hpool acct k x (Mempool.entry_of_remove hx)) ?_
              intro tx htx
              rcases List.mem_append.mp htx with htx | htx
              · exact hout tx htx
              · rw [List.mem_singleton.mp htx]
                exact ⟨_, _, cur, hpool _ _ cur hcur, rfl⟩

end Draining

theorem Mempool.mem_of_drain {F : Type} [LinearOrder F] {m : Mempool F} {ord : AcctOrder}
    {hp : HeapPop F} {l : Ledger} {now : Int64} {maxCount : ℤ} {tx : Tx}
    (h : tx ∈ (m.drain ord hp l now maxCount).1) :
    ∃ acct k x, m.entry acct k = some x ∧ x.tx = tx :=
  Draining.mem_of_loop hp maxCount (fun _ _ _ hx => entry_of_pruneLocked hx)
    (fun _ h => absurd h List.not_mem_nil) tx h

end ReserveOS
