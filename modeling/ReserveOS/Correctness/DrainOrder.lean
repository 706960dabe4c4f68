import ReserveOS.Correctness.Drain

/-!
# The order in which transactions leave the mempool

`Drain` keeps the heap, the expected nonce of every account and the nested maps of the mempool in
step. `Ordered` is the invariant of its loop: the heap holds the next transaction of every account
that has one, and no other, so the element that is popped is never stale and has the highest fee
rate among the transactions that are next.

* `Draining.loop_add`: the loop is over after as many rounds as mempool and heap have elements.
* `drainCall_spec`: what `Drain` returns and what it leaves. The slice that it returns is allocated
  with a capacity of `maxCount`, which panics for a very large count.
-/

namespace ReserveOS

/-- The transactions of one account. -/
def sentBy (acct : String) (out : List Tx) : List Tx := out.filter fun tx => tx.fromId = acct

/-- The nonce that an account is due for after the transactions that were handed out. -/
def nextNonce (l : Ledger) (out : List Tx) (acct : String) : ℕ :=
  (l.getNonce acct).toNat + (sentBy acct out).length + 1

theorem sentBy_concat (acct : String) (out : List Tx) (tx : Tx) :
    sentBy acct (out ++ [tx]) = sentBy acct out ++ if tx.fromId = acct then [tx] else [] := by
  unfold sentBy
  rw [List.filter_append]
  split
  next h => simp [h]
  next h => simp [h]

/-- Handing out a transaction moves its sender on by one. -/
theorem nextNonce_concat (l : Ledger) (out : List Tx) (tx : Tx) (acct : String) :
    nextNonce l (out ++ [tx]) acct = nextNonce l out acct + if tx.fromId = acct then 1 else 0 := by
  unfold nextNonce
  rw [sentBy_concat, List.length_append]
  split
  · simp only [List.length_singleton]
    omega
  · simp

theorem length_sentBy_le (acct : String) (out : List Tx) : (sentBy acct out).length ≤ out.length :=
  List.length_filter_le _ _

/-- What comes last in a list, or stands before it. -/
theorem split_concat {α : Type} {l pre post : List α} {x y : α} (h : l ++ [x] = pre ++ y :: post) :
    (pre = l ∧ y = x) ∨ ∃ post', l = pre ++ y :: post' := by
  rcases List.eq_nil_or_concat post with rfl | ⟨post', z, rfl⟩
  · obtain ⟨hpre, hlast⟩ := List.append_inj' h rfl
    exact .inl ⟨hpre.symm, (List.singleton_inj.mp hlast).symm⟩
  · rw [List.concat_eq_append, ← List.cons_append, ← List.append_assoc] at h
    exact .inr ⟨post', (List.append_inj' h rfl).1⟩

/-- Of two elements the one that may be popped first has no lower fee rate. -/
theorem MemTx.feeRate_le_of_less {F : Type} [LinearOrder F] {a b : MemTx F}
    (h : b.less a = false) : b.feeRate ≤ a.feeRate := by
  rw [MemTx.less_eq_false_iff, Prod.Lex.le_iff] at h
  rcases h with h | ⟨h, -⟩
  · exact (OrderDual.toDual_lt_toDual.mp h).le
  · exact (OrderDual.toDual_inj.mp h).ge

namespace Mempool

variable {F : Type} {sha256 : List UInt8 → Hash} {m : Mempool F} {acct : String} {k : UInt64}
  {mt x : MemTx F}

/-- In a valid mempool an entry is stored under the sender and the nonce of its transaction. -/
theorem Valid.mem_entries_iff (h : m.Valid sha256) :
    x ∈ m.entries ↔ m.entry x.tx.fromId x.tx.nonce = some x := by
  rw [Mempool.mem_entries_iff]
  constructor
  · rintro ⟨acct, k, hx⟩
    have hstored := h.stored _ _ _ hx
    rw [hstored.from_eq, hstored.nonce_eq]
    exact hx
  · exact fun hx => ⟨_, _, hx⟩

theorem Valid.fromId_eq (h : m.Valid sha256) (hx : x ∈ m.entries) : x.fromId = x.tx.fromId :=
  (h.stored _ _ _ (h.mem_entries_iff.mp hx)).acct_eq

theorem entries_perm_remove (hcur : m.entry acct k = some mt) :
    m.entries.Perm (mt :: (m.remove acct k mt).entries) :=
  (entries_perm_of_some hcur).trans ((entries_remove_perm m acct k mt).symm.cons mt)

/-- The other entries are under other keys. -/
theorem Valid.mem_entries_remove_iff (h : m.Valid sha256) (hmt : mt ∈ m.entries) :
    x ∈ (m.remove mt.tx.fromId mt.tx.nonce mt).entries ↔
      x ∈ m.entries ∧ ¬ (mt.tx.fromId = x.tx.fromId ∧ mt.tx.nonce = x.tx.nonce) := by
  have hvalid := h.remove (h.mem_entries_iff.mp hmt)
  rw [hvalid.mem_entries_iff, h.mem_entries_iff, entry_remove]
  split
  next heq => simp [heq]
  next hne => simp [hne]

/-- Nonces do not wrap while the entries are handed out. -/
def Roomy (m : Mempool F) (l : Ledger) : Prop :=
  ∀ acct, (l.getNonce acct).toNat + m.entries.length < 2 ^ 64 - 1

theorem Roomy.pruneLocked {l : Ledger} (h : m.Roomy l) (now : Int64) :
    (m.pruneLocked now).Roomy l := by
  intro acct
  have hlen : (m.pruneLocked now).entries.length ≤ m.entries.length := by
    rw [entries_pruneLocked]
    exact List.length_filter_le _ _
  exact (Nat.add_le_add_left hlen _).trans_lt (h acct)

end Mempool

namespace Draining

variable {F : Type} {sha256 : List UInt8 → Hash} {m : Mempool F} {l : Ledger} {st : Draining F}
  {handed rest : List (MemTx F)} {mt : MemTx F}

theorem length_out_take_le (st : Draining F) (mt : MemTx F) :
    (st.take mt).out.length ≤ st.out.length + 1 := by
  unfold take
  dsimp only
  split
  · exact Nat.le_succ _
  split
  · exact Nat.le_succ _
  · simp

/-! ### The invariant -/

/-- The joint invariant of the loop of `Drain` over the mempool `m`, for the entries `handed` whose
transactions were handed out. -/
structure Ordered [LinearOrder F] (sha256 : List UInt8 → Hash) (m : Mempool F) (l : Ledger)
    (st : Draining F) (handed : List (MemTx F)) : Prop where
  valid : st.pool.Valid sha256
  out_eq : st.out = handed.map MemTx.tx
  union : m.entries.Perm (handed ++ st.pool.entries)
  expected : ∀ x ∈ m.entries,
    (st.expected[x.tx.fromId]?.getD 0).toNat = nextNonce l st.out x.tx.fromId
  heap_next : ∀ x ∈ st.heap, x ∈ st.pool.entries ∧ x.tx.nonce.toNat = nextNonce l st.out x.tx.fromId
  next_heap : ∀ x ∈ st.pool.entries, x.tx.nonce.toNat = nextNonce l st.out x.tx.fromId → x ∈ st.heap
  heap_nodup : (st.heap.map fun x => x.tx.fromId).Nodup
  contiguous : ∀ acct, (sentBy acct st.out).map (fun tx => tx.nonce.toNat) =
    List.range' ((l.getNonce acct).toNat + 1) (sentBy acct st.out).length
  greedy : ∀ pre mt post, handed = pre ++ mt :: post → ∀ x ∈ m.entries,
    x.tx.nonce.toNat = nextNonce l (pre.map MemTx.tx) x.tx.fromId → x.feeRate ≤ mt.feeRate

variable [LinearOrder F]

namespace Ordered

/-- What was handed out had an earlier nonce. -/
theorem nonce_lt_nextNonce (h : Ordered sha256 m l st handed) {tx : Tx} (htx : tx ∈ st.out) :
    tx.nonce.toNat < nextNonce l st.out tx.fromId := by
  have hmem : tx.nonce.toNat ∈ (sentBy tx.fromId st.out).map fun tx => tx.nonce.toNat :=
    List.mem_map_of_mem (List.mem_filter.mpr ⟨htx, by simp⟩)
  rw [h.contiguous, List.mem_range'_1] at hmem
  unfold nextNonce
  omega

/-- An entry whose turn it is has not been handed out. -/
theorem mem_entries_of_next (h : Ordered sha256 m l st handed) {x : MemTx F} (hx : x ∈ m.entries)
    (hnext : x.tx.nonce.toNat = nextNonce l st.out x.tx.fromId) : x ∈ st.pool.entries := by
  -- all that was handed out has an earlier nonce
  rcases List.mem_append.mp (h.union.mem_iff.mp hx) with hgone | hstored
  · have hout : x.tx ∈ st.out := by
      rw [h.out_eq]
      exact List.mem_map_of_mem hgone
    exact absurd hnext (h.nonce_lt_nextNonce hout).ne
  · exact hstored

theorem mem_of_mem_pool (h : Ordered sha256 m l st handed) {x : MemTx F}
    (hx : x ∈ st.pool.entries) : x ∈ m.entries :=
  h.union.mem_iff.mpr (List.mem_append_right _ hx)

variable {hp : HeapPop F}

/-- The element that is popped is the next one of its sender. -/
theorem popped (h : Ordered sha256 m l st handed) (hpop : hp.pop st.heap = some (mt, rest)) :
    mt ∈ st.pool.entries ∧ mt.fromId = mt.tx.fromId ∧
      st.expected[mt.tx.fromId]?.getD 0 = mt.tx.nonce := by
  have hmem : mt ∈ st.heap := (hp.perm _ _ _ hpop).subset List.mem_cons_self
  obtain ⟨hstored, hnext⟩ := h.heap_next mt hmem
  refine ⟨hstored, h.valid.fromId_eq hstored, UInt64.toNat.inj ?_⟩
  rw [h.expected mt (h.mem_of_mem_pool hstored), hnext]

/-- So it is handed out. -/
theorem take_eq (h : Ordered sha256 m l st handed) (hpop : hp.pop st.heap = some (mt, rest)) :
    Draining.take { st with heap := rest } mt =
      { heap := rest ++ ((st.pool.remove mt.tx.fromId mt.tx.nonce mt).entry mt.tx.fromId
          (mt.tx.nonce + 1)).toList
        expected := st.expected.insert mt.tx.fromId (mt.tx.nonce + 1)
        pool := st.pool.remove mt.tx.fromId mt.tx.nonce mt
        out := st.out ++ [mt.tx] } := by
  obtain ⟨hstored, hfrom, hexp⟩ := h.popped hpop
  unfold Draining.take
  dsimp only
  rw [hfrom, hexp, h.valid.mem_entries_iff.mp hstored]
  exact if_neg (not_not.mpr rfl)

/-- The nonce after that of the popped element does not wrap. -/
theorem toNat_succ (h : Ordered sha256 m l st handed) (hroom : m.Roomy l)
    (hpop : hp.pop st.heap = some (mt, rest)) :
    (mt.tx.nonce + 1).toNat = nextNonce l (st.out ++ [mt.tx]) mt.tx.fromId := by
  have hmem : mt ∈ st.heap := (hp.perm _ _ _ hpop).subset List.mem_cons_self
  obtain ⟨hstored, hnext⟩ := h.heap_next mt hmem
  -- the popped entry is still stored, so fewer were handed out than there are entries
  have hlen := h.union.length_eq
  have hpos := List.length_pos_of_mem hstored
  have hsent := length_sentBy_le mt.tx.fromId st.out
  have hbound := hroom mt.tx.fromId
  rw [List.length_append] at hlen
  rw [h.out_eq, List.length_map, ← h.out_eq] at hsent
  rw [nextNonce_concat, if_pos rfl, ← hnext]
  rw [UInt64.toNat_add, show (1 : UInt64).toNat = 1 from rfl, hnext]
  refine Nat.mod_eq_of_lt ?_
  unfold nextNonce
  omega

/-- The rest of the heap is from other senders. -/
theorem fromId_ne (h : Ordered sha256 m l st handed) (hpop : hp.pop st.heap = some (mt, rest))
    {x : MemTx F} (hx : x ∈ rest) : mt.tx.fromId ≠ x.tx.fromId := by
  have hnodup := ((hp.perm _ _ _ hpop).map fun x => x.tx.fromId).nodup_iff.mpr h.heap_nodup
  rw [List.map_cons, List.nodup_cons] at hnodup
  exact fun heq => hnodup.1 (heq ▸ List.mem_map_of_mem hx)

/-- The nonce that a sender is due for changes only for the sender of the popped element. -/
theorem nextNonce_of_mem_rest (h : Ordered sha256 m l st handed)
    (hpop : hp.pop st.heap = some (mt, rest)) {x : MemTx F} (hx : x ∈ rest) :
    nextNonce l (st.out ++ [mt.tx]) x.tx.fromId = nextNonce l st.out x.tx.fromId := by
  rw [nextNonce_concat, if_neg (h.fromId_ne hpop hx), Nat.add_zero]

/-- The successor of the popped element, if it is stored. -/
theorem mem_successor_iff (h : Ordered sha256 m l st handed) (hroom : m.Roomy l)
    (hpop : hp.pop st.heap = some (mt, rest)) {x : MemTx F} :
    x ∈ ((st.pool.remove mt.tx.fromId mt.tx.nonce mt).entry mt.tx.fromId
        (mt.tx.nonce + 1)).toList ↔
      x ∈ (st.pool.remove mt.tx.fromId mt.tx.nonce mt).entries ∧ x.tx.fromId = mt.tx.fromId ∧
        x.tx.nonce.toNat = nextNonce l (st.out ++ [mt.tx]) x.tx.fromId := by
  have hvalid := h.valid.remove (h.valid.mem_entries_iff.mp (h.popped hpop).1)
  have hsucc := h.toNat_succ hroom hpop
  rw [Option.mem_toList]
  constructor
  · intro hx
    have hat := hvalid.stored _ _ _ hx
    refine ⟨Mempool.mem_entries_iff.mpr ⟨_, _, hx⟩, hat.from_eq, ?_⟩
    rw [hat.nonce_eq, hat.from_eq, hsucc]
  · rintro ⟨hx, hsender, hnext⟩
    have hnonce : x.tx.nonce = mt.tx.nonce + 1 := by
      apply UInt64.toNat.inj
      rw [hnext, hsender, hsucc]
    have hx := hvalid.mem_entries_iff.mp hx
    rwa [hsender, hnonce] at hx

/-- After the round the heap again holds the next transaction of every account that has one. -/
theorem mem_heap_iff (h : Ordered sha256 m l st handed) (hroom : m.Roomy l)
    (hpop : hp.pop st.heap = some (mt, rest)) {x : MemTx F} :
    x ∈ rest ++ ((st.pool.remove mt.tx.fromId mt.tx.nonce mt).entry mt.tx.fromId
        (mt.tx.nonce + 1)).toList ↔
      x ∈ (st.pool.remove mt.tx.fromId mt.tx.nonce mt).entries ∧
        x.tx.nonce.toNat = nextNonce l (st.out ++ [mt.tx]) x.tx.fromId := by
  have hperm := hp.perm _ _ _ hpop
  have hremove := h.valid.mem_entries_remove_iff (x := x) (h.popped hpop).1
  rw [List.mem_append, h.mem_successor_iff hroom hpop]
  constructor
  · rintro (hx | ⟨hx, -, hnext⟩)
    · -- another sender, who is due for the same nonce as before
      obtain ⟨hin, hnext⟩ := h.heap_next x (hperm.subset (List.mem_cons_of_mem _ hx))
      refine ⟨hremove.mpr ⟨hin, fun heq => h.fromId_ne hpop hx heq.1⟩, ?_⟩
      rw [h.nextNonce_of_mem_rest hpop hx, hnext]
    · exact ⟨hx, hnext⟩
  · rintro ⟨hx, hnext⟩
    by_cases hsender : mt.tx.fromId = x.tx.fromId
    · exact .inr ⟨hx, hsender.symm, hnext⟩
    · have hdue := hnext
      rw [nextNonce_concat, if_neg hsender, Nat.add_zero] at hdue
      have hheap := h.next_heap x (hremove.mp hx).1 hdue
      rcases List.mem_cons.mp (hperm.mem_iff.mpr hheap) with rfl | hrest
      · exact absurd rfl hsender
      · exact .inl hrest

/-- Still one element for each sender. -/
theorem nodup_heap (h : Ordered sha256 m l st handed) (hroom : m.Roomy l)
    (hpop : hp.pop st.heap = some (mt, rest)) :
    ((rest ++ ((st.pool.remove mt.tx.fromId mt.tx.nonce mt).entry mt.tx.fromId
      (mt.tx.nonce + 1)).toList).map fun x => x.tx.fromId).Nodup := by
  have hnodup := ((hp.perm _ _ _ hpop).map fun x => x.tx.fromId).nodup_iff.mpr h.heap_nodup
  rw [List.map_cons, List.nodup_cons] at hnodup
  rw [List.map_append, List.nodup_append]
  refine ⟨hnodup.2, ?_, ?_⟩
  · cases (st.pool.remove mt.tx.fromId mt.tx.nonce mt).entry mt.tx.fromId (mt.tx.nonce + 1) with
    | none => exact List.nodup_nil
    | some x => exact List.nodup_singleton _
  · intro a ha b hb
    obtain ⟨x, hx, rfl⟩ := List.mem_map.mp ha
    obtain ⟨y, hy, rfl⟩ := List.mem_map.mp hb
    rw [((h.mem_successor_iff hroom hpop).mp hy).2.1]
    exact (h.fromId_ne hpop hx).symm

/-- The nonces of the sender go on without a gap. -/
theorem contiguous_concat (h : Ordered sha256 m l st handed)
    (hpop : hp.pop st.heap = some (mt, rest)) (acct : String) :
    (sentBy acct (st.out ++ [mt.tx])).map (fun tx => tx.nonce.toNat) =
      List.range' ((l.getNonce acct).toNat + 1) (sentBy acct (st.out ++ [mt.tx])).length := by
  have hmem : mt ∈ st.heap := (hp.perm _ _ _ hpop).subset List.mem_cons_self
  have hnext := (h.heap_next mt hmem).2
  rw [sentBy_concat]
  split
  next hsender =>
    rw [List.map_append, h.contiguous, List.length_append, List.length_singleton,
      List.range'_1_concat, List.map_singleton, hnext, hsender, nextNonce]
    congr 2
    omega
  next => rw [List.append_nil, h.contiguous]

/-- The popped element has the highest fee rate among the transactions that are next. -/
theorem greedy_concat (h : Ordered sha256 m l st handed)
    (hpop : hp.pop st.heap = some (mt, rest)) {x : MemTx F} (hx : x ∈ m.entries)
    (hnext : x.tx.nonce.toNat = nextNonce l st.out x.tx.fromId) : x.feeRate ≤ mt.feeRate := by
  have hheap := h.next_heap x (h.mem_entries_of_next hx hnext) hnext
  rcases List.mem_cons.mp ((hp.perm _ _ _ hpop).mem_iff.mpr hheap) with rfl | hrest
  · exact le_rfl
  · exact MemTx.feeRate_le_of_less (hp.least _ _ _ hpop x hrest)

/-- One round of the loop. -/
theorem take (h : Ordered sha256 m l st handed) (hroom : m.Roomy l)
    (hpop : hp.pop st.heap = some (mt, rest)) :
    Ordered sha256 m l (Draining.take { st with heap := rest } mt) (handed ++ [mt]) := by
  have hentry := h.valid.mem_entries_iff.mp (h.popped hpop).1
  rw [h.take_eq hpop]
  refine ⟨h.valid.remove hentry, ?_, ?_, ?_, fun x hx => (h.mem_heap_iff hroom hpop).mp hx,
    fun x hx hnext => (h.mem_heap_iff hroom hpop).mpr ⟨hx, hnext⟩, h.nodup_heap hroom hpop,
    h.contiguous_concat hpop, ?_⟩
  · show st.out ++ [mt.tx] = (handed ++ [mt]).map MemTx.tx
    rw [h.out_eq, List.map_append, List.map_singleton]
  · rw [List.append_assoc]
    exact h.union.trans ((Mempool.entries_perm_remove hentry).append_left _)
  · intro x hx
    show ((st.expected.insert mt.tx.fromId (mt.tx.nonce + 1))[x.tx.fromId]?.getD 0).toNat = _
    rw [Table.getElem?_put]
    split
    next heq => rw [Option.getD_some, h.toNat_succ hroom hpop, heq]
    next hne => rw [h.expected x hx, nextNonce_concat, if_neg hne, Nat.add_zero]
  · intro pre y post hsplit x hx hnext
    rcases split_concat hsplit with ⟨rfl, rfl⟩ | ⟨post', hbefore⟩
    · rw [← h.out_eq] at hnext
      exact h.greedy_concat hpop hx hnext
    · exact h.greedy pre y post' hbefore x hx hnext

/-- The whole loop. -/
theorem loop (h : Ordered sha256 m l st handed) (hroom : m.Roomy l) (maxCount : ℤ) (fuel : ℕ) :
    ∃ handed', Ordered sha256 m l (st.loop hp maxCount fuel) handed' := by
  -- a round that is not the last one hands out one more entry
  induction fuel generalizing st handed with
  | zero => exact ⟨handed, h⟩
  | succ fuel ih =>
      rw [Draining.loop]
      split
      · exact ⟨handed, h⟩
      · cases hpop : hp.pop st.heap with
        | none => exact ⟨handed, h⟩
        | some p => exact ih (h.take hroom hpop)

end Ordered

/-! ### The rounds -/

/-- A loop that has ended stays as it is. -/
theorem loop_of_done (hp : HeapPop F) (maxCount : ℤ)
    (h : st.full maxCount = true ∨ st.heap = []) (fuel : ℕ) : st.loop hp maxCount fuel = st := by
  cases fuel with
  | zero => rfl
  | succ fuel =>
      rw [loop]
      rcases h with h | h
      · rw [if_pos h]
      · split
        · rfl
        · rw [(hp.eq_none_iff _).mpr h]

/-- Rounds of the loop can be run in two parts. -/
theorem loop_add (st : Draining F) (hp : HeapPop F) (maxCount : ℤ) (j k : ℕ) :
    st.loop hp maxCount (j + k) = (st.loop hp maxCount j).loop hp maxCount k := by
  induction j generalizing st with
  | zero => rw [Nat.zero_add, loop]
  | succ j ih =>
      rw [Nat.succ_add, loop, loop]
      split
      next hfull => exact (loop_of_done hp maxCount (.inl hfull) k).symm
      next =>
        cases hpop : hp.pop st.heap with
        | none => exact (loop_of_done hp maxCount (.inr ((hp.eq_none_iff _).mp hpop)) k).symm
        | some p => exact ih _

/-- More rounds than the bound change nothing. -/
theorem loop_eq_of_size_le (hp : HeapPop F) (maxCount : ℤ) {fuel : ℕ} (h : st.size ≤ fuel) :
    st.loop hp maxCount fuel = st.loop hp maxCount st.size := by
  obtain ⟨k, rfl⟩ := Nat.exists_eq_add_of_le h
  rw [loop_add, loop_of_done hp maxCount (loop_done hp maxCount le_rfl)]

/-- No more transactions are handed out than were asked for. -/
theorem length_out_loop_le (hp : HeapPop F) {maxCount : ℤ} (hpos : 0 < maxCount)
    (h : (st.out.length : ℤ) ≤ maxCount) (fuel : ℕ) :
    ((st.loop hp maxCount fuel).out.length : ℤ) ≤ maxCount := by
  induction fuel generalizing st with
  | zero => exact h
  | succ fuel ih =>
      rw [loop]
      split
      · exact h
      next hfull =>
        cases hp.pop st.heap with
        | none => exact h
        | some p =>
            have hone := length_out_take_le { st with heap := p.2 } p.1
            simp only [full, hpos, decide_true, Bool.true_and, decide_eq_true_eq, not_le] at hfull
            exact ih (by dsimp only at hone; omega)

end Draining

/-! ### `Drain` -/

namespace Mempool

open Draining

variable {F : Type} {sha256 : List UInt8 → Hash} {m : Mempool F} {ord : AcctOrder} {l : Ledger}

/-- The entries that have not expired. -/
def unexpired (m : Mempool F) (now : Int64) : List (MemTx F) :=
  m.entries.filter fun mt => ! decide (mt.addedAt ≤ now - m.cfg.txTTLSeconds)

variable [LinearOrder F]

/-- The invariant before the first round. -/
theorem Valid.ordered_draining (h : m.Valid sha256) (hroom : m.Roomy l) :
    Ordered sha256 m l (m.draining ord l) [] := by
  have hdue : ∀ acct, (l.getNonce acct + 1).toNat = nextNonce l [] acct := by
    intro acct
    have hbound := hroom acct
    rw [UInt64.toNat_add, show (1 : UInt64).toNat = 1 from rfl]
    refine (Nat.mod_eq_of_lt ?_).trans rfl
    omega
  have hheap : ∀ x, x ∈ (m.draining ord l).heap ↔
      x ∈ m.entries ∧ x.tx.nonce.toNat = nextNonce l [] x.tx.fromId := by
    intro x
    rw [mem_heap_draining, h.mem_entries_iff, ← hdue]
    constructor
    · rintro ⟨acct, hx⟩
      have hat := h.stored _ _ _ hx
      rw [hat.from_eq, hat.nonce_eq]
      exact ⟨hx, rfl⟩
    · rintro ⟨hx, hnonce⟩
      rw [UInt64.toNat.inj hnonce] at hx
      exact ⟨_, hx⟩
  refine ⟨h, rfl, List.Perm.refl _, ?_, fun x hx => (hheap x).mp hx,
    fun x hx hnext => (hheap x).mpr ⟨hx, hnext⟩, ?_, fun _ => rfl, ?_⟩
  · intro x hx
    have hacct := mem_order ord (h.mem_entries_iff.mp hx)
    unfold draining
    dsimp only
    rw [getElem?_expected, if_pos hacct, Option.getD_some, hdue]
  · -- each account lists its own next entry
    show ((ord.order (m.byAcct.toList.map Prod.fst)).filterMap _ |>.map _).Nodup
    rw [List.map_filterMap]
    refine (nodup_order m ord).filterMap fun acct acct' b hb hb' => ?_
    obtain ⟨x, hx, rfl⟩ := Option.map_eq_some_iff.mp hb
    obtain ⟨y, hy, hxy⟩ := Option.map_eq_some_iff.mp hb'
    rw [← (h.stored _ _ _ hx).from_eq, ← (h.stored _ _ _ hy).from_eq, hxy]
  · intro pre mt post hnil
    simp at hnil

/-- What `Drain` is to return and to leave: `handed` are the entries of the returned transactions in
their order. -/
structure Drained (m : Mempool F) (l : Ledger) (now : Int64) (handed : List (MemTx F))
    (rest : Mempool F) : Prop where
  /-- The nonces of each sender follow the one in the ledger without a gap. -/
  contiguous : ∀ acct, (sentBy acct (handed.map MemTx.tx)).map (fun tx => tx.nonce.toNat) =
    List.range' ((l.getNonce acct).toNat + 1) (sentBy acct (handed.map MemTx.tx)).length
  /-- No other sender's next transaction pays a higher rate at that moment. -/
  greedy : ∀ pre mt post, handed = pre ++ mt :: post → ∀ x ∈ m.unexpired now,
    x.tx.fromId ≠ mt.tx.fromId →
      x.tx.nonce.toNat = nextNonce l (pre.map MemTx.tx) x.tx.fromId → x.feeRate ≤ mt.feeRate
  /-- The unexpired entries are either returned or left. -/
  union : (m.unexpired now).Perm (handed ++ rest.entries)
  /-- None is both, and none is returned twice. -/
  disjoint : (handed.map MemTx.tx).Nodup ∧
    ∀ tx ∈ handed.map MemTx.tx, tx ∉ rest.entries.map MemTx.tx

/-- The loop ends with a full list, or nobody's turn is left. -/
theorem next_of_loop_done {st : Draining F} {handed : List (MemTx F)} {maxCount : ℤ}
    (h : Ordered sha256 m l st handed) (hdone : st.full maxCount = true ∨ st.heap = []) :
    0 < maxCount ∧ maxCount ≤ handed.length ∨ ∀ x ∈ st.pool.entries,
        x.tx.nonce.toNat ≠ nextNonce l (handed.map MemTx.tx) x.tx.fromId := by
  rcases hdone with hfull | hempty
  · left
    simpa [full, h.out_eq] using hfull
  · right
    intro x hx hnext
    rw [← h.out_eq] at hnext
    have hheap := h.next_heap x hx hnext
    rw [hempty] at hheap
    simp at hheap

/-- What `Drain` returns, apart from the allocation of the slice. -/
theorem Valid.drain_spec (h : m.Valid sha256) (hroom : m.Roomy l) (ord : AcctOrder)
    (hp : HeapPop F) (now : Int64) (maxCount : ℤ) :
    ∃ handed, (m.drain ord hp l now maxCount).1 = handed.map MemTx.tx ∧
      (0 < maxCount → (handed.length : ℤ) ≤ maxCount) ∧
      Drained m l now handed (m.drain ord hp l now maxCount).2 ∧
      (0 < maxCount ∧ maxCount ≤ handed.length ∨ ∀ x ∈ (m.drain ord hp l now maxCount).2.entries,
          x.tx.nonce.toNat ≠ nextNonce l (handed.map MemTx.tx) x.tx.fromId) := by
  have hapart : (m.drain ord hp l now maxCount).1.Nodup ∧ _ := apart_drain h
  have hroom := hroom.pruneLocked now
  have hstart : Ordered sha256 (m.pruneLocked now) l ((m.pruneLocked now).draining ord l) [] :=
    (h.pruneLocked now).ordered_draining hroom
  unfold Mempool.drain at hapart ⊢
  dsimp only at hapart ⊢
  -- from here on only the invariant of the loop counts, not how it was entered
  generalize (m.pruneLocked now).draining ord l = st at hapart hstart ⊢
  have hcount : 0 < maxCount → ((st.loop hp maxCount st.size).out.length : ℤ) ≤ maxCount :=
    fun hpos => length_out_loop_le hp hpos (by rw [hstart.out_eq]; exact hpos.le) _
  have hdone := loop_done hp maxCount (le_refl st.size)
  obtain ⟨handed, hend⟩ : ∃ handed, Ordered sha256 (m.pruneLocked now) l
      (st.loop hp maxCount st.size) handed := hstart.loop hroom maxCount st.size
  generalize st.loop hp maxCount st.size = fin at hapart hcount hdone hend
  obtain ⟨hnodup, hgone⟩ := hapart
  rw [hend.out_eq] at hnodup hgone
  rw [hend.out_eq, List.length_map] at hcount
  refine ⟨handed, hend.out_eq, hcount, ?_, next_of_loop_done hend hdone⟩
  constructor
  · intro acct
    rw [← hend.out_eq]
    exact hend.contiguous acct
  · intro pre mt post hsplit x hx _ hnext
    rw [unexpired, ← entries_pruneLocked] at hx
    exact hend.greedy pre mt post hsplit x hx hnext
  · rw [unexpired, ← entries_pruneLocked]
    exact hend.union
  · refine ⟨hnodup, fun tx htx hleft => ?_⟩
    obtain ⟨x, hx, heq⟩ := List.mem_map.mp hleft
    exact hgone tx htx _ _ x (hend.valid.mem_entries_iff.mp hx) heq

/-- For a count for which a slice can be allocated, `Drain` ends and returns at most that many
transactions, consecutive for each sender, greedily by fee rate. The unexpired mempool is split into
what it returns and what it leaves. It stops only if the count is reached or no sender has a next
transaction. -/
theorem drainCall_spec (h : m.Valid sha256)
    (hnonce : ∀ acct, (l.getNonce acct).toNat + m.entries.length < 2 ^ 64 - 1) (ord : AcctOrder)
    (hp : HeapPop F) (now : Int64) (maxCount : ℤ) (hmake : makesliceFails maxCount = false) :
    (∀ fuel, ((m.pruneLocked now).draining ord l).size ≤ fuel →
      ((m.pruneLocked now).draining ord l).loop hp maxCount fuel =
        ((m.pruneLocked now).draining ord l).loop hp maxCount
          ((m.pruneLocked now).draining ord l).size) ∧
    ∃ handed rest, m.drainCall ord hp l now maxCount = (.ok (handed.map MemTx.tx), rest) ∧
      (0 < maxCount → (handed.length : ℤ) ≤ maxCount) ∧ Drained m l now handed rest ∧
      (0 < maxCount ∧ maxCount ≤ handed.length ∨ ∀ x ∈ rest.entries,
          x.tx.nonce.toNat ≠ nextNonce l (handed.map MemTx.tx) x.tx.fromId) := by
  refine ⟨fun fuel hfuel => loop_eq_of_size_le hp maxCount hfuel, ?_⟩
  obtain ⟨handed, hout, hcount, hdrained, hstop⟩ := h.drain_spec hnonce ord hp now maxCount
  refine ⟨handed, (m.drain ord hp l now maxCount).2, ?_, hcount, hdrained, hstop⟩
  rw [drainCall, hmake, if_neg Bool.false_ne_true, hout]

end Mempool

namespace Sample

/-- A payment with a fee. -/
def paid (sender : String) (nonce : UInt64) (fee : Int64) : Tx :=
  { transfer sender nonce [pay bob 1] with fee := fee }

/-- A mempool with two payments of alice, the second at the highest rate, and one of bob. -/
def lanes : Mempool ℕ :=
  [paid alice 1 200, paid alice 2 900, paid bob 1 600].foldl
    (fun m tx => m.step sha256 floats (.add Ledger.empty 0 0 tx))
    (Mempool.new { narrow with maxBytes := 3000, allowFutureNonces := true })

end Sample

namespace Mempool

open Sample

/-- Bob's payment comes first, then both of alice's: her second one has to wait for the first. -/
theorem drainCall_spec_lanes :
    lanes.Valid sha256 ∧
    ∃ handed rest, lanes.drainCall mineEnv.accts mineEnv.heap Ledger.empty 0 5 =
        (.ok (handed.map MemTx.tx), rest) ∧
      handed.map MemTx.tx = [paid bob 1 600, paid alice 1 200, paid alice 2 900] ∧
      Drained lanes Ledger.empty 0 handed rest := by
  have hvalid : lanes.Valid sha256 := by
    rw [lanes, List.foldl_cons, List.foldl_cons, List.foldl_cons, List.foldl_nil]
    exact (((valid_new _).step _).step _).step _
  have hread : lanes.totalTxs = 3 ∧
      (lanes.drainCall mineEnv.accts mineEnv.heap Ledger.empty 0 5).1 =
        .ok [paid bob 1 600, paid alice 1 200, paid alice 2 900] := by
    decide +kernel
  have hnonce : ∀ acct, (Ledger.empty.getNonce acct).toNat + lanes.entries.length < 2 ^ 64 - 1 := by
    intro acct
    have hlen : lanes.entries.length = 3 := by exact_mod_cast hvalid.count.symm.trans hread.1
    rw [hlen]
    exact (by decide : 0 + 3 < 2 ^ 64 - 1)
  obtain ⟨-, handed, rest, hcall, -, hdrained, -⟩ :=
    drainCall_spec hvalid hnonce mineEnv.accts mineEnv.heap 0 5 (by decide)
  refine ⟨hvalid, handed, rest, hcall, ?_, hdrained⟩
  rw [hcall] at hread
  exact Except.ok.inj hread.2

/-- A count that is too large for a slice. -/
theorem not_drainCall_huge :
    (new narrow : Mempool ℕ).Valid sha256 ∧ (0 : ℤ) ≤ 2 ^ 62 ∧
    ((new narrow : Mempool ℕ).drainCall mineEnv.accts mineEnv.heap Ledger.empty 0 (2 ^ 62)).1 =
      .error (.panic "makeslice: cap out of range") := by
  refine ⟨valid_new narrow, by decide, ?_⟩
  rw [drainCall, if_pos (by decide)]

end Mempool

end ReserveOS
