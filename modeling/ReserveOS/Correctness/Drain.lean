import ReserveOS.Correctness.Mining
import ReserveOS.Correctness.Pool

/-!
# What leaves the mempool

`Drain` hands transactions out and deletes them from the mempool. `Draining.Apart` is the invariant
of its loop: what it has handed out is not stored any more, and nothing was handed out twice.
`drain_eq_nil_iff` says when it hands out nothing, and `filterTxs_eq_self_iff` when
`FilterTxsBySimState` drops nothing of it.
-/

namespace ReserveOS

namespace Draining

variable {F : Type} {sha256 : List UInt8 → Hash} {st : Draining F} {mt : MemTx F}

/-- What has been handed out is not in the mempool any more, and no transaction was handed out
twice. -/
structure Apart (sha256 : List UInt8 → Hash) (st : Draining F) : Prop where
  valid : st.pool.Valid sha256
  nodup : st.out.Nodup
  gone : ∀ tx ∈ st.out, ∀ acct k mt, st.pool.entry acct k = some mt → mt.tx ≠ tx

/-- Handing out a transaction deletes it, so it is not handed out again. -/
theorem Apart.take (h : st.Apart sha256) (mt : MemTx F) : (st.take mt).Apart sha256 := by
  unfold Draining.take
  dsimp only
  split
  · exact h
  next cur hcur =>
    split
    · exact h
    have hstored := h.valid.stored _ _ _ hcur
    refine ⟨h.valid.remove hcur, ?_, ?_⟩
    · refine List.nodup_append.mpr ⟨h.nodup, List.nodup_singleton _, ?_⟩
      intro tx htx tx' htx'
      rw [List.mem_singleton.mp htx']
      exact (h.gone tx htx _ _ _ hcur).symm
    · intro tx htx acct k x hx
      rw [Mempool.entry_remove] at hx
      obtain ⟨hne, hx⟩ := Option.ite_none_left_eq_some.mp hx
      rcases List.mem_append.mp htx with htx | htx
      · exact h.gone tx htx acct k x hx
      · -- an entry of the same transaction would be under the same key
        rw [List.mem_singleton.mp htx]
        intro heq
        have hx := h.valid.stored _ _ _ hx
        have hfrom := hx.from_eq
        have hnonce := hx.nonce_eq
        rw [heq] at hfrom hnonce
        exact hne ⟨hstored.from_eq.symm.trans hfrom, hstored.nonce_eq.symm.trans hnonce⟩

/-- Taking a transaction only appends to the output. -/
theorem out_take (st : Draining F) (mt : MemTx F) : st.out <+: (st.take mt).out := by
  unfold take
  dsimp only
  split
  · exact List.prefix_refl _
  split
  · exact List.prefix_refl _
  · exact List.prefix_append _ _

variable [LinearOrder F]

/-- The loop keeps this. -/
theorem Apart.loop (h : st.Apart sha256) (hp : HeapPop F) (maxCount : ℤ) (fuel : ℕ) :
    (st.loop hp maxCount fuel).Apart sha256 := by
  induction fuel generalizing st with
  | zero => exact h
  | succ fuel ih =>
      rw [Draining.loop]
      split
      · exact h
      cases hp.pop st.heap with
      | none => exact h
      | some p =>
          have hrest : Apart sha256 { st with heap := p.2 } := ⟨h.valid, h.nodup, h.gone⟩
          exact ih (hrest.take p.1)

/-- The loop only adds to what was handed out. -/
theorem out_loop (st : Draining F) (hp : HeapPop F) (maxCount : ℤ) (fuel : ℕ) :
    st.out <+: (st.loop hp maxCount fuel).out := by
  induction fuel generalizing st with
  | zero => exact List.prefix_refl _
  | succ fuel ih =>
      rw [Draining.loop]
      split
      · exact List.prefix_refl _
      cases hp.pop st.heap with
      | none => exact List.prefix_refl _
      | some p => exact (out_take { st with heap := p.2 } p.1).trans (ih _)

end Draining

namespace Mempool

variable {F : Type} {sha256 : List UInt8 → Hash} {m : Mempool F} {ord : AcctOrder} {l : Ledger}

/-- The next nonce of every account that the first loop of `Drain` visits. -/
theorem getElem?_expected (accts : List String) (t : Table UInt64) (acct : String) :
    (accts.foldl (fun t a => t.insert a (l.getNonce a + 1)) t)[acct]? =
      if acct ∈ accts then some (l.getNonce acct + 1) else t[acct]? := by
  induction accts generalizing t with
  | nil => simp
  | cons a accts ih =>
      rw [List.foldl_cons, ih, Table.getElem?_put]
      by_cases hmem : acct ∈ accts
      · simp [hmem]
      · by_cases ha : a = acct
        · simp [ha]
        · simp [hmem, ha, Ne.symm ha]

/-- The heap starts with the next transaction of every account. -/
theorem mem_heap_draining {mt : MemTx F} :
    mt ∈ (m.draining ord l).heap ↔ ∃ acct, m.entry acct (l.getNonce acct + 1) = some mt := by
  unfold draining
  dsimp only
  rw [List.mem_filterMap]
  constructor
  · rintro ⟨acct, -, h⟩
    exact ⟨acct, h⟩
  · rintro ⟨acct, h⟩
    exact ⟨acct, mem_order ord h, h⟩

/-- The first element that is popped is handed out. -/
theorem out_take_draining (h : m.Valid sha256) {mt : MemTx F} (hmt : mt ∈ (m.draining ord l).heap)
    (rest : List (MemTx F)) :
    (Draining.take { m.draining ord l with heap := rest } mt).out = [mt.tx] := by
  obtain ⟨acct, hentry⟩ := mem_heap_draining.mp hmt
  have hacct : mt.fromId = acct := (h.stored _ _ _ hentry).acct_eq
  have hexp : (m.draining ord l).expected[acct]?.getD 0 = l.getNonce acct + 1 := by
    unfold draining
    rw [getElem?_expected, if_pos (mem_order ord hentry), Option.getD_some]
  unfold Draining.take
  dsimp only
  rw [hacct, hexp, show (m.draining ord l).pool = m from rfl, hentry]
  simp [draining]

variable [LinearOrder F] {hp : HeapPop F} {now : Int64} {maxCount : ℤ}

/-- `Drain` takes nothing exactly when no sender has its next transaction in the mempool. -/
theorem drain_eq_nil_iff (h : m.Valid sha256) :
    (m.drain ord hp l now maxCount).1 = [] ↔
      ∀ acct, (m.pruneLocked now).entry acct (l.getNonce acct + 1) = none := by
  have hvalid := h.pruneLocked now
  have hheap : ((m.pruneLocked now).draining ord l).heap = [] ↔
      ∀ acct, (m.pruneLocked now).entry acct (l.getNonce acct + 1) = none := by
    rw [List.eq_nil_iff_forall_not_mem]
    simp only [mem_heap_draining, not_exists, Option.eq_none_iff_forall_ne_some]
    exact forall_comm
  rw [← hheap]
  unfold drain
  dsimp only
  generalize hst : (m.pruneLocked now).draining ord l = st
  have hout : st.out = [] := by
    rw [← hst]
    rfl
  have hfull : st.full maxCount = false := by
    simp [Draining.full, hout]
  constructor
  · intro hnil
    by_contra hne
    -- the loop goes round once, and the first element that it pops is handed out
    obtain ⟨fuel, hfuel⟩ : ∃ fuel, st.size = fuel + 1 := by
      have hpos := List.length_pos_iff.mpr hne
      exact ⟨st.size - 1, by unfold Draining.size; omega⟩
    rw [hfuel, Draining.loop, hfull, if_neg Bool.false_ne_true] at hnil
    cases hpop : hp.pop st.heap with
    | none => exact hne ((hp.eq_none_iff _).mp hpop)
    | some p =>
        rw [hpop] at hnil
        dsimp only at hnil
        have hmem : p.1 ∈ ((m.pruneLocked now).draining ord l).heap := by
          rw [hst]
          exact (hp.perm _ _ _ hpop).subset List.mem_cons_self
        have hone := out_take_draining hvalid hmem p.2
        rw [hst] at hone
        have hpre := Draining.out_loop (Draining.take { st with heap := p.2 } p.1) hp maxCount fuel
        rw [hnil, List.prefix_nil, hone] at hpre
        cases hpre
  · intro hnil
    cases st.size with
    | zero => exact hout
    | succ fuel =>
        rw [Draining.loop, hfull, if_neg Bool.false_ne_true, (hp.eq_none_iff _).mpr hnil]
        exact hout

theorem apart_drain (h : m.Valid sha256) :
    (m.drain ord hp l now maxCount).1.Nodup ∧ ∀ tx ∈ (m.drain ord hp l now maxCount).1, ∀ acct k mt,
        (m.drain ord hp l now maxCount).2.entry acct k = some mt → mt.tx ≠ tx := by
  have hstart : ((m.pruneLocked now).draining ord l).Apart sha256 :=
    ⟨h.pruneLocked now, List.nodup_nil, fun _ htx => absurd htx List.not_mem_nil⟩
  have hend := hstart.loop hp maxCount ((m.pruneLocked now).draining ord l).size
  exact ⟨hend.nodup, hend.gone⟩

end Mempool

/-! ### What the filter drops -/

namespace Sim

variable {m : Sim} {txs : List Tx}

/-- The filter keeps all of its transactions exactly when they go through one after the other. -/
theorem filterTxs_eq_self_iff : m.filterTxs txs = txs ↔ ∃ m', m.applyTxsToSim txs = .ok m' := by
  constructor
  · intro h
    obtain ⟨m', hm'⟩ := applyTxsToSim_filterTxs m txs
    exact ⟨m', h ▸ hm'⟩
  · rintro ⟨m', hm'⟩
    induction txs generalizing m with
    | nil => rfl
    | cons tx txs ih =>
        obtain ⟨m₁, hone, hrest⟩ := Res.bind_eq_ok.mp hm'
        rw [filterTxs, filterTx_eq_some_iff.mpr hone]
        exact congrArg (tx :: ·) (ih hrest)

/-- Of a list without repetitions, the filter keeps every element only if it keeps the list. -/
theorem filterTxs_eq_self_of_subset (hnodup : txs.Nodup) (h : txs ⊆ m.filterTxs txs) :
    m.filterTxs txs = txs :=
  (filterTxs_sublist m txs).eq_of_length_le (hnodup.subperm h).length_le

end Sim

end ReserveOS
