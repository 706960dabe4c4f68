import ReserveOS.Node.Events
import ReserveOS.Node.FeeReport

/-!
# Fee records and their report

The fee sum that `applyBlockTxs` stores is a variable that the loop over the transactions never adds
to. So every record is zero, and the records and the totals of `/fees/reconcile` are right only
where no fees were paid (`Node.feesAccounted_iff`).

The loop of the handler never ends if its range ends with the largest `uint64`
(`DB.tally_rounds_iff`). Any text of digits beyond that number asks for it, since `ParseUint`
returns it beside its range error.
-/

namespace ReserveOS

/-! ### The sum of fees -/

/-- The fee sum from another start. -/
theorem foldl_sumFees (txs : List Tx) (a : Int64) :
    txs.foldl (fun s tx => if tx.type = "coinbase" then s else s + tx.fee) a = a + sumFees txs := by
  unfold sumFees
  induction txs generalizing a with
  | nil => exact (Int64.add_zero a).symm
  | cons tx txs ih =>
      rw [List.foldl_cons, List.foldl_cons, ih]
      conv_rhs => rw [ih]
      split
      · rw [Int64.zero_add]
      · rw [Int64.zero_add, Int64.add_assoc]

theorem sumFees_append (txs txs' : List Tx) :
    sumFees (txs ++ txs') = sumFees txs + sumFees txs' := by
  conv_lhs => rw [sumFees, List.foldl_append]
  exact foldl_sumFees txs' (sumFees txs)

theorem sumFees_flatMap_eq_zero {bs : List Block} (h : ∀ b ∈ bs, sumFees b.txs = 0) :
    sumFees (bs.flatMap Block.txs) = 0 := by
  induction bs with
  | nil => rfl
  | cons b bs ih =>
      rw [List.flatMap_cons, sumFees_append, h b List.mem_cons_self, Int64.zero_add]
      exact ih fun b' hb' => h b' (List.mem_cons_of_mem b hb')

/-! ### The bounds of the report -/

theorem le_foldl_decimal (cs : List Char) (v : ℕ) :
    v ≤ cs.foldl (fun acc c => acc * 10 + (c.toNat - 48)) v := by
  induction cs generalizing v with
  | nil => exact Nat.le_refl v
  | cons c cs ih =>
      have hstep : v ≤ v * 10 + (c.toNat - 48) := by omega
      exact Nat.le_trans hstep (ih _)

/-- Digits that fit are read at their value. -/
theorem parseUintLoop_eq {cs : List Char} {v : ℕ} (hdigits : ∀ c ∈ cs, '0' ≤ c ∧ c ≤ '9')
    (hfit : cs.foldl (fun acc c => acc * 10 + (c.toNat - 48)) v < 2 ^ 64) :
    parseUintLoop v cs = UInt64.ofNat (cs.foldl (fun acc c => acc * 10 + (c.toNat - 48)) v) := by
  induction cs generalizing v with
  | nil => rfl
  | cons c cs ih =>
      have hv : v * 10 + (c.toNat - 48) < 2 ^ 64 := Nat.lt_of_le_of_lt (le_foldl_decimal cs _) hfit
      rw [parseUintLoop, if_pos (hdigits c List.mem_cons_self)]
      dsimp only
      rw [if_pos hv, ih (fun d hd => hdigits d (List.mem_cons_of_mem c hd)) hfit, List.foldl_cons]

/-- A number that is parsed without an error is the value that a caller without the error sees. -/
theorem parseUintValue_of_parseUint {q : String} {v : UInt64} (h : parseUint q.toList = some v) :
    parseUintValue q = v := by
  rw [parseUint, Option.ite_none_right_eq_some] at h
  obtain ⟨⟨-, hdigits⟩, hv⟩ := h
  rw [Option.ite_none_right_eq_some] at hv
  obtain ⟨hfit, heq⟩ := hv
  have hdigits : ∀ c ∈ q.toList, '0' ≤ c ∧ c ≤ '9' := fun c hc =>
    of_decide_eq_true (List.all_eq_true.mp hdigits c hc)
  rw [parseUintValue, parseUintLoop_eq hdigits hfit]
  exact Option.some.inj heq

/-- Two numbers, the second neither zero nor smaller, are the bounds of the loop. -/
theorem DB.reconcileRange_of_parseUint (s : DB) {fromQ toQ : String} {fromH toH : UInt64}
    (hfrom : parseUint fromQ.toList = some fromH) (hto : parseUint toQ.toList = some toH)
    (hne : toH ≠ 0) (hle : fromH ≤ toH) : s.reconcileRange fromQ toQ = some (fromH, toH) := by
  rw [reconcileRange, parseUintValue_of_parseUint hfrom, parseUintValue_of_parseUint hto,
    if_neg hne, if_neg (UInt64.not_lt.mpr hle)]

/-! ### The loop of the report -/

namespace DB

variable (s : DB) {fromH toH : UInt64}

@[simp] theorem h_tallyRound (t : FeeTally) : (s.tallyRound t).h = t.h + 1 := by
  unfold tallyRound
  split <;> rfl

/-- Below the largest number the loop ends, after one round for each height of the range. -/
theorem exists_tallyStops (hle : fromH ≤ toH) (hto : toH.toNat ≠ 2 ^ 64 - 1) :
    ∃ t, s.TallyStops fromH toH (toH.toNat - fromH.toNat + 1) t := by
  have hfit : toH.toNat + 1 < 2 ^ 64 := by have := toH.toNat_lt; omega
  have hle : fromH.toNat ≤ toH.toNat := UInt64.le_iff_toNat_le.mp hle
  -- the rounds that are left; the counter is at most one past the range
  let μ : FeeTally → ℕ := fun t => toH.toNat + 1 - t.h.toNat
  have hrounds : μ ⟨fromH, 0, 0⟩ = toH.toNat - fromH.toNat + 1 := Nat.sub_add_comm hle
  rw [← hrounds]
  refine WhileLoop.exists_stops (I := fun t => t.h.toNat ≤ toH.toNat + 1) ?_ ?_ ?_
  · intro t ht
    simp only [μ, UInt64.le_iff_toNat_le]
    omega
  · intro t _ hcond
    have hcond : t.h.toNat ≤ toH.toNat := UInt64.le_iff_toNat_le.mp hcond
    have hnext : (s.tallyRound t).h.toNat = t.h.toNat + 1 := by
      rw [h_tallyRound, toNat_succ_of_lt (by omega)]
    refine ⟨by omega, ?_⟩
    simp only [μ, hnext]
    omega
  · exact Nat.le_succ_of_le hle

/-- Every `uint64` is at most the largest one, so the loop goes on. -/
theorem not_tallyStops (hto : toH.toNat = 2 ^ 64 - 1) (k : ℕ) (t : FeeTally) :
    ¬ s.TallyStops fromH toH k t := by
  refine WhileLoop.not_stops (I := fun _ => True) (fun t _ => ⟨?_, trivial⟩) trivial
  have := t.h.toNat_lt
  rw [UInt64.le_iff_toNat_le]
  omega

/-- Records of zero add up to zero. -/
theorem total_of_tallyStops {k : ℕ} {t : FeeTally} (hstops : s.TallyStops fromH toH k t)
    (hzero : ∀ h, fromH ≤ h → h ≤ toH → s.getBlockFeeSum h = some 0)
    (hto : toH.toNat ≠ 2 ^ 64 - 1) : t.total = 0 := by
  have hfit : toH.toNat + 1 < 2 ^ 64 := by have := toH.toNat_lt; omega
  -- the counter stays at or above the start, so the rounds read records of the range only
  refine (WhileLoop.Stops.invariant (I := fun t : FeeTally => fromH ≤ t.h ∧ t.total = 0) ?_ hstops
    ⟨UInt64.le_rfl, rfl⟩).2
  rintro t ⟨hge, htotal⟩ hcond
  refine ⟨?_, ?_⟩
  · have hcond : t.h.toNat ≤ toH.toNat := UInt64.le_iff_toNat_le.mp hcond
    have hge : fromH.toNat ≤ t.h.toNat := UInt64.le_iff_toNat_le.mp hge
    rw [h_tallyRound, UInt64.le_iff_toNat_le, toNat_succ_of_lt (by omega)]
    omega
  · rw [tallyRound, hzero t.h hge hcond, htotal]
    exact Int64.add_zero 0

theorem le_of_reconcileRange {fromQ toQ : String}
    (h : s.reconcileRange fromQ toQ = some (fromH, toH)) : fromH ≤ toH := by
  rw [reconcileRange, Option.ite_none_left_eq_some] at h
  obtain ⟨hnot, heq⟩ := h
  obtain ⟨rfl, rfl⟩ := Prod.mk.inj (Option.some.inj heq)
  exact UInt64.not_lt.mp hnot

/-- For every pair of query values that `/fees/reconcile` accepts, its loop performs one round for
each height of the range and stops if and only if the range does not end with the largest `uint64`.
If it does, the loop never stops. -/
theorem tally_rounds_iff {fromQ toQ : String}
    (h : s.reconcileRange fromQ toQ = some (fromH, toH)) :
    ((∃ t, s.TallyStops fromH toH (toH.toNat - fromH.toNat + 1) t) ↔ toH.toNat ≠ 2 ^ 64 - 1) ∧
      (toH.toNat = 2 ^ 64 - 1 → ∀ k t, ¬ s.TallyStops fromH toH k t) := by
  refine ⟨⟨?_, s.exists_tallyStops (s.le_of_reconcileRange h)⟩, fun hto => s.not_tallyStops hto⟩
  rintro ⟨t, ht⟩ hto
  exact s.not_tallyStops hto _ t ht

end DB

/-! ### The records -/

namespace Node

variable (n : Node)

/-- `applyBlockTxs` on one block after the other, up to the first error. -/
def applyAll : DB → List Block → Res Unit × DB
  | s, [] => (.ok (), s)
  | s, b :: bs =>
      match n.applyBlockTxs s b with
      | (.error e, s') => (.error e, s')
      | (.ok _, s') => applyAll s' bs

end Node

/-- The fee records of applied blocks reconcile: each is the fee sum of its block, and for each
range of their heights `/fees/reconcile` answers with the sum of the fees paid in it. -/
def DB.FeesAccounted (s : DB) (bs : List Block) : Prop :=
  (∀ b ∈ bs, s.getBlockFeeSum b.header.height = some (sumFees b.txs)) ∧
    ∀ fromQ toQ fromH toH, s.reconcileRange fromQ toQ = some (fromH, toH) →
      (∀ h, fromH ≤ h → h ≤ toH → ∃ b ∈ bs, b.header.height = h) →
      ∃ r, s.FeesReconcile fromQ toQ (some r) ∧ r.feeSumTotal = sumFees ((bs.filter fun b =>
          fromH ≤ b.header.height ∧ b.header.height ≤ toH).flatMap Block.txs)

namespace Node

variable (n : Node)

/-- A block that is applied leaves the record zero at its height, and the other records alone. -/
theorem blockFees_applyBlockTxs {s : DB} {b : Block} (h : (n.applyBlockTxs s b).1 = .ok ()) :
    (n.applyBlockTxs s b).2.blockFees = Function.update s.blockFees b.header.height (some 0) := by
  have hframe := congrArg DB.blockFees (n.applyTxs_eq b.txs s)
  unfold applyBlockTxs at h ⊢
  split
  next e s' heq =>
    rw [heq] at h
    cases h
  next s' heq =>
    rw [heq] at hframe
    rw [DB.putBlockFeeSum, hframe]

/-- The records of applied blocks are zero, and a record that was zero stays so. -/
theorem getBlockFeeSum_applyAll {bs : List Block} {s : DB} (happ : (n.applyAll s bs).1 = .ok ())
    {h : UInt64} (hh : (∃ b ∈ bs, b.header.height = h) ∨ s.getBlockFeeSum h = some 0) :
    (n.applyAll s bs).2.getBlockFeeSum h = some 0 := by
  induction bs generalizing s with
  | nil => exact hh.resolve_left fun ⟨b, hb, _⟩ => List.not_mem_nil hb
  | cons b bs ih =>
      have hfees := n.blockFees_applyBlockTxs (s := s) (b := b)
      rw [applyAll] at happ ⊢
      rcases hrun : n.applyBlockTxs s b with ⟨_ | _, s'⟩
      · rw [hrun] at happ
        cases happ
      · rw [hrun] at happ hfees
        apply ih happ
        -- this block's height is written now, another one is left as it was
        rw [DB.getBlockFeeSum, hfees rfl, Function.update_apply]
        by_cases hhere : h = b.header.height
        · exact .inr (if_pos hhere)
        · rw [if_neg hhere]
          refine hh.imp_left ?_
          rintro ⟨b', hb', hheight⟩
          rcases List.mem_cons.mp hb' with rfl | hb'
          · exact absurd hheight.symm hhere
          · exact ⟨b', hb', hheight⟩

/-- For every database and every list of blocks that are applied successfully: the fee records
reconcile if and only if the fees of each block add up to zero, and no block has the largest
`uint64` as its height. -/
theorem feesAccounted_iff {s : DB} {bs : List Block} (happ : (n.applyAll s bs).1 = .ok ()) :
    (n.applyAll s bs).2.FeesAccounted bs ↔
      ∀ b ∈ bs, sumFees b.txs = 0 ∧ b.header.height.toNat ≠ 2 ^ 64 - 1 := by
  have hzero : ∀ b ∈ bs, (n.applyAll s bs).2.getBlockFeeSum b.header.height = some 0 :=
    fun b hb => n.getBlockFeeSum_applyAll happ (.inl ⟨b, hb, rfl⟩)
  generalize (n.applyAll s bs).2 = s' at hzero ⊢
  constructor
  · rintro ⟨hrecords, hreports⟩ b hb
    refine ⟨?_, fun hmax => ?_⟩
    · exact (Option.some.inj ((hzero b hb).symm.trans (hrecords b hb))).symm
    · -- the report on this height alone is never answered
      have hquery : parseUint "18446744073709551615".toList = some b.header.height := by
        rw [← UInt64.ofNat_toNat (x := b.header.height), hmax]
        rfl
      have hne : b.header.height ≠ 0 := by
        intro h0
        rw [h0] at hmax
        exact absurd hmax (by decide)
      have hrange := s'.reconcileRange_of_parseUint hquery hquery hne UInt64.le_rfl
      have hcovered : ∀ h, b.header.height ≤ h → h ≤ b.header.height →
          ∃ b' ∈ bs, b'.header.height = h :=
        fun h hge hle => ⟨b, hb, UInt64.le_antisymm hge hle⟩
      obtain ⟨r, hr, _⟩ := hreports _ _ _ _ hrange hcovered
      cases hr with
      | @report fromH toH k t hrange' hloop =>
          rw [hrange] at hrange'
          obtain ⟨rfl, rfl⟩ := Prod.mk.inj (Option.some.inj hrange')
          exact s'.not_tallyStops hmax k t hloop
  · intro hcond
    refine ⟨fun b hb => ?_, fun fromQ toQ fromH toH hrange hcovered => ?_⟩
    · rw [hzero b hb, (hcond b hb).1]
    · have hle := s'.le_of_reconcileRange hrange
      -- the end of the range is the height of a block
      obtain ⟨b, hb, hbto⟩ := hcovered toH hle UInt64.le_rfl
      have hto : toH.toNat ≠ 2 ^ 64 - 1 := hbto ▸ (hcond b hb).2
      obtain ⟨t, ht⟩ := s'.exists_tallyStops hle hto
      refine ⟨_, .report hrange ht, ?_⟩
      have hrecords : ∀ h, fromH ≤ h → h ≤ toH → s'.getBlockFeeSum h = some 0 := by
        intro h hge hle'
        obtain ⟨b', hb', rfl⟩ := hcovered h hge hle'
        exact hzero b' hb'
      rw [s'.total_of_tallyStops ht hrecords hto, sumFees_flatMap_eq_zero]
      exact fun b' hb' => (hcond b' (List.mem_of_mem_filter hb')).1

end Node

/-! ### Concrete reports -/

namespace DB

open Sample

/-- On a new node the heights 2 to 5 are read in four rounds. -/
theorem tally_rounds_four :
    (node.genesisDB ∅).reconcileRange "2" "5" = some (2, 5) ∧
      ∃ t, (node.genesisDB ∅).TallyStops 2 5 4 t := by
  have hrange : (node.genesisDB ∅).reconcileRange "2" "5" = some (2, 5) := rfl
  exact ⟨hrange, ((tally_rounds_iff _ hrange).1).mpr (by decide)⟩

/-- Requests up to the largest `uint64`, and up to a number beyond it, are accepted and never
answered. -/
theorem not_tally_rounds_max :
    (node.genesisDB ∅).reconcileRange "0" "18446744073709551615" = some (0, 18446744073709551615) ∧
      (node.genesisDB ∅).reconcileRange "0" "99999999999999999999" =
        some (0, 18446744073709551615) ∧
      ∀ k t, ¬ (node.genesisDB ∅).TallyStops 0 18446744073709551615 k t := by
  refine ⟨rfl, rfl, ?_⟩
  exact (node.genesisDB ∅).not_tallyStops (by decide)

end DB

namespace Sample

/-- A block in which alice earns the reward and pays a fee of one. -/
def feeBlock : Block :=
  child node.genesisBlock 1 0x20010000
    [coinbase alice, { transfer alice 1 [pay bob 60] with fee := 1 }]

end Sample

namespace Node

open Sample

/-- The records of a block without fees reconcile. -/
theorem feesAccounted_spend :
    (node.applyAll (node.genesisDB ∅) [spend₁]).1 = .ok () ∧
      (node.applyAll (node.genesisDB ∅) [spend₁]).2.FeesAccounted
        [spend₁] := by
  have happ : (node.applyAll (node.genesisDB ∅) [spend₁]).1 = .ok () := by
    rfl
  refine ⟨happ, (node.feesAccounted_iff happ).mpr fun b hb => ?_⟩
  rw [List.mem_singleton.mp hb]
  decide

/-- A block with a fee of one is applied, and its record is zero. -/
theorem not_feesAccounted_feeBlock :
    (node.applyAll (node.genesisDB ∅) [feeBlock]).1 = .ok () ∧ sumFees feeBlock.txs = 1 ∧
      (node.applyAll (node.genesisDB ∅) [feeBlock]).2.getBlockFeeSum 1 = some 0 ∧
      ¬ (node.applyAll (node.genesisDB ∅) [feeBlock]).2.FeesAccounted
        [feeBlock] := by
  have hfees : sumFees feeBlock.txs = 1 := rfl
  have hrecord : (node.applyAll (node.genesisDB ∅) [feeBlock]).2.getBlockFeeSum
      1 = some 0 := by rfl
  refine ⟨by rfl, hfees, hrecord, fun haccounted => ?_⟩
  have hone := haccounted.1 feeBlock (List.mem_singleton.mpr rfl)
  rw [hfees] at hone
  exact absurd (hrecord.symm.trans hone) (by decide)

end Node

end ReserveOS
