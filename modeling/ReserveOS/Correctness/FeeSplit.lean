import ReserveOS.Economics.Fees

/-!
# Splitting fees

The parts of `SplitFees` are percentages of the total, computed as an `int64` product and a
truncating division, and one difference. Up to `2 ^ 63 / 50` no product wraps around
(`product_of_le`). Above, a product may come out negative, and with it a part. This is all that can
go wrong: as long as no product is negative, the difference is not negative either and the parts
add up (`splitFees_conserves_iff`).
-/

namespace ReserveOS

/-- No part is negative, and the parts add up to the total. -/
structure Split.Conserves (sp : Split) (total : Int64) : Prop where
  validators : 0 ≤ sp.toValidators.toInt
  participation : 0 ≤ sp.toParticipation.toInt
  treasury : 0 ≤ sp.toTreasury.toInt
  defensePool : 0 ≤ sp.toDefensePool.toInt
  sum : sp.toValidators.toInt + sp.toParticipation.toInt + sp.toTreasury.toInt +
    sp.toDefensePool.toInt = total.toInt

/-- The percentages of the parts that are computed by a product. -/
def percentages (mode : String) : List Int64 :=
  if mode = modeDefense then [35, 15, 20]
  else if mode = modeContainment then [25, 10, 15]
  else [50, 20]

/-! ### One part -/

/-- Division by a hundred towards zero. -/
theorem tdiv_hundred (x : ℤ) : x.tdiv 100 = if 0 ≤ x then x / 100 else -(-x / 100) := by
  split
  next h => exact Int.tdiv_eq_ediv_of_nonneg h
  next h => rw [← Int.tdiv_eq_ediv_of_nonneg (by omega), Int.neg_tdiv, neg_neg]

theorem toInt_div_hundred (x : Int64) : (x / 100).toInt = x.toInt.tdiv 100 := by
  have hlow := x.le_toInt
  have hhigh := x.toInt_lt
  rw [Int64.toInt_div, show (100 : Int64).toInt = 100 from rfl, tdiv_hundred]
  split <;> exact Int.bmod_eq_of_le (by omega) (by omega)

/-- A part is negative where its product is `-100` or less. -/
theorem part_nonneg_iff (x : Int64) : 0 ≤ (x / 100).toInt ↔ -100 < x := by
  rw [Int64.lt_iff_toInt_lt, show (-100 : Int64).toInt = -100 from rfl, toInt_div_hundred,
    tdiv_hundred]
  split <;> omega

/-- A part is never more than its percentage of the total: wrapping around takes away multiples of
`2 ^ 64`. -/
theorem part_le {total p : Int64} (hpos : 0 < total.toInt) (hp : 0 ≤ p.toInt) :
    100 * (total * p / 100).toInt ≤ total.toInt * p.toInt := by
  have hexact : 0 ≤ total.toInt * p.toInt := mul_nonneg hpos.le hp
  have hle : (total * p).toInt ≤ total.toInt * p.toInt := by
    rw [Int64.toInt_mul, Int.bmod_def]
    split <;> omega
  rw [toInt_div_hundred, tdiv_hundred]
  split <;> omega

/-- A difference that is not below the `int64` range. -/
theorem toInt_sub_part {a b : Int64} (hb : 0 ≤ b.toInt) (hlow : -2 ^ 63 ≤ a.toInt - b.toInt) :
    (a - b).toInt = a.toInt - b.toInt := by
  have ha := a.toInt_lt
  rw [Int64.toInt_sub]
  exact Int.bmod_eq_of_le (by omega) (by omega)

/-! ### All parts -/

section Parts

variable {total v pop tr : Int64}

/-- Three parts, of which the last is what the first two leave. -/
theorem Split.conserves_three_iff (hsum : v.toInt + pop.toInt ≤ total.toInt) :
    (Split.mk v pop (total - v - pop) 0).Conserves total ↔ 0 ≤ v.toInt ∧ 0 ≤ pop.toInt := by
  constructor
  · intro h
    exact ⟨h.validators, h.participation⟩
  · rintro ⟨hv, hpop⟩
    have hfirst : (total - v).toInt = total.toInt - v.toInt := toInt_sub_part hv (by omega)
    have hrest : (total - v - pop).toInt = (total - v).toInt - pop.toInt :=
      toInt_sub_part hpop (by omega)
    refine ⟨hv, hpop, ?_, le_rfl, ?_⟩
    · show 0 ≤ (total - v - pop).toInt
      omega
    · show v.toInt + pop.toInt + (total - v - pop).toInt + 0 = total.toInt
      omega

/-- Four parts, of which the last is what the first three leave. -/
theorem Split.conserves_four_iff (hsum : v.toInt + pop.toInt + tr.toInt ≤ total.toInt) :
    (Split.mk v pop tr (total - v - pop - tr)).Conserves total ↔
      0 ≤ v.toInt ∧ 0 ≤ pop.toInt ∧ 0 ≤ tr.toInt := by
  constructor
  · intro h
    exact ⟨h.validators, h.participation, h.treasury⟩
  · rintro ⟨hv, hpop, htr⟩
    have hthree : v.toInt + pop.toInt ≤ total.toInt := by omega
    have hleft : v.toInt + pop.toInt + (total - v - pop).toInt + 0 = total.toInt :=
      ((Split.conserves_three_iff hthree).mpr ⟨hv, hpop⟩).sum
    have hrest : (total - v - pop - tr).toInt = (total - v - pop).toInt - tr.toInt :=
      toInt_sub_part htr (by omega)
    refine ⟨hv, hpop, htr, ?_, ?_⟩
    · show 0 ≤ (total - v - pop - tr).toInt
      omega
    · show v.toInt + pop.toInt + tr.toInt + (total - v - pop - tr).toInt = total.toInt
      omega

end Parts

/-- The parts of a positive total are not negative and add up to it exactly if no product by a
percentage wraps around to a value of `-100` or less. -/
theorem splitFees_conserves_iff (total : Int64) (mode : String) (hpos : 0 < total) :
    (splitFees total mode).Conserves total ↔ ∀ p ∈ percentages mode, -100 < total * p := by
  have hpos' : 0 < total.toInt := Int64.lt_iff_toInt_lt.mp hpos
  have hle : ∀ p : Int64, 0 ≤ p.toInt → 100 * (total * p / 100).toInt ≤ total.toInt * p.toInt :=
    fun p hp => part_le hpos' hp
  unfold splitFees percentages
  rw [if_neg (Int64.not_le.mpr hpos)]
  simp only [← part_nonneg_iff]
  -- in each mode the percentages add up to at most a hundred
  split
  · have h₁ : _ ≤ total.toInt * 35 := hle 35 (by decide)
    have h₂ : _ ≤ total.toInt * 15 := hle 15 (by decide)
    have h₃ : _ ≤ total.toInt * 20 := hle 20 (by decide)
    rw [Split.conserves_four_iff (by omega)]
    simp only [List.forall_mem_cons, List.not_mem_nil, false_implies, implies_true, and_true]
  · split
    · have h₁ : _ ≤ total.toInt * 25 := hle 25 (by decide)
      have h₂ : _ ≤ total.toInt * 10 := hle 10 (by decide)
      have h₃ : _ ≤ total.toInt * 15 := hle 15 (by decide)
      rw [Split.conserves_four_iff (by omega)]
      simp only [List.forall_mem_cons, List.not_mem_nil, false_implies, implies_true, and_true]
    · have h₁ : _ ≤ total.toInt * 50 := hle 50 (by decide)
      have h₂ : _ ≤ total.toInt * 20 := hle 20 (by decide)
      rw [Split.conserves_three_iff (by omega)]
      simp only [List.forall_mem_cons, List.not_mem_nil, false_implies, implies_true, and_true]

/-- Up to `2 ^ 63 / 50` no product wraps around. -/
theorem product_of_le {total : Int64} (hpos : 0 < total) (hle : total ≤ 184467440737095516)
    {mode : String} : ∀ p ∈ percentages mode, -100 < total * p := by
  have hpos' : 0 < total.toInt := Int64.lt_iff_toInt_lt.mp hpos
  have hle' : total.toInt ≤ 184467440737095516 := Int64.le_iff_toInt_le.mp hle
  intro p hp
  have hrange : 0 ≤ p.toInt ∧ p.toInt ≤ 50 := by
    unfold percentages at hp
    split at hp
    · obtain rfl | rfl | rfl : p = 35 ∨ p = 15 ∨ p = 20 := by simpa using hp
      all_goals decide
    · split at hp
      · obtain rfl | rfl | rfl : p = 25 ∨ p = 10 ∨ p = 15 := by simpa using hp
        all_goals decide
      · obtain rfl | rfl : p = 50 ∨ p = 20 := by simpa using hp
        all_goals decide
  have hlow : 0 ≤ total.toInt * p.toInt := mul_nonneg hpos'.le hrange.1
  have hhigh : total.toInt * p.toInt ≤ 184467440737095516 * 50 :=
    mul_le_mul hle' hrange.2 hrange.1 (by decide)
  rw [Int64.lt_iff_toInt_lt, Int64.toInt_mul, Int.bmod_eq_of_le (by omega) (by omega)]
  exact lt_of_lt_of_le (by decide) hlow

/-- A total of a million in the defence mode, with the parts that it is split into. -/
theorem splitFees_conserves_million :
    splitFees 1000000 "DEFENSE" = ⟨350000, 150000, 200000, 300000⟩ ∧
      (splitFees 1000000 "DEFENSE").Conserves 1000000 :=
  ⟨by decide, (splitFees_conserves_iff 1000000 "DEFENSE" (by decide)).mpr
    (product_of_le (by decide) (by decide))⟩

/-- One above this bound the product by the largest percentage wraps around: the part of the
validators is negative, and the treasury receives more than the total. -/
theorem not_splitFees_conserves_large :
    splitFees 184467440737095517 "NORMAL" =
        ⟨-92233720368547757, 36893488147419103, 239807672958224171, 0⟩ ∧
      ¬ (splitFees 184467440737095517 "NORMAL").Conserves 184467440737095517 := by
  refine ⟨by decide, fun h => ?_⟩
  exact absurd h.validators (by decide)

end ReserveOS
