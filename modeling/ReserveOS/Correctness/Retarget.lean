import ReserveOS.Correctness.Targets

/-!
# Retargeting

`Retarget` adds one to the compact value of a target when blocks come too fast, and takes one off
when they come too slowly. A larger compact value is an easier target, so this is the wrong way
round. It does no harm at the exponents one and two, where the lowest bits of the mantissa do not
count. The upper bound of the span is computed in `int64` and may wrap, and the largest mantissa is
followed by a target of zero; `retarget_directed_iff` puts these together.
-/

namespace ReserveOS

/-! ### The bits that `Retarget` returns -/

variable {bits : UInt32} {actual target : Int64}

theorem div_four_lt (h : 0 < target) : target / 4 < target := by
  rw [Int64.lt_iff_toInt_lt] at h ⊢
  rw [Int64.toInt_zero] at h
  have hlt := target.toInt_lt
  rw [Int64.toInt_div, show (4 : Int64).toInt = 4 from rfl, Int.tdiv_eq_ediv_of_nonneg h.le,
    Int.bmod_def]
  have hq : 0 ≤ target.toInt / 4 ∧ target.toInt / 4 < target.toInt := by omega
  generalize target.toInt / 4 = q at hq
  norm_num at hlt ⊢
  split <;> omega

/-- Four times a span is another span, also where it wraps: three is a unit modulo `2 ^ 64`. -/
theorem mul_four_ne (h : 0 < target) : target * 4 ≠ target := by
  intro heq
  have hzero : target = (target * 4 - target) * 0xaaaaaaaaaaaaaaab := by grind
  rw [heq, Int64.sub_self, Int64.zero_mul] at hzero
  rw [hzero] at h
  exact Int64.lt_irrefl h

/-- A span below the target adds one to the compact value. -/
theorem retarget_of_lt (htarget : 0 < target) (hlt : actual < target) :
    retarget bits actual target = bits + 1 := by
  have hmin := div_four_lt htarget
  have hclamp : (if actual < target / 4 then target / 4 else actual) < target := by
    split
    · exact hmin
    · exact hlt
  unfold retarget
  dsimp only
  generalize (if actual < target / 4 then target / 4 else actual) = a at hclamp
  have hcap : (if target * 4 < a then target * 4 else a) < target := by
    split
    next hover => exact Int64.lt_trans hover hclamp
    next => exact hclamp
  rw [if_neg (Int64.not_le.mpr htarget), if_pos hcap]

/-- A span above the target takes one off, unless the upper bound of the span wraps. -/
theorem retarget_of_gt (htarget : 0 < target) (hgt : target < actual) (hbits : 1 < bits) :
    retarget bits actual target = if target * 4 < target then bits + 1 else bits - 1 := by
  have hmin : ¬ actual < target / 4 := fun h =>
    Int64.lt_asymm (Int64.lt_trans h (div_four_lt htarget)) hgt
  unfold retarget
  dsimp only
  rw [if_neg (Int64.not_le.mpr htarget), if_neg hmin]
  by_cases hwrap : target * 4 < target
  · rw [if_pos (Int64.lt_trans hwrap hgt), if_pos hwrap, if_pos hwrap]
  · have hmax : target < target * 4 := by
      rcases Int64.lt_or_le target (target * 4) with h | h
      · exact h
      · exact absurd (Int64.lt_of_le_of_ne h (mul_four_ne htarget)) hwrap
    have hcap : target < if target * 4 < actual then target * 4 else actual := by
      split
      · exact hmax
      · exact hgt
    rw [if_neg (Int64.lt_asymm hcap), if_pos hcap, if_pos hbits, if_neg hwrap]

/-! ### The targets next to a target -/

theorem compactValue_mono (e : ℕ) {m m' : ℕ} (h : m ≤ m') :
    compactValue e m ≤ compactValue e m' := by
  unfold compactValue
  split
  · exact Nat.div_le_div_right h
  · exact Nat.mul_le_mul_right _ h

/-- One more in the mantissa does not count exactly if it is shifted out without a carry. -/
theorem compactValue_succ_le_iff (e m : ℕ) :
    compactValue e (m + 1) ≤ compactValue e m ↔ e ≤ 3 ∧ (m + 1) % 256 ^ (3 - e) ≠ 0 := by
  unfold compactValue
  split
  next he =>
    rw [and_iff_right he, Nat.succ_div, ne_eq, ← Nat.dvd_iff_mod_eq_zero]
    split
    next hdvd => simp [hdvd]
    next hdvd => simp [hdvd]
  next he =>
    have hpos : 0 < 256 ^ ((e - 3) % 32) := Nat.pow_pos (by decide)
    simp only [he, false_and, iff_false, not_le]
    exact Nat.mul_lt_mul_of_pos_right (Nat.lt_succ_self m) hpos

/-- A positive target has a positive exponent and a positive mantissa. -/
theorem pos_of_compactToBig_pos (h : 0 < compactToBig bits) :
    0 < compactExponent bits ∧ 0 < compactMantissa bits := by
  have hm := compactMantissa_lt bits
  rw [compactToBig_eq, compactValue] at h
  constructor
  · apply Nat.pos_of_ne_zero
    intro he
    rw [he, if_pos (Nat.zero_le 3), Nat.div_eq_of_lt (hm.trans (by decide))] at h
    exact lt_irrefl 0 h
  · apply Nat.pos_of_ne_zero
    intro hzero
    rw [hzero] at h
    simp at h

/-- The target of the next compact value. -/
theorem compactToBig_succ (h : compactMantissa bits + 1 < 2 ^ 23) :
    compactToBig (bits + 1) = compactValue (compactExponent bits) (compactMantissa bits + 1) := by
  have hlt := bits.toNat_lt
  unfold compactMantissa at h
  have hsucc : (bits + 1).toNat = bits.toNat + 1 := by
    rw [UInt32.toNat_add]
    show (bits.toNat + 1) % 2 ^ 32 = _
    omega
  rw [compactToBig_eq, compactExponent, compactMantissa, compactExponent, compactMantissa, hsucc]
  congr 1
  · omega
  · omega

/-- Above the largest mantissa comes the mantissa zero. -/
theorem compactToBig_succ_of_max (h : compactMantissa bits = 2 ^ 23 - 1) :
    compactToBig (bits + 1) = 0 := by
  have hzero : compactMantissa (bits + 1) = 0 := by
    unfold compactMantissa at h ⊢
    rw [UInt32.toNat_add]
    show (bits.toNat + 1) % 2 ^ 32 % 2 ^ 23 = 0
    omega
  rw [compactToBig_eq, hzero, compactValue]
  simp

/-- The target of the previous compact value. -/
theorem compactToBig_pred (h : 0 < compactMantissa bits) :
    compactToBig (bits - 1) = compactValue (compactExponent bits) (compactMantissa bits - 1) := by
  unfold compactMantissa at h
  have hle : (1 : UInt32) ≤ bits := by
    rw [UInt32.le_iff_toNat_le]
    show 1 ≤ bits.toNat
    omega
  have hpred : (bits - 1).toNat = bits.toNat - 1 := UInt32.toNat_sub_of_le _ _ hle
  rw [compactToBig_eq, compactExponent, compactMantissa, compactExponent, compactMantissa, hpred]
  congr 1
  · omega
  · omega

/-- The next compact value has no smaller target, unless its mantissa is zero. -/
theorem compactToBig_le_succ_iff (h : 0 < compactToBig bits) :
    compactToBig bits ≤ compactToBig (bits + 1) ↔ compactMantissa bits ≠ 2 ^ 23 - 1 := by
  have hmax := compactMantissa_lt bits
  constructor
  · intro hle hlast
    rw [compactToBig_succ_of_max hlast] at hle
    exact absurd h (not_lt.mpr hle)
  · intro hne
    rw [compactToBig_succ (by omega), compactToBig_eq]
    exact compactValue_mono _ (Nat.le_succ _)

/-- The next compact value has a positive target that is no larger exactly if it has the same one.
-/
theorem compactToBig_succ_le_iff (h : 0 < compactToBig bits) :
    (0 < compactToBig (bits + 1) ∧ compactToBig (bits + 1) ≤ compactToBig bits) ↔
      compactExponent bits ≤ 3 ∧
        (compactMantissa bits + 1) % 256 ^ (3 - compactExponent bits) ≠ 0 := by
  have he := (pos_of_compactToBig_pos h).1
  have hmax := compactMantissa_lt bits
  by_cases hlast : compactMantissa bits = 2 ^ 23 - 1
  · -- all bits of the mantissa are ones, so there is a carry at every exponent
    rw [compactToBig_succ_of_max hlast, hlast]
    refine iff_of_false (fun hpos => lt_irrefl 0 hpos.1) fun ⟨hle, hmod⟩ => hmod ?_
    interval_cases compactExponent bits <;> rfl
  · rw [← compactValue_succ_le_iff, ← compactToBig_succ (by omega), ← compactToBig_eq]
    exact and_iff_right (h.trans_le ((compactToBig_le_succ_iff h).mpr hlast))

/-- The compact value before has a target that is no smaller exactly if it has the same one. -/
theorem compactToBig_le_pred_iff (h : 0 < compactToBig bits) :
    compactToBig bits ≤ compactToBig (bits - 1) ↔
      compactExponent bits ≤ 3 ∧ compactMantissa bits % 256 ^ (3 - compactExponent bits) ≠ 0 := by
  have hm := (pos_of_compactToBig_pos h).2
  obtain ⟨k, hk⟩ : ∃ k, compactMantissa bits = k + 1 := Nat.exists_eq_add_one.mpr hm
  rw [compactToBig_pred hm, compactToBig_eq, hk, Nat.add_sub_cancel, compactValue_succ_le_iff]

/-! ### The direction -/

/-- Blocks that come too fast do not make the target easier, and blocks that come too slowly do not
make it harder. -/
structure RetargetDirected (bits : UInt32) (actual target : Int64) : Prop where
  fast : actual < target → 0 < compactToBig (retarget bits actual target) ∧
    compactToBig (retarget bits actual target) ≤ compactToBig bits
  slow : target < actual → compactToBig bits ≤ compactToBig (retarget bits actual target)

/-- `Retarget` moves the target in the right direction exactly if it does not move it, that is, at
an exponent of at most two and without a carry into the bits that count, or if the upper bound of
the span wraps below the target span and the mantissa is not the largest. -/
theorem retarget_directed_iff (bits : UInt32) (hpos : 0 < compactToBig bits)
    (actual target : Int64) (htarget : 0 < target) :
    RetargetDirected bits actual target ↔ (actual < target → compactExponent bits ≤ 3 ∧
        (compactMantissa bits + 1) % 256 ^ (3 - compactExponent bits) ≠ 0) ∧
      (target < actual → if target * 4 < target then compactMantissa bits ≠ 2 ^ 23 - 1
        else compactExponent bits ≤ 3 ∧
          compactMantissa bits % 256 ^ (3 - compactExponent bits) ≠ 0) := by
  have hbits : 1 < bits := by
    have he := (pos_of_compactToBig_pos hpos).1
    rw [UInt32.lt_iff_toNat_lt]
    show 1 < bits.toNat
    unfold compactExponent at he
    omega
  have hsplit : RetargetDirected bits actual target ↔
      (actual < target → 0 < compactToBig (retarget bits actual target) ∧
        compactToBig (retarget bits actual target) ≤ compactToBig bits) ∧
      (target < actual → compactToBig bits ≤ compactToBig (retarget bits actual target)) :=
    ⟨fun h => ⟨h.fast, h.slow⟩, fun h => ⟨h.1, h.2⟩⟩
  rw [hsplit]
  -- what counts of the new bits is that they are one more or one less than the old ones
  refine and_congr (imp_congr_right fun hlt => ?_) (imp_congr_right fun hgt => ?_)
  · rw [retarget_of_lt htarget hlt]
    exact compactToBig_succ_le_iff hpos
  · rw [retarget_of_gt htarget hgt hbits]
    split
    · exact compactToBig_le_succ_iff hpos
    · exact compactToBig_le_pred_iff hpos

/-- The target one at exponent one, after blocks that came too fast. -/
theorem retarget_directed_one :
    compactToBig 0x01010000 = 1 ∧ RetargetDirected 0x01010000 300 600 := by
  refine ⟨by decide, (retarget_directed_iff 0x01010000 (by decide) 300 600 (by decide)).mpr ?_⟩
  exact ⟨fun _ => by decide, fun hgt => absurd hgt (by decide)⟩

/-- At a common exponent, half the target span makes the target larger, and twice the target span
makes it smaller. -/
theorem not_retarget_directed_common :
    0 < compactToBig 0x1d00ffff ∧
    compactToBig 0x1d00ffff < compactToBig (retarget 0x1d00ffff 300 600) ∧
    compactToBig (retarget 0x1d00ffff 1200 600) < compactToBig 0x1d00ffff := by
  decide

end ReserveOS
