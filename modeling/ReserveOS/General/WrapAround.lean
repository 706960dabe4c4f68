import Mathlib.Algebra.Order.Ring.Int

/-!
# Wrap-around

`int64` keeps an integer up to multiples of `2 ^ 64`. How many it drops is `wraps v`, and what is
left is `wrapped v`. A comparison of two wrapped integers is one of the integers themselves if both
dropped the same (`le_iff_wraps`).
-/

namespace WrapAround

/-- How often `int64` wraps around on the way to an integer. -/
def wraps (v : ℤ) : ℤ := (v + 2 ^ 63) / 2 ^ 64

/-- What `int64` keeps of an integer. -/
def wrapped (v : ℤ) : ℤ := v - 2 ^ 64 * wraps v

theorem toInt_ofInt (v : ℤ) : (Int64.ofInt v).toInt = wrapped v := by
  rw [Int64.toInt_ofInt, Int.bmod_def, wrapped, wraps]
  simp only [Int64.size, Nat.cast_ofNat]
  omega

theorem toInt_mul (a b : Int64) : (a * b).toInt = wrapped (a.toInt * b.toInt) := by
  rw [← toInt_ofInt, Int64.ofInt_mul, Int64.ofInt_toInt, Int64.ofInt_toInt]

/-- An integer below `3 * 2 ^ 63` wraps around once at most. -/
theorem wrapped_once {v : ℤ} (hv : 0 ≤ v) (hlt : v < 3 * 2 ^ 63) :
    wrapped v = if v < 2 ^ 63 then v else v - 2 ^ 64 := by
  have hk : wraps v = if v < 2 ^ 63 then 0 else 1 := by
    unfold wraps
    split <;> omega
  rw [wrapped, hk]
  split <;> omega

/-- An integer out of range loses at least `2 ^ 64`. -/
theorem wrapped_le {v : ℤ} (hv : 2 ^ 63 ≤ v) : wrapped v ≤ v - 2 ^ 64 := by
  have hk : 1 ≤ wraps v := by
    unfold wraps
    omega
  unfold wrapped
  omega

/-- Two integers compare by the number of wraps first, then by what is kept. -/
theorem le_iff_wraps (P Q : ℤ) :
    P ≤ Q ↔ wraps P < wraps Q ∨ wraps P = wraps Q ∧ wrapped P ≤ wrapped Q := by
  have hrange : ∀ v, -2 ^ 63 ≤ wrapped v ∧ wrapped v < 2 ^ 63 := by
    intro v
    unfold wrapped wraps
    omega
  have hP := hrange P
  have hQ := hrange Q
  unfold wrapped at *
  omega

end WrapAround
