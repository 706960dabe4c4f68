import Mathlib.Data.Nat.Digits.Lemmas

/-!
# Leading digits

The first digits of a number in some base, as a number of their own. `leading b k t` reads the `k`
most significant digits of `t`, filled up with zeros on the right if there are fewer. It forgets how
many digits `t` has: zeros at the end of `t` do not change it (`leading_mul_pow`).
-/

namespace Radix

variable {b : ℕ}

/-- The first `k` digits of `t` in base `b`. -/
def leading (b k t : ℕ) : ℕ := t * b ^ k / b ^ (b.digits t).length

theorem leading_lt (hb : 1 < b) (k t : ℕ) : leading b k t < b ^ k := by
  apply Nat.div_lt_of_lt_mul
  exact Nat.mul_lt_mul_of_pos_right (Nat.lt_base_pow_length_digits hb) (Nat.pow_pos (by omega))

/-- The first of the digits is not zero. -/
theorem pow_le_leading (hb : 1 < b) (k : ℕ) {t : ℕ} (ht : t ≠ 0) : b ^ k ≤ leading b (k + 1) t := by
  rw [leading, Nat.le_div_iff_mul_le (Nat.pow_pos (by omega))]
  have hlen : b ^ (b.digits t).length ≤ b * t := Nat.base_pow_length_digits_le b t hb ht
  calc b ^ k * b ^ (b.digits t).length ≤ b ^ k * (b * t) := Nat.mul_le_mul_left _ hlen
    _ = t * b ^ (k + 1) := by ring

/-- A number of at most `k` digits is filled up with zeros. -/
theorem leading_of_length_le {k t : ℕ} (hb : 1 < b) (h : (b.digits t).length ≤ k) :
    leading b k t = t * b ^ (k - (b.digits t).length) := by
  have hpow : b ^ k = b ^ (k - (b.digits t).length) * b ^ (b.digits t).length := by
    rw [← pow_add, Nat.sub_add_cancel h]
  rw [leading, hpow, ← mul_assoc, Nat.mul_div_cancel _ (Nat.pow_pos (by omega))]

/-- Of a number of at least `k` digits the others are dropped. -/
theorem leading_of_le_length {k t : ℕ} (hb : 1 < b) (h : k ≤ (b.digits t).length) :
    leading b k t = t / b ^ ((b.digits t).length - k) := by
  have hpow : b ^ (b.digits t).length = b ^ ((b.digits t).length - k) * b ^ k := by
    rw [← pow_add, Nat.sub_add_cancel h]
  rw [leading, hpow, Nat.mul_div_mul_right _ _ (Nat.pow_pos (by omega))]

theorem length_digits_mul_pow (hb : 1 < b) (s : ℕ) {t : ℕ} (ht : t ≠ 0) :
    (b.digits (t * b ^ s)).length = (b.digits t).length + s := by
  rw [mul_comm, Nat.digits_base_pow_mul hb (Nat.pos_of_ne_zero ht), List.length_append,
    List.length_replicate, Nat.add_comm]

/-- Zeros at the end do not count. -/
theorem leading_mul_pow (hb : 1 < b) (k s : ℕ) {t : ℕ} (ht : t ≠ 0) :
    leading b k (t * b ^ s) = leading b k t := by
  rw [leading, leading, length_digits_mul_pow hb s ht, pow_add, mul_right_comm,
    Nat.mul_div_mul_right _ _ (Nat.pow_pos (by omega))]

/-- More digits than there are add zeros only. -/
theorem leading_add_of_length_le {k t : ℕ} (hb : 1 < b) (h : (b.digits t).length ≤ k) (j : ℕ) :
    leading b (k + j) t = leading b k t * b ^ j := by
  rw [leading_of_length_le hb (h.trans (Nat.le_add_right k j)), leading_of_length_le hb h,
    mul_assoc, ← pow_add, Nat.sub_add_comm h]

/-- Reading digits one after the other, the most significant one first, gives the quotient. -/
theorem foldl_digits {n k t : ℕ} (hk : k ≤ n) (ht : t < b ^ n) :
    ((List.range k).map fun i => t / b ^ (n - 1 - i) % b).foldl (fun acc d => acc * b + d) 0 =
      t / b ^ (n - k) := by
  induction k with
  | zero => simp [Nat.div_eq_of_lt ht]
  | succ k ih =>
      -- the next digit is the remainder of the quotient so far
      have hstep : t / b ^ (n - k) = t / b ^ (n - (k + 1)) / b := by
        rw [Nat.div_div_eq_div_mul, ← pow_succ]
        congr 2
        omega
      have hplace : n - 1 - k = n - (k + 1) := by omega
      rw [List.range_succ, List.map_append, List.foldl_append, ih (by omega), hstep]
      simp only [List.map_cons, List.map_nil, List.foldl_cons, List.foldl_nil, hplace]
      rw [mul_comm, Nat.div_add_mod]

end Radix
