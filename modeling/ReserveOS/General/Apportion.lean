import Mathlib.Algebra.Order.BigOperators.Group.List
import Mathlib.Algebra.Order.Ring.Nat

/-!
# Dividing an amount by weights

An amount `p` is divided among weights of sum `W`: everyone is given the floor of `p * w / W`, in
the order of the list, and the last one what is left. As long as what is left covers the weights
that are left (`Covers`), no share exceeds it, so the shares add up (`sum_shares`), and the last
one is not worse off than the others (`floor_le_shares`).
-/

namespace Apportion

/-- The share of the first of the weights, of which `r` is left: all of it for the last one. -/
def first (p W r w : ℕ) (ws : List ℕ) : ℕ := if ws = [] then r else p * w / W

/-- The shares of the weights, of which `r` is left. -/
def shares (p W : ℕ) : ℕ → List ℕ → List ℕ
  | _, [] => []
  | r, w :: ws => first p W r w ws :: shares p W (r - first p W r w ws) ws

/-- What is left is enough for the weights that are left. -/
def Covers (p W r : ℕ) (ws : List ℕ) : Prop := p * ws.sum ≤ W * r

variable {p W r w : ℕ} {ws : List ℕ}

theorem shares_cons : shares p W r (w :: ws) =
    first p W r w ws :: shares p W (r - first p W r w ws) ws := rfl

@[simp] theorem length_shares (p W r : ℕ) (ws : List ℕ) :
    (shares p W r ws).length = ws.length := by
  induction ws generalizing r with
  | nil => rfl
  | cons w ws ih => rw [shares_cons, List.length_cons, List.length_cons, ih]

/-- The whole amount covers all weights. -/
theorem covers_sum (p : ℕ) (ws : List ℕ) : Covers p ws.sum p ws := (Nat.mul_comm _ _).le

/-- The first one gets at least the floor. -/
theorem Covers.floor_le_first (h : Covers p W r (w :: ws)) : p * w / W ≤ first p W r w ws := by
  unfold first
  split
  · rw [Covers, List.sum_cons, Nat.mul_add] at h
    exact Nat.div_le_of_le_mul ((Nat.le_add_right _ _).trans h)
  · exact le_rfl

/-- The first share can be paid. -/
theorem Covers.first_le (h : Covers p W r (w :: ws)) : first p W r w ws ≤ r := by
  unfold first
  split
  · exact le_rfl
  · rw [Covers, List.sum_cons, Nat.mul_add] at h
    exact Nat.div_le_of_le_mul ((Nat.le_add_right _ _).trans h)

/-- Once it is paid, the rest covers the weights behind it. -/
theorem Covers.tail (h : Covers p W r (w :: ws)) : Covers p W (r - first p W r w ws) ws := by
  unfold first
  split
  next hlast =>
    rw [hlast]
    exact Nat.zero_le _
  next =>
    rw [Covers, List.sum_cons, Nat.mul_add] at h
    have hfloor : W * (p * w / W) ≤ p * w := Nat.mul_div_le _ _
    rw [Covers, Nat.mul_sub]
    omega

/-- The shares add up to what is left. -/
theorem sum_shares (hne : ws ≠ []) (h : Covers p W r ws) : (shares p W r ws).sum = r := by
  induction ws generalizing r with
  | nil => exact absurd rfl hne
  | cons w ws ih =>
      rw [shares_cons, List.sum_cons]
      by_cases hlast : ws = []
      · rw [first, if_pos hlast, hlast]
        exact Nat.add_zero r
      · rw [ih hlast h.tail]
        exact Nat.add_sub_of_le h.first_le

/-- Everyone gets at least the floor. -/
theorem floor_le_shares (h : Covers p W r ws) :
    List.Forall₂ (fun w x => p * w / W ≤ x) ws (shares p W r ws) := by
  induction ws generalizing r with
  | nil => exact .nil
  | cons w ws ih => exact .cons h.floor_le_first (ih h.tail)

end Apportion
