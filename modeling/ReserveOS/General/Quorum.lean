import Mathlib.Algebra.Order.BigOperators.Group.List
import Mathlib.Tactic.Linarith

/-!
# Weighted quorums

A weighted electorate is a list of members with integer weights; a member may be listed more than
once. `weight ws A` is the weight of the members in the set `A`. Two sets of two thirds of the total
weight each share a third of it, so they share a member outside every set of less than a third
(`exists_mem_inter`).
-/

namespace Quorum

variable {κ : Type*}

open Classical in
/-- The weight of the members that are in a set. -/
noncomputable def weight (ws : List (κ × ℤ)) (A : Set κ) : ℤ :=
  (ws.map fun e => if e.1 ∈ A then e.2 else 0).sum

/-- The weight of all members. -/
def total (ws : List (κ × ℤ)) : ℤ := (ws.map Prod.snd).sum

@[simp] theorem weight_nil (A : Set κ) : weight ([] : List (κ × ℤ)) A = 0 := rfl

open Classical in
theorem weight_cons (e : κ × ℤ) (ws : List (κ × ℤ)) (A : Set κ) :
    weight (e :: ws) A = (if e.1 ∈ A then e.2 else 0) + weight ws A := by
  simp [weight]

theorem total_cons (e : κ × ℤ) (ws : List (κ × ℤ)) : total (e :: ws) = e.2 + total ws := by
  simp [total]

theorem weight_append (ws ws' : List (κ × ℤ)) (A : Set κ) :
    weight (ws ++ ws') A = weight ws A + weight ws' A := by
  simp [weight]

theorem total_append (ws ws' : List (κ × ℤ)) : total (ws ++ ws') = total ws + total ws' := by
  simp [total]

@[simp] theorem weight_empty (ws : List (κ × ℤ)) : weight ws ∅ = 0 := by
  simp [weight]

theorem weight_univ (ws : List (κ × ℤ)) : weight ws Set.univ = total ws := by
  simp [weight, total]

/-- Union and intersection weigh as much as the two sets. -/
theorem weight_union_add_inter (ws : List (κ × ℤ)) (A B : Set κ) :
    weight ws (A ∪ B) + weight ws (A ∩ B) = weight ws A + weight ws B := by
  induction ws with
  | nil => rfl
  | cons e ws ih =>
      simp only [weight_cons, Set.mem_union, Set.mem_inter_iff]
      by_cases hA : e.1 ∈ A <;> by_cases hB : e.1 ∈ B <;> simp [hA, hB] <;> linarith

variable {ws : List (κ × ℤ)} {A B F : Set κ}

/-- A set weighs at most as much as one that has all of its members. -/
theorem weight_le_weight (hpos : ∀ e ∈ ws, 0 ≤ e.2) (h : ∀ e ∈ ws, e.1 ∈ A → e.1 ∈ B) :
    weight ws A ≤ weight ws B := by
  refine List.sum_le_sum fun e he => ?_
  by_cases hA : e.1 ∈ A
  · simp [hA, h e he hA]
  · rw [if_neg hA]
    split
    · exact hpos e he
    · exact le_refl 0

theorem weight_nonneg (hpos : ∀ e ∈ ws, 0 ≤ e.2) (A : Set κ) : 0 ≤ weight ws A := by
  rw [← weight_empty ws]
  exact weight_le_weight hpos fun _ _ h => h.elim

theorem weight_le_total (hpos : ∀ e ∈ ws, 0 ≤ e.2) (A : Set κ) : weight ws A ≤ total ws := by
  rw [← weight_univ]
  exact weight_le_weight hpos fun _ _ _ => trivial

/-- The weights of distinct members add up to the weight of their set. -/
theorem sum_weight_singleton (ws : List (κ × ℤ)) {ks : List κ} (hks : ks.Nodup) :
    (ks.map fun k => weight ws {k}).sum = weight ws {k | k ∈ ks} := by
  induction ks with
  | nil => simp
  | cons k ks ih =>
      obtain ⟨hk, hks⟩ := List.nodup_cons.mp hks
      have hunion : {j | j ∈ k :: ks} = {k} ∪ {j | j ∈ ks} := by
        ext j
        simp
      have hinter : ({k} : Set κ) ∩ {j | j ∈ ks} = ∅ := by
        ext j
        simp only [Set.mem_inter_iff, Set.mem_singleton_iff, Set.mem_ofPred_eq,
          Set.mem_empty_iff_false, iff_false, not_and]
        rintro rfl
        exact hk
      have hadd := weight_union_add_inter ws {k} {j | j ∈ ks}
      rw [hinter, weight_empty, add_zero] at hadd
      rw [List.map_cons, List.sum_cons, ih hks, hunion, hadd]

/-- Two sets of two thirds share a member outside every set of less than a third. -/
theorem exists_mem_inter (hpos : ∀ e ∈ ws, 0 ≤ e.2) (hA : 2 * total ws ≤ 3 * weight ws A)
    (hB : 2 * total ws ≤ 3 * weight ws B) (hF : 3 * weight ws F < total ws) :
    ∃ e ∈ ws, e.1 ∈ A ∧ e.1 ∈ B ∧ e.1 ∉ F := by
  by_contra hnone
  have hsub : weight ws (A ∩ B) ≤ weight ws F := by
    refine weight_le_weight hpos fun e he hAB => ?_
    by_contra heF
    exact hnone ⟨e, he, hAB.1, hAB.2, heF⟩
  have hsum := weight_union_add_inter ws A B
  have hle := weight_le_total hpos (A ∪ B)
  omega

end Quorum
