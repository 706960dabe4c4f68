import Mathlib.Algebra.BigOperators.Finprod

/-!
# Postings on accounts

A posting books an integer amount on an account; a list of them is what a transaction does to a
ledger. `effect ps a` is the net amount the list books on the account `a`. Only finitely many
accounts are touched, and the effects over all accounts add up to the sum of the amounts
(`finsum_effect`), whatever the type of accounts.
-/

namespace Postings

variable {α : Type*} [DecidableEq α]

/-- The net amount that a list of postings books on an account. -/
def effect (ps : List (α × ℤ)) (a : α) : ℤ := (ps.map fun p => if p.1 = a then p.2 else 0).sum

/-- The sum of the amounts of a list of postings. -/
def total (ps : List (α × ℤ)) : ℤ := (ps.map Prod.snd).sum

@[simp] theorem effect_nil (a : α) : effect ([] : List (α × ℤ)) a = 0 := rfl

theorem effect_cons (p : α × ℤ) (ps : List (α × ℤ)) (a : α) :
    effect (p :: ps) a = (if p.1 = a then p.2 else 0) + effect ps a := by
  simp [effect]

theorem effect_append (ps qs : List (α × ℤ)) (a : α) :
    effect (ps ++ qs) a = effect ps a + effect qs a := by
  simp [effect]

omit [DecidableEq α] in
@[simp] theorem total_nil : total ([] : List (α × ℤ)) = 0 := rfl

omit [DecidableEq α] in
theorem total_append (ps qs : List (α × ℤ)) : total (ps ++ qs) = total ps + total qs := by
  simp [total]

omit [DecidableEq α] in
theorem total_cons (p : α × ℤ) (ps : List (α × ℤ)) : total (p :: ps) = p.2 + total ps := by
  simp [total]

omit [DecidableEq α] in
theorem total_nonneg {ps : List (α × ℤ)} (h : ∀ p ∈ ps, 0 ≤ p.2) : 0 ≤ total ps := by
  refine List.sum_nonneg fun v hv => ?_
  obtain ⟨p, hp, rfl⟩ := List.mem_map.mp hv
  exact h p hp

omit [DecidableEq α] in
theorem le_total {ps : List (α × ℤ)} (h : ∀ p ∈ ps, 0 ≤ p.2) {p : α × ℤ} (hp : p ∈ ps) :
    p.2 ≤ total ps := by
  refine List.single_le_sum (fun v hv => ?_) _ (List.mem_map_of_mem hp)
  obtain ⟨q, hq, rfl⟩ := List.mem_map.mp hv
  exact h q hq

/-- Accounts that no posting names are not touched. -/
theorem effect_eq_zero {ps : List (α × ℤ)} {a : α} (h : ∀ p ∈ ps, p.1 ≠ a) : effect ps a = 0 := by
  induction ps with
  | nil => rfl
  | cons p ps ih =>
      rw [effect_cons, if_neg (h p List.mem_cons_self), zero_add]
      exact ih fun q hq => h q (List.mem_cons_of_mem _ hq)

/-- Postings that are not negative lower no account. -/
theorem effect_nonneg {ps : List (α × ℤ)} (h : ∀ p ∈ ps, 0 ≤ p.2) {a : α} : 0 ≤ effect ps a := by
  refine List.sum_nonneg fun v hv => ?_
  obtain ⟨p, hp, rfl⟩ := List.mem_map.mp hv
  split
  · exact h p hp
  · exact le_rfl

/-- Only finitely many accounts are touched. -/
theorem finite_support_effect (ps : List (α × ℤ)) : (Function.support (effect ps)).Finite := by
  refine (List.finite_toSet (ps.map Prod.fst)).subset fun a ha => ?_
  by_contra hnot
  refine ha (effect_eq_zero fun p hp heq => hnot ?_)
  exact List.mem_map.mpr ⟨p, hp, heq⟩

/-- The effects over all accounts add up to the sum of the amounts. -/
theorem finsum_effect (ps : List (α × ℤ)) : ∑ᶠ a, effect ps a = total ps := by
  induction ps with
  | nil => simp [total]
  | cons p ps ih =>
      have hsingle : ∑ᶠ a, (if p.1 = a then p.2 else 0) = p.2 := by
        rw [finsum_eq_single _ p.1 fun a ha => if_neg (Ne.symm ha), if_pos rfl]
      have hfin : (Function.support fun a => if p.1 = a then p.2 else 0).Finite := by
        refine (Set.finite_singleton p.1).subset fun a ha => ?_
        by_contra hne
        exact ha (if_neg fun heq => hne heq.symm)
      calc ∑ᶠ a, effect (p :: ps) a
          = ∑ᶠ a, ((if p.1 = a then p.2 else 0) + effect ps a) := by simp only [effect_cons]
        _ = (∑ᶠ a, if p.1 = a then p.2 else 0) + ∑ᶠ a, effect ps a :=
            finsum_add_distrib hfin (finite_support_effect ps)
        _ = total (p :: ps) := by rw [hsingle, ih, total_cons]

end Postings
