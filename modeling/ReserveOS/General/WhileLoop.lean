import Mathlib.Tactic.Common

/-!
# Loops with a condition

`while cond { body }` over an arbitrary type of states. `Stops k s t` says that the loop, entered
in the state `s`, performs exactly `k` rounds and is left in the state `t`; a loop that does not
end has no such `k`. There is one rule for each question about a loop:

- `Stops.invariant`: what holds when the loop is left;
- `exists_stops`: the loop ends, and after how many rounds;
- `not_stops`: the loop does not end.
-/

namespace WhileLoop

variable {σ : Type*} {cond : σ → Prop} {body : σ → σ}

/-- The loop performs exactly `k` rounds from `s` and is left in `t`. -/
inductive Stops (cond : σ → Prop) (body : σ → σ) : ℕ → σ → σ → Prop
  | done {s : σ} (h : ¬ cond s) : Stops cond body 0 s s
  | next {k : ℕ} {s t : σ} (h : cond s) (rest : Stops cond body k (body s) t) :
      Stops cond body (k + 1) s t

/-- What every round preserves holds when the loop is left. -/
theorem Stops.invariant {I : σ → Prop} (hround : ∀ s, I s → cond s → I (body s)) {k : ℕ} {s t : σ}
    (h : Stops cond body k s t) (hs : I s) : I t := by
  induction h with
  | done => exact hs
  | next hcond rest ih => exact ih (hround _ hs hcond)

/-- A loop whose condition says that a measure is positive, and whose rounds lower the measure by
one, performs as many rounds as the measure says. -/
theorem exists_stops {I : σ → Prop} {μ : σ → ℕ} (hcond : ∀ s, I s → (cond s ↔ μ s ≠ 0))
    (hround : ∀ s, I s → cond s → I (body s) ∧ μ (body s) + 1 = μ s) {s : σ} (hs : I s) :
    ∃ t, Stops cond body (μ s) s t := by
  generalize hk : μ s = k
  induction k generalizing s with
  | zero =>
      have hnot : ¬ cond s := fun h => (hcond s hs).mp h hk
      exact ⟨s, .done hnot⟩
  | succ k ih =>
      have hgo : cond s := (hcond s hs).mpr (by omega)
      obtain ⟨hnext, hlower⟩ := hround s hs hgo
      obtain ⟨t, ht⟩ := ih hnext (by omega)
      exact ⟨t, .next hgo ht⟩

/-- A loop whose condition is part of an invariant does not end. -/
theorem not_stops {I : σ → Prop} (hround : ∀ s, I s → cond s ∧ I (body s)) {k : ℕ} {s t : σ}
    (hs : I s) : ¬ Stops cond body k s t := by
  intro h
  induction h with
  | done hnot => exact hnot (hround _ hs).1
  | next _ _ ih => exact ih (hround _ hs).2

end WhileLoop
