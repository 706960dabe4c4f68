import ReserveOS.General.Run

/-!
# Shared cells that are written from copies

Several clients update one cell without a lock: a client reads the cell, keeps a copy, and later
writes back the copy with its own update applied. The cell holds the intended value, with every
update applied to the cell itself, in every state of a run exactly if each write finds a copy that
leads to the same result as the cell (`forall_current_iff`).
-/

/-- A cell of type `σ` in states of type `τ`, written by steps on events of type `ε`. -/
structure SharedCell (τ ε σ : Type*) where
  step : τ → ε → τ
  cell : τ → σ
  /-- The value without lost updates. -/
  intended : τ → σ
  /-- The copy that a step writes from, and its update. -/
  writes : τ → ε → Option (σ × (σ → σ))
  cell_of_write : ∀ s e c f, writes s e = some (c, f) → cell (step s e) = f c
  cell_of_idle : ∀ s e, writes s e = none → cell (step s e) = cell s
  intended_of_write : ∀ s e c f, writes s e = some (c, f) → intended (step s e) = f (intended s)
  intended_of_idle : ∀ s e, writes s e = none → intended (step s e) = intended s

namespace SharedCell

variable {τ ε σ : Type*} (m : SharedCell τ ε σ)

/-- The cell holds the intended value. -/
def Current (s : τ) : Prop := m.cell s = m.intended s

/-- If the step writes, the update of the copy is the update of the cell. -/
def Fresh (s : τ) (e : ε) : Prop := ∀ c f, m.writes s e = some (c, f) → f c = f (m.cell s)

variable {m}

/-- A step keeps the cell current exactly if its copy is fresh. -/
theorem current_step_iff {s : τ} (hs : m.Current s) (e : ε) :
    m.Current (m.step s e) ↔ m.Fresh s e := by
  unfold Current Fresh
  cases hw : m.writes s e with
  | none =>
      rw [m.cell_of_idle s e hw, m.intended_of_idle s e hw]
      exact iff_of_true hs nofun
  | some p =>
      obtain ⟨c, f⟩ := p
      rw [m.cell_of_write s e c f hw, m.intended_of_write s e c f hw, ← hs]
      refine ⟨fun heq c' f' hcf => ?_, fun hfresh => hfresh c f rfl⟩
      cases hcf
      exact heq

/-- A run keeps the cell current exactly if all its copies are fresh. `P` and `ok` are what the two
say of the system at hand. -/
theorem forall_current_iff {P : τ → Prop} {ok : τ → ε → Prop} (hP : ∀ s, m.Current s ↔ P s)
    (hok : ∀ s e, m.Fresh s e ↔ ok s e) {s : τ} (hs : m.Current s) (es : List ε) :
    (∀ t ∈ Run.states m.step s es, P t) ↔ Run.Admitted m.step ok s es := by
  refine Run.forall_states_iff (I := fun _ => True) (E := fun _ => True) (fun _ _ _ _ => trivial)
    (fun t e _ _ ht => ?_) (fun _ _ => trivial) trivial ((hP s).mp hs)
  rw [← hP, ← hok]
  exact current_step_iff ((hP t).mpr ht) e

end SharedCell
