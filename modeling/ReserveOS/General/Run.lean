import Mathlib.Data.List.Basic
import Mathlib.Logic.Relation

/-!
# Runs of a step function

A system is a step function `σ → ε → σ`. `states` lists every state a run passes through, and
`Admitted ok` says that each event of the run meets the condition `ok` in the state it is taken
from. The invariant rules turn what one step preserves into what holds in every state of a run
(`Run.invariant`), and what one small step preserves into what a chain of small steps preserves
(`Run.closure_invariant`).
-/

namespace Run

variable {σ ε : Type*} (step : σ → ε → σ)

/-- Every state that a run passes through, the first and the last included. -/
def states : σ → List ε → List σ
  | s, [] => [s]
  | s, e :: es => s :: states (step s e) es

/-- Each event of a run meets the condition in the state it is taken from. -/
def Admitted (ok : σ → ε → Prop) : σ → List ε → Prop
  | _, [] => True
  | s, e :: es => ok s e ∧ Admitted ok (step s e) es

/-- The last state of a run is one of its states. -/
theorem foldl_mem_states (s : σ) (es : List ε) : es.foldl step s ∈ states step s es := by
  induction es generalizing s with
  | nil => exact List.mem_singleton.mpr rfl
  | cons e es ih => exact List.mem_cons_of_mem _ (ih (step s e))

variable {step}

/-- An invariant of the admitted steps holds in every state of an admitted run. `E` is a condition
on the events alone. -/
theorem invariant {I : σ → Prop} {E : ε → Prop} {ok : σ → ε → Prop}
    (hstep : ∀ s e, I s → E e → ok s e → I (step s e)) {s : σ} {es : List ε}
    (hE : ∀ e ∈ es, E e) (hinit : I s) (hrun : Admitted step ok s es) :
    ∀ t ∈ states step s es, I t := by
  induction es generalizing s with
  | nil =>
      intro t ht
      rw [List.mem_singleton.mp ht]
      exact hinit
  | cons e es ih =>
      obtain ⟨hok, hadm⟩ := hrun
      intro t ht
      rcases List.mem_cons.mp ht with rfl | ht
      · exact hinit
      · have hrest : ∀ e' ∈ es, E e' := fun e' h' => hE e' (List.mem_cons_of_mem _ h')
        exact ih hrest (hstep s e hinit (hE e List.mem_cons_self) hok) hadm t ht

/-- A run is admitted when its events meet the condition in every state. -/
theorem admitted_of_forall {ok : σ → ε → Prop} (s : σ) {es : List ε}
    (h : ∀ s, ∀ e ∈ es, ok s e) : Admitted step ok s es := by
  induction es generalizing s with
  | nil => trivial
  | cons e es ih =>
      have hrest : ∀ s', ∀ e' ∈ es, ok s' e' :=
        fun s' e' he' => h s' e' (List.mem_cons_of_mem _ he')
      exact ⟨h s e List.mem_cons_self, ih (step s e) hrest⟩

/-- A run goes on from the last state of the run before it. -/
theorem Admitted.append {ok : σ → ε → Prop} {s : σ} {es es' : List ε}
    (h : Admitted step ok s es) (h' : Admitted step ok (es.foldl step s) es') :
    Admitted step ok s (es ++ es') := by
  induction es generalizing s with
  | nil => exact h'
  | cons e es ih => exact ⟨h.1, ih h.2 h'⟩

/-- The rest of an admitted run is admitted. -/
theorem Admitted.right {ok : σ → ε → Prop} {s : σ} {es es' : List ε}
    (h : Admitted step ok s (es ++ es')) : Admitted step ok (es.foldl step s) es' := by
  induction es generalizing s with
  | nil => exact h
  | cons e es ih => exact ih h.2

/-- Where a step keeps `P` exactly when it meets `ok`, a run keeps `P` throughout exactly when each
of its steps meets `ok`. `I` is an invariant of all steps, and `E` a condition on the events alone.
-/
theorem forall_states_iff {I P : σ → Prop} {E : ε → Prop} {ok : σ → ε → Prop}
    (hI : ∀ s e, I s → E e → I (step s e))
    (hP : ∀ s e, I s → E e → P s → (P (step s e) ↔ ok s e)) {s : σ} {es : List ε}
    (hE : ∀ e ∈ es, E e) (hinit : I s) (hstart : P s) :
    (∀ t ∈ states step s es, P t) ↔ Admitted step ok s es := by
  induction es generalizing s with
  | nil =>
      refine ⟨fun _ => trivial, fun _ t ht => ?_⟩
      rwa [List.mem_singleton.mp ht]
  | cons e es ih =>
      have he := hE e List.mem_cons_self
      have hrest : ∀ e' ∈ es, E e' := fun e' h' => hE e' (List.mem_cons_of_mem _ h')
      have hiff := hP s e hinit he hstart
      have hnext := hI s e hinit he
      constructor
      · intro hall
        -- the state after the first step is in the list, so `P` holds there
        have hfirst : P (step s e) := by
          refine hall _ (List.mem_cons_of_mem _ ?_)
          cases es <;> exact List.mem_cons_self
        refine ⟨hiff.mp hfirst, (ih hrest hnext hfirst).mp fun t ht => ?_⟩
        exact hall t (List.mem_cons_of_mem _ ht)
      · rintro ⟨hok, hadm⟩ t ht
        rcases List.mem_cons.mp ht with rfl | ht
        · exact hstart
        · exact (ih hrest hnext (hiff.mpr hok)).mpr hadm t ht

/-- What every step relates, the states of a run relate in their order. -/
theorem pairwise_states {I : σ → Prop} {R : σ → σ → Prop} {E : ε → Prop}
    (hI : ∀ s e, I s → E e → I (step s e)) (hR : ∀ s e, I s → E e → R s (step s e))
    (hrefl : ∀ s, R s s) (htrans : ∀ s t u, R s t → R t u → R s u) {s : σ} {es : List ε}
    (hE : ∀ e ∈ es, E e) (hinit : I s) :
    (states step s es).Pairwise R ∧ ∀ t ∈ states step s es, R s t := by
  induction es generalizing s with
  | nil =>
      refine ⟨List.pairwise_singleton R s, fun t ht => ?_⟩
      rw [List.mem_singleton.mp ht]
      exact hrefl s
  | cons e es ih =>
      have he := hE e List.mem_cons_self
      have hrest : ∀ e' ∈ es, E e' := fun e' h' => hE e' (List.mem_cons_of_mem _ h')
      obtain ⟨hpair, hall⟩ := ih hrest (hI s e hinit he)
      -- the first state is related to the second, hence to all that follow
      have hfirst : ∀ t ∈ states step (step s e) es, R s t := fun t ht =>
        htrans _ _ _ (hR s e hinit he) (hall t ht)
      refine ⟨List.pairwise_cons.mpr ⟨hfirst, hpair⟩, fun t ht => ?_⟩
      rcases List.mem_cons.mp ht with rfl | ht
      · exact hrefl t
      · exact hfirst t ht

/-- Where a step relates its two states exactly when it meets `ok`, the states of a run are related
in their order exactly when each of its steps meets `ok`. -/
theorem pairwise_states_iff {I : σ → Prop} {R : σ → σ → Prop} {E : ε → Prop} {ok : σ → ε → Prop}
    (hI : ∀ s e, I s → E e → I (step s e)) (hR : ∀ s e, I s → E e → (R s (step s e) ↔ ok s e))
    (htrans : ∀ s t u, R s t → R t u → R s u) {s : σ} {es : List ε} (hE : ∀ e ∈ es, E e)
    (hinit : I s) :
    (states step s es).Pairwise R ↔ Admitted step ok s es := by
  induction es generalizing s with
  | nil => exact iff_of_true (List.pairwise_singleton R s) trivial
  | cons e es ih =>
      have he := hE e List.mem_cons_self
      have hnext := hI s e hinit he
      have hhead : ∃ rest, states step (step s e) es = step s e :: rest := by
        cases es <;> exact ⟨_, rfl⟩
      obtain ⟨rest, hrest⟩ := hhead
      have ih := ih (fun e' h' => hE e' (List.mem_cons_of_mem _ h')) hnext
      rw [states, Admitted, List.pairwise_cons, ih, ← hR s e hinit he]
      refine and_congr_left fun hadm => ⟨fun hall => ?_, fun hfirst t ht => ?_⟩
      · rw [hrest] at hall
        exact hall _ List.mem_cons_self
      · -- the second state is related to all that follow
        have hpair := ih.mpr hadm
        rw [hrest] at hpair ht
        rcases List.mem_cons.mp ht with rfl | ht
        · exact hfirst
        · exact htrans _ _ _ hfirst ((List.pairwise_cons.mp hpair).1 t ht)

/-- What one small step preserves, a chain of small steps preserves. -/
theorem closure_invariant {R : σ → σ → Prop} {I : σ → Prop}
    (hstep : ∀ s t, R s t → I s → I t) {s t : σ} (h : Relation.ReflTransGen R s t)
    (hinit : I s) : I t := by
  induction h with
  | refl => exact hinit
  | tail _ hlast ih => exact hstep _ _ hlast ih

end Run
