import Mathlib.Data.Fintype.Card
import ReserveOS.Correctness.SyncQueue

/-!
# The download window

A fetch worker compares `inflightCount` with `MaxInFlightBlocks` in one step and adds to it in
another, so each worker that has passed the comparison may still add a hash. `inflight_bounded`
says what the bound is worth: with `k` workers there are never more than `MaxInFlightBlocks - 1 + k`
hashes in flight.
-/

namespace ReserveOS

namespace SyncState

open SyncManager

section Window

variable {ι : Type} [DecidableEq ι] [Fintype ι] {cfg : SyncConfig} {s : SyncState ι}
  {worker : ι → FetchPhase} {w : ι}

/-- The number of workers between the comparison and `addInFlight`. -/
def busy (worker : ι → FetchPhase) : ℕ := (Finset.univ.filter fun w => worker w ≠ .idle).card

omit [DecidableEq ι] in
theorem busy_le_card (worker : ι → FetchPhase) : busy worker ≤ Fintype.card ι :=
  Finset.card_filter_le _ _

theorem busy_update_le (hw : worker w ≠ .idle) (p : FetchPhase) :
    busy (Function.update worker w p) ≤ busy worker := by
  refine Finset.card_le_card fun v hv => ?_
  simp only [Finset.mem_filter, Finset.mem_univ, true_and, Function.update_apply] at hv ⊢
  by_cases hvw : v = w
  · exact hvw ▸ hw
  · rwa [if_neg hvw] at hv

/-- A worker that is done is busy no more. -/
theorem busy_update_idle (hw : worker w ≠ .idle) :
    busy (Function.update worker w .idle) + 1 = busy worker := by
  have hset : (Finset.univ.filter fun v => Function.update worker w .idle v ≠ .idle) =
      (Finset.univ.filter fun v => worker v ≠ .idle).erase w := by
    ext v
    by_cases hvw : v = w
    · simp [hvw]
    · simp [hvw]
  rw [busy, hset]
  exact Finset.card_erase_add_one (Finset.mem_filter.mpr ⟨Finset.mem_univ w, hw⟩)

variable (cfg) in
/-- What is in flight, or may yet be added without another comparison, fits the window. -/
def Window (s : SyncState ι) : Prop :=
  s.sm.inflight.size + busy s.worker ≤ (cfg.maxInFlightBlocks - 1).toNat + Fintype.card ι

/-- Every step keeps the window. A worker gets busy only below the limit, and whatever it adds to
what is in flight it was counted for while it was busy. -/
theorem Window.step (h : s.Window cfg) (e : SyncEvent ι) : (s.step cfg e).Window cfg := by
  unfold Window at h ⊢
  cases e with
  | inflightCount w =>
      have hbusy := busy_le_card (s.step cfg (.inflightCount w)).worker
      rw [sm_inflightCount]
      simp only [SyncState.step] at hbusy ⊢
      split
      next hidle =>
        split
        next => exact h
        next hroom =>
          -- the comparison itself bounds what is in flight
          rw [hidle] at hbusy
          dsimp only at hbusy
          rw [if_neg hroom] at hbusy
          rw [inflightCount] at hroom
          omega
      next => exact h
  | popPending w =>
      have hsame : (s.step cfg (.popPending w)).sm.inflight = s.sm.inflight := by
        rcases sm_popPending s w with heq | heq
        · rw [heq]
        · rw [heq, SyncManager.popPending]
          split <;> rfl
      have hbusy : busy (s.step cfg (.popPending w)).worker ≤ busy s.worker := by
        simp only [SyncState.step]
        split
        next hready =>
          have hw : s.worker w ≠ .idle := by simp [hready]
          split
          next => exact busy_update_le hw _
          next => exact busy_update_le hw _
        next => exact le_rfl
      rw [hsame]
      omega
  | addInFlight w now =>
      simp only [SyncState.step]
      split
      next x hx =>
        have hw : s.worker w ≠ .idle := by simp [hx]
        have hbusy := busy_update_idle hw
        have hsize : (s.sm.addInFlight now x).inflight.size ≤ s.sm.inflight.size + 1 :=
          Std.ExtTreeMap.size_insert_le
        simp only [goto]
        omega
      next => exact h
  | setHeaders count hashes => exact h
  | clearInFlight x =>
      simp only [SyncState.step]
      split
      next => exact h
      next =>
        have hsize : (s.sm.clearInFlight x).inflight.size ≤ s.sm.inflight.size :=
          Std.ExtTreeMap.size_erase_le
        exact (Nat.add_le_add_right hsize _).trans h
  | requeueTimedOut ord now =>
      have hsize : (s.sm.requeueTimedOut ord cfg.inFlightTimeoutSec now).inflight.size ≤
          s.sm.inflight.size := Std.ExtTreeMap.size_filter_le_size
      exact (Nat.add_le_add_right hsize _).trans h

end Window

/-- With any number of workers, and whatever the interleaving, `MaxInFlightBlocks` is exceeded by
the workers but one at most. -/
theorem inflight_bounded (ι : Type) [DecidableEq ι] [Fintype ι] (cfg : SyncConfig)
    (es : List (SyncEvent ι)) :
    (es.foldl (step cfg) start).sm.inflight.size ≤
      (cfg.maxInFlightBlocks - 1).toNat + Fintype.card ι := by
  have hstart : (start : SyncState ι).Window cfg := by
    have hsize : (start : SyncState ι).sm.inflight.size = 0 := Std.ExtTreeMap.size_empty
    have hbusy := busy_le_card (start : SyncState ι).worker
    unfold Window
    omega
  have hwindow : (es.foldl (step cfg) start).Window cfg := Run.invariant
    (I := fun s : SyncState ι => s.Window cfg) (E := fun _ => True)
    (fun _ e hs _ _ => hs.step e) (fun _ _ => trivial) hstart
    (Run.admitted_of_forall _ fun _ _ _ => trivial) _ (Run.foldl_mem_states ..)
  unfold Window at hwindow
  omega

/-- Two workers that pass the comparison together are one over a bound of one. -/
example : ([.setHeaders 2 ["b1", "b2"], .inflightCount 0, .inflightCount 1, .popPending 0,
    .popPending 1, .addInFlight 0 0, .addInFlight 1 0].foldl (step ⟨1, 20⟩)
      (start : SyncState (Fin 2))).sm.inflight.size = 2 := by
  decide

end SyncState

end ReserveOS
