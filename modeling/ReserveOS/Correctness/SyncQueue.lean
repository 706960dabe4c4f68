import ReserveOS.General.Run
import ReserveOS.General.SortedMap
import ReserveOS.Node.SyncManager

/-!
# Each block is queued once, or twice

No hash should occur twice in `pending`, and none should be pending and in flight at once. Every
step keeps this by itself but one: `addInFlight` marks the hash that its worker has popped before,
and `setHeaders` or `requeueTimedOut` may have queued that hash again in between
(`queuedOnce_iff`).
-/

namespace ReserveOS

namespace SyncManager

/-- No hash is pending twice, and none is pending and in flight. -/
structure QueuedOnce (sm : SyncManager) : Prop where
  nodup : sm.pending.Nodup
  apart : ∀ h ∈ sm.pending, h ∉ sm.inflight

variable {sm : SyncManager}

theorem queuedOnce_new : new.QueuedOnce where
  nodup := List.nodup_nil
  apart _ h := absurd h List.not_mem_nil

/-! ### One step of the queue -/

/-- `setHeaders` queues only hashes that are neither pending nor in flight. -/
theorem QueuedOnce.setHeaders (h : sm.QueuedOnce) (count : ℤ) (hashes : List String) :
    (sm.setHeaders count hashes).QueuedOnce := by
  -- the loop keeps both properties of the list it extends
  suffices hloop : ∀ pending : List String, pending.Nodup ∧ (∀ x ∈ pending, x ∉ sm.inflight) →
      (hashes.foldl (enqueue sm.inflight) pending).Nodup ∧
        ∀ x ∈ hashes.foldl (enqueue sm.inflight) pending, x ∉ sm.inflight by
    obtain ⟨hnodup, hapart⟩ := hloop sm.pending ⟨h.nodup, h.apart⟩
    exact ⟨hnodup, hapart⟩
  induction hashes with
  | nil => exact fun pending hp => hp
  | cons x hashes ih =>
      intro pending hp
      apply ih
      unfold enqueue
      split
      · exact hp
      next hnew =>
        simp only [not_or] at hnew
        constructor
        · refine List.nodup_append.mpr ⟨hp.1, List.nodup_singleton x, fun y hy z hz => ?_⟩
          rw [List.mem_singleton.mp hz]
          exact fun heq => hnew.2.1 (heq ▸ hy)
        · intro y hy
          rcases List.mem_append.mp hy with hy | hy
          · exact hp.2 y hy
          · rw [List.mem_singleton.mp hy]
            exact hnew.2.2

theorem QueuedOnce.clearInFlight (h : sm.QueuedOnce) (x : String) :
    (sm.clearInFlight x).QueuedOnce where
  nodup := h.nodup
  apart y hy hin := h.apart y hy (Std.ExtTreeMap.mem_of_mem_erase hin)

/-- Taking a hash off the queue. -/
theorem QueuedOnce.popPending (h : sm.QueuedOnce) : sm.popPending.2.QueuedOnce := by
  unfold SyncManager.popPending
  split
  next => exact h
  next x rest heq =>
    have hnodup := h.nodup
    have hapart := h.apart
    rw [heq] at hnodup hapart
    exact ⟨(List.nodup_cons.mp hnodup).2, fun y hy => hapart y (List.mem_cons_of_mem _ hy)⟩

/-- Marking a hash keeps the queue right exactly when it is not pending. -/
theorem QueuedOnce.addInFlight_iff (h : sm.QueuedOnce) (now : Int64) (x : String) :
    (sm.addInFlight now x).QueuedOnce ↔ x ∉ sm.pending := by
  constructor
  · intro hnext hx
    exact hnext.apart x hx (by simp [addInFlight])
  · intro hx
    refine ⟨h.nodup, fun y hy => ?_⟩
    have hne : x ≠ y := fun heq => hx (heq ▸ hy)
    simpa [addInFlight, hne] using h.apart y hy

/-- The hashes that time out are those in flight that are old enough, each once. -/
theorem mem_lateHashes {ord : MapOrder} {timeoutSec now : Int64} {x : String} :
    x ∈ lateHashes ord sm timeoutSec now ↔
      ∃ t, sm.inflight[x]? = some t ∧ timedOut timeoutSec now t = true := by
  simp [lateHashes, (ord.perm _).mem_iff, Std.ExtTreeMap.mem_toList_iff_getElem?_eq_some]

theorem nodup_lateHashes (ord : MapOrder) (sm : SyncManager) (timeoutSec now : Int64) :
    (lateHashes ord sm timeoutSec now).Nodup := by
  have hkeys := ((ord.perm sm.inflight.toList).map Prod.fst).nodup_iff.mpr
    (SortedMap.nodup_keys sm.inflight)
  exact hkeys.sublist (List.filter_sublist.map Prod.fst)

/-- What is still in flight has not timed out. -/
theorem mem_inflight_requeueTimedOut {ord : MapOrder} {timeoutSec now : Int64} {x : String} :
    x ∈ (sm.requeueTimedOut ord timeoutSec now).inflight ↔
      ∃ t, sm.inflight[x]? = some t ∧ timedOut timeoutSec now t = false := by
  rw [Std.ExtTreeMap.mem_iff_isSome_getElem?, SyncManager.requeueTimedOut,
    Std.ExtTreeMap.getElem?_filter', Option.isSome_iff_exists]
  simp [Option.filter_eq_some_iff]

/-- `requeueTimedOut` takes out of flight what it queues. -/
theorem QueuedOnce.requeueTimedOut (h : sm.QueuedOnce) (ord : MapOrder) (timeoutSec now : Int64) :
    (sm.requeueTimedOut ord timeoutSec now).QueuedOnce := by
  have hin : ∀ x t, sm.inflight[x]? = some t → x ∈ sm.inflight := by
    intro x t ht
    rw [Std.ExtTreeMap.mem_iff_isSome_getElem?, ht]
    rfl
  constructor
  · -- what comes back from flight was not pending
    refine List.nodup_append.mpr ⟨nodup_lateHashes ord sm timeoutSec now, h.nodup, ?_⟩
    intro x hx y hy heq
    obtain ⟨t, ht, -⟩ := mem_lateHashes.mp hx
    exact h.apart y hy (heq ▸ hin x t ht)
  · intro x hx hstill
    obtain ⟨t, ht, hearly⟩ := mem_inflight_requeueTimedOut.mp hstill
    rcases List.mem_append.mp hx with hx | hx
    · obtain ⟨t', ht', hlate⟩ := mem_lateHashes.mp hx
      rw [ht] at ht'
      cases ht'
      rw [hlate] at hearly
      cases hearly
    · exact h.apart x hx (hin x t ht)

end SyncManager

/-! ### Whole runs -/

namespace SyncState

open SyncManager

variable {ι : Type} [DecidableEq ι] {cfg : SyncConfig} {s : SyncState ι}

/-- A worker marks a hash only while it is not pending again. -/
def MarksTaken (s : SyncState ι) : SyncEvent ι → Prop
  | .addInFlight w _ => ∀ h, s.worker w = .popped h → h ∉ s.sm.pending
  | _ => True

/-- Counting what is in flight does not touch the queue. -/
theorem sm_inflightCount (s : SyncState ι) (w : ι) : (s.step cfg (.inflightCount w)).sm = s.sm := by
  simp only [step]
  split
  · split
    · rfl
    · rfl
  · rfl

/-- A pop takes the first pending hash, if the worker is there. -/
theorem sm_popPending (s : SyncState ι) (w : ι) :
    (s.step cfg (.popPending w)).sm = s.sm ∨
      (s.step cfg (.popPending w)).sm = s.sm.popPending.2 := by
  simp only [step]
  split
  · right
    split
    next heq => simp [heq]
    next heq => simp [heq]
  · exact Or.inl rfl

/-- A block message clears its hash, if it has one. -/
theorem sm_clearInFlight (s : SyncState ι) (x : String) :
    (s.step cfg (.clearInFlight x)).sm = s.sm ∨
      (s.step cfg (.clearInFlight x)).sm = s.sm.clearInFlight x := by
  simp only [step]
  split
  · exact Or.inl rfl
  · exact Or.inr rfl

/-- A step keeps the queue right exactly when it meets the condition. -/
theorem queuedOnce_step_iff (h : s.sm.QueuedOnce) (e : SyncEvent ι) :
    (s.step cfg e).sm.QueuedOnce ↔ s.MarksTaken e := by
  cases e with
  | inflightCount w =>
      rw [sm_inflightCount]
      exact iff_of_true h trivial
  | popPending w =>
      refine iff_of_true ?_ trivial
      rcases sm_popPending s w with heq | heq
      · exact heq ▸ h
      · exact heq ▸ h.popPending
  | addInFlight w now =>
      simp only [step, MarksTaken]
      split
      next x hx => simpa [hx] using h.addInFlight_iff now x
      next hne => exact iff_of_true h fun x hx => absurd hx (hne x)
  | setHeaders count hashes => exact iff_of_true (h.setHeaders count hashes) trivial
  | clearInFlight x =>
      refine iff_of_true ?_ trivial
      rcases sm_clearInFlight s x with heq | heq
      · exact heq ▸ h
      · exact heq ▸ h.clearInFlight x
  | requeueTimedOut ord now => exact iff_of_true (h.requeueTimedOut ord _ now) trivial

/-- For any workers and any interleaving of their steps with those of the handlers, no hash is
pending twice or pending and in flight in any state of the run, exactly when no worker marks a hash
that is pending again. -/
theorem queuedOnce_iff (ι : Type) [DecidableEq ι] (cfg : SyncConfig) (es : List (SyncEvent ι)) :
    (∀ t ∈ Run.states (step cfg) start es, t.sm.QueuedOnce) ↔
      Run.Admitted (step cfg) MarksTaken start es :=
  Run.forall_states_iff (I := fun _ => True) (E := fun _ => True) (fun _ _ _ _ => trivial)
    (fun _ e _ _ h => queuedOnce_step_iff h e) (fun _ _ => trivial) trivial queuedOnce_new

end SyncState

namespace Sample

/-- Bounds for a queue: 64 blocks in flight, for 20 seconds. -/
def syncConfig : SyncConfig := ⟨64, 20⟩

/-- A block is announced, and the one worker takes it. -/
def fetching : List (SyncEvent Unit) :=
  [.setHeaders 1 ["b1"], .inflightCount (), .popPending ()]

end Sample

namespace SyncState

open Sample

/-- The block is marked, and only then announced again and requeued. -/
theorem queuedOnce_fetching :
    ∀ t ∈ Run.states (step syncConfig) start (fetching ++ [.addInFlight () 0, .setHeaders 1 ["b1"],
      .requeueTimedOut ⟨id, fun _ => .refl _⟩ 30000000000]), t.sm.QueuedOnce := by
  apply (queuedOnce_iff Unit syncConfig _).mpr
  refine ⟨trivial, trivial, trivial, fun h _ => ?_, trivial, trivial, trivial⟩
  have hempty : (fetching.foldl (step syncConfig) start).sm.pending = [] := by decide +kernel
  show h ∉ (fetching.foldl (step syncConfig) start).sm.pending
  rw [hempty]
  exact List.not_mem_nil

/-- The block is announced again between the pop and the mark: it is pending and in flight, and
after the timeout it is pending twice. -/
theorem not_queuedOnce_refetch :
    let again : List (SyncEvent Unit) := [.setHeaders 1 ["b1"], .addInFlight () 0]
    let marked := (fetching ++ again).foldl (step syncConfig) start
    let late := marked.step syncConfig (.requeueTimedOut ⟨id, fun _ => .refl _⟩ 30000000000)
    ("b1" ∈ marked.sm.pending ∧ "b1" ∈ marked.sm.inflight) ∧ late.sm.pending = ["b1", "b1"] := by
  decide

end SyncState

end ReserveOS
