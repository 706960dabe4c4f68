import ReserveOS.Node.Finality

/-!
# The block download queue

`syncManager` of `sync_manager.go`: block hashes wait in `pending` until a fetch worker takes them
and marks them as in flight. Taking a hash and marking it are two steps, so a worker can hold a hash
that is neither (`FetchPhase`). `SyncState.step` is one step of a worker or of a handler; the
workers are an arbitrary type.

The clock is read in nanoseconds. `setHeadersCount` and `setLastHashes`, which the header handler
calls, are not defined in the repository; they are read as one call of `setHeaders`. What a worker
does with a hash after marking it does not touch the queue.
-/

namespace ReserveOS

/-- `SyncStatus`, as far as the queue writes it. -/
structure SyncStatus where
  lastHeadersCount : ℤ
  lastHeaderHashes : List String
  inFlightBlocks : ℕ
  pendingBlocks : ℕ

/-- `syncManager`, as far as the queue reads it. -/
structure SyncManager where
  status : SyncStatus
  inflight : Table Int64
  pending : List String

/-- `now.Sub(t)` on readings of the monotonic clock: the difference, saturated. -/
def subMono (now t : Int64) : Int64 :=
  let d := now - t
  if d < 0 ∧ t < now then Int64.maxValue
  else if 0 < d ∧ now < t then Int64.minValue
  else d

/-- `now.Sub(t) > time.Duration(timeoutSec)*time.Second`. -/
def timedOut (timeoutSec now t : Int64) : Bool := timeoutSec * 1000000000 < subMono now t

namespace SyncManager

/-- The manager that `startSyncManager` makes. -/
def new : SyncManager := ⟨⟨0, [], 0, 0⟩, ∅, []⟩

/-- The loop body of `setHeaders`. `exists[h]` says that `h` is pending or in flight. -/
def enqueue (inflight : Table Int64) (pending : List String) (h : String) : List String :=
  if h = "" ∨ h ∈ pending ∨ h ∈ inflight then pending else pending ++ [h]

/-- `setHeaders`. -/
def setHeaders (sm : SyncManager) (count : ℤ) (hashes : List String) : SyncManager :=
  let pending := hashes.foldl (enqueue sm.inflight) sm.pending
  { sm with
    pending := pending
    status := { sm.status with
      lastHeadersCount := count
      lastHeaderHashes := hashes
      pendingBlocks := pending.length } }

/-- `inflightCount`. -/
def inflightCount (sm : SyncManager) : ℕ := sm.inflight.size

/-- `addInFlight`. -/
def addInFlight (sm : SyncManager) (now : Int64) (h : String) : SyncManager :=
  let inflight := sm.inflight.insert h now
  { sm with inflight := inflight, status := { sm.status with inFlightBlocks := inflight.size } }

/-- `clearInFlight`. -/
def clearInFlight (sm : SyncManager) (h : String) : SyncManager :=
  let inflight := sm.inflight.erase h
  { sm with inflight := inflight, status := { sm.status with inFlightBlocks := inflight.size } }

/-- `popPending`. -/
def popPending (sm : SyncManager) : Option String × SyncManager :=
  match sm.pending with
  | [] => (none, sm)
  | h :: rest =>
      (some h,
        { sm with pending := rest, status := { sm.status with pendingBlocks := rest.length } })

/-- The hashes that `requeueTimedOut` takes out of flight, in the order of the map iteration. -/
def lateHashes (ord : MapOrder) (sm : SyncManager) (timeoutSec now : Int64) : List String :=
  ((ord.order sm.inflight.toList).filter fun p => timedOut timeoutSec now p.2).map Prod.fst

/-- `requeueTimedOut`. -/
def requeueTimedOut (ord : MapOrder) (sm : SyncManager) (timeoutSec now : Int64) : SyncManager :=
  let req := lateHashes ord sm timeoutSec now
  let inflight := sm.inflight.filter fun _ t => ! timedOut timeoutSec now t
  let pending := req ++ sm.pending
  { inflight := inflight
    pending := pending
    status := { sm.status with
      inFlightBlocks := inflight.size
      pendingBlocks := if req = [] then sm.status.pendingBlocks else pending.length } }

end SyncManager

/-- `n.cfg.Sync`, as far as the queue reads it. -/
structure SyncConfig where
  maxInFlightBlocks : ℤ
  inFlightTimeoutSec : Int64

/-- Where a fetch worker is in its loop. -/
inductive FetchPhase where
  /-- at the top of the loop -/
  | idle
  /-- past the bound on `inflightCount` -/
  | ready
  /-- between `popPending`, which returned `h`, and `addInFlight` -/
  | popped (h : String)
deriving DecidableEq

/-- The queue and its fetch workers. -/
structure SyncState (ι : Type) where
  sm : SyncManager
  worker : ι → FetchPhase

/-- What takes the mutex: the three steps of a worker `w`, and the handlers. -/
inductive SyncEvent (ι : Type) where
  | inflightCount (w : ι)
  | popPending (w : ι)
  | addInFlight (w : ι) (now : Int64)
  | setHeaders (count : ℤ) (hashes : List String)
  | clearInFlight (h : String)
  | requeueTimedOut (ord : MapOrder) (now : Int64)

namespace SyncState

variable {ι : Type}

/-- The queue after `startSyncManager`, before the workers run. -/
def start : SyncState ι := ⟨SyncManager.new, fun _ => .idle⟩

variable [DecidableEq ι]

/-- The move of a worker to another phase. -/
def goto (s : SyncState ι) (w : ι) (p : FetchPhase) : SyncState ι :=
  { s with worker := Function.update s.worker w p }

@[simp] theorem sm_goto (s : SyncState ι) (w : ι) (p : FetchPhase) : (s.goto w p).sm = s.sm := rfl

/-- The state after a step. A worker that is not at the step stays where it is. The handler of
`block` messages clears only a hash that is given. -/
def step (cfg : SyncConfig) (s : SyncState ι) : SyncEvent ι → SyncState ι
  | .inflightCount w =>
      match s.worker w with
      | .idle => if cfg.maxInFlightBlocks ≤ s.sm.inflightCount then s else s.goto w .ready
      | _ => s
  | .popPending w =>
      match s.worker w with
      | .ready =>
          match s.sm.popPending with
          | (none, sm) => { s with sm := sm }.goto w .idle
          | (some h, sm) => { s with sm := sm }.goto w (.popped h)
      | _ => s
  | .addInFlight w now =>
      match s.worker w with
      | .popped h => { s with sm := s.sm.addInFlight now h }.goto w .idle
      | _ => s
  | .setHeaders count hashes => { s with sm := s.sm.setHeaders count hashes }
  | .clearInFlight h => if h = "" then s else { s with sm := s.sm.clearInFlight h }
  | .requeueTimedOut ord now =>
      { s with sm := s.sm.requeueTimedOut ord cfg.inFlightTimeoutSec now }

end SyncState

end ReserveOS
