import ReserveOS.Node.Accesses

/-!
# Accesses that leave the chain alone

Most accesses of `SubmitBlock` are reads, or write the height index, the ledger, votes, checkpoints
or the finalized pair. None of them touches a block, a work entry or a key of the tip: `Quiet` says
so of an access, and each program that `SubmitBlock` calls, apart from its own writes, has only
quiet ones.
-/

namespace ReserveOS

open Concurrent (Prog)
open Concurrent.Prog

namespace DB

/-- Two databases with the same blocks, work entries and tip keys. -/
structure SameCore (s t : DB) : Prop where
  blockByHash : t.blockByHash = s.blockByHash
  work : t.work = s.work
  tipHeight : t.tipHeight = s.tipHeight
  tipBlockID : t.tipBlockID = s.tipBlockID
  tipWork : t.tipWork = s.tipWork

theorem SameCore.refl (s : DB) : s.SameCore s := ⟨rfl, rfl, rfl, rfl, rfl⟩

end DB

namespace Access

/-- The access is not a write of a block, a work entry or a tip key. -/
def quiet : Access → Bool
  | put (.block _) => false
  | put (.work _) => false
  | put .tipHeight => false
  | put .tipBlockID => false
  | put .tipWork => false
  | _ => true

end Access

/-- An access that leaves blocks, work entries and the tip as they are. -/
def Quiet (tag : Access) (act : DB → DB) : Prop := tag.quiet = true ∧ ∀ s : DB, s.SameCore (act s)

namespace Call

variable {α β : Type}

theorem quiet_get (k : Key) (f : DB → α) :
    EveryAccess Quiet (Prog.read (Access.get k) f) :=
  everyAccess_read ⟨rfl, fun s => .refl s⟩

theorem quiet_put {k : Key} {f : DB → DB} (hk : (Access.put k).quiet = true)
    (hf : ∀ s : DB, s.SameCore (f s)) : EveryAccess Quiet (Prog.write (Access.put k) f) :=
  everyAccess_write ⟨hk, hf⟩

theorem everyAccess_andThen {W : Access → (DB → DB) → Prop} {p : Call (Res α)}
    {f : α → Call (Res β)} (hp : EveryAccess W p) (hf : ∀ a, EveryAccess W (f a)) :
    EveryAccess W (andThen p f) := by
  refine hp.bind fun r => ?_
  cases r with
  | error e => exact everyAccess_pure _
  | ok a => exact hf a

theorem quiet_each {f : α → Call Unit} (hf : ∀ a, EveryAccess Quiet (f a)) (as : List α) :
    EveryAccess Quiet (each f as) := by
  induction as with
  | nil => exact everyAccess_pure _
  | cons a as ih => exact (hf a).bind fun _ => ih

/-- A read that may find nothing. -/
theorem quiet_get_option {k : Key} {f : DB → Option α} {p : Option α → Call β}
    (hnone : EveryAccess Quiet (p none)) (hsome : ∀ a, EveryAccess Quiet (p (some a))) :
    EveryAccess Quiet ((Prog.read (Access.get k) f).bind p) := by
  refine (quiet_get k f).bind fun r => ?_
  cases r with
  | none => exact hnone
  | some a => exact hsome a

theorem quiet_getBlockByHeight (h : UInt64) : EveryAccess Quiet (getBlockByHeight h) :=
  quiet_get_option (everyAccess_pure _) fun _ =>
    quiet_get_option (everyAccess_pure _) fun _ => everyAccess_pure _

theorem quiet_getTip : EveryAccess Quiet getTip :=
  quiet_get_option (everyAccess_pure _) fun _ =>
    quiet_get_option (everyAccess_pure _) fun _ => everyAccess_pure _

theorem quiet_getFinalized : EveryAccess Quiet getFinalized :=
  quiet_get_option (everyAccess_pure _) fun _ =>
    quiet_get_option (everyAccess_pure _) fun _ => everyAccess_pure _

theorem quiet_putFinalized (h : UInt64) (x : String) : EveryAccess Quiet (putFinalized h x) := by
  refine EveryAccess.bind ?_ fun _ => ?_
  · exact quiet_put rfl fun _ => ⟨rfl, rfl, rfl, rfl, rfl⟩
  · exact quiet_put rfl fun _ => ⟨rfl, rfl, rfl, rfl, rfl⟩

theorem quiet_putCheckpoint (h : UInt64) (cp : Checkpoint) :
    EveryAccess Quiet (putCheckpoint h cp) :=
  quiet_put rfl fun _ => ⟨rfl, rfl, rfl, rfl, rfl⟩

theorem quiet_putHashByHeightOverwrite (h : UInt64) (x : String) :
    EveryAccess Quiet (putHashByHeightOverwrite h x) :=
  quiet_put rfl fun _ => ⟨rfl, rfl, rfl, rfl, rfl⟩

theorem quiet_setBalance (id : String) (v : Int64) : EveryAccess Quiet (setBalance id v) :=
  quiet_put rfl fun _ => ⟨rfl, rfl, rfl, rfl, rfl⟩

theorem quiet_setNonce (id : String) (k : UInt64) : EveryAccess Quiet (setNonce id k) :=
  quiet_put rfl fun _ => ⟨rfl, rfl, rfl, rfl, rfl⟩

theorem quiet_addBalance (id : String) (d : Int64) : EveryAccess Quiet (addBalance id d) := by
  refine (quiet_get _ _).bind fun cur => ?_
  split
  · exact everyAccess_pure _
  · exact (quiet_setBalance _ _).bind fun _ => everyAccess_pure _

theorem quiet_resetState : EveryAccess Quiet resetState :=
  (quiet_get _ _).bind fun _ => (quiet_get _ _).bind fun _ =>
    quiet_put rfl fun _ => ⟨rfl, rfl, rfl, rfl, rfl⟩

theorem quiet_restoreSnapshot (ss : Snapshot) : EveryAccess Quiet (restoreSnapshot ss) :=
  quiet_resetState.bind fun _ =>
    (quiet_each (fun _ => quiet_setBalance _ _) _).bind fun _ =>
      quiet_each (fun _ => quiet_setNonce _ _) _

namespace Cache

theorem quiet_getBal (c : Cache) (id : String) : EveryAccess Quiet (c.getBal id) := by
  unfold getBal
  split
  · exact everyAccess_pure _
  · exact (quiet_get _ _).bind fun _ => everyAccess_pure _

theorem quiet_getNon (c : Cache) (id : String) : EveryAccess Quiet (c.getNon id) := by
  unfold getNon
  split
  · exact everyAccess_pure _
  · exact (quiet_get _ _).bind fun _ => everyAccess_pure _

theorem quiet_addBal (c : Cache) (id : String) (v : Int64) : EveryAccess Quiet (c.addBal id v) :=
  (c.quiet_getBal id).bind fun _ => everyAccess_pure _

theorem quiet_creditOutputs (c : Cache) (outs : List TxOut) :
    EveryAccess Quiet (c.creditOutputs outs) := by
  induction outs generalizing c with
  | nil => exact everyAccess_pure _
  | cons o outs ih =>
      rw [creditOutputs]
      split
      · exact (c.quiet_addBal _ _).bind fun c' => ih c'
      · split
        · exact (c.quiet_addBal _ _).bind fun c' => ih c'
        · exact ih c

/-- Simulating a transaction only reads balances and nonces. -/
theorem quiet_simTx (c : Cache) (tx : Tx) : EveryAccess Quiet (c.simTx tx) := by
  refine (c.quiet_getNon _).bind fun cur => ?_
  split
  · exact everyAccess_pure _
  · split
    · split
      · exact everyAccess_pure _
      · refine (quiet_getBal _ _).bind fun bBal => ?_
        dsimp only
        split
        · exact everyAccess_pure _
        · exact (quiet_addBal _ _ _).bind fun _ => everyAccess_pure _
    · refine (quiet_getBal _ _).bind fun fromBal => ?_
      split
      · exact everyAccess_pure _
      · exact (quiet_creditOutputs _ _).bind fun _ => everyAccess_pure _

theorem quiet_simTxs (c : Cache) (txs : List Tx) : EveryAccess Quiet (c.simTxs txs) := by
  induction txs generalizing c with
  | nil => exact everyAccess_pure _
  | cons tx txs ih => exact everyAccess_andThen (c.quiet_simTx tx) ih

end Cache

end Call

namespace Node

open Call

variable (n : Node)

/-- The tip validator only reads. -/
theorem quiet_validateBlockStateTipCall (b : Block) :
    EveryAccess Quiet (n.validateBlockStateTipCall b) := by
  refine everyAccess_andThen ?_ fun _ => everyAccess_pure _
  unfold simulateTipCall
  split
  · split
    · exact everyAccess_pure _
    · split
      · exact everyAccess_pure _
      · exact (Cache.quiet_addBal _ _ _).bind fun c => c.quiet_simTxs _
  · exact Cache.quiet_simTxs _ _

theorem quiet_replayIndexCall (count : ℕ) (h : UInt64) (m : Sim) :
    EveryAccess Quiet (n.replayIndexCall count h m) := by
  induction count generalizing h m with
  | zero => exact everyAccess_pure _
  | succ count ih =>
      refine (quiet_getBlockByHeight h).bind fun r => ?_
      split
      · exact everyAccess_pure _
      · split
        · exact everyAccess_pure _
        · exact ih _ _

/-- So does the fork validator. -/
theorem quiet_validateBlockStateOnMainParentCall (b : Block) :
    EveryAccess Quiet (n.validateBlockStateOnMainParentCall b) := by
  unfold validateBlockStateOnMainParentCall
  split
  · refine (quiet_getBlockByHeight _).bind fun r => ?_
    split
    · exact everyAccess_pure _
    · split
      · exact everyAccess_pure _
      · refine quiet_getTip.bind fun tip => ?_
        dsimp only
        split
        · exact everyAccess_pure _
        · exact everyAccess_andThen (n.quiet_replayIndexCall _ _ _) fun _ => everyAccess_pure _
  · exact everyAccess_pure _

theorem quiet_creditOutputsCall (outs : List TxOut) :
    EveryAccess Quiet (creditOutputsCall outs) := by
  induction outs with
  | nil => exact everyAccess_pure _
  | cons o outs ih =>
      rw [creditOutputsCall]
      split
      · exact everyAccess_andThen (quiet_addBalance _ _) fun _ => ih
      · split
        · exact everyAccess_andThen (quiet_addBalance _ _) fun _ => ih
        · exact ih

theorem quiet_applyTxCall (tx : Tx) : EveryAccess Quiet (applyTxCall tx) := by
  unfold applyTxCall
  dsimp only
  split
  · exact (quiet_setNonce _ _).bind fun _ =>
      everyAccess_andThen (quiet_addBalance _ _) fun _ => quiet_addBalance _ _
  · split
    · exact everyAccess_andThen (quiet_addBalance _ _) fun _ =>
        (quiet_setNonce _ _).bind fun _ => quiet_creditOutputsCall _
    · exact quiet_creditOutputsCall _

/-- Applying a block writes the ledger, the index of transactions and the fee record. -/
theorem quiet_applyBlockTxsCall (b : Block) : EveryAccess Quiet (n.applyBlockTxsCall b) := by
  have htxs : ∀ txs, EveryAccess Quiet (n.applyTxsCall txs) := by
    intro txs
    induction txs with
    | nil => exact everyAccess_pure _
    | cons tx txs ih =>
        refine EveryAccess.bind ?_ fun _ => everyAccess_andThen (quiet_applyTxCall tx) fun _ => ih
        exact quiet_put rfl fun _ => ⟨rfl, rfl, rfl, rfl, rfl⟩
  refine everyAccess_andThen (htxs b.txs) fun _ => EveryAccess.bind ?_ fun _ => everyAccess_pure _
  exact quiet_put rfl fun _ => ⟨rfl, rfl, rfl, rfl, rfl⟩

theorem quiet_replayFromCall (h : UInt64) : EveryAccess Quiet (n.replayFromCall h) := by
  have hloop : ∀ count k, EveryAccess Quiet (n.replayMainChainCall count k) := by
    intro count
    induction count with
    | zero => exact fun _ => everyAccess_pure _
    | succ count ih =>
        intro k
        refine (quiet_getBlockByHeight k).bind fun r => ?_
        split
        · exact everyAccess_pure _
        · exact everyAccess_andThen (n.quiet_applyBlockTxsCall _) fun _ => ih _
  refine quiet_getTip.bind fun tip => ?_
  split
  · exact everyAccess_pure _
  · exact hloop _ _

/-- A rebuild writes no block, no work entry and no tip. -/
theorem quiet_rebuildStateFromFinalizedCall :
    EveryAccess Quiet n.rebuildStateFromFinalizedCall := by
  have hreset : EveryAccess Quiet n.resetToGenesisCall :=
    quiet_resetState.bind fun _ => quiet_each
      (fun _ => (quiet_addBalance _ _).bind fun _ => everyAccess_pure _) _
  unfold rebuildStateFromFinalizedCall
  split
  · refine (quiet_restoreSnapshot _).bind fun _ => ?_
    split
    · exact hreset.bind fun _ => n.quiet_replayFromCall _
    · exact n.quiet_replayFromCall _
  · exact hreset.bind fun _ => n.quiet_replayFromCall _

/-- Nor does checkpoint voting. -/
theorem quiet_processCheckpointVotesCall (now : Int64) (cp : Checkpoint) :
    EveryAccess Quiet (n.processCheckpointVotesCall now cp) := by
  have htry : EveryAccess Quiet (n.tryFinalizeHeightCall now cp.height cp.hashHex) := by
    refine (quiet_get _ _).bind fun votes => (quiet_get _ _).bind fun vals => ?_
    dsimp only
    split
    · exact (quiet_putFinalized _ _).bind fun _ => quiet_putCheckpoint _ _
    · exact everyAccess_pure _
  unfold processCheckpointVotesCall
  split
  · exact everyAccess_pure _
  · split
    · exact everyAccess_pure _
    · split
      · exact everyAccess_pure _
      · refine (quiet_get _ _).bind fun has => ?_
        split
        · exact htry
        · refine EveryAccess.bind ?_ fun _ => htry
          exact quiet_put rfl fun _ => ⟨rfl, rfl, rfl, rfl, rfl⟩

theorem quiet_switchAnchorCall : EveryAccess Quiet switchAnchorCall := by
  refine quiet_getFinalized.bind fun fin => ?_
  split
  · exact everyAccess_pure _
  · refine (quiet_getBlockByHeight 0).bind fun r => ?_
    split
    · exact everyAccess_pure _
    · exact everyAccess_pure _

/-- The walk of a chain switch only reads. -/
theorem quiet_walkBackCall (finH : UInt64) (k : ℕ) (x : String) (path : List String) :
    EveryAccess Quiet (walkBackCall finH k x path) := by
  induction k generalizing x path with
  | zero =>
      rw [walkBackCall]
      split
      · exact everyAccess_pure _
      · refine (quiet_get _ _).bind fun r => ?_
        split
        · exact everyAccess_pure _
        · exact everyAccess_pure _
  | succ k ih =>
      rw [walkBackCall]
      split
      · exact everyAccess_pure _
      · refine (quiet_get _ _).bind fun r => ?_
        split
        · exact everyAccess_pure _
        · split
          · exact everyAccess_pure _
          · exact ih _ _

theorem quiet_rewriteIndexCall (h : UInt64) (path : List String) :
    EveryAccess Quiet (rewriteIndexCall h path) := by
  induction path generalizing h with
  | nil => exact everyAccess_pure _
  | cons x path ih => exact (quiet_putHashByHeightOverwrite _ _).bind fun _ => ih _

end Node

end ReserveOS
