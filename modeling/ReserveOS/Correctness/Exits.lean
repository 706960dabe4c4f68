import ReserveOS.Correctness.FinalityRecord
import ReserveOS.Correctness.Simulators
import ReserveOS.Correctness.BlockTree

/-!
# How `SubmitBlock` ends

Two things can go wrong after the first write of `SubmitBlock`. A block that extends the tip and
fails `ValidateBlockStateTip` is rejected with the block already stored: this is the only error that
leaves a trace (`noTrace_iff`). And `trySwitchMainChain` allocates a slice whose capacity is a
difference of heights: this is the only panic (`noPanic_iff`).
-/

namespace ReserveOS

/-! ### Calls that do not panic -/

namespace Res

variable {α β : Type}

/-- The call ends with a value or an error, not with a panic. -/
def NoPanic (r : Res α) : Prop := ∀ msg, r ≠ .error (.panic msg)

theorem noPanic_ok (a : α) : NoPanic (.ok a : Res α) := by
  intro msg h
  cases h

theorem noPanic_error (msg : String) : NoPanic (.error (.error msg) : Res α) := by
  intro msg' h
  cases h

theorem NoPanic.bind {r : Res α} {f : α → Res β} (hr : r.NoPanic)
    (hf : ∀ a, r = .ok a → (f a).NoPanic) : NoPanic (r.bind f) := by
  cases r with
  | error e =>
      intro msg h
      exact hr msg (by rw [Except.error.inj h])
  | ok a => exact hf a rfl

end Res

open Res

namespace Sim

theorem noPanic_applyTxToSim (m : Sim) (tx : Tx) : (m.applyTxToSim tx).NoPanic := by
  unfold applyTxToSim
  split
  · exact noPanic_ok _
  · split
    · exact noPanic_error _
    · split
      all_goals
        dsimp only
        split
        · exact noPanic_error _
        · exact noPanic_ok _

theorem noPanic_applyTxsToSim (m : Sim) (txs : List Tx) : (m.applyTxsToSim txs).NoPanic := by
  induction txs generalizing m with
  | nil => exact noPanic_ok m
  | cons tx txs ih => exact (m.noPanic_applyTxToSim tx).bind fun m' _ => ih m'

/-- A checked transaction carries the claim that the loop of `ValidateBlockStateTip` reads. -/
theorem noPanic_simTx {n : Node} {tx : Tx} (h : n.TxChecked tx) (m : Sim) :
    (m.simTx tx).NoPanic := by
  unfold simTx
  simp only [Tx.fromId_normalize, Tx.nonce_normalize, Tx.fee_normalize, Tx.outputs_normalize,
    Tx.otapClaim_normalize, Tx.type_normalize_claim]
  split
  · exact noPanic_error _
  · by_cases hclaim : tx.type = "otap_claim"
    · obtain ⟨c, hc, -, -⟩ := h.claim hclaim
      rw [if_pos hclaim, hc]
      dsimp only
      split
      · exact noPanic_error _
      · exact noPanic_ok _
    · rw [if_neg hclaim]
      split
      · exact noPanic_error _
      · exact noPanic_ok _

theorem noPanic_simTxs {n : Node} {txs : List Tx} (h : ∀ tx ∈ txs, n.TxChecked tx) (m : Sim) :
    (m.simTxs txs).NoPanic := by
  induction txs generalizing m with
  | nil => exact noPanic_ok m
  | cons tx txs ih =>
      refine (noPanic_simTx (h tx List.mem_cons_self) m).bind fun m' _ => ?_
      exact ih (fun tx' h' => h tx' (List.mem_cons_of_mem _ h')) m'

end Sim

namespace Node

variable (n : Node)

theorem noPanic_validateLimits (b : Block) : (n.validateLimits b).NoPanic := by
  unfold validateLimits
  dsimp only
  split_ifs
  · exact noPanic_error _
  · exact noPanic_error _
  · exact noPanic_error _
  · exact noPanic_ok _

/-- The rules read the first transaction only where there is one. -/
theorem noPanic_coinbaseRules (txs : List Tx) : (n.coinbaseRules txs).NoPanic := by
  unfold coinbaseRules
  split
  · split
    · exact noPanic_error _
    · split
      · exact noPanic_error _
      · split
        · exact noPanic_error _
        · split
          · split
            · exact noPanic_error _
            · exact noPanic_ok _
          · exact noPanic_error _
  · split
    · exact noPanic_error _
    · exact noPanic_ok _

theorem noPanic_checkClaim (tx : Tx) : (n.checkClaim tx).NoPanic := by
  unfold checkClaim
  split
  · exact noPanic_error _
  · split_ifs
    all_goals first | exact noPanic_error _ | exact noPanic_ok _

theorem noPanic_checkTx (tx : Tx) : (n.checkTx tx).NoPanic := by
  unfold checkTx
  dsimp only
  split_ifs
  all_goals first | exact noPanic_error _ | exact noPanic_ok _ | exact n.noPanic_checkClaim _

theorem noPanic_checkTxs (txs : List Tx) : (n.checkTxs txs).NoPanic := by
  induction txs with
  | nil => exact noPanic_ok ()
  | cons tx txs ih => exact (n.noPanic_checkTx tx).bind fun _ _ => ih

theorem noPanic_coinbaseCoversFees (txs : List Tx) : (n.coinbaseCoversFees txs).NoPanic := by
  unfold coinbaseCoversFees
  split
  · exact noPanic_ok _
  · split
    · exact noPanic_error _
    · exact noPanic_ok _

theorem noPanic_validateBlockBasic (b : Block) : (n.validateBlockBasic b).NoPanic :=
  (n.noPanic_coinbaseRules b.txs).bind fun _ _ =>
    (n.noPanic_checkTxs (n.signedTxs b.txs)).bind fun _ _ => n.noPanic_coinbaseCoversFees b.txs

theorem noPanic_applyBlockToSim (m : Sim) (b : Block) : (n.applyBlockToSim m b).NoPanic :=
  (n.noPanic_validateLimits b).bind fun _ _ =>
    (n.noPanic_validateBlockBasic b).bind fun _ _ => m.noPanic_applyTxsToSim b.txs

/-- A replay along the index ends with an error or a working copy. -/
theorem noPanic_replayIndex (s : DB) (count : ℕ) (h : UInt64) (m : Sim) :
    (n.replayIndex s count h m).NoPanic := by
  induction count generalizing h m with
  | zero => exact noPanic_ok m
  | succ count ih =>
      rw [replayIndex]
      split
      · exact noPanic_ok m
      next blk _ =>
        have happly := n.noPanic_applyBlockToSim m blk
        split
        next e he =>
          -- wrapping an error keeps it an error
          rw [he] at happly
          cases e with
          | error msg => exact noPanic_error _
          | panic msg => exact absurd rfl (happly msg)
        next m' _ => exact ih (h + 1) m'

theorem noPanic_validateBlockStateOnMainParent (s : DB) (b : Block) :
    (n.validateBlockStateOnMainParent s b).NoPanic := by
  unfold validateBlockStateOnMainParent
  split
  · refine (n.noPanic_replayIndex s _ _ _).bind fun m _ => ?_
    exact (n.noPanic_applyBlockToSim m b).bind fun _ _ => noPanic_ok ()
  · exact noPanic_ok ()

/-- A missing parent is an error. -/
theorem noPanic_checkParent (s : DB) (b : Block) : (n.checkParent s b).NoPanic := by
  unfold checkParent checkBits
  split
  · exact noPanic_error _
  · split
    · exact noPanic_error _
    · split
      · exact noPanic_ok _
      · split
        · exact noPanic_error _
        · exact noPanic_ok _

/-- No check before the store panics. -/
theorem noPanic_preStore (s : DB) (b : Block) : (n.preStore s b).NoPanic := by
  unfold preStore
  split
  · exact noPanic_error _
  · refine (n.noPanic_validateLimits b).bind fun _ _ => ?_
    refine (n.noPanic_validateBlockStateOnMainParent s b).bind fun _ _ => ?_
    refine (n.noPanic_validateBlockBasic b).bind fun _ _ => ?_
    split
    · exact noPanic_error _
    · split
      · exact noPanic_ok _
      · exact (n.noPanic_checkParent s b).bind fun _ _ => noPanic_ok _

variable {n}

/-- The basic checks give `ValidateBlockStateTip` the coinbase and the claims that it reads. -/
theorem noPanic_validateBlockStateTip {b : Block} (h : n.validateBlockBasic b = .ok ())
    (l : Ledger) : (n.validateBlockStateTip l b).NoPanic := by
  refine Res.NoPanic.bind ?_ fun _ _ => n.noPanic_coinbaseCoversFees b.txs
  have hshape := basicShape_of_validateBlockBasic h
  unfold simulateTip
  generalize b.txs = txs at hshape
  cases hshape with
  | issuing hon hcb houts hreward hrest =>
      rw [if_pos hon]
      dsimp only
      rw [houts]
      exact Sim.noPanic_simTxs hrest _
  | plain hoff htxs =>
      rw [if_neg (by rw [hoff]; exact Bool.false_ne_true)]
      exact Sim.noPanic_simTxs htxs _

end Node

/-! ### Errors that leave a trace -/

namespace DB

/-- Blocks, height index, headers, work, tip, finality records and ledger are the same. -/
structure SameRecords (s t : DB) : Prop where
  blockByHash : t.blockByHash = s.blockByHash
  hashByHeight : t.hashByHeight = s.hashByHeight
  headerByHash : t.headerByHash = s.headerByHash
  work : t.work = s.work
  tip : t.getTip = s.getTip
  tipWork : t.tipWork = s.tipWork
  finalized : t.finalized = s.finalized
  finalizedHeight : t.finalizedHeight = s.finalizedHeight
  finalizedHash : t.finalizedHash = s.finalizedHash
  checkpoints : t.checkpoints = s.checkpoints
  votes : t.votes = s.votes
  ledger : t.ledger = s.ledger

theorem SameRecords.refl (s : DB) : s.SameRecords s :=
  ⟨rfl, rfl, rfl, rfl, rfl, rfl, rfl, rfl, rfl, rfl, rfl, rfl⟩

end DB

namespace Node

variable {n : Node}

variable (n) in
/-- The database already holds everything that storing the block writes. -/
structure Holds (s : DB) (b : Block) : Prop where
  block : s.blockByHash (n.hashHex b.header) = some b
  index : s.hashByHeight b.header.height = some (n.hashHex b.header)
  header : s.headerByHash (n.hashHex b.header) = some b.header
  work : s.work (n.hashHex b.header) = some (cumWork s b)

/-- Storing a block leaves no trace exactly when the database holds it already. -/
theorem sameRecords_stored_iff {s : DB} {b : Block} :
    s.SameRecords (n.stored s b) ↔ n.Holds s b := by
  have hblock : (n.stored s b).blockByHash =
      Function.update s.blockByHash (n.hashHex b.header) (some b) := rfl
  have hindex : (n.stored s b).hashByHeight =
      Function.update s.hashByHeight b.header.height (some (n.hashHex b.header)) := rfl
  have hheader : (n.stored s b).headerByHash =
      Function.update s.headerByHash (n.hashHex b.header) (some b.header) := rfl
  have hwork : (n.stored s b).work =
      Function.update s.work (n.hashHex b.header) (some (cumWork s b)) := rfl
  constructor
  · -- a write leaves no trace exactly if it writes what is there
    intro h
    have hb := h.blockByHash
    have hi := h.hashByHeight
    have hh := h.headerByHash
    have hw := h.work
    rw [hblock, Function.update_eq_self_iff] at hb
    rw [hindex, Function.update_eq_self_iff] at hi
    rw [hheader, Function.update_eq_self_iff] at hh
    rw [hwork, Function.update_eq_self_iff] at hw
    exact ⟨hb.symm, hi.symm, hh.symm, hw.symm⟩
  · intro h
    have hfin := sameFinality_stored (n := n) s b
    refine ⟨?_, ?_, ?_, ?_, rfl, rfl, hfin.finalized, hfin.finalizedHeight, hfin.finalizedHash,
      rfl, hfin.votes, rfl⟩
    · rw [hblock, Function.update_eq_self_iff, h.block]
    · rw [hindex, Function.update_eq_self_iff, h.index]
    · rw [hheader, Function.update_eq_self_iff, h.header]
    · rw [hwork, Function.update_eq_self_iff, h.work]

/-- An error of `SubmitBlock` leaves no trace, exactly when no block that gets past the checks
before the first write, and that the database does not hold already, extends the tip and fails
`ValidateBlockStateTip`. -/
theorem noTrace_iff (n : Node) (now : Int64) (s : DB) (b : Block) :
    ((∃ msg, (n.submitBlock now s b).1 = .error (.error msg)) →
        s.SameRecords (n.submitBlock now s b).2) ↔
      (n.preStore s b = .ok true → extendsTip s b = true →
        n.validateBlockStateTip s.ledger b ≠ .ok () → n.Holds s b) := by
  have hout := n.submitBlock_outcome now s b
  generalize n.submitBlock now s b = res at hout
  cases hout with
  | rejected e hpre =>
      refine iff_of_true (fun _ => .refl s) fun hok => ?_
      rw [hpre] at hok
      cases hok
  | ignored hpre =>
      refine iff_of_true (fun _ => .refl s) fun hok => ?_
      rw [hpre] at hok
      cases hok
  | invalidTip e hpre hext hval =>
      -- the error is the one of the tip validation, which does not panic
      have hnp := noPanic_validateBlockStateTip (storable_of_preStore n hpre).basic s.ledger
      rw [hval] at hnp
      have herr : ∃ msg, (.error e : Res Unit) = .error (.error msg) := by
        cases e with
        | error msg => exact ⟨msg, rfl⟩
        | panic msg => exact absurd rfl (hnp msg)
      have hne : n.validateBlockStateTip s.ledger b ≠ .ok () := by
        rw [hval]
        simp
      rw [← sameRecords_stored_iff]
      exact ⟨fun h _ _ _ => h herr, fun h _ => h hpre hext hne⟩
  | extended hpre hext hval =>
      refine iff_of_true (fun herr => ?_) fun _ _ hne => absurd hval hne
      obtain ⟨msg, hmsg⟩ := herr
      cases hmsg
  | forkStored r hpre hext hkeep hres =>
      refine iff_of_true (fun herr => ?_) fun _ htip => ?_
      · -- off the tip `SubmitBlock` returns nil or panics
        obtain ⟨msg, hmsg⟩ := herr
        rcases hres with ⟨rfl, -⟩ | ⟨msg', rfl, -, -⟩
        · cases hmsg
        · cases hmsg
      · rw [hext] at htip
        cases htip
  | switched finH path hpre hext hwork hpath =>
      refine iff_of_true (fun herr => ?_) fun _ htip => ?_
      · obtain ⟨msg, hmsg⟩ := herr
        cases hmsg
      · rw [hext] at htip
        cases htip

end Node

namespace Sample

/-- A block with a transfer that skips alice's first nonces. -/
def skipping : Block := child node.genesisBlock 1 0x20010000 [transfer alice 5 []]

end Sample

namespace Node

open Sample

/-- A block on the tip with a wrong nonce is rejected and stays stored. -/
theorem not_noTrace_skipping :
    (∃ msg, (node.submitBlock 0 (node.genesisDB ∅) skipping).1 = .error (.error msg)) ∧
      ¬ (node.genesisDB ∅).SameRecords
        (node.submitBlock 0 (node.genesisDB ∅) skipping).2 := by
  refine ⟨⟨"bad nonce in block", by decide +kernel⟩, fun hsame => ?_⟩
  have hread : (node.submitBlock 0 (node.genesisDB ∅) skipping).2.blockByHash
      (node.hashHex skipping.header) = some skipping ∧
      (node.genesisDB ∅).blockByHash (node.hashHex skipping.header) = none := by
    decide +kernel
  rw [hsame.blockByHash, hread.2] at hread
  exact absurd hread.1 (by simp)

end Node

/-! ### Panics -/

namespace DB

/-- The walk itself does not panic. -/
theorem noPanic_walkBack (s : DB) (finH : UInt64) (k : ℕ) (x : String) (path : List String) :
    (s.walkBack finH k x path).NoPanic := by
  induction k generalizing x path with
  | zero =>
      rw [walkBack]
      split
      · exact noPanic_ok _
      · split
        · exact noPanic_error _
        · exact noPanic_ok _
  | succ k ih =>
      rw [walkBack]
      split
      · exact noPanic_ok _
      · split
        · exact noPanic_error _
        · split
          · exact noPanic_error _
          · exact ih _ _

/-- With a finalized pair, the checks of a switch panic exactly when the path slice cannot be made.
-/
theorem noPanic_candidatePath_iff {s : DB} {fin : UInt64 × String} (hfin : s.finalized = some fin)
    (x : String) (h : UInt64) :
    (s.candidatePath x h).NoPanic ↔ makesliceFails (pathCap fin.1 h) = false := by
  unfold candidatePath
  rw [switchAnchor_of_finalized hfin]
  show NoPanic (if makesliceFails (pathCap fin.1 h) then _ else _) ↔ _
  cases hcap : makesliceFails (pathCap fin.1 h) with
  | true =>
      rw [if_pos rfl]
      exact iff_of_false (fun hnp => hnp _ rfl) (by simp)
  | false =>
      rw [if_neg (by simp)]
      refine iff_of_true ?_ rfl
      refine (s.noPanic_walkBack fin.1 h.toNat x []).bind fun path _ => ?_
      split
      · exact noPanic_error _
      · exact noPanic_ok _

end DB

namespace Node

variable {n : Node}

variable (n) in
/-- The database after a list of events at a new node. -/
def reached (registry : Table RegValidator) (es : List Event) : DB :=
  es.foldl n.step (n.genesisDB registry)

/-- A node has a finalized pair from the start on, and never loses it. -/
theorem isSome_finalized_step {s : DB} (hs : s.finalized.isSome = true) (e : Event) :
    (n.step s e).finalized.isSome = true := by
  obtain ⟨s₁, hsame, hfin⟩ := n.finSteps_event s e
  refine Run.closure_invariant (I := fun u => u.finalized.isSome = true) (fun u v hstep hu => ?_)
    hfin (by rw [hsame.finalized]; exact hs)
  cases hstep with
  | sign => exact hu
  | record => exact hu
  | finalize => rfl
  | finalizeWeighted => exact hu

theorem isSome_finalized_reached (registry : Table RegValidator) (es : List Event) :
    (n.reached registry es).finalized.isSome = true := by
  refine Run.invariant (I := fun s => s.finalized.isSome = true) (E := fun _ => True)
    (fun s e hs _ _ => isSome_finalized_step hs e) (fun _ _ => trivial) ?_
    (Run.admitted_of_forall (n.genesisDB registry) fun _ _ _ => trivial) _
    (Run.foldl_mem_states n.step _ es)
  rfl

/-- In every reachable state, `SubmitBlock` does not panic exactly when a block that is stored off
the tip with more work than the tip has a height whose distance to the finalized height is the
capacity of a slice. -/
theorem noPanic_iff (n : Node) (registry : Table RegValidator) (es : List Event) (now : Int64)
    (b : Block) :
    (n.submitBlock now (n.reached registry es) b).1.NoPanic ↔
      (n.preStore (n.reached registry es) b = .ok true →
        extendsTip (n.reached registry es) b = false →
        (n.reached registry es).getTipWork < cumWork (n.reached registry es) b →
        ∀ finH x, (n.reached registry es).finalized = some (finH, x) →
          DB.makesliceFails (DB.pathCap finH b.header.height) = false) := by
  have hfinal : (n.reached registry es).finalized.isSome = true :=
    isSome_finalized_reached registry es
  generalize n.reached registry es = s at hfinal
  -- every reached state has a finalized pair, so the anchor is that pair
  obtain ⟨⟨finH, finHash⟩, hfin⟩ := Option.isSome_iff_exists.mp hfinal
  have hstored : (n.stored s b).finalized = some (finH, finHash) :=
    (sameFinality_stored s b).finalized.trans hfin
  have hcap := DB.noPanic_candidatePath_iff hstored (n.hashHex b.header) b.header.height
  have hout := n.submitBlock_outcome now s b
  generalize n.submitBlock now s b = res at hout
  cases hout with
  | rejected e hpre =>
      have hnp := n.noPanic_preStore s b
      rw [hpre] at hnp
      refine iff_of_true (fun msg hmsg => hnp msg (by rw [Except.error.inj hmsg])) fun hok => ?_
      rw [hpre] at hok
      cases hok
  | ignored hpre =>
      refine iff_of_true (noPanic_ok _) fun hok => ?_
      rw [hpre] at hok
      cases hok
  | invalidTip e hpre hext hval =>
      have hnp := noPanic_validateBlockStateTip (storable_of_preStore n hpre).basic s.ledger
      rw [hval] at hnp
      refine iff_of_true hnp fun _ hoff => ?_
      rw [hext] at hoff
      cases hoff
  | extended hpre hext hval =>
      refine iff_of_true (noPanic_ok _) fun _ hoff => ?_
      rw [hext] at hoff
      cases hoff
  | forkStored r hpre hext hkeep hres =>
      -- the fork choice ran: a panic of the switch is the only one that gets through
      rcases hres with ⟨rfl, hno⟩ | ⟨msg, rfl, hwork, hpanic⟩
      · refine iff_of_true (noPanic_ok _) fun _ _ hwork k x hk => ?_
        obtain ⟨rfl, -⟩ : finH = k ∧ finHash = x :=
          Prod.mk.inj (Option.some.inj (hfin.symm.trans hk))
        exact hcap.mp (hno hwork)
      · refine iff_of_false (fun hnp => hnp msg rfl) fun h => ?_
        exact hcap.mpr (h hpre hext hwork finH finHash hfin) msg hpanic
  | switched k path hpre hext hwork hpath =>
      refine iff_of_true (noPanic_ok _) fun _ _ _ k' x hk => ?_
      obtain ⟨rfl, -⟩ : finH = k' ∧ finHash = x :=
        Prod.mk.inj (Option.some.inj (hfin.symm.trans hk))
      refine hcap.mp fun msg hmsg => ?_
      rw [hpath] at hmsg
      cases hmsg

end Node

namespace Sample

/-- A light block becomes the tip, and a vote finalizes height five. -/
def aheadEvents : List Event := [.submitBlock 0 fork₁, .ingestVote 0 (vote 5 "05")]

end Sample

namespace Node

open Sample

/-- After a vote for height five, a heavier block of height one makes `SubmitBlock` panic. -/
theorem not_noPanic_ahead :
    ¬ (voting.submitBlock 0 (voting.reached ∅ aheadEvents)
      main₁).1.NoPanic := by
  intro hnp
  refine hnp "makeslice: cap out of range" ?_
  decide +kernel

end Node

end ReserveOS
