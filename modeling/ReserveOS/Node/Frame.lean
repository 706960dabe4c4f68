import ReserveOS.Node.Submit

/-!
# What each operation leaves alone

Block processing and finality work on disjoint parts of the database. `DB.SameChain` and
`DB.SameFinality` say that two databases agree on one part. Each operation of the node is classified
by one lemma here, and `SubmitOutcome` lists what `SubmitBlock` can do, with the guard of each case;
later modules use these and do not unfold the operations.
-/

namespace ReserveOS

namespace DB

/-- Two databases with the same blocks, height index, tip, ledger and registry: what the finality
code does not write. -/
structure SameChain (s s' : DB) : Prop where
  blockByHash : s'.blockByHash = s.blockByHash
  hashByHeight : s'.hashByHeight = s.hashByHeight
  work : s'.work = s.work
  tipHeight : s'.tipHeight = s.tipHeight
  tipBlockID : s'.tipBlockID = s.tipBlockID
  tipWork : s'.tipWork = s.tipWork
  ledger : s'.ledger = s.ledger
  validators : s'.validators = s.validators

/-- Two databases with the same finality records, votes and registry. -/
structure SameFinality (s s' : DB) : Prop where
  finalized : s'.finalized = s.finalized
  finalizedHeight : s'.finalizedHeight = s.finalizedHeight
  finalizedHash : s'.finalizedHash = s.finalizedHash
  votes : s'.votes = s.votes
  validators : s'.validators = s.validators
  signLog : s'.signLog = s.signLog
  finalizedLog : s'.finalizedLog = s.finalizedLog
  weightedLog : s'.weightedLog = s.weightedLog

namespace SameChain

theorem refl (s : DB) : SameChain s s := ⟨rfl, rfl, rfl, rfl, rfl, rfl, rfl, rfl⟩

theorem trans {s t u : DB} (h₁ : SameChain s t) (h₂ : SameChain t u) : SameChain s u where
  blockByHash := h₂.blockByHash.trans h₁.blockByHash
  hashByHeight := h₂.hashByHeight.trans h₁.hashByHeight
  work := h₂.work.trans h₁.work
  tipHeight := h₂.tipHeight.trans h₁.tipHeight
  tipBlockID := h₂.tipBlockID.trans h₁.tipBlockID
  tipWork := h₂.tipWork.trans h₁.tipWork
  ledger := h₂.ledger.trans h₁.ledger
  validators := h₂.validators.trans h₁.validators

theorem getTip {s s' : DB} (h : SameChain s s') : s'.getTip = s.getTip :=
  getTip_congr h.tipHeight h.tipBlockID

theorem getBlockByHeight {s s' : DB} (h : SameChain s s') :
    s'.getBlockByHeight = s.getBlockByHeight := by
  funext k
  rw [DB.getBlockByHeight, DB.getBlockByHeight, h.hashByHeight, h.blockByHash]

end SameChain

namespace SameFinality

theorem refl (s : DB) : SameFinality s s := ⟨rfl, rfl, rfl, rfl, rfl, rfl, rfl, rfl⟩

theorem trans {s t u : DB} (h₁ : SameFinality s t) (h₂ : SameFinality t u) : SameFinality s u where
  finalized := h₂.finalized.trans h₁.finalized
  finalizedHeight := h₂.finalizedHeight.trans h₁.finalizedHeight
  finalizedHash := h₂.finalizedHash.trans h₁.finalizedHash
  votes := h₂.votes.trans h₁.votes
  validators := h₂.validators.trans h₁.validators
  signLog := h₂.signLog.trans h₁.signLog
  finalizedLog := h₂.finalizedLog.trans h₁.finalizedLog
  weightedLog := h₂.weightedLog.trans h₁.weightedLog

end SameFinality

/-- Rewriting the index along a path sets the heights from `h` on and no others. -/
theorem hashByHeight_rewriteIndex (path : List String) (s : DB) (h k : UInt64)
    (hfit : h.toNat + path.length ≤ 2 ^ 64) :
    (s.rewriteIndex h path).hashByHeight k =
      if h.toNat ≤ k.toNat ∧ k.toNat < h.toNat + path.length then path[k.toNat - h.toNat]?
      else s.hashByHeight k := by
  induction path generalizing s h with
  | nil =>
      rw [rewriteIndex, if_neg]
      simp only [List.length_nil]
      omega
  | cons x path ih =>
      rw [List.length_cons] at hfit
      rw [rewriteIndex]
      rcases Nat.eq_zero_or_pos path.length with hnil | hpos
      · -- the last entry of the path: the next height may wrap, but is not used
        obtain rfl := List.length_eq_zero_iff.mp hnil
        rw [rewriteIndex, putHashByHeightOverwrite]
        by_cases hk : k = h
        · subst hk
          simp
        · have hne : k.toNat ≠ h.toNat := fun heq => hk (UInt64.toNat.inj heq)
          rw [if_neg (by simp only [List.length_cons, List.length_nil]; omega)]
          simp [Function.update_of_ne hk]
      · have hsucc : (h + 1).toNat = h.toNat + 1 := toNat_succ_of_lt (by omega)
        rw [ih _ _ (by omega), hsucc]
        by_cases hk : k = h
        · subst hk
          rw [if_neg (by omega), if_pos (by simp only [List.length_cons]; omega)]
          simp [putHashByHeightOverwrite]
        · have hne : k.toNat ≠ h.toNat := fun heq => hk (UInt64.toNat.inj heq)
          -- a height beside `h` is rewritten by the rest of the path, or not at all
          by_cases hin : h.toNat + 1 ≤ k.toNat ∧ k.toNat < h.toNat + 1 + path.length
          · rw [if_pos hin, if_pos (by simp only [List.length_cons]; omega)]
            obtain ⟨j, hj⟩ : ∃ j, k.toNat - h.toNat = j + 1 := ⟨k.toNat - h.toNat - 1, by omega⟩
            rw [hj, List.getElem?_cons_succ]
            congr 1
            omega
          · rw [if_neg hin, if_neg (by simp only [List.length_cons]; omega)]
            simp [putHashByHeightOverwrite, Function.update_of_ne hk]

/-- Rewriting the index touches nothing but the index. -/
theorem rewriteIndex_eq (path : List String) (s : DB) (h : UInt64) :
    s.rewriteIndex h path = { s with hashByHeight := (s.rewriteIndex h path).hashByHeight } := by
  induction path generalizing s h with
  | nil => rfl
  | cons x path ih =>
      rw [rewriteIndex, ih]
      rfl

end DB

namespace Node

variable (n : Node)

/-! ### Applying and rebuilding -/

/-- `applyTxs` writes the ledger and the transaction index. -/
theorem applyTxs_eq (txs : List Tx) (s : DB) :
    (n.applyTxs s txs).2 =
      { s with ledger := (n.applyTxs s txs).2.ledger, txs := (n.applyTxs s txs).2.txs } := by
  induction txs generalizing s with
  | nil => rfl
  | cons tx txs ih =>
      rw [applyTxs]
      split
      · rfl
      · rw [ih]
        rfl

/-- `applyBlockTxs` writes the ledger, the transaction index and the block fees. -/
theorem applyBlockTxs_eq (s : DB) (b : Block) :
    (n.applyBlockTxs s b).2 = { s with
        ledger := (n.applyBlockTxs s b).2.ledger
        txs := (n.applyBlockTxs s b).2.txs
        blockFees := (n.applyBlockTxs s b).2.blockFees } := by
  have h := n.applyTxs_eq b.txs s
  unfold applyBlockTxs
  split
  next e s' heq =>
    rw [heq] at h
    dsimp only at h ⊢
    rw [h]
  next s' heq =>
    rw [heq] at h
    dsimp only at h ⊢
    rw [h]
    rfl

/-- The replay of the main chain writes what `applyBlockTxs` writes. -/
theorem replayMainChain_eq (count : ℕ) (h : UInt64) (s : DB) :
    (n.replayMainChain count h s).2 = { s with
        ledger := (n.replayMainChain count h s).2.ledger
        txs := (n.replayMainChain count h s).2.txs
        blockFees := (n.replayMainChain count h s).2.blockFees } := by
  induction count generalizing h s with
  | zero => rfl
  | succ count ih =>
      rw [replayMainChain]
      split
      · rfl
      · rename_i b hb
        have hb := n.applyBlockTxs_eq s b
        split
        next e s' heq =>
          rw [heq] at hb
          exact hb
        next s' heq =>
          rw [heq] at hb
          dsimp only at hb
          rw [ih, hb]

/-- The rebuild writes what `applyBlockTxs` writes. -/
theorem rebuildStateFromFinalized_eq (s : DB) :
    (n.rebuildStateFromFinalized s).2 = { s with
        ledger := (n.rebuildStateFromFinalized s).2.ledger
        txs := (n.rebuildStateFromFinalized s).2.txs
        blockFees := (n.rebuildStateFromFinalized s).2.blockFees } := by
  unfold rebuildStateFromFinalized
  dsimp only
  split
  · rfl
  · rw [replayMainChain_eq]

/-! ### Block writes leave finality alone -/

section Finality

variable {n : Node}

-- one lemma for each write: unfolding several nested writes at once is slow

theorem sameFinality_putBlock (s : DB) (hashHex : String) (h : UInt64) (b : Block) :
    s.SameFinality (s.putBlock hashHex h b) := ⟨rfl, rfl, rfl, rfl, rfl, rfl, rfl, rfl⟩

theorem sameFinality_putHeader (s : DB) (hashHex : String) (header : BlockHeader) :
    s.SameFinality (s.putHeader hashHex header) := ⟨rfl, rfl, rfl, rfl, rfl, rfl, rfl, rfl⟩

theorem sameFinality_putWork (s : DB) (hashHex : String) (w : UInt64) :
    s.SameFinality (s.putWork hashHex w) := ⟨rfl, rfl, rfl, rfl, rfl, rfl, rfl, rfl⟩

theorem sameFinality_putTip (s : DB) (h : UInt64) (id : String) :
    s.SameFinality (s.putTip h id) := ⟨rfl, rfl, rfl, rfl, rfl, rfl, rfl, rfl⟩

theorem sameFinality_putCheckpoint (s : DB) (h : UInt64) (cp : Checkpoint) :
    s.SameFinality (s.putCheckpoint h cp) := ⟨rfl, rfl, rfl, rfl, rfl, rfl, rfl, rfl⟩

theorem sameFinality_stored (s : DB) (b : Block) : s.SameFinality (n.stored s b) :=
  ((sameFinality_putBlock ..).trans (sameFinality_putHeader ..)).trans (sameFinality_putWork ..)

theorem sameFinality_moveTip (s : DB) (b : Block) (cum : UInt64) :
    s.SameFinality (n.moveTip s b cum) := ⟨rfl, rfl, rfl, rfl, rfl, rfl, rfl, rfl⟩

theorem sameFinality_switchTo (s : DB) (finH : UInt64) (path : List String) (x : String)
    (h : UInt64) : s.SameFinality (s.switchTo finH path x h) := by
  have hindex : s.SameFinality (s.rewriteIndex finH path) := by
    rw [DB.rewriteIndex_eq]
    exact ⟨rfl, rfl, rfl, rfl, rfl, rfl, rfl, rfl⟩
  exact hindex.trans (sameFinality_putTip ..)

end Finality

/-! ### The exits of `SubmitBlock` -/

/-- What `SubmitBlock` can return, with the guards of each exit on the database before the call. -/
inductive SubmitOutcome (now : Int64) (s : DB) (b : Block) : Res Unit × DB → Prop
  | rejected (e : Fault) (hpre : n.preStore s b = .error e) : SubmitOutcome now s b (.error e, s)
  | ignored (hpre : n.preStore s b = .ok false) : SubmitOutcome now s b (.ok (), s)
  | invalidTip (e : Fault) (hpre : n.preStore s b = .ok true) (hext : extendsTip s b = true)
      (hval : n.validateBlockStateTip s.ledger b = .error e) :
      SubmitOutcome now s b (.error e, n.stored s b)
  | extended (hpre : n.preStore s b = .ok true) (hext : extendsTip s b = true)
      (hval : n.validateBlockStateTip s.ledger b = .ok ()) :
      SubmitOutcome now s b (.ok (), n.advanceTip now (n.stored s b) b (cumWork s b))
  | forkStored (r : Res Unit) (hpre : n.preStore s b = .ok true) (hext : extendsTip s b = false)
      (hkeep : s.getTipWork < cumWork s b →
        ∃ e, (n.stored s b).candidatePath (n.hashHex b.header) b.header.height = .error e)
      (hres : (r = .ok () ∧ (s.getTipWork < cumWork s b → ∀ msg, (n.stored s b).candidatePath
          (n.hashHex b.header) b.header.height ≠ .error (.panic msg))) ∨
        ∃ msg, r = .error (.panic msg) ∧ s.getTipWork < cumWork s b ∧
          (n.stored s b).candidatePath (n.hashHex b.header) b.header.height = .error (.panic msg)) :
      SubmitOutcome now s b (r, n.stored s b)
  | switched (finH : UInt64) (path : List String) (hpre : n.preStore s b = .ok true)
      (hext : extendsTip s b = false) (hwork : s.getTipWork < cumWork s b)
      (hpath : (n.stored s b).candidatePath (n.hashHex b.header) b.header.height =
        .ok (finH, path)) :
      SubmitOutcome now s b (.ok (), (n.rebuildStateFromFinalized ((n.stored s b).switchTo finH path
        (n.hashHex b.header) b.header.height)).2.putTipWork (cumWork s b))

/-- Every call of `SubmitBlock` takes one of its exits. -/
theorem submitBlock_outcome (now : Int64) (s : DB) (b : Block) :
    n.SubmitOutcome now s b (n.submitBlock now s b) := by
  unfold submitBlock
  split
  next e hpre => exact .rejected e hpre
  next hpre => exact .ignored hpre
  next hpre =>
    dsimp only
    split
    next hext =>
      unfold extendTip
      split
      next e hval => exact .invalidTip e hpre hext hval
      next hval => exact .extended hpre hext hval
    next hext =>
      have hext : extendsTip s b = false := Bool.eq_false_iff.mpr hext
      unfold selectFork
      split
      next hwork =>
        -- more work than the tip: the checks of the switch decide
        unfold trySwitchMainChain
        cases hpath : (n.stored s b).candidatePath (n.hashHex b.header) b.header.height with
        | error e =>
            have hkeep : s.getTipWork < cumWork s b → ∃ e, (n.stored s b).candidatePath
                (n.hashHex b.header) b.header.height = .error e := fun _ => ⟨e, hpath⟩
            cases e with
            | error msg =>
                refine .forkStored _ hpre hext hkeep (Or.inl ⟨rfl, fun _ msg' => ?_⟩)
                rw [hpath]
                simp
            | panic msg =>
                exact .forkStored _ hpre hext hkeep (Or.inr ⟨msg, rfl, hwork, hpath⟩)
        | ok p => exact .switched p.1 p.2 hpre hext hwork hpath
      next hwork =>
        exact .forkStored _ hpre hext (fun h => absurd h hwork)
          (Or.inl ⟨rfl, fun h => absurd h hwork⟩)

/-- What holds of a block that reaches the store. -/
structure Storable (s : DB) (b : Block) : Prop where
  limits : n.validateLimits b = .ok ()
  mainParent : n.validateBlockStateOnMainParent s b = .ok ()
  basic : n.validateBlockBasic b = .ok ()
  height_ne_zero : b.header.height ≠ 0
  parent : ∃ p, s.blockByHash b.prevHex = some p ∧ p.header.height + 1 = b.header.height

/-- A block goes on to be stored only if it has passed the checks before the first write. -/
theorem storable_of_preStore {s : DB} {b : Block} (h : n.preStore s b = .ok true) :
    n.Storable s b := by
  unfold preStore at h
  obtain ⟨-, h⟩ := Res.ite_error_eq_ok.mp h
  obtain ⟨⟨⟩, hlim, h⟩ := Res.bind_eq_ok.mp h
  obtain ⟨⟨⟩, hmain, h⟩ := Res.bind_eq_ok.mp h
  obtain ⟨⟨⟩, hbasic, h⟩ := Res.bind_eq_ok.mp h
  obtain ⟨-, h⟩ := Res.ite_error_eq_ok.mp h
  split at h
  · cases h
  next hne =>
    obtain ⟨⟨⟩, hparent, -⟩ := Res.bind_eq_ok.mp h
    refine ⟨hlim, hmain, hbasic, hne, ?_⟩
    -- of the parent rules only the two about the parent are needed
    unfold checkParent at hparent
    split at hparent
    · cases hparent
    next p hp =>
      obtain ⟨hheight, -⟩ := Res.ite_error_eq_ok.mp hparent
      exact ⟨p, hp, not_not.mp hheight⟩

end Node

end ReserveOS
