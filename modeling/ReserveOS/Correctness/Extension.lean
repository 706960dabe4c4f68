import ReserveOS.Correctness.ArrivalOrder

/-!
# Blocks that extend the tip

What `SubmitBlock` does with a block that extends the tip and passes its checks, on the tables of
the chain: `extend`. The clock and the votes, which the checkpoint in `SubmitBlock` reads, do not
matter to them (`sameChain_submitBlock`).

The checks before the first write read the stored blocks, the height index and the tip, and nothing
else (`preStore_congr`).
-/

namespace ReserveOS

namespace Node

variable {n : Node} {s t : DB} {b : Block}

/-! ### What the checks read -/

/-- The fork replay reads the height index where it replays, and nothing else. -/
theorem replayIndex_congr {count : ℕ} {h : UInt64} (hfit : h.toNat + count ≤ 2 ^ 64)
    (hidx : ∀ k : UInt64, h.toNat ≤ k.toNat → k.toNat < h.toNat + count →
      s.getBlockByHeight k = t.getBlockByHeight k) (m : Sim) :
    n.replayIndex s count h m = n.replayIndex t count h m := by
  induction count generalizing h m with
  | zero => rfl
  | succ count ih =>
      rw [replayIndex, replayIndex, hidx h le_rfl (by omega)]
      cases t.getBlockByHeight h with
      | none => rfl
      | some p =>
          obtain ⟨x, blk⟩ := p
          dsimp only
          cases n.applyBlockToSim m blk with
          | error e => rfl
          | ok m' =>
              by_cases hlast : h.toNat + 1 = 2 ^ 64
              · -- the last height there is: nothing is left to replay
                obtain rfl : count = 0 := by omega
                rfl
              · have hlt := h.toNat_lt
                have hsucc : (h + 1).toNat = h.toNat + 1 := toNat_succ_of_lt (by omega)
                exact ih (by omega) (fun k hk hk' => hidx k (by omega) (by omega)) m'

/-- The working copy of the fork validator is read off the index up to the parent. -/
theorem mainParentSim_congr {parentH : UInt64}
    (hidx : ∀ k : UInt64, k.toNat ≤ parentH.toNat → s.getBlockByHeight k = t.getBlockByHeight k) :
    n.mainParentSim s parentH = n.mainParentSim t parentH := by
  have hlt := parentH.toNat_lt
  have hstart := ((n.forkBase parentH).1 + 1).toNat_lt
  exact replayIndex_congr (by omega) (fun k _ hk => hidx k (by omega)) _

/-- The checks before the first write read the blocks, the index and the tip. -/
theorem preStore_congr (hblk : s.blockByHash = t.blockByHash)
    (hget : s.getBlockByHeight = t.getBlockByHeight) (htip : s.getTip = t.getTip) :
    n.preStore s b = n.preStore t b := by
  have hmain : n.validateBlockStateOnMainParent s b = n.validateBlockStateOnMainParent t b := by
    have hgates : n.forkStateChecked s b = n.forkStateChecked t b := by
      rw [forkStateChecked, forkStateChecked, hget, htip]
    have hsim : n.mainParentSim s (b.header.height - 1) = n.mainParentSim t (b.header.height - 1) :=
      mainParentSim_congr fun k _ => congrFun hget k
    rw [validateBlockStateOnMainParent, validateBlockStateOnMainParent, hgates, hsim]
  have hindex : indexHeader s = indexHeader t := by
    ext1 h
    rw [indexHeader, indexHeader, hget]
  have hparent : n.checkParent s b = n.checkParent t b := by
    rw [checkParent, checkParent, checkBits, checkBits, hblk, hindex]
  rw [preStore, preStore, hmain, hparent]

theorem cumWork_congr (h : s.work b.prevHex = t.work b.prevHex) : cumWork s b = cumWork t b := by
  rw [cumWork, cumWork, DB.getWork, DB.getWork, h]

theorem extendsTip_congr (h : s.getTip = t.getTip) : extendsTip s b = extendsTip t b := by
  rw [extendsTip, extendsTip, h]

/-- A block that extends the tip names it as its parent, one height below. -/
theorem getTip_of_extendsTip (h : extendsTip s b = true) :
    ∃ tipH, s.getTip = some (tipH, b.prevHex) ∧ b.header.height = tipH + 1 := by
  unfold extendsTip at h
  cases htip : s.getTip with
  | none => simp [htip] at h
  | some p =>
      obtain ⟨tipH, tipHash⟩ := p
      simp only [htip, Bool.and_eq_true, decide_eq_true_eq] at h
      exact ⟨tipH, by rw [h.1], h.2⟩

/-! ### What the block writes -/

variable (n) in
/-- The writes of `SubmitBlock` to the chain, for a block that extends the tip. -/
def extend (s : DB) (b : Block) : DB := n.moveTip (n.stored s b) b (cumWork s b)

theorem getTip_extend : (n.extend s b).getTip = some (b.header.height, n.hashHex b.header) := rfl

theorem tipHeight_extend : (n.extend s b).tipHeight = some b.header.height := rfl

theorem tipBlockID_extend : (n.extend s b).tipBlockID = some (n.hashHex b.header) := rfl

theorem tipWork_extend : (n.extend s b).tipWork = some (cumWork s b) := rfl

theorem ledger_extend : (n.extend s b).ledger = s.ledger := rfl

theorem validators_extend : (n.extend s b).validators = s.validators := rfl

theorem work_extend (x : String) :
    (n.extend s b).work x = if x = n.hashHex b.header then some (cumWork s b) else s.work x :=
  Function.update_apply ..

theorem blockByHash_extend (x : String) :
    (n.extend s b).blockByHash x = if x = n.hashHex b.header then some b else s.blockByHash x :=
  blockByHash_stored x

/-- The index names the new block at its height. -/
theorem hashByHeight_extend (k : UInt64) :
    (n.extend s b).hashByHeight k =
      if k = b.header.height then some (n.hashHex b.header) else s.hashByHeight k := by
  change Function.update (n.stored s b).hashByHeight b.header.height _ k = _
  rw [Function.update_apply]
  split
  next => rfl
  next hk => rw [hashByHeight_stored, if_neg hk]

/-- A block that extends the tip and passes the checks is accepted, and its checkpoint leaves the
chain alone. -/
theorem sameChain_submitBlock (hpre : n.preStore s b = .ok true) (hext : extendsTip s b = true)
    (hval : n.validateBlockStateTip s.ledger b = .ok ()) (now : Int64) :
    (n.submitBlock now s b).1 = .ok () ∧ (n.extend s b).SameChain (n.submitBlock now s b).2 := by
  have hext' : extendsTip (n.stored s b) b = true := hext
  have hval' : n.validateBlockStateTip (n.stored s b).ledger b = .ok () := hval
  have hresult : n.submitBlock now s b =
      (.ok (), n.advanceTip now (n.stored s b) b (cumWork s b)) := by
    rw [submitBlock, hpre]
    dsimp only
    rw [if_pos hext', extendTip, hval']
  rw [hresult]
  exact ⟨rfl, n.sameChain_advanceTip now (n.stored s b) b (cumWork s b)⟩

end Node

end ReserveOS
