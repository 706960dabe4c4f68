import ReserveOS.Correctness.BlockTree

/-!
# The finalized anchor under block processing

`Anchored` says that the pair `GetFinalized` returns lies on the main chain. A chain switch keeps
it, for its walk has to end at the anchor, and so does a finality write whose target is on the main
chain, as the checkpoint that `SubmitBlock` processes always is (`anchored_submitBlock`).
-/

namespace ReserveOS

namespace DB

/-- `x` is the ancestor of the current tip at height `h`. -/
def OnMainChain (s : DB) (h : UInt64) (x : String) : Prop :=
  ∃ tipH tipHash, s.getTip = some (tipH, tipHash) ∧ h ≤ tipH ∧ s.AncestorAt tipHash h.toNat x

/-- The finalized pair lies on the main chain. -/
def Anchored (s : DB) : Prop :=
  ∀ finH finHash, s.finalized = some (finH, finHash) → s.OnMainChain finH finHash

theorem OnMainChain.sameChain {s s' : DB} (hs : s.SameChain s') {h : UInt64} {x : String} :
    s'.OnMainChain h x ↔ s.OnMainChain h x := by
  unfold OnMainChain DB.AncestorAt
  rw [hs.getTip, hs.blockByHash]

end DB

namespace Node

variable {n : Node} {dom : n.HashDomain} {s : DB} {b : Block}

/-- Main-chain membership of a stored block is a matter of ancestry alone. -/
theorem BlockTree.onMainChain_iff (h : n.BlockTree dom s) {t : Block}
    (htip : s.getTip = some (t.header.height, n.hashHex t.header))
    (ht : s.blockByHash (n.hashHex t.header) = some t) {k : UInt64} {x : String} :
    s.OnMainChain k x ↔ s.AncestorAt (n.hashHex t.header) k.toNat x := by
  constructor
  · rintro ⟨tipH, tipHash, htip', -, hanc⟩
    rw [htip] at htip'
    cases htip'
    exact hanc
  · intro hanc
    refine ⟨_, _, htip, ?_, hanc⟩
    rw [UInt64.le_iff_toNat_le]
    exact hanc.le_height h.linked ht

/-- The blocks of the main chain stay on it when a block is stored. -/
theorem BlockTree.onMainChain_stored (h : n.BlockTree dom s) (hb : dom.known b.header) {k : UInt64}
    {x : String} (hx : s.OnMainChain k x) : (n.stored s b).OnMainChain k x := by
  obtain ⟨tipH, tipHash, htip, hle, hanc⟩ := hx
  exact ⟨tipH, tipHash, htip, hle, hanc.mono (h.keep hb)⟩

/-- A block that extends the tip names the tip as its parent, one height below. -/
theorem extendsTip_iff : extendsTip s b = true ↔
    ∃ tipH tipHash, s.getTip = some (tipH, tipHash) ∧ b.prevHex = tipHash ∧
      b.header.height = tipH + 1 := by
  unfold extendsTip
  cases htip : s.getTip with
  | none => simp
  | some p =>
      obtain ⟨tipH, tipHash⟩ := p
      constructor
      · intro h
        rw [Bool.and_eq_true, decide_eq_true_eq, decide_eq_true_eq] at h
        exact ⟨tipH, tipHash, rfl, h⟩
      · rintro ⟨_, _, ⟨⟩, h⟩
        rw [Bool.and_eq_true, decide_eq_true_eq, decide_eq_true_eq]
        exact h

/-- The blocks of the main chain stay on it when the tip moves to a child of the tip. -/
theorem BlockTree.onMainChain_moveTip (h : n.BlockTree dom s) (hs : n.Storable s b)
    (hb : dom.known b.header) (hext : extendsTip s b = true) {k : UInt64} {x : String}
    (hx : s.OnMainChain k x) (cum : UInt64) :
    (n.moveTip (n.stored s b) b cum).OnMainChain k x := by
  obtain ⟨tipH, tipHash, htip, hparent, -⟩ := extendsTip_iff.mp hext
  obtain ⟨tipH', tipHash', htip', -, hanc⟩ := h.onMainChain_stored hb hx
  have htree := (h.stored hs hb).moveTip blockByHash_stored_self cum
  have heq : some (tipH', tipHash') = some (tipH, tipHash) := htip'.symm.trans htip
  cases heq
  rw [htree.onMainChain_iff (getTip_moveTip ..) (blockByHash_moveTip_self cum)]
  refine Ancestry.AncestorAt.of_parent (blockByHash_moveTip_self cum) hs.height_pos ?_
  rw [hparent]
  exact hanc

/-- The new tip is on the main chain. -/
theorem onMainChain_tip {t : Block} (htip : s.getTip = some (t.header.height, n.hashHex t.header))
    (ht : s.blockByHash (n.hashHex t.header) = some t) :
    s.OnMainChain t.header.height (n.hashHex t.header) :=
  ⟨_, _, htip, UInt64.le_refl _, Ancestry.ancestorAt_self ht⟩

/-- Finality writes keep the anchor on the main chain if their targets are there. -/
theorem anchored_finSteps {signs target : UInt64 → String → Prop} {delivered : VoteRecord → Prop}
    {t : DB} (hfin : n.FinSteps signs target delivered s t)
    (htarget : ∀ h x, target h x → s.OnMainChain h x) (hs : s.Anchored) : t.Anchored := by
  have hboth : s.SameChain t ∧ t.Anchored := by
    refine Run.closure_invariant (I := fun u => s.SameChain u ∧ u.Anchored)
      (fun u v hstep hu => ?_) hfin ⟨.refl s, hs⟩
    obtain ⟨hsame, hu⟩ := hu
    refine ⟨hsame.trans hstep.sameChain, fun finH finHash hf => ?_⟩
    rw [DB.OnMainChain.sameChain hstep.sameChain]
    cases hstep with
    | sign now priv h x ht hpriv hnew => exact hu finH finHash hf
    | record vr hd hchain hval hsig hnew => exact hu finH finHash hf
    | finalize now h x ht hq =>
        obtain ⟨rfl, rfl⟩ : h = finH ∧ x = finHash := Prod.mk.inj (Option.some.inj hf)
        rw [DB.OnMainChain.sameChain hsame]
        exact htarget h x ht
    | finalizeWeighted ord h x hw hlt => exact hu finH finHash hf
  exact hboth.2

/-- `SubmitBlock` keeps the anchor on the main chain. -/
theorem anchored_submitBlock (h : n.BlockTree dom s) (hb : dom.known b.header) (now : Int64)
    (ha : s.Anchored) : (n.submitBlock now s b).2.Anchored := by
  have hout := n.submitBlock_outcome now s b
  generalize n.submitBlock now s b = res at hout
  have hstored : (n.stored s b).Anchored := fun finH finHash hf =>
    h.onMainChain_stored hb (ha finH finHash hf)
  cases hout with
  | rejected e hpre => exact ha
  | ignored hpre => exact ha
  | invalidTip e hpre hext hval => exact hstored
  | extended hpre hext hval =>
      have hs := storable_of_preStore n hpre
      obtain ⟨s₁, hsame, hfsame, hfin⟩ := n.finSteps_advanceTip now (n.stored s b) b
        (cumWork s b)
      refine anchored_finSteps hfin ?_ ?_
      · -- the processed checkpoint is the new tip
        rintro k x ⟨rfl, rfl⟩
        rw [DB.OnMainChain.sameChain hsame]
        exact onMainChain_tip (getTip_moveTip ..) (blockByHash_moveTip_self _)
      · intro finH finHash hf
        rw [DB.OnMainChain.sameChain hsame]
        have hold := (n.sameFinality_stored s b).trans (n.sameFinality_moveTip _ b (cumWork s b))
        rw [hfsame.finalized, hold.finalized] at hf
        exact h.onMainChain_moveTip hs hb hext (ha finH finHash hf) _
  | forkStored r hpre hext hkeep => exact hstored
  | switched finH path hpre hext hwork hpath =>
      have hs := storable_of_preStore n hpre
      have hp := h.candidatePath hs hb hpath
      obtain ⟨hblk, -, htip, hfsame⟩ := sameTables_rebuild (n := n) ((n.stored s b).switchTo finH
        path (n.hashHex b.header) b.header.height) (cumWork s b)
      intro finH' finHash hf
      have hfs : s.finalized = some (finH', finHash) := by
        rw [← hf, hfsame.finalized, DB.switchTo, DB.rewriteIndex_eq]
        rfl
      -- the anchor of the switch is the finalized pair, and the path starts there
      obtain ⟨finHash', hanchor, hanc⟩ := hp.anchor
      have hanchor' : (n.stored s b).switchAnchor = .ok (finH', finHash) :=
        DB.switchAnchor_of_finalized hfs
      rw [hanchor] at hanchor'
      cases hanchor'
      refine ⟨b.header.height, n.hashHex b.header, htip, ?_, ?_⟩
      · rw [UInt64.le_iff_toNat_le]
        exact hp.finH_le
      · rw [DB.AncestorAt, hblk, DB.blockByHash_switchTo]
        exact hanc

theorem BlockTree.anchored_submit (h : n.BlockTree dom s) {c : Int64 × Block}
    (hb : dom.known c.2.header) (ha : s.Anchored) : (n.submit s c).Anchored :=
  anchored_submitBlock h hb c.1 ha

/-- A new database is anchored at genesis. -/
theorem anchored_genesisDB (registry : Table RegValidator) : (n.genesisDB registry).Anchored := by
  intro finH finHash hf
  have hf' : (0, n.genesisHash) = (finH, finHash) := Option.some.inj hf
  cases hf'
  refine ⟨0, n.genesisHash, rfl, UInt64.le_refl _, ?_⟩
  have hself :
      (n.genesisDB registry).AncestorAt n.genesisHash n.genesisBlock.height n.genesisHash :=
    Ancestry.ancestorAt_self (by rw [blockByHash_genesisDB, Function.update_self])
  exact hself

end Node

end ReserveOS
