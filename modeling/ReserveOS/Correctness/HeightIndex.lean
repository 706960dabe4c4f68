import ReserveOS.Correctness.Anchor

/-!
# The height index and the main chain

`PutBlock` points the height of every stored block at it, forks included, so the index leaves the
main chain when a fork block arrives at or below the tip and does not take over. That is the only
way: `indexIsMainChain_iff` says that the index is the main chain throughout a run of `SubmitBlock`
calls exactly when every call `KeepsIndex`.
-/

namespace ReserveOS

namespace DB

/-- Every height up to the tip is mapped to the ancestor of the tip at that height. -/
def IndexIsMainChain (s : DB) : Prop :=
  ∀ tipH tipHash, s.getTip = some (tipH, tipHash) →
    ∀ h ≤ tipH, ∃ a, s.hashByHeight h = some a ∧ s.AncestorAt tipHash h.toNat a

theorem IndexIsMainChain.congr {s s' : DB} (h : s.IndexIsMainChain)
    (hblk : s'.blockByHash = s.blockByHash) (hidx : s'.hashByHeight = s.hashByHeight)
    (htip : s'.getTip = s.getTip) : s'.IndexIsMainChain := by
  unfold IndexIsMainChain DB.AncestorAt
  rw [hblk, hidx, htip]
  exact h

end DB

namespace Node

variable {n : Node} {dom : n.HashDomain} {s : DB} {b : Block}

variable (n) in
/-- A block that goes to the store at a height not above the tip, where the index names another
block, has more work than the tip and passes the checks of the chain switch. -/
def KeepsIndex (s : DB) (c : Int64 × Block) : Prop :=
  ∀ tipH tipHash, s.getTip = some (tipH, tipHash) → n.preStore s c.2 = .ok true →
    c.2.header.height ≤ tipH → s.hashByHeight c.2.header.height ≠ some (n.hashHex c.2.header) →
    s.getTipWork < cumWork s c.2 ∧ ∃ p, (n.stored s c.2).candidatePath (n.hashHex c.2.header)
      c.2.header.height = .ok p

/-- Storing a block keeps the index exactly when its height is above the tip or already names it. -/
theorem BlockTree.indexIsMainChain_stored_iff (h : n.BlockTree dom s) (hs : n.Storable s b)
    (hb : dom.known b.header) (hidx : s.IndexIsMainChain) :
    (n.stored s b).IndexIsMainChain ↔ ∀ tipH tipHash, s.getTip = some (tipH, tipHash) →
      b.header.height ≤ tipH → s.hashByHeight b.header.height = some (n.hashHex b.header) := by
  constructor
  · intro hnew tipH tipHash htip hle
    obtain ⟨a, ha, hanc⟩ := hidx tipH tipHash htip _ hle
    obtain ⟨a', ha', hanc'⟩ := hnew tipH tipHash htip _ hle
    rw [hashByHeight_stored, if_pos rfl] at ha'
    cases ha'
    -- the tip has only one ancestor at this height, and the old entry still is it
    have heq : a = n.hashHex b.header :=
      Ancestry.ancestorAt_unique (h.stored hs hb).linked (hanc.mono (h.keep hb)) hanc'
    rw [ha, heq]
  · intro hkeep tipH tipHash htip k hk
    obtain ⟨a, ha, hanc⟩ := hidx tipH tipHash htip k hk
    refine ⟨a, ?_, hanc.mono (h.keep hb)⟩
    rw [hashByHeight_stored]
    split
    next heq =>
      subst heq
      rw [← ha]
      exact (hkeep tipH tipHash htip hk).symm
    next => exact ha

/-- The height of a block that extends the tip is above the tip. -/
theorem Storable.not_le_tip (hs : n.Storable s b) (hext : extendsTip s b = true) {tipH : UInt64}
    {tipHash : String} (htip : s.getTip = some (tipH, tipHash)) : ¬ b.header.height ≤ tipH := by
  obtain ⟨tipH', tipHash', htip', -, hheight⟩ := extendsTip_iff.mp hext
  rw [htip] at htip'
  cases htip'
  have hpos := hs.height_pos
  unfold Block.height at hpos
  rw [hheight, toNat_succ] at hpos
  rw [hheight, UInt64.le_iff_toNat_le, toNat_succ]
  have hlt := tipH.toNat_lt
  omega

/-- The index follows when the tip moves to a child of the tip. -/
theorem BlockTree.indexIsMainChain_moveTip (h : n.BlockTree dom s) (hs : n.Storable s b)
    (hb : dom.known b.header) (hidx : s.IndexIsMainChain) (hext : extendsTip s b = true)
    (cum : UInt64) : (n.moveTip (n.stored s b) b cum).IndexIsMainChain := by
  have hst : (n.stored s b).IndexIsMainChain :=
    (h.indexIsMainChain_stored_iff hs hb hidx).mpr fun tipH tipHash htip hle =>
      absurd hle (hs.not_le_tip hext htip)
  have htree := (h.stored hs hb).moveTip blockByHash_stored_self cum
  obtain ⟨tipH, tipHash, htip, hparent, hheight⟩ := extendsTip_iff.mp hext
  intro newH newHash hnew k hk
  obtain ⟨rfl, rfl⟩ : b.header.height = newH ∧ n.hashHex b.header = newHash :=
    Prod.mk.inj (Option.some.inj hnew)
  have hread : (n.moveTip (n.stored s b) b cum).hashByHeight k =
      if k = b.header.height then some (n.hashHex b.header)
      else (n.stored s b).hashByHeight k := Function.update_apply ..
  rw [hread]
  split
  next heq =>
    subst heq
    exact ⟨_, rfl, Ancestry.ancestorAt_self (blockByHash_moveTip_self cum)⟩
  next hne =>
    -- below the new tip the entry is the one of the old main chain
    have hle : k ≤ tipH := by
      have hne' : k.toNat ≠ b.header.height.toNat := fun heq => hne (UInt64.toNat.inj heq)
      have habove := hs.not_le_tip hext htip
      rw [UInt64.le_iff_toNat_le] at hk habove ⊢
      rw [hheight, toNat_succ] at hk hne' habove
      have hlt := tipH.toNat_lt
      omega
    obtain ⟨a, ha, hanc⟩ := hst tipH tipHash htip k hle
    refine ⟨a, ha, Ancestry.AncestorAt.of_parent (blockByHash_moveTip_self cum) hs.height_pos ?_⟩
    rw [hparent]
    exact hanc

/-- Below the anchor of a switch the old main chain has the ancestors of the candidate. -/
theorem BlockTree.ancestorAt_candidate (h : n.BlockTree dom s) (hb : dom.known b.header)
    (hidx : s.IndexIsMainChain) (hanchored : s.Anchored) {finH : UInt64} {path : List String}
    (hp : (n.stored s b).CandidatePath (n.hashHex b.header) b.header.height finH path)
    {k : UInt64} (hk : k < finH) :
    ∃ a, s.hashByHeight k = some a ∧ (n.stored s b).AncestorAt (n.hashHex b.header) k.toNat a := by
  obtain ⟨finHash, hanchor, hcand⟩ := hp.anchor
  rcases DB.switchAnchor_eq_ok hanchor with ⟨rfl, -⟩ | hfin
  · -- an anchor at genesis has nothing below
    rw [UInt64.lt_iff_toNat_lt] at hk
    exact absurd hk (Nat.not_lt_zero _)
  · obtain ⟨tipH, tipHash, htip, hfinle, hold⟩ := hanchored finH finHash hfin
    rw [UInt64.lt_iff_toNat_lt] at hk
    rw [UInt64.le_iff_toNat_le] at hfinle
    have hkt : k ≤ tipH := by
      rw [UInt64.le_iff_toNat_le]
      omega
    obtain ⟨a, ha, hanc⟩ := hidx tipH tipHash htip k hkt
    have hbelow : s.AncestorAt finHash k.toNat a := hold.restrict h.linked hanc (by omega)
    exact ⟨a, ha, hcand.trans (hbelow.mono (h.keep hb))⟩

/-- The index follows a chain switch. -/
theorem BlockTree.indexIsMainChain_switchTo (h : n.BlockTree dom s) (hb : dom.known b.header)
    (hidx : s.IndexIsMainChain) (hanchored : s.Anchored) {finH : UInt64} {path : List String}
    (hp : (n.stored s b).CandidatePath (n.hashHex b.header) b.header.height finH path) :
    ((n.stored s b).switchTo finH path (n.hashHex b.header) b.header.height).IndexIsMainChain := by
  intro newH newHash hnew k hk
  obtain ⟨rfl, rfl⟩ : b.header.height = newH ∧ n.hashHex b.header = newHash :=
    Prod.mk.inj (Option.some.inj hnew)
  unfold DB.AncestorAt
  rw [DB.blockByHash_switchTo]
  obtain ⟨hin, hout⟩ := hp.hashByHeight_switchTo k
  -- from the anchor on the path is written, below it the branches share their blocks
  by_cases hfin : finH ≤ k
  · exact hin hfin hk
  · have hlt : k < finH := UInt64.not_le.mp hfin
    obtain ⟨a, ha, hanc⟩ := h.ancestorAt_candidate hb hidx hanchored hp hlt
    refine ⟨a, ?_, hanc⟩
    rw [hout (fun hc => hfin hc.1), hashByHeight_stored, if_neg, ha]
    rintro rfl
    rw [UInt64.lt_iff_toNat_lt] at hlt
    have := hp.finH_le
    omega

/-- One `SubmitBlock` call keeps the index exactly when it `KeepsIndex`. -/
theorem BlockTree.indexIsMainChain_submit_iff (h : n.BlockTree dom s) (hanchored : s.Anchored)
    {c : Int64 × Block} (hb : dom.known c.2.header) (hidx : s.IndexIsMainChain) :
    (n.submit s c).IndexIsMainChain ↔ n.KeepsIndex s c := by
  obtain ⟨now, b⟩ := c
  have hout := n.submitBlock_outcome now s b
  unfold Node.submit
  generalize n.submitBlock now s b = res at hout
  unfold KeepsIndex
  -- only a block that is stored beside the main chain can spoil the index
  cases hout with
  | rejected e hpre =>
      refine iff_of_true hidx fun tipH tipHash htip hpre' => ?_
      rw [hpre] at hpre'
      cases hpre'
  | ignored hpre =>
      refine iff_of_true hidx fun tipH tipHash htip hpre' => ?_
      rw [hpre] at hpre'
      cases hpre'
  | invalidTip e hpre hext hval =>
      have hs := storable_of_preStore n hpre
      refine iff_of_true ?_ fun tipH tipHash htip _ hle => absurd hle (hs.not_le_tip hext htip)
      exact (h.indexIsMainChain_stored_iff hs hb hidx).mpr fun tipH tipHash htip hle =>
        absurd hle (hs.not_le_tip hext htip)
  | extended hpre hext hval =>
      have hs := storable_of_preStore n hpre
      refine iff_of_true ?_ fun tipH tipHash htip _ hle => absurd hle (hs.not_le_tip hext htip)
      have hall := n.sameChain_advanceTip now (n.stored s b) b (cumWork s b)
      exact (h.indexIsMainChain_moveTip hs hb hidx hext (cumWork s b)).congr hall.blockByHash
        hall.hashByHeight hall.getTip
  | forkStored r hpre hext hkeep =>
      have hs := storable_of_preStore n hpre
      rw [h.indexIsMainChain_stored_iff hs hb hidx]
      constructor
      · intro hnew tipH tipHash htip _ hle hne
        exact absurd (hnew tipH tipHash htip hle) hne
      · intro hwin tipH tipHash htip hle
        by_contra hne
        -- the switch that the condition promises would not have been refused
        obtain ⟨hwork, p, hp⟩ := hwin tipH tipHash htip hpre hle hne
        obtain ⟨e, he⟩ := hkeep hwork
        rw [he] at hp
        cases hp
  | switched finH path hpre hext hwork hpath =>
      have hs := storable_of_preStore n hpre
      refine iff_of_true ?_ fun _ _ _ _ _ _ => ⟨hwork, _, hpath⟩
      obtain ⟨hblk, hheights, htip, -⟩ := sameTables_rebuild (n := n) ((n.stored s b).switchTo finH
        path (n.hashHex b.header) b.header.height) (cumWork s b)
      exact (h.indexIsMainChain_switchTo hb hidx hanchored
        (h.candidatePath hs hb hpath)).congr hblk hheights htip

/-- In a new database the index is the main chain. -/
theorem indexIsMainChain_genesisDB (registry : Table RegValidator) :
    (n.genesisDB registry).IndexIsMainChain := by
  intro tipH tipHash htip h hle
  obtain ⟨rfl, rfl⟩ : 0 = tipH ∧ n.genesisHash = tipHash := Prod.mk.inj (Option.some.inj htip)
  have h0 : h = 0 := by
    rw [UInt64.le_iff_toNat_le] at hle
    exact UInt64.toNat.inj (Nat.le_zero.mp hle)
  subst h0
  refine ⟨n.genesisHash, by rw [hashByHeight_genesisDB, Function.update_self], ?_⟩
  obtain ⟨_, _, htip', -, hanc⟩ := anchored_genesisDB (n := n) registry 0 n.genesisHash rfl
  cases htip'
  exact hanc

/-- Throughout a run of `SubmitBlock` calls the height index is the main chain exactly when no call
leaves a block at or below the tip, where the index named another one, without switching to it. -/
theorem indexIsMainChain_iff (n : Node) (registry : Table RegValidator)
    (calls : List (Int64 × Block)) (hcf : n.CollisionFree (calls.map Prod.snd)) :
    (∀ t ∈ Run.states n.submit (n.genesisDB registry) calls, t.IndexIsMainChain) ↔
      Run.Admitted n.submit n.KeepsIndex (n.genesisDB registry) calls := by
  refine Run.forall_states_iff (I := fun s => n.BlockTree hcf.domain s ∧ s.Anchored)
    (E := fun c => hcf.domain.known c.2.header) ?_ ?_ ?_ ?_ ?_
  · rintro s c ⟨htree, hanchored⟩ hc
    exact ⟨htree.submit hc, htree.anchored_submit hc hanchored⟩
  · rintro s c ⟨htree, hanchored⟩ hc hidx
    exact htree.indexIsMainChain_submit_iff hanchored hc hidx
  · intro c hc
    exact hcf.known (List.mem_map_of_mem hc)
  · exact ⟨blockTree_genesisDB _ registry, anchored_genesisDB registry⟩
  · exact indexIsMainChain_genesisDB registry

end Node

namespace Sample

/-- The database after the two main-chain blocks and then the fork block. -/
def forkDB : DB :=
  [(0, main₁), (0, main₂), (0, fork₁)].foldl node.submit (node.genesisDB ∅)

/-- The tip is the second block, and the index names the fork block at height one, which is not
the parent of the tip. -/
theorem forkDB_read :
    forkDB.getTip = some (2, node.hashHex main₂.header) ∧
    forkDB.hashByHeight 1 = some (node.hashHex fork₁.header) ∧
    forkDB.blockByHash main₂.prevHex = some main₁ ∧
    forkDB.blockByHash (node.hashHex main₂.header) = some main₂ ∧
    main₂.prevHex ≠ node.hashHex fork₁.header := by
  decide +kernel

/-- The fork block, and then a heavier one of the same height that the node switches to. -/
theorem keepsIndex_heavier :
    Run.Admitted node.submit node.KeepsIndex (node.genesisDB ∅) [(0, fork₁), (0, main₁)] := by
  refine ⟨?_, ?_, trivial⟩
  · intro tipH tipHash htip _ hle
    have hgenesis : (node.genesisDB ∅).getTip = some (0, node.genesisHash) := rfl
    rw [hgenesis] at htip
    cases htip
    exact absurd hle (by decide)
  · intro tipH tipHash _ _ _ _
    exact ⟨by decide +kernel, (0, [node.genesisHash, node.hashHex main₁.header]), by decide +kernel⟩

end Sample

namespace Node

open Sample

/-- A heavier block that arrives after a lighter one of the same height takes over, and the index
with it. -/
theorem indexIsMainChain_heavier :
    node.CollisionFree [fork₁, main₁] ∧
    ∀ t ∈ Run.states node.submit (node.genesisDB ∅)
      [(0, fork₁), (0, main₁)], t.IndexIsMainChain := by
  have hcf : node.CollisionFree [fork₁, main₁] :=
    collisionFree_blocks.of_subset rfl rfl (by simp)
  exact ⟨hcf, (indexIsMainChain_iff node ∅ [(0, fork₁), (0, main₁)]
    hcf).mpr keepsIndex_heavier⟩

/-- Two blocks of a main chain, then a light fork block at height one: the index names the fork
block, the ancestor of the tip is another one. -/
theorem not_indexIsMainChain_fork :
    ∃ t ∈ Run.states node.submit (node.genesisDB ∅)
      [(0, main₁), (0, main₂), (0, fork₁)], ¬ t.IndexIsMainChain := by
  have hmem : forkDB ∈ Run.states _ _ _ := Run.foldl_mem_states node.submit
    (node.genesisDB ∅) [(0, main₁), (0, main₂), (0, fork₁)]
  have htree := blockTree_submit_states ∅ collisionFree_blocks _ hmem
  obtain ⟨htip, hentry, hmain₁, hmain₂, hne⟩ := forkDB_read
  refine ⟨forkDB, hmem, fun hidx => ?_⟩
  obtain ⟨a, ha, hanc⟩ := hidx _ _ htip 1 (by decide)
  have hfork : a = node.hashHex fork₁.header :=
    Option.some.inj (ha.symm.trans hentry)
  have hself : forkDB.AncestorAt main₂.prevHex 1 main₂.prevHex :=
    Ancestry.ancestorAt_self hmain₁
  have hmain : forkDB.AncestorAt (node.hashHex main₂.header) 1
      main₂.prevHex := hself.of_parent hmain₂ (by decide)
  -- the tip has one ancestor at height one, and it is not the fork block
  rw [Ancestry.ancestorAt_unique htree.linked hanc hmain] at hfork
  exact hne hfork

end Node

end ReserveOS
