import ReserveOS.Correctness.HeightIndex
import ReserveOS.Correctness.Replay

/-!
# The rebuilt ledger and the main chain

`rebuildStateFromFinalized` starts from the last snapshot of the directory, in the order of file
names, and applies the main chain above the snapshot's height. Nothing checks that the snapshot was
taken on the main chain, or below the tip. The result is the ledger of the main chain when no
snapshot is used, or when the snapshot has the balances of the main chain at its height, and the
nonces of all accounts that send nothing above it (`rebuildsLedger_iff`).
-/

namespace ReserveOS

/-- The blocks that the height index names at the heights from one up to `upto`; below them is a
block without transactions. -/
structure DB.IndexedBlocks (s : DB) (upto : UInt64) (bs : List Block) : Prop where
  length : bs.length = upto.toNat
  block : ∀ i b, bs[i]? = some b → ∃ x, s.getBlockByHeight (UInt64.ofNat (i + 1)) = some (x, b)
  root : ∃ x b, s.getBlockByHeight 0 = some (x, b) ∧ b.txs = []

namespace Node

variable {n : Node} {dom : n.HashDomain} {s : DB} {bs : List Block} {ss : Snapshot}

/-- In a database with a complete index the indexed blocks up to the tip are the main chain. -/
theorem BlockTree.indexedBlocks (h : n.BlockTree dom s) (hidx : s.IndexIsMainChain) {tipH : UInt64}
    {tipHash : String} (htip : s.getTip = some (tipH, tipHash)) (hpath : s.RootPath tipHash bs) :
    s.IndexedBlocks tipH bs := by
  obtain ⟨tip, htip', hstored⟩ := h.tip
  rw [htip] at htip'
  obtain ⟨rfl, rfl⟩ := Prod.mk.inj (Option.some.inj htip')
  have hlen : bs.length = tip.header.height.toNat := hpath.length_eq h.linked hstored
  refine ⟨hlen, fun i b hb => ?_, ?_⟩
  · -- the index entry and the block of the path are the ancestor of the tip at this height
    obtain ⟨a, ha, hanc⟩ := hpath.ancestorAt h.linked hb
    have hlt : i < bs.length := (List.getElem?_eq_some_iff.mp hb).1
    have hto : (UInt64.ofNat (i + 1)).toNat = i + 1 := by
      have := tip.header.height.toNat_lt
      rw [UInt64.toNat_ofNat']
      omega
    obtain ⟨a', ha', hanc'⟩ := hidx _ _ htip (UInt64.ofNat (i + 1))
      (UInt64.le_iff_toNat_le.mpr (by omega))
    rw [hto] at hanc'
    obtain rfl := Ancestry.ancestorAt_unique h.linked hanc hanc'
    exact ⟨a, DB.getBlockByHeight_eq_some_iff.mpr ⟨ha', ha⟩⟩
  · obtain ⟨a, ha, -, b, hb, hzero⟩ := hidx _ _ htip 0 (UInt64.le_iff_toNat_le.mpr (Nat.zero_le _))
    obtain rfl := h.root a b hb hzero
    exact ⟨_, n.genesisBlock, DB.getBlockByHeight_eq_some_iff.mpr ⟨ha, h.genesis⟩, rfl⟩

/-- Replaying the indexed blocks from a height on. A start at height zero replays them all: the
block at the root has no transactions. -/
theorem replayMainChain_indexed {upto : UInt64} (h : s.IndexedBlocks upto bs) (start : UInt64) :
    ((n.replayMainChain (upto.toNat + 1 - start.toNat) start s).1,
      (n.replayMainChain (upto.toNat + 1 - start.toNat) start s).2.ledger) =
      s.ledger.applyBlocks (bs.drop (start.toNat - 1)) := by
  by_cases hstart : start = 0
  · -- the replay begins at the root, ahead of the listed blocks
    subst hstart
    obtain ⟨x, g, hg, htxs⟩ := h.root
    have hall := ledger_replayMainChain (n := n) (g :: bs) (h := 0) (s := s) (by
      intro i b hb
      cases i with
      | zero =>
          obtain rfl : g = b := Option.some.inj hb
          exact ⟨x, hg⟩
      | succ i =>
          obtain ⟨y, hy⟩ := h.block i b hb
          exact ⟨y, by rwa [UInt64.zero_add]⟩)
    rw [List.length_cons, h.length] at hall
    show _ = s.ledger.applyBlocks bs
    rw [show upto.toNat + 1 - (0 : UInt64).toNat = upto.toNat + 1 from rfl, hall,
      Ledger.applyBlocks, htxs]
    rfl
  · have hpos : 0 < start.toNat := Nat.pos_of_ne_zero fun h0 => hstart (UInt64.toNat.inj h0)
    have hcount : upto.toNat + 1 - start.toNat = (bs.drop (start.toNat - 1)).length := by
      rw [List.length_drop, h.length]
      omega
    rw [hcount]
    apply ledger_replayMainChain
    intro i b hb
    rw [List.getElem?_drop] at hb
    obtain ⟨x, hx⟩ := h.block _ b hb
    refine ⟨x, ?_⟩
    have hheight : UInt64.ofNat (start.toNat - 1 + i + 1) = start + UInt64.ofNat i := by
      rw [show start.toNat - 1 + i + 1 = start.toNat + i by omega, UInt64.ofNat_add,
        UInt64.ofNat_toNat]
    rwa [← hheight]

/-- A rebuild applies to its base the main chain above the base height. -/
theorem rebuild_eq_applyBlocks {tipH : UInt64} {tipHash : String}
    (htip : s.getTip = some (tipH, tipHash)) (h : s.IndexedBlocks tipH bs) :
    ((n.rebuildStateFromFinalized s).1, (n.rebuildStateFromFinalized s).2.ledger) =
      n.rebuildBase.2.applyBlocks (bs.drop ((n.rebuildBase.1 + 1).toNat - 1)) := by
  have htip' : ({ s with ledger := n.rebuildBase.2 } : DB).getTip = some (tipH, tipHash) := htip
  have h' : ({ s with ledger := n.rebuildBase.2 } : DB).IndexedBlocks tipH bs := ⟨h.1, h.2, h.3⟩
  simp only [rebuildStateFromFinalized, htip']
  exact replayMainChain_indexed h' _

/-! ### When the rebuild gives the ledger of the main chain -/

variable (n) in
/-- The snapshot that the rebuild looks at: the last file in the order of names. -/
def lastSnapshot : Option Snapshot :=
  (listSnapshots n.snapshotDir).getLast?.bind (readSnapshotAuto n.snapshotDir)

theorem rebuildBase_of_lastSnapshot (h : n.lastSnapshot = some ss) (hne : ss.height ≠ 0) :
    n.rebuildBase = (ss.height, restoreSnapshot ss) := by
  unfold lastSnapshot at h
  simp [rebuildBase, h, hne]

theorem rebuildBase_of_not_used (h : ∀ ss, n.lastSnapshot = some ss → ss.height = 0) :
    n.rebuildBase = (0, Ledger.ofAllocations n.genesis.allocations) := by
  unfold lastSnapshot at h
  unfold rebuildBase
  split
  next ss hss => rw [if_pos (h ss hss)]
  next => rfl

variable (n) in
/-- The snapshot agrees with the main chain `bs` at its height `H`: the blocks up to `H` apply to
the genesis allocations, and give its balances, and its nonces for the accounts that send nothing
above `H`. At the largest height `H + 1` wraps around, and all blocks are above it. -/
def SnapshotFits (ss : Snapshot) (bs : List Block) : Prop :=
  ∃ l, (Ledger.ofAllocations n.genesis.allocations).applyBlocks
      (bs.take ((ss.height + 1).toNat - 1)) = (.ok (), l) ∧
    (∀ id, (if ss.view.bal id < 0 then 0 else ss.view.bal id) = l.getBalance id) ∧
    ∀ id, ¬ Ledger.Sends (bs.drop ((ss.height + 1).toNat - 1)) id → ss.view.nonce id = l.getNonce id

variable (n) in
/-- The rebuilt balances and nonces are those of the blocks `bs`, applied to the allocations. -/
def RebuildsLedger (s : DB) (bs : List Block) : Prop :=
  ∃ l, (Ledger.ofAllocations n.genesis.allocations).applyBlocks bs = (.ok (), l) ∧
    (n.rebuildStateFromFinalized s).2.ledger.view = l.view

/-- Continuing from another ledger: the result is that of the whole chain exactly when the ledger
agrees with the chain so far. -/
theorem applyBlocks_drop_eq_iff {l₀ base : Ledger} {k : ℕ}
    (hok : (base.applyBlocks (bs.drop k)).1 = .ok ()) :
    (∃ l, l₀.applyBlocks bs = (.ok (), l) ∧ (base.applyBlocks (bs.drop k)).2.view = l.view) ↔
      ∃ l, l₀.applyBlocks (bs.take k) = (.ok (), l) ∧ base.getBalance = l.getBalance ∧
        ∀ id, ¬ Ledger.Sends (bs.drop k) id → base.getNonce id = l.getNonce id := by
  have hsplit : ∀ l, l₀.applyBlocks bs = (.ok (), l) ↔
      ∃ l₁, l₀.applyBlocks (bs.take k) = (.ok (), l₁) ∧
        l₁.applyBlocks (bs.drop k) = (.ok (), l) := by
    intro l
    rw [← Ledger.applyBlocks_append_eq_ok, List.take_append_drop]
  constructor
  · rintro ⟨l, happ, hview⟩
    obtain ⟨l₁, hfront, hback⟩ := (hsplit l).mp happ
    have hok₁ : (l₁.applyBlocks (bs.drop k)).1 = .ok () := by rw [hback]
    refine ⟨l₁, hfront, (Ledger.view_applyBlocks_eq_iff hok hok₁).mp ?_⟩
    rw [hback]
    exact hview
  · rintro ⟨l₁, hfront, hagree⟩
    have hok₁ := (Ledger.applyBlocks_ok_congr (bs.drop k) hagree.1).mp hok
    refine ⟨_, (hsplit _).mpr ⟨l₁, hfront, Prod.ext hok₁ rfl⟩, ?_⟩
    exact (Ledger.view_applyBlocks_eq_iff hok hok₁).mpr hagree

/-- A rebuild that returns without error gives the ledger of the main chain exactly when it uses no
snapshot or one that agrees with the main chain. -/
theorem rebuildsLedger_iff (n : Node) (s : DB) (bs : List Block) {tipH : UInt64} {tipHash : String}
    (htip : s.getTip = some (tipH, tipHash)) (hmain : s.IndexedBlocks tipH bs)
    (hok : (n.rebuildStateFromFinalized s).1 = .ok ()) :
    n.RebuildsLedger s bs ↔
      ∀ ss, n.lastSnapshot = some ss → ss.height ≠ 0 → n.SnapshotFits ss bs := by
  have hrun := rebuild_eq_applyBlocks (n := n) htip hmain
  have hres := congrArg Prod.fst hrun
  have hledger := congrArg Prod.snd hrun
  dsimp only at hres hledger
  rw [hres] at hok
  rw [RebuildsLedger, hledger, applyBlocks_drop_eq_iff hok]
  by_cases hused : ∃ ss, n.lastSnapshot = some ss ∧ ss.height ≠ 0
  · obtain ⟨ss, hlast, hne⟩ := hused
    have hfits : (∀ ss', n.lastSnapshot = some ss' → ss'.height ≠ 0 → n.SnapshotFits ss' bs) ↔
        n.SnapshotFits ss bs := by
      simp [hlast, hne]
    rw [hfits, rebuildBase_of_lastSnapshot hlast hne, SnapshotFits]
    simp only [funext_iff, getBalance_restoreSnapshot, getNonce_restoreSnapshot]
  · -- without a snapshot the base is the ledger of the empty chain
    rw [rebuildBase_of_not_used fun ss hlast => by_contra fun hne => hused ⟨ss, hlast, hne⟩]
    refine iff_of_true ⟨_, rfl, rfl, fun _ _ => rfl⟩ fun ss hlast hne => ?_
    exact absurd ⟨ss, hlast, hne⟩ hused

/-! ### Truthful snapshots -/

variable (n) in
/-- The snapshot is the ledger of the chain that ends in its own tip, at its own height. -/
def Truthful (s : DB) (ss : Snapshot) : Prop :=
  ∃ b path l, s.blockByHash ss.tipHash = some b ∧ b.header.height = ss.height ∧
    s.RootPath ss.tipHash path ∧
    (Ledger.ofAllocations n.genesis.allocations).applyBlocks path = (.ok (), l) ∧
    ss.balances = l.bal ∧ ss.nonces = l.nonce

variable (n) in
/-- Every snapshot file is truthful, as either reader reads it. -/
def TruthfulSnapshots (s : DB) : Prop :=
  ∀ (name : String) (f : SnapshotFile) (ss : Snapshot), n.snapshotDir[name]? = some f →
    f.json = some ss ∨ f.gob = some ss → n.Truthful s ss

/-- A truthful snapshot of a block on the main chain agrees with the main chain. -/
theorem snapshotFits_of_ancestor (hlink : Ancestry.Linked s.blockByHash Block.prevHex Block.height)
    {tipHash : String} (hpath : s.RootPath tipHash bs) (hss : n.Truthful s ss)
    (hanc : s.AncestorAt tipHash ss.height.toNat ss.tipHash) (hfit : ss.height.toNat + 1 < 2 ^ 64) :
    n.SnapshotFits ss bs := by
  obtain ⟨b, path, l, -, -, hpath', happ, hbal, hnonce⟩ := hss
  have hk : (ss.height + 1).toNat - 1 = ss.height.toNat := by
    rw [toNat_succ_of_lt hfit, Nat.add_sub_cancel]
  -- the chain of the snapshot is the beginning of the main chain
  obtain rfl := Ancestry.rootPath_unique hpath' (hpath.take hlink hanc)
  have hnn : l.NonNeg := by
    have h := (Ledger.nonNeg_ofAllocations n.genesis.allocations).applyBlocks
      (bs.take ss.height.toNat)
    rwa [happ] at h
  refine ⟨l, by rw [hk, happ], fun id => ?_, fun id _ => ?_⟩
  · have hview : ss.view.bal id = l.getBalance id := by rw [Snapshot.view, hbal, Ledger.getBalance]
    rw [hview, if_neg (hnn id)]
  · rw [Snapshot.view, hnonce, Ledger.getNonce]

end Node

namespace Sample

/-- A block on top of alice's with a transaction of bob. -/
def busy₂ : Block := child busy₁ 2 0x20010000 [transfer bob 1 []]

/-- The database after the empty block and the two heavier ones. -/
def busyDB : DB := node.submit (node.submit idleDB (0, busy₁)) (0, busy₂)

/-- The headers are those of the blocks without transactions. -/
theorem known_blocks : collisionFree_blocks.domain.known idle₁.header ∧
    collisionFree_blocks.domain.known busy₁.header ∧
    collisionFree_blocks.domain.known busy₂.header :=
  ⟨⟨fork₁, by simp, rfl⟩, ⟨main₁, by simp, rfl⟩, ⟨main₂, by simp, rfl⟩⟩

theorem blockTree_busyDB : node.BlockTree collisionFree_blocks.domain busyDB := by
  have hidle : node.BlockTree collisionFree_blocks.domain idleDB :=
    (Node.blockTree_genesisDB _ ∅).submit known_blocks.1
  exact (hidle.submit known_blocks.2.1).submit known_blocks.2.2

/-- The snapshot of a chain of one block. -/
def snapshotAt (b : Block) : Snapshot :=
  let l := ((Ledger.ofAllocations node.genesis.allocations).applyBlocks [b]).2
  ⟨1, node.hashHex b.header, l.bal, l.nonce⟩

/-- The node with one snapshot file. -/
def withSnapshot (ss : Snapshot) : Node :=
  { node with snapshotDir := (∅ : Table SnapshotFile).insert "state_1.json.gz" ⟨some ss, none⟩ }

/-- The two heavier blocks are the main chain, and the empty one is still stored. -/
theorem busyDB_read :
    busyDB.getTip = some (2, node.hashHex busy₂.header) ∧
    busyDB.getBlockByHeight 0 = some (node.genesisHash, node.genesisBlock) ∧
    busyDB.getBlockByHeight 1 = some (node.hashHex busy₁.header, busy₁) ∧
    busyDB.getBlockByHeight 2 = some (node.hashHex busy₂.header, busy₂) ∧
    busyDB.blockByHash (node.hashHex idle₁.header) = some idle₁ := by
  decide +kernel

theorem indexedBlocks_busyDB : busyDB.IndexedBlocks 2 [busy₁, busy₂] := by
  obtain ⟨-, hroot, hone, htwo, -⟩ := busyDB_read
  refine ⟨rfl, fun i b hb => ?_, _, _, hroot, rfl⟩
  match i, hb with
  | 0, hb =>
      obtain rfl := Option.some.inj hb
      exact ⟨_, hone⟩
  | 1, hb =>
      obtain rfl := Option.some.inj hb
      exact ⟨_, htwo⟩

/-- A directory with one snapshot file has no other. -/
theorem eq_of_singleFile {name name' : String} {ss : Snapshot} {f : SnapshotFile}
    (h : ((∅ : Table SnapshotFile).insert name ⟨some ss, none⟩)[name']? = some f) :
    ⟨some ss, none⟩ = f := by
  rw [Table.getElem?_put] at h
  split at h
  · exact Option.some.inj h
  · simp at h

theorem listSnapshots_withSnapshot (ss : Snapshot) :
    listSnapshots (withSnapshot ss).snapshotDir = ["state_1.json.gz"] := by
  have hdir : (withSnapshot ss).snapshotDir.toList = [("state_1.json.gz", ⟨some ss, none⟩)] :=
    List.perm_singleton.mp
      (SortedMap.toList_insert_perm (∅ : Table SnapshotFile) "state_1.json.gz" ⟨some ss, none⟩)
  have hname : hasSuffix "state_1.json.gz" ".json.gz" = true ∧
      "state_".toList.isPrefixOf "state_1.json.gz".toList = true := by
    decide
  simp [listSnapshots, hdir, hname]

theorem readSnapshot_withSnapshot (ss : Snapshot) :
    readSnapshot (withSnapshot ss).snapshotDir "state_1.json.gz" = some ss := by
  have hfile : (withSnapshot ss).snapshotDir["state_1.json.gz"]? = some ⟨some ss, none⟩ :=
    Std.ExtTreeMap.getElem?_insert_self
  simp [readSnapshot, hfile]

theorem lastSnapshot_withSnapshot (ss : Snapshot) : (withSnapshot ss).lastSnapshot = some ss := by
  have hname : hasSuffix "state_1.json.gz" ".gob.gz" = false := by
    decide
  simp [Node.lastSnapshot, listSnapshots_withSnapshot, readSnapshotAuto, hname,
    readSnapshot_withSnapshot]

/-- What the replay from genesis and the two rebuilds return, and the nonces of alice. -/
theorem busyDB_rebuilds :
    ((Ledger.ofAllocations node.genesis.allocations).applyBlocks [idle₁]).1 = .ok () ∧
    ((Ledger.ofAllocations node.genesis.allocations).applyBlocks [busy₁]).1 = .ok () ∧
    ((withSnapshot (snapshotAt busy₁)).rebuildStateFromFinalized busyDB).1 = .ok () ∧
    ((withSnapshot (snapshotAt idle₁)).rebuildStateFromFinalized busyDB).1 = .ok () ∧
    ((withSnapshot (snapshotAt idle₁)).rebuildStateFromFinalized busyDB).2.ledger.getNonce
      alice = 0 ∧
    ((Ledger.ofAllocations node.genesis.allocations).applyBlocks [busy₁, busy₂]).2.getNonce
      alice = 1 := by
  decide +kernel

/-- A snapshot of a stored block on genesis is truthful. -/
theorem truthful_snapshotAt {b : Block} (hb : busyDB.blockByHash (node.hashHex b.header) = some b)
    (hheight : b.header.height = 1) (hprev : b.prevHex = node.genesisHash) (ss : Snapshot)
    (happ : ((Ledger.ofAllocations node.genesis.allocations).applyBlocks [b]).1 = .ok ()) :
    (withSnapshot ss).Truthful busyDB (snapshotAt b) := by
  have hgenesis := (DB.getBlockByHeight_eq_some_iff.mp busyDB_read.2.1).2
  have hpath : busyDB.RootPath (node.hashHex b.header) ([] ++ [b]) := by
    refine .snoc hb ?_ (.root (by rw [hprev]; exact hgenesis) rfl)
    rw [Block.height, hheight]
    decide
  have htip : (snapshotAt b).tipHash = node.hashHex b.header := rfl
  exact ⟨b, [b], _, by rw [htip, hb], hheight, by rw [htip]; exact hpath, Prod.ext happ rfl, rfl,
    rfl⟩

theorem truthfulSnapshots_withSnapshot {ss : Snapshot}
    (h : (withSnapshot ss).Truthful busyDB ss) : (withSnapshot ss).TruthfulSnapshots busyDB := by
  intro name f ss' hfile hss
  obtain rfl := eq_of_singleFile hfile
  obtain rfl : ss = ss' := by simpa using hss
  exact h

end Sample

namespace Node

open Sample

/-- A snapshot of alice's block, which is on the main chain: the rebuild gives the ledger of the
main chain. -/
theorem rebuildsLedger_busy :
    (withSnapshot (snapshotAt busy₁)).TruthfulSnapshots busyDB ∧
    (withSnapshot (snapshotAt busy₁)).RebuildsLedger busyDB
      [busy₁, busy₂] := by
  obtain ⟨htip, -, hone, htwo, -⟩ := busyDB_read
  obtain ⟨-, happ, hok, -⟩ := busyDB_rebuilds
  have htrue := truthful_snapshotAt (DB.getBlockByHeight_eq_some_iff.mp hone).2 rfl rfl
    (snapshotAt busy₁) happ
  refine ⟨truthfulSnapshots_withSnapshot htrue,
    (rebuildsLedger_iff _ _ _ htip indexedBlocks_busyDB hok).mpr ?_⟩
  intro ss hlast _
  rw [lastSnapshot_withSnapshot] at hlast
  obtain rfl := Option.some.inj hlast
  have hone := (DB.getBlockByHeight_eq_some_iff.mp hone).2
  have htwo := (DB.getBlockByHeight_eq_some_iff.mp htwo).2
  have hprev : busy₂.prevHex = node.hashHex busy₁.header := rfl
  have hprev₁ : busy₁.prevHex = node.genesisHash := rfl
  have hgenesis :
      busyDB.blockByHash busy₁.prevHex = some node.genesisBlock := by
    rw [hprev₁]
    exact blockTree_busyDB.genesis
  have hpath₁ : busyDB.RootPath (node.hashHex busy₁.header)
      ([] ++ [busy₁]) := .snoc hone (by decide) (.root hgenesis rfl)
  have hpath₂ : busyDB.RootPath (node.hashHex busy₂.header)
      (([] ++ [busy₁]) ++ [busy₂]) :=
    .snoc htwo (by decide) (by rw [hprev]; exact hpath₁)
  have hanc : busyDB.AncestorAt (node.hashHex busy₂.header) 1
      (node.hashHex busy₁.header) :=
    ⟨.step htwo (by decide) (by rw [hprev]; exact .refl hone), busy₁, hone, rfl⟩
  exact snapshotFits_of_ancestor blockTree_busyDB.linked hpath₂ htrue hanc (by decide)

/-- A snapshot of the empty block, from before the switch to alice's block: the rebuild returns
without error, and the nonce of alice is zero again. -/
theorem not_rebuildsLedger_idle :
    busyDB.getTip = some (2, node.hashHex busy₂.header) ∧
    busyDB.IndexedBlocks 2 [busy₁, busy₂] ∧
    (withSnapshot (snapshotAt idle₁)).TruthfulSnapshots busyDB ∧
    ((withSnapshot (snapshotAt idle₁)).rebuildStateFromFinalized
      busyDB).1 = .ok () ∧
    ¬ (withSnapshot (snapshotAt idle₁)).RebuildsLedger busyDB
      [busy₁, busy₂] := by
  obtain ⟨htip, -, -, -, hidle⟩ := busyDB_read
  obtain ⟨happ, -, -, hok, hzero, hone⟩ := busyDB_rebuilds
  refine ⟨htip, indexedBlocks_busyDB, ?_, hok, ?_⟩
  · exact truthfulSnapshots_withSnapshot (truthful_snapshotAt hidle rfl rfl _ happ)
  · rintro ⟨l, hrun, hview⟩
    have halice := congrFun (congrArg Sim.nonce hview) alice
    have hrun : (Ledger.ofAllocations node.genesis.allocations).applyBlocks
        [busy₁, busy₂] = (.ok (), l) := hrun
    rw [hrun] at hone
    rw [Ledger.view_nonce, Ledger.view_nonce, hzero, hone] at halice
    exact absurd halice (by decide)

end Node

end ReserveOS
