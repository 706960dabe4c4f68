import ReserveOS.Correctness.BlockTree
import ReserveOS.Correctness.Simulators

/-!
# Validity of the main chain

A block reaches the main chain by extending the tip, as a stored fork block that gets a child, or by
a chain switch, and the three routes check its state against three different ledgers: the stored
one, which tip extension never advances, one replayed along the height index, or none at all. It is
enough that every stored block is checked against the ledger of its own parent's path
(`mainChainValid_of_stateChecked`).
-/

namespace ReserveOS

namespace Node

variable {n : Node} {dom : n.HashDomain} {s : DB} {b : Block}

variable (n) in
/-- The path from genesis to the tip replays from the genesis allocations with the rules of
`applyBlockToSim`, and each sender's nonces along it are 1, 2, 3, ... -/
def MainChainValid (s : DB) : Prop :=
  ∃ tipH tipHash path m, s.getTip = some (tipH, tipHash) ∧ s.RootPath tipHash path ∧
    n.replay n.genesisSim path = .ok m ∧
    ∀ id, ∃ k, noncesOf id (path.flatMap Block.txs) = following 0 k

variable (n) in
/-- A block that goes to the store does not replace another body under its hash, and its state is
checked against the ledger `m` of its parent's path: by the fork validator, when that runs and has
replayed `m`, or by the tip validator, when the block extends the tip and `m` is what is stored. -/
def StateChecked (s : DB) (c : Int64 × Block) : Prop :=
  n.preStore s c.2 = .ok true → (∀ b', s.blockByHash (n.hashHex c.2.header) = some b' → b' = c.2) ∧
    ∀ path m, s.RootPath c.2.prevHex path → n.replay n.genesisSim path = .ok m →
      (n.forkStateChecked s c.2 = true ∧ n.mainParentSim s (c.2.header.height - 1) = .ok m) ∨
      (extendsTip s c.2 = true ∧ s.ledger.view = m ∧ n.validateBlockStateTip s.ledger c.2 = .ok ())

variable (n) in
/-- The path to every stored block replays from the genesis allocations. -/
def AllReplay (s : DB) : Prop :=
  ∀ h b, s.blockByHash h = some b → ∃ path m, s.RootPath h path ∧ n.replay n.genesisSim path = .ok m

/-- A block that is checked against a ledger applies to it. -/
theorem applyBlockToSim_of_stateChecked (hs : n.Storable s b) {m : Sim}
    (h : (n.forkStateChecked s b = true ∧ n.mainParentSim s (b.header.height - 1) = .ok m) ∨
      (extendsTip s b = true ∧ s.ledger.view = m ∧ n.validateBlockStateTip s.ledger b = .ok ())) :
    ∃ m', n.applyBlockToSim m b = .ok m' := by
  rcases h with ⟨hgate, hm⟩ | ⟨-, hm, hval⟩
  · -- the fork validator ran, on a replay that ended in `m`
    have hmain := hs.mainParent
    unfold validateBlockStateOnMainParent at hmain
    rw [if_pos hgate] at hmain
    obtain ⟨m₀, hm₀, hmain⟩ := Res.bind_eq_ok.mp hmain
    obtain ⟨m', happ, -⟩ := Res.bind_eq_ok.mp hmain
    rw [hm] at hm₀
    cases hm₀
    exact ⟨m', happ⟩
  · unfold validateBlockStateTip at hval
    rw [hm] at hval
    obtain ⟨m', hsim, -⟩ := Res.bind_eq_ok.mp hval
    exact ⟨m', applyBlockToSim_eq_ok hs.limits hs.basic hsim⟩

/-- Storing a state-checked block keeps every path replayable. -/
theorem AllReplay.stored (h : n.AllReplay s) (hs : n.Storable s b)
    (hsame : ∀ b', s.blockByHash (n.hashHex b.header) = some b' → b' = b)
    (hcheck : ∀ path m, s.RootPath b.prevHex path → n.replay n.genesisSim path = .ok m →
      ∃ m', n.applyBlockToSim m b = .ok m') : n.AllReplay (n.stored s b) := by
  have hkeep := blockByHash_stored_of_some hsame
  intro a x hx
  rw [blockByHash_stored] at hx
  split at hx
  next ha =>
    -- the new block, above its parent's path
    cases hx
    obtain ⟨p, hp, -⟩ := hs.parent
    obtain ⟨path, m, hpath, hreplay⟩ := h _ _ hp
    obtain ⟨m', happ⟩ := hcheck path m hpath hreplay
    refine ⟨path ++ [b], m', ?_, replay_concat hreplay happ⟩
    rw [ha]
    exact .snoc blockByHash_stored_self hs.height_pos (hpath.mono hkeep)
  next =>
    -- the paths of the other blocks are as they were
    obtain ⟨path, m, hpath, hreplay⟩ := h a x hx
    exact ⟨path, m, hpath.mono hkeep, hreplay⟩

/-- A call that meets `StateChecked` keeps every path replayable. -/
theorem allReplay_submit {c : Int64 × Block} (h : n.AllReplay s) (hc : n.StateChecked s c) :
    n.AllReplay (n.submit s c) := by
  obtain ⟨now, b⟩ := c
  rcases blockByHash_submitBlock (n := n) now s b with ⟨-, hsame⟩ | ⟨hpre, hblk⟩
  · rw [submit, hsame]
    exact h
  · have hs := storable_of_preStore n hpre
    obtain ⟨hbody, hledger⟩ := hc hpre
    have hst : n.AllReplay (n.stored s b) := h.stored hs hbody fun path m hpath hreplay =>
      applyBlockToSim_of_stateChecked hs (hledger path m hpath hreplay)
    unfold AllReplay DB.RootPath at hst ⊢
    rw [submit, hblk]
    exact hst

/-- In a new database the only path is the empty one. -/
theorem allReplay_genesisDB (registry : Table RegValidator) :
    n.AllReplay (n.genesisDB registry) := by
  intro h x hx
  have hroot : (n.genesisDB registry).RootPath h [] := by
    refine .root hx ?_
    rw [blockByHash_genesisDB, Function.update_apply] at hx
    split at hx
    · cases hx
      rfl
    · cases hx
  exact ⟨[], n.genesisSim, hroot, rfl⟩

/-- Where every path replays, the main chain is valid. -/
theorem BlockTree.mainChainValid (htree : n.BlockTree dom s) (h : n.AllReplay s) :
    n.MainChainValid s := by
  obtain ⟨t, htip, ht⟩ := htree.tip
  obtain ⟨path, m, hpath, hreplay⟩ := h _ _ ht
  refine ⟨_, _, path, m, htip, hpath, hreplay, fun id => ?_⟩
  obtain ⟨k, hk, -⟩ := nonces_of_replay hreplay id
  rw [nonce_genesisSim] at hk
  exact ⟨k, hk⟩

/-- If every block that a run of `SubmitBlock` calls stores is state-checked against the ledger of
its parent's path, the main chain is valid in every state of the run. -/
theorem mainChainValid_of_stateChecked (n : Node) (registry : Table RegValidator)
    (calls : List (Int64 × Block)) (hcf : n.CollisionFree (calls.map Prod.snd))
    (hchecked : Run.Admitted n.submit n.StateChecked (n.genesisDB registry) calls) :
    ∀ t ∈ Run.states n.submit (n.genesisDB registry) calls, n.MainChainValid t := by
  intro t ht
  have htree := blockTree_submit_states registry hcf t ht
  have hall : n.AllReplay t :=
    Run.invariant (E := fun _ => True) (fun s c h _ hc => allReplay_submit h hc)
      (fun _ _ => trivial) (allReplay_genesisDB registry) hchecked t ht
  exact htree.mainChainValid hall

/-- The fork validator replays the path that the height index names. -/
theorem replayIndex_eq_ok_iff {path : List Block} {h : UInt64} {m m' : Sim}
    (hidx : ∀ i b, path[i]? = some b → ∃ x, s.getBlockByHeight (h + UInt64.ofNat i) = some (x, b)) :
    n.replayIndex s path.length h m = .ok m' ↔ n.replay m path = .ok m' := by
  induction path generalizing h m with
  | nil => exact Iff.rfl
  | cons b path ih =>
      obtain ⟨x, hx⟩ := hidx 0 b rfl
      have hx : s.getBlockByHeight h = some (x, b) := by simpa using hx
      rw [List.length_cons, replayIndex, hx, replay]
      dsimp only
      cases n.applyBlockToSim m b with
      | error e => simp [Except.bind]
      | ok m₁ =>
          refine ih fun i b' hb' => ?_
          obtain ⟨x', hx'⟩ := hidx (i + 1) b' (by simpa using hb')
          refine ⟨x', ?_⟩
          rw [← hx', Nat.add_comm, UInt64.ofNat_add, UInt64.add_assoc]
          rfl

/-- Without snapshot files, and where the index below a block names its parent's path, the fork
validator checks the block against the ledger of that path. -/
theorem mainParentSim_eq_replay (hdir : listSnapshots n.snapshotDir = []) {path : List Block}
    {parentH : UInt64} (hlen : parentH.toNat = path.length)
    (hidx : ∀ i b, path[i]? = some b → ∃ x, s.getBlockByHeight (1 + UInt64.ofNat i) = some (x, b))
    {m : Sim} (hreplay : n.replay n.genesisSim path = .ok m) :
    n.mainParentSim s parentH = .ok m := by
  have hbase : n.forkBase parentH = (0, n.genesisSim) := by
    unfold forkBase
    rw [hdir]
    rfl
  unfold mainParentSim
  rw [hbase]
  have hcount : parentH.toNat + 1 - ((0 : UInt64) + 1).toNat = path.length := by
    rw [hlen]
    rfl
  dsimp only
  rw [hcount]
  exact (replayIndex_eq_ok_iff hidx).mpr hreplay

end Node

namespace Sample

/-- The first transfer repeated as it is, with the nonce it has already used. -/
def respend₂ : Block := child spend₁ 2 0x20010000 [coinbase alice, transfer alice 1 [pay bob 5000]]

/-- The database after the first block. -/
def spentDB : DB := (issuing true).submit ((issuing true).genesisDB ∅) (0, spend₁)

/-- The first block is validated against genesis. It is stored, is the index entry at height one,
and the next block is validated against it. -/
theorem spentDB_read :
    (issuing true).CollisionFree [spend₁, spend₂] ∧
    (((issuing true).genesisDB ∅).blockByHash ((issuing true).hashHex spend₁.header) = none ∧
      ((issuing true).genesisDB ∅).blockByHash spend₁.prevHex = some node.genesisBlock ∧
      (issuing true).forkStateChecked ((issuing true).genesisDB ∅) spend₁ = true) ∧
    spentDB.blockByHash ((issuing true).hashHex spend₂.header) = none ∧
    spentDB.blockByHash spend₂.prevHex = some spend₁ ∧
    spentDB.blockByHash spend₁.prevHex = some node.genesisBlock ∧
    spentDB.getBlockByHeight 1 = some (spend₂.prevHex, spend₁) ∧
    (issuing true).forkStateChecked spentDB spend₂ = true ∧
    spentDB.getTip = some (1, spend₂.prevHex) ∧
    spentDB.getBlockByHeight 0 = some (spend₁.prevHex, node.genesisBlock) := by
  decide +kernel

/-- The database after the first block and its repetition. -/
def respentDB : DB :=
  [(0, spend₁), (0, respend₂)].foldl (issuing false).submit ((issuing false).genesisDB ∅)

/-- Both blocks were accepted, and the path does not replay. -/
theorem respentDB_read :
    respentDB.getTip = some (2, node.hashHex respend₂.header) ∧
    respentDB.blockByHash (node.hashHex respend₂.header) = some respend₂ ∧
    respentDB.blockByHash respend₂.prevHex = some spend₁ ∧
    respentDB.blockByHash spend₁.prevHex = some node.genesisBlock ∧
    ((issuing false).replay (issuing false).genesisSim
      ([] ++ [spend₁] ++ [respend₂])).isNil = false := by
  decide +kernel

end Sample

namespace Node

open Sample

/-- With fork validation on and the index intact, two blocks of payments are checked against their
parents' ledgers. -/
theorem mainChainValid_spend :
    (issuing true).CollisionFree [spend₁, spend₂] ∧
    ∀ t ∈ Run.states (issuing true).submit ((issuing true).genesisDB ∅)
      [(0, spend₁), (0, spend₂)], (issuing true).MainChainValid t := by
  obtain ⟨hcf, hgenesis, hnew, hone, hzero, hidx, hgate, -⟩ := spentDB_read
  have hrun : (issuing true).submit ((issuing true).genesisDB ∅)
      (0, spend₁) = spentDB := rfl
  refine ⟨hcf, mainChainValid_of_stateChecked (issuing true) ∅
    [(0, spend₁), (0, spend₂)] hcf
    ⟨fun _ => ⟨fun b' hb' => ?_, fun path m hpath hreplay => ?_⟩,
      fun _ => ⟨fun b' hb' => ?_, fun path m hpath hreplay => ?_⟩, trivial⟩⟩
  · rw [hgenesis.1] at hb'
    cases hb'
  · -- the parent of the first block is genesis
    have hnil := Ancestry.rootPath_unique hpath (.root hgenesis.2.1 rfl)
    subst hnil
    refine Or.inl ⟨hgenesis.2.2, mainParentSim_eq_replay rfl rfl (fun i b hb => ?_) hreplay⟩
    simp at hb
  · dsimp only at hb'
    rw [hrun, hnew] at hb'
    cases hb'
  · -- the parent of the second block is the first one
    have hpath' : spentDB.RootPath spend₂.prevHex ([] ++ [spend₁]) :=
      .snoc hone (by decide) (.root hzero rfl)
    rw [hrun] at hpath ⊢
    have hcons := Ancestry.rootPath_unique hpath hpath'
    subst hcons
    refine Or.inl ⟨hgate, mainParentSim_eq_replay rfl (by decide) (fun i b hb => ?_) hreplay⟩
    have h0 : i = 0 ∧ spend₁ = b := by
      cases i with
      | zero => exact ⟨rfl, by simpa using hb⟩
      | succ i => simp at hb
    obtain ⟨rfl, rfl⟩ := h0
    exact ⟨_, hidx⟩

/-- The same signed transfer is accepted in two blocks in a row, because the tip validator reads a
ledger that the first block has not changed; the path does not replay. -/
theorem not_mainChainValid_respend :
    ∃ t ∈ Run.states (issuing false).submit ((issuing false).genesisDB ∅)
      [(0, spend₁), (0, respend₂)], ¬ (issuing false).MainChainValid t := by
  obtain ⟨htip, htwo, hone, hzero, hfail⟩ := respentDB_read
  refine ⟨respentDB, Run.foldl_mem_states (issuing false).submit
    ((issuing false).genesisDB ∅) [(0, spend₁), (0, respend₂)], ?_⟩
  rintro ⟨tipH, tipHash, path, m, htip', hpath, hreplay, -⟩
  rw [htip] at htip'
  obtain ⟨-, rfl⟩ : 2 = tipH ∧ node.hashHex respend₂.header = tipHash :=
    Prod.mk.inj (Option.some.inj htip')
  have hpath' : respentDB.RootPath (node.hashHex respend₂.header)
      ([] ++ [spend₁] ++ [respend₂]) :=
    .snoc htwo (by decide) (.snoc hone (by decide) (.root hzero rfl))
  have heq := Ancestry.rootPath_unique hpath hpath'
  rw [heq] at hreplay
  rw [hreplay] at hfail
  cases hfail

end Node

end ReserveOS
