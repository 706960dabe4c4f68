import ReserveOS.Correctness.Anchor

/-!
# The stored ledger and the main chain

The ledger is written only by the rebuild after a chain switch: neither `ensureGenesisStored` nor
the tip extension applies anything. `ledgerAgrees_of_kept` gives the runs in which the stored
balances and nonces are nevertheless the result of applying the main chain to the genesis
allocations. Applying blocks depends on a ledger only through its `view` (`applyBlocks_congr`).
-/

namespace ReserveOS

namespace Ledger

/-- What can be observed of applying to a ledger: the result, and every balance and nonce after. -/
def observe (r : Res Unit × Ledger) : Res Unit × Sim := (r.1, r.2.view)

/-- Ledgers with the same view have the same balances. -/
theorem getBalance_congr {l l' : Ledger} (h : l.view = l'.view) (id : String) :
    l.getBalance id = l'.getBalance id := congrFun (congrArg Sim.bal h) id

/-- `AddBalance` does the same on ledgers with the same balances and nonces. -/
theorem addBalance_congr {l l' : Ledger} (h : l.view = l'.view) (id : String) (d : Int64) :
    (∃ e, l.addBalance id d = .error e ∧ l'.addBalance id d = .error e) ∨
      ∃ k k', l.addBalance id d = .ok k ∧ l'.addBalance id d = .ok k' ∧ k.view = k'.view := by
  have hbal := getBalance_congr h id
  by_cases hneg : l.getBalance id + d < 0
  · refine Or.inl ⟨.error "insufficient funds", ?_, ?_⟩
    · rw [addBalance, if_pos hneg]
    · rw [addBalance, ← hbal, if_pos hneg]
  · have hk := addBalance_eq_ok_iff.mpr ⟨hneg, rfl⟩
    have hk' : l'.addBalance id d = .ok (l'.setBalance id (l'.getBalance id + d)) :=
      addBalance_eq_ok_iff.mpr ⟨by rwa [← hbal], rfl⟩
    refine Or.inr ⟨_, _, hk, hk', ?_⟩
    rw [view_of_addBalance hk, view_of_addBalance hk', h]

/-- Crediting outputs sees a ledger only through its view. -/
theorem creditOutputs_congr {outs : List TxOut} {l l' : Ledger} (h : l.view = l'.view) :
    observe (l.creditOutputs outs) = observe (l'.creditOutputs outs) := by
  induction outs generalizing l l' with
  | nil => exact Prod.ext rfl h
  | cons o outs ih =>
      rw [creditOutputs, creditOutputs]
      split
      · rcases addBalance_congr h o.address o.amount with ⟨e, he, he'⟩ | ⟨k, k', hk, hk', hview⟩
        · rw [he, he']
          exact Prod.ext rfl h
        · rw [hk, hk']
          exact ih hview
      · split
        · rcases addBalance_congr h (otapBucket o.P) o.amount with
            ⟨e, he, he'⟩ | ⟨k, k', hk, hk', hview⟩
          · rw [he, he']
            exact Prod.ext rfl h
          · rw [hk, hk']
            exact ih hview
        · exact ih h

theorem setNonce_congr {l l' : Ledger} (h : l.view = l'.view) (id : String) (k : UInt64) :
    (l.setNonce id k).view = (l'.setNonce id k).view := by
  rw [view_setNonce, view_setNonce, h]

/-- So does applying a transaction. -/
theorem applyTx_congr {l l' : Ledger} (h : l.view = l'.view) (tx : Tx) :
    observe (l.applyTx tx) = observe (l'.applyTx tx) := by
  unfold applyTx
  dsimp only
  split
  next c _ =>
    -- a claim: nonce, debit and credit, up to the first that fails
    have hset := setNonce_congr h tx.normalize.fromId tx.normalize.nonce
    rcases addBalance_congr hset (otapBucket c.P) (-(c.amount + tx.normalize.fee)) with
      ⟨e, he, he'⟩ | ⟨k, k', hk, hk', hview⟩
    · rw [he, he']
      exact Prod.ext rfl hset
    · rw [hk, hk']
      dsimp only
      rcases addBalance_congr hview c.toId c.amount with ⟨e, he, he'⟩ | ⟨j, j', hj, hj', hview'⟩
      · rw [he, he']
        exact Prod.ext rfl hview
      · rw [hj, hj']
        exact Prod.ext rfl hview'
  next =>
    -- a transfer: without a sender there is no debit
    split
    · rcases addBalance_congr h tx.normalize.fromId
        (-(outTotal tx.normalize.outputs + tx.normalize.fee)) with
        ⟨e, he, he'⟩ | ⟨k, k', hk, hk', hview⟩
      · rw [he, he']
        exact Prod.ext rfl h
      · rw [hk, hk']
        exact creditOutputs_congr (setNonce_congr hview _ _)
    · exact creditOutputs_congr h

/-- Applying transactions depends only on the balances and nonces. -/
theorem applyTxs_congr {txs : List Tx} {l l' : Ledger} (h : l.view = l'.view) :
    observe (l.applyTxs txs) = observe (l'.applyTxs txs) := by
  induction txs generalizing l l' with
  | nil => exact Prod.ext rfl h
  | cons tx txs ih =>
      have hone := applyTx_congr h tx
      rw [applyTxs, applyTxs]
      generalize l.applyTx tx = p at hone
      generalize l'.applyTx tx = p' at hone
      obtain ⟨r, k⟩ := p
      obtain ⟨r', k'⟩ := p'
      obtain ⟨rfl, hview⟩ : r = r' ∧ k.view = k'.view := Prod.mk.inj hone
      cases r with
      | error e => exact Prod.ext rfl hview
      | ok u => exact ih hview

/-- Applying blocks depends only on the balances and nonces. -/
theorem applyBlocks_congr (bs : List Block) {l l' : Ledger} (h : l.view = l'.view) :
    observe (l.applyBlocks bs) = observe (l'.applyBlocks bs) := by
  induction bs generalizing l l' with
  | nil => exact Prod.ext rfl h
  | cons b bs ih =>
      have hone : observe (l.applyTxs b.txs) = observe (l'.applyTxs b.txs) := applyTxs_congr h
      rw [applyBlocks, applyBlocks]
      generalize l.applyTxs b.txs = p at hone
      generalize l'.applyTxs b.txs = p' at hone
      obtain ⟨r, k⟩ := p
      obtain ⟨r', k'⟩ := p'
      obtain ⟨rfl, hview⟩ : r = r' ∧ k.view = k'.view := Prod.mk.inj hone
      cases r with
      | error e => exact Prod.ext rfl hview
      | ok u => exact ih hview

/-- Two stretches of blocks apply without error exactly when both do, one after the other. -/
theorem applyBlocks_append_eq_ok {bs cs : List Block} {l l₂ : Ledger} :
    l.applyBlocks (bs ++ cs) = (.ok (), l₂) ↔
      ∃ l₁, l.applyBlocks bs = (.ok (), l₁) ∧ l₁.applyBlocks cs = (.ok (), l₂) := by
  induction bs generalizing l with
  | nil =>
      constructor
      · exact fun h => ⟨l, rfl, h⟩
      · rintro ⟨l₁, hnil, h⟩
        cases hnil
        exact h
  | cons b bs ih =>
      rw [List.cons_append, applyBlocks, applyBlocks]
      obtain ⟨r, k⟩ := l.applyTxs b.txs
      cases r with
      | error e => simp
      | ok u => exact ih

end Ledger

namespace Node

variable {n : Node} {dom : n.HashDomain} {s : DB} {b : Block}

/-- The transaction loop on the database is the one on the ledger. -/
theorem ledger_applyTxs (txs : List Tx) (s : DB) :
    ((n.applyTxs s txs).1, (n.applyTxs s txs).2.ledger) = s.ledger.applyTxs txs := by
  induction txs generalizing s with
  | nil => rfl
  | cons tx txs ih =>
      rw [applyTxs, Ledger.applyTxs]
      have hput : (s.putTx (tx.id n.prim.sha256) tx).ledger = s.ledger := rfl
      rw [hput]
      obtain ⟨r, k⟩ := s.ledger.applyTx tx
      cases r with
      | error e => rfl
      | ok u => exact ih _

/-- What `applyBlockTxs` does to the ledger is `Ledger.applyTxs`. -/
theorem ledger_applyBlockTxs (s : DB) (b : Block) :
    ((n.applyBlockTxs s b).1, (n.applyBlockTxs s b).2.ledger) = s.ledger.applyTxs b.txs := by
  have h := n.ledger_applyTxs b.txs s
  unfold applyBlockTxs
  split
  next e s' heq =>
    rw [heq] at h
    exact h
  next u s' heq =>
    rw [heq] at h
    exact h

theorem getBlockByHeight_applyBlockTxs (s : DB) (b : Block) :
    (n.applyBlockTxs s b).2.getBlockByHeight = s.getBlockByHeight := by
  rw [applyBlockTxs_eq]
  rfl

/-- Replaying heights that the index maps to the blocks `bs` applies `bs` to the ledger. -/
theorem ledger_replayMainChain (bs : List Block) {h : UInt64} {s : DB}
    (hidx : ∀ i b, bs[i]? = some b → ∃ x, s.getBlockByHeight (h + UInt64.ofNat i) = some (x, b)) :
    ((n.replayMainChain bs.length h s).1, (n.replayMainChain bs.length h s).2.ledger) =
      s.ledger.applyBlocks bs := by
  induction bs generalizing h s with
  | nil => rfl
  | cons b bs ih =>
      obtain ⟨x, hx⟩ := hidx 0 b rfl
      have hx : s.getBlockByHeight h = some (x, b) := by simpa using hx
      have hone := n.ledger_applyBlockTxs s b
      have hsame := n.getBlockByHeight_applyBlockTxs s b
      rw [List.length_cons, replayMainChain, Ledger.applyBlocks, hx, ← hone]
      dsimp only
      generalize n.applyBlockTxs s b = p at hsame
      obtain ⟨r, s₁⟩ := p
      cases r with
      | error e => rfl
      | ok u =>
          refine ih fun i b' hb' => ?_
          obtain ⟨x', hx'⟩ := hidx (i + 1) b' (by simpa using hb')
          refine ⟨x', ?_⟩
          rw [hsame, ← hx', Nat.add_comm, UInt64.ofNat_add, UInt64.add_assoc]
          rfl

/-- The rebuild applies to its base ledger what the index names above the base height. -/
theorem ledger_rebuild {tipH : UInt64} {tipHash : String} (htip : s.getTip = some (tipH, tipHash))
    {bs : List Block} (hlen : bs.length = tipH.toNat)
    (hbase : n.rebuildBase.1.toNat ≤ bs.length) (hfit : n.rebuildBase.1.toNat + 1 < 2 ^ 64)
    (hidx : ∀ i b, n.rebuildBase.1.toNat ≤ i → bs[i]? = some b →
      ∃ x, s.getBlockByHeight (UInt64.ofNat (i + 1)) = some (x, b)) :
    (n.rebuildStateFromFinalized s).2.ledger =
      (n.rebuildBase.2.applyBlocks (bs.drop n.rebuildBase.1.toNat)).2 := by
  unfold rebuildStateFromFinalized
  have htip' : ({ s with ledger := n.rebuildBase.2 } : DB).getTip = some (tipH, tipHash) := htip
  dsimp only
  rw [htip']
  dsimp only
  have hstart : (n.rebuildBase.1 + 1).toNat = n.rebuildBase.1.toNat + 1 := toNat_succ_of_lt hfit
  -- the loop runs over the heights above the base, one block for each
  have hcount : tipH.toNat + 1 - (n.rebuildBase.1 + 1).toNat =
      (bs.drop n.rebuildBase.1.toNat).length := by
    rw [hstart, List.length_drop, hlen]
    omega
  rw [hcount]
  have hreplay := ledger_replayMainChain (n := n) (bs.drop n.rebuildBase.1.toNat)
    (h := n.rebuildBase.1 + 1) (s := { s with ledger := n.rebuildBase.2 }) ?_
  · exact congrArg Prod.snd hreplay
  · intro i b hb
    rw [List.getElem?_drop] at hb
    obtain ⟨x, hx⟩ := hidx _ b (Nat.le_add_right _ i) hb
    refine ⟨x, ?_⟩
    rw [UInt64.ofNat_add, UInt64.ofNat_add, UInt64.ofNat_toNat] at hx
    rw [UInt64.add_assoc, UInt64.add_comm 1, ← UInt64.add_assoc]
    exact hx

/-! ### Agreement over whole runs -/

variable (n) in
/-- The stored balances and nonces are the result of applying the blocks of the main chain in order
to the genesis allocations. -/
def LedgerAgrees (s : DB) : Prop :=
  ∃ tipH tipHash path l, s.getTip = some (tipH, tipHash) ∧ s.RootPath tipHash path ∧
    (Ledger.ofAllocations n.genesis.allocations).applyBlocks path = (.ok (), l) ∧
    s.ledger.view = l.view

variable (n) in
/-- A rebuild along the branch `bs` with anchor height `finH` gives the ledger of the branch: the
branch applies, the base is the ledger of its first blocks, and the old index entries that are read
below the anchor are on the branch. -/
structure RebuildsTo (s : DB) (finH : UInt64) (bs : List Block) : Prop where
  applies : ∃ l, (Ledger.ofAllocations n.genesis.allocations).applyBlocks bs = (.ok (), l)
  base_le : n.rebuildBase.1.toNat ≤ bs.length
  base_fits : n.rebuildBase.1.toNat + 1 < 2 ^ 64
  base : n.rebuildBase.2.view = ((Ledger.ofAllocations n.genesis.allocations).applyBlocks
    (bs.take n.rebuildBase.1.toNat)).2.view
  index : ∀ i b, n.rebuildBase.1.toNat ≤ i → i + 1 < finH.toNat → bs[i]? = some b →
    s.hashByHeight (UInt64.ofNat (i + 1)) = some (n.hashHex b.header)

variable (n) in
/-- A block that goes to the store does not replace another body under its hash; if it extends the
tip, applying it changes no stored balance or nonce; if the node switches to it, the rebuild gives
the ledger of its branch. -/
def LedgerKept (s : DB) (c : Int64 × Block) : Prop :=
  n.preStore s c.2 = .ok true → (∀ b', s.blockByHash (n.hashHex c.2.header) = some b' → b' = c.2) ∧
    (extendsTip s c.2 = true →
      Ledger.observe (s.ledger.applyTxs c.2.txs) = (.ok (), s.ledger.view)) ∧
    ∀ finH path bs, extendsTip s c.2 = false → s.getTipWork < cumWork s c.2 →
      (n.stored s c.2).candidatePath (n.hashHex c.2.header) c.2.header.height = .ok (finH, path) →
      (n.stored s c.2).RootPath (n.hashHex c.2.header) bs → n.RebuildsTo s finH bs

/-- Storing a block keeps the agreement, if it does not replace a body. -/
theorem LedgerAgrees.stored (h : n.LedgerAgrees s)
    (hsame : ∀ b', s.blockByHash (n.hashHex b.header) = some b' → b' = b) :
    n.LedgerAgrees (n.stored s b) := by
  obtain ⟨tipH, tipHash, path, l, htip, hpath, happ, hview⟩ := h
  exact ⟨tipH, tipHash, path, l, htip, hpath.mono (blockByHash_stored_of_some hsame), happ, hview⟩

/-- Moving the tip keeps the agreement, if the new block changes nothing. -/
theorem LedgerAgrees.moveTip (h : n.LedgerAgrees s) (hs : n.Storable s b)
    (hsame : ∀ b', s.blockByHash (n.hashHex b.header) = some b' → b' = b)
    (hext : extendsTip s b = true)
    (hnone : Ledger.observe (s.ledger.applyTxs b.txs) = (.ok (), s.ledger.view)) (cum : UInt64) :
    n.LedgerAgrees (n.moveTip (n.stored s b) b cum) := by
  obtain ⟨tipH, tipHash, path, l, htip, hpath, happ, hview⟩ := h.stored hsame
  obtain ⟨tipH', tipHash', htip', hparent, -⟩ := extendsTip_iff.mp hext
  have heq : some (tipH, tipHash) = some (tipH', tipHash') := htip.symm.trans htip'
  cases heq
  have hlast : Ledger.observe (l.applyTxs b.txs) = (.ok (), l.view) := by
    rw [← Ledger.applyTxs_congr hview, ← hview]
    exact hnone
  -- so the longer path ends in a ledger with the same view
  have hone : ∃ l', l.applyBlocks [b] = (.ok (), l') ∧ l'.view = l.view := by
    rw [Ledger.applyBlocks]
    generalize l.applyTxs b.txs = p at hlast
    obtain ⟨r, l'⟩ := p
    obtain ⟨rfl, hview'⟩ : r = .ok () ∧ l'.view = l.view := Prod.mk.inj hlast
    exact ⟨l', rfl, hview'⟩
  obtain ⟨l', happ', hview'⟩ := hone
  refine ⟨_, _, path ++ [b], l', rfl, ?_, Ledger.applyBlocks_append_eq_ok.mpr ⟨l, happ, happ'⟩, ?_⟩
  · refine .snoc (blockByHash_moveTip_self cum) hs.height_pos ?_
    rw [hparent]
    exact hpath
  · rw [hview']
    exact hview

/-- After a switch every index entry that the rebuild reads is a block of the branch. -/
theorem BlockTree.getBlockByHeight_switch (h : n.BlockTree dom s) (hs : n.Storable s b)
    (hb : dom.known b.header) {finH : UInt64} {path : List String}
    (hp : (n.stored s b).CandidatePath (n.hashHex b.header) b.header.height finH path)
    {bs : List Block} (hbs : (n.stored s b).RootPath (n.hashHex b.header) bs)
    (hre : n.RebuildsTo s finH bs) (i : ℕ) (x : Block) (hi : n.rebuildBase.1.toNat ≤ i)
    (hx : bs[i]? = some x) :
    ∃ y, ((n.stored s b).switchTo finH path (n.hashHex b.header)
      b.header.height).getBlockByHeight (UInt64.ofNat (i + 1)) = some (y, x) := by
  have htree := h.stored hs hb
  have hlen : bs.length = b.header.height.toNat :=
    hbs.length_eq htree.linked blockByHash_stored_self
  obtain ⟨a, hax, hanc⟩ := hbs.ancestorAt htree.linked hx
  have hlt : i < bs.length := (List.getElem?_eq_some_iff.mp hx).1
  have hto : (UInt64.ofNat (i + 1)).toNat = i + 1 := by
    have := b.header.height.toNat_lt
    rw [UInt64.toNat_ofNat']
    exact Nat.mod_eq_of_lt (by omega)
  -- the block is the ancestor of the new tip at its height, so its hash has to be the entry there
  obtain ⟨hin, hout⟩ := hp.hashByHeight_switchTo (UInt64.ofNat (i + 1))
  refine ⟨a, DB.getBlockByHeight_eq_some_iff.mpr ⟨?_, by rwa [DB.blockByHash_switchTo]⟩⟩
  by_cases hfin : finH.toNat ≤ i + 1
  · -- from the anchor on the switch has written the entry
    obtain ⟨y, hy, hanc'⟩ := hin (by rw [UInt64.le_iff_toNat_le]; omega)
      (by rw [UInt64.le_iff_toNat_le]; omega)
    rw [hto] at hanc'
    rw [hy, Ancestry.ancestorAt_unique htree.linked hanc hanc']
  · -- below it the entry is the one that the condition is about
    have hlow : ¬ (finH ≤ UInt64.ofNat (i + 1) ∧ UInt64.ofNat (i + 1) ≤ b.header.height) := by
      rw [UInt64.le_iff_toNat_le, hto]
      omega
    have hne : UInt64.ofNat (i + 1) ≠ b.header.height := by
      intro heq
      have := hp.finH_le
      rw [← heq, hto] at this
      omega
    rw [hout hlow, hashByHeight_stored, if_neg hne, hre.index i x hi (by omega) hx,
      (htree.key a x hax).1]

/-- After a switch whose rebuild meets its conditions the ledger agrees. -/
theorem BlockTree.ledgerAgrees_switch (h : n.BlockTree dom s) (hs : n.Storable s b)
    (hb : dom.known b.header) {finH : UInt64} {path : List String}
    (hp : (n.stored s b).CandidatePath (n.hashHex b.header) b.header.height finH path)
    {bs : List Block} (hbs : (n.stored s b).RootPath (n.hashHex b.header) bs)
    (hre : n.RebuildsTo s finH bs) (w : UInt64) :
    n.LedgerAgrees ((n.rebuildStateFromFinalized ((n.stored s b).switchTo finH path
      (n.hashHex b.header) b.header.height)).2.putTipWork w) := by
  have htree := h.stored hs hb
  obtain ⟨l, happ⟩ := hre.applies
  have hlen : bs.length = b.header.height.toNat :=
    hbs.length_eq htree.linked blockByHash_stored_self
  have hidx := h.getBlockByHeight_switch hs hb hp hbs hre
  have hledger :=
    ledger_rebuild (n := n) (DB.getTip_switchTo ..) hlen hre.base_le hre.base_fits hidx
  obtain ⟨hblk, -, htip, -⟩ := sameTables_rebuild (n := n) ((n.stored s b).switchTo finH path
    (n.hashHex b.header) b.header.height) w
  refine ⟨b.header.height, n.hashHex b.header, bs, l, htip, ?_, happ, ?_⟩
  · unfold DB.RootPath
    rw [hblk, DB.blockByHash_switchTo]
    exact hbs
  · -- the base ledger stands for the front of the branch
    change (n.rebuildStateFromFinalized _).2.ledger.view = _
    rw [hledger]
    rw [← List.take_append_drop n.rebuildBase.1.toNat bs] at happ
    obtain ⟨l₁, hfront, hback⟩ := Ledger.applyBlocks_append_eq_ok.mp happ
    have hbase := hre.base
    rw [hfront] at hbase
    have hcongr := Ledger.applyBlocks_congr (bs.drop n.rebuildBase.1.toNat) hbase
    rw [hback] at hcongr
    exact congrArg Prod.snd hcongr

/-- A call that meets `LedgerKept` keeps the agreement. -/
theorem BlockTree.ledgerAgrees_submit (htree : n.BlockTree dom s) {c : Int64 × Block}
    (hb : dom.known c.2.header) (h : n.LedgerAgrees s) (hc : n.LedgerKept s c) :
    n.LedgerAgrees (n.submit s c) := by
  obtain ⟨now, b⟩ := c
  have hout := n.submitBlock_outcome now s b
  unfold Node.submit
  generalize n.submitBlock now s b = res at hout
  cases hout with
  | rejected e hpre => exact h
  | ignored hpre => exact h
  | invalidTip e hpre hext hval => exact h.stored (hc hpre).1
  | extended hpre hext hval =>
      obtain ⟨hsame, hnone, -⟩ := hc hpre
      have hmove := h.moveTip (storable_of_preStore n hpre) hsame hext (hnone hext) (cumWork s b)
      have hall := n.sameChain_advanceTip now (n.stored s b) b (cumWork s b)
      unfold LedgerAgrees DB.RootPath at hmove ⊢
      rw [hall.getTip, hall.blockByHash, hall.ledger]
      exact hmove
  | forkStored r hpre hext hkeep => exact h.stored (hc hpre).1
  | switched finH path hpre hext hwork hpath =>
      have hs := storable_of_preStore n hpre
      have hst := htree.stored hs hb
      obtain ⟨-, -, hre⟩ := hc hpre
      obtain ⟨bs, hbs⟩ := Ancestry.exists_rootPath hst.linked blockByHash_stored_self
      exact htree.ledgerAgrees_switch hs hb (htree.candidatePath hs hb hpath) hbs
        (hre finH path bs hext hwork hpath hbs) _

/-- A new database agrees with the genesis allocations if these give nobody anything. -/
theorem ledgerAgrees_genesisDB (registry : Table RegValidator)
    (hgen : (Ledger.ofAllocations n.genesis.allocations).view = Ledger.empty.view) :
    n.LedgerAgrees (n.genesisDB registry) :=
  ⟨0, n.genesisHash, [], _, rfl,
    .root (by rw [blockByHash_genesisDB, Function.update_self]) rfl, rfl, hgen.symm⟩

/-- If the genesis allocations give nobody anything and every call of a run of successful
`SubmitBlock` calls keeps the ledger, the stored ledger is that of the main chain in every state. -/
theorem ledgerAgrees_of_kept (n : Node) (registry : Table RegValidator)
    (calls : List (Int64 × Block)) (hcf : n.CollisionFree (calls.map Prod.snd))
    (hgen : (Ledger.ofAllocations n.genesis.allocations).view = Ledger.empty.view)
    (hrun : Run.Admitted n.submit (fun s c => (n.submitBlock c.1 s c.2).1 = .ok () ∧
      n.LedgerKept s c) (n.genesisDB registry) calls) :
    ∀ t ∈ Run.states n.submit (n.genesisDB registry) calls, n.LedgerAgrees t := by
  intro t ht
  have hboth : n.BlockTree hcf.domain t ∧ n.LedgerAgrees t := by
    refine Run.invariant (I := fun s => n.BlockTree hcf.domain s ∧ n.LedgerAgrees s)
      (E := fun c => hcf.domain.known c.2.header) ?_ ?_ ?_ hrun t ht
    · rintro s c ⟨htree, hledger⟩ hc ⟨-, hkept⟩
      exact ⟨htree.submit hc, htree.ledgerAgrees_submit hc hledger hkept⟩
    · intro c hc
      exact hcf.known (List.mem_map_of_mem hc)
    · exact ⟨blockTree_genesisDB _ registry, ledgerAgrees_genesisDB registry hgen⟩
  exact hboth.2

end Node

namespace Sample

/-- An empty block of height one with little work. -/
def idle₁ : Block := child node.genesisBlock 3 0x207fffff []

/-- A heavier block of height one with a transaction of alice. -/
def busy₁ : Block := child node.genesisBlock 1 0x20010000 [transfer alice 1 []]

/-- The database after the empty block. -/
def idleDB : DB := node.submit (node.genesisDB ∅) (0, idle₁)

/-- The empty block extends genesis. The heavier block is accepted, by a switch from genesis on. -/
theorem idleDB_read :
    node.CollisionFree [idle₁, busy₁] ∧
    ((node.genesisDB ∅).blockByHash (node.hashHex idle₁.header) = none ∧
      (node.submitBlock 0 (node.genesisDB ∅) idle₁).1 = .ok () ∧
      Node.extendsTip (node.genesisDB ∅) idle₁ = true) ∧
    idleDB.blockByHash (node.hashHex busy₁.header) = none ∧
    (node.submitBlock 0 idleDB busy₁).1 = .ok () ∧
    Node.extendsTip idleDB busy₁ = false ∧
    (node.stored idleDB busy₁).blockByHash (node.hashHex busy₁.header) = some busy₁ ∧
    (node.stored idleDB busy₁).blockByHash busy₁.prevHex = some node.genesisBlock ∧
    ((node.stored idleDB busy₁).candidatePath (node.hashHex busy₁.header)
      busy₁.header.height).map Prod.fst = .ok 0 ∧
    ((Ledger.ofAllocations node.genesis.allocations).applyBlocks [busy₁]).1 = .ok () := by
  decide +kernel

/-- The database after a block that pays bob. -/
def paidDB : DB := (issuing false).submit ((issuing false).genesisDB ∅) (0, spend₁)

/-- The block is the tip, and applying it to the genesis allocations gives bob the reward. -/
theorem paidDB_read :
    ((issuing false).submitBlock 0 ((issuing false).genesisDB ∅) spend₁).1 = .ok () ∧
    paidDB.getTip = some (1, node.hashHex spend₁.header) ∧
    paidDB.blockByHash (node.hashHex spend₁.header) = some spend₁ ∧
    paidDB.blockByHash spend₁.prevHex = some node.genesisBlock ∧
    paidDB.ledger.getBalance bob = 0 ∧
    ((Ledger.ofAllocations (issuing false).genesis.allocations).applyBlocks [spend₁]).2.getBalance
      bob = 5000 := by
  decide +kernel

end Sample

namespace Node

open Sample

/-- A switch from an empty block to a heavier one with a transaction rebuilds the ledger of the new
branch. -/
theorem ledgerAgrees_busy :
    node.CollisionFree [idle₁, busy₁] ∧
    ∀ t ∈ Run.states node.submit (node.genesisDB ∅)
      [(0, idle₁), (0, busy₁)], node.LedgerAgrees t := by
  have hrun : node.submit (node.genesisDB ∅) (0, idle₁) = idleDB := rfl
  obtain ⟨hcf, hgenesis, hnew, hnil, hext, hself, hparent, hanchor, happ⟩ := idleDB_read
  refine ⟨hcf, ledgerAgrees_of_kept node ∅
    [(0, idle₁), (0, busy₁)] hcf rfl
    ⟨⟨hgenesis.2.1, fun _ => ⟨fun b' hb' => ?_, fun _ => rfl, fun finH path bs hno => ?_⟩⟩,
      ⟨?_, fun _ => ⟨fun b' hb' => ?_, fun hyes => ?_, fun finH path bs _ _ hpath hbs => ?_⟩⟩,
      trivial⟩⟩
  · rw [hgenesis.1] at hb'
    cases hb'
  · rw [hgenesis.2.2] at hno
    cases hno
  · rw [hrun]
    exact hnil
  · dsimp only at hb'
    rw [hrun, hnew] at hb'
    cases hb'
  · dsimp only at hyes
    rw [hrun, hext] at hyes
    cases hyes
  · dsimp only at hpath hbs
    rw [hrun] at hpath hbs ⊢
    have hone : (node.stored idleDB busy₁).RootPath
        (node.hashHex busy₁.header) ([] ++ [busy₁]) :=
      .snoc hself (by decide) (.root hparent rfl)
    have heq := Ancestry.rootPath_unique hbs hone
    subst heq
    have hfin : finH = 0 := by
      rw [hpath] at hanchor
      exact Except.ok.inj hanchor
    refine ⟨⟨_, Prod.ext happ rfl⟩, Nat.zero_le _, by decide, rfl, fun i b' _ hlow => ?_⟩
    rw [hfin] at hlow
    exact absurd hlow (Nat.not_lt_zero _)

/-- One block that pays bob is accepted and becomes the tip, and the stored balance of bob stays
zero. -/
theorem not_ledgerAgrees_spend :
    Run.Admitted (issuing false).submit
      (fun s c => ((issuing false).submitBlock c.1 s c.2).1 = .ok ())
      ((issuing false).genesisDB ∅) [(0, spend₁)] ∧
    ∃ t ∈ Run.states (issuing false).submit ((issuing false).genesisDB ∅)
      [(0, spend₁)], ¬ (issuing false).LedgerAgrees t := by
  obtain ⟨hnil, htip, hone, hzero, hstored, happlied⟩ := paidDB_read
  refine ⟨⟨hnil, trivial⟩, paidDB, Run.foldl_mem_states (issuing false).submit
    ((issuing false).genesisDB ∅) [(0, spend₁)], ?_⟩
  rintro ⟨tipH, tipHash, path, l, htip', hpath, happ, hview⟩
  rw [htip] at htip'
  obtain ⟨-, rfl⟩ : 1 = tipH ∧ node.hashHex spend₁.header = tipHash :=
    Prod.mk.inj (Option.some.inj htip')
  have hpath' : paidDB.RootPath (node.hashHex spend₁.header)
      ([] ++ [spend₁]) := .snoc hone (by decide) (.root hzero rfl)
  have heq := Ancestry.rootPath_unique hpath hpath'
  subst heq
  have hbob := Ledger.getBalance_congr hview bob
  rw [List.nil_append] at happ
  rw [happ] at happlied
  rw [hstored, happlied] at hbob
  exact absurd hbob (by decide)

end Node

end ReserveOS
