import ReserveOS.Correctness.Admission
import ReserveOS.Correctness.ArrivalOrder
import ReserveOS.Correctness.Drain
import ReserveOS.Correctness.FinalizedAnchor

/-!
# What becomes of the transactions that `MineOne` takes

`MineOne` takes transactions out of the mempool before it knows whether they get into a block, and
puts none back. A transaction is lost when `FilterTxsBySimState` drops it, and all of them are lost
when the header cannot be built or the block is refused. `noTxLost_iff` says when none is.
-/

namespace ReserveOS

/-! ### The mined block -/

namespace Node

variable {n : Node} {dom : n.HashDomain} {s : DB} {txs : List Tx}

/-- `MineHeader` changes the nonce alone, and stops at a header that meets the target. -/
theorem mineHeader_spec {fuel : ℕ} {h h' : BlockHeader} (hmine : n.mineHeader fuel h = some h') :
    meetsTarget (h'.hash n.prim.sha256) h'.bits = true ∧
      ∃ nonce, h' = { h with nonce := nonce } := by
  induction fuel generalizing h with
  | zero => cases hmine
  | succ fuel ih =>
      rw [mineHeader] at hmine
      split at hmine
      next hmeets =>
        cases hmine
        exact ⟨hmeets, h'.nonce, rfl⟩
      next =>
        obtain ⟨hmeets, nonce, heq⟩ := ih hmine
        exact ⟨hmeets, nonce, heq⟩

variable (n) in
/-- The difficulty that `BuildNextBlockHeader` asks for above the tip. -/
def nextBits (s : DB) (tipH : UInt64) : Option UInt32 :=
  n.prim.nextWorkRequired (indexHeader s) (fun h => (indexHeader s h).map BlockHeader.bits)
    (tipH + 1)

variable (n) in
/-- What `MineOne` makes sure of for the block that it submits on the tip `x`. -/
structure MinedOn (s : DB) (x b : Block) : Prop where
  chain : b.header.chainID = n.genesis.chainID
  height : b.header.height = x.header.height + 1
  parent : b.prevHex = n.hashHex x.header
  bits : n.nextBits s x.header.height = some b.header.bits
  target : meetsTarget (b.header.hash n.prim.sha256) b.header.bits = true

section Mined

variable {F : Type} [LinearOrder F] {env : MineEnv F n.prim.sha256} {pool : Mempool F} {x : Block}
  (htip : s.getTip = some (x.header.height, n.hashHex x.header))
  (hx : s.blockByHash (n.hashHex x.header) = some x)

include htip hx

/-- What `MineOne` builds stands on the tip. -/
theorem minedOn_of_minedBlock {b : Block} (h : n.minedBlock env s pool = some (.ok b)) :
    n.MinedOn s x b := by
  unfold minedBlock buildNextBlockHeader at h
  rw [htip] at h
  dsimp only at h
  rw [hx] at h
  dsimp only at h
  cases hbits : n.nextBits s x.header.height with
  | none =>
      rw [nextBits] at hbits
      rw [hbits] at h
      cases h
  | some bits =>
      have hbits' := hbits
      rw [nextBits] at hbits'
      rw [hbits'] at h
      obtain ⟨hdr, hmine, heq⟩ := Option.map_eq_some_iff.mp h
      cases heq
      obtain ⟨hmeets, nonce, rfl⟩ := mineHeader_spec hmine
      exact ⟨rfl, rfl, rfl, hbits, hmeets⟩

/-- `MineOne` gives up before it has a block exactly when the difficulty is not determined. -/
theorem nextBits_of_minedBlock_error {e : Fault} (h : n.minedBlock env s pool = some (.error e)) :
    n.nextBits s x.header.height = none := by
  unfold minedBlock buildNextBlockHeader at h
  rw [htip] at h
  dsimp only at h
  rw [hx] at h
  dsimp only at h
  cases hbits : n.nextBits s x.header.height with
  | none => rfl
  | some bits =>
      rw [nextBits] at hbits
      rw [hbits] at h
      obtain ⟨hdr, -, heq⟩ := Option.map_eq_some_iff.mp h
      cases heq

end Mined

section MinedOn

variable {x b : Block} (hb : n.MinedOn s x b)

include hb

theorem MinedOn.extendsTip (htip : s.getTip = some (x.header.height, n.hashHex x.header)) :
    extendsTip s b = true :=
  extendsTip_iff.mpr ⟨_, _, htip, hb.parent, hb.height⟩

/-- A block on the tip passes the checks on its parent. -/
theorem MinedOn.checkParent (hx : s.blockByHash (n.hashHex x.header) = some x) :
    n.checkParent s b = .ok () := by
  have hbits := hb.bits
  rw [nextBits, ← hb.height] at hbits
  unfold Node.checkParent
  rw [hb.parent, hx]
  dsimp only
  rw [if_neg (not_not.mpr hb.height.symm), checkBits, hbits]
  exact if_neg (not_not.mpr rfl)

/-- What is left to the checks of `SubmitBlock`. -/
theorem MinedOn.preStore_iff (hx : s.blockByHash (n.hashHex x.header) = some x) :
    n.preStore s b = .ok true ↔ x.header.height + 1 ≠ 0 ∧ n.BodyChecked b ∧
      n.validateBlockStateOnMainParent s b = .ok () := by
  have hparent := hb.checkParent hx
  rw [preStore_eq_true_iff, Eligible, hb.height]
  constructor
  · rintro ⟨⟨-, hbody, -, hheight⟩, hmain, -⟩
    exact ⟨hheight, hbody, hmain⟩
  · rintro ⟨hheight, hbody, hmain⟩
    exact ⟨⟨hb.chain, hbody, hb.target, hheight⟩, hmain, hparent⟩

end MinedOn

/-- `b` is the tip of the database and was not before. -/
structure NewTip (n : Node) (s s' : DB) (b : Block) : Prop where
  tip : s'.getTip = some (b.header.height, n.hashHex b.header)
  body : s'.blockByHash (n.hashHex b.header) = some b
  moved : s.getTip ≠ s'.getTip

/-- A block on the tip becomes the tip, or the tip stays. -/
theorem newTip_submitBlock_iff {b b' : Block} (hext : extendsTip s b = true) (now : Int64) :
    n.NewTip s (n.submitBlock now s b).2 b' ↔
      b' = b ∧ n.preStore s b = .ok true ∧ n.validateBlockStateTip s.ledger b = .ok () := by
  have hout := n.submitBlock_outcome now s b
  generalize n.submitBlock now s b = res at hout
  cases hout with
  | rejected e hpre =>
      rw [hpre]
      exact iff_of_false (fun h => h.moved rfl) (by simp)
  | ignored hpre =>
      rw [hpre]
      exact iff_of_false (fun h => h.moved rfl) (by simp)
  | invalidTip e hpre hext' hval =>
      rw [hval]
      exact iff_of_false (fun h => h.moved rfl) (by simp)
  | extended hpre hext' hval =>
      have hsame := n.sameChain_advanceTip now (n.stored s b) b (cumWork s b)
      have htip : (n.advanceTip now (n.stored s b) b (cumWork s b)).getTip =
          some (b.header.height, n.hashHex b.header) := hsame.getTip
      have hbody : (n.advanceTip now (n.stored s b) b (cumWork s b)).blockByHash
          (n.hashHex b.header) = some b := by
        rw [hsame.blockByHash]
        exact blockByHash_stored_self
      constructor
      · -- the tip names one block, and its body is the submitted one
        intro h
        refine ⟨?_, hpre, hval⟩
        have heq := htip.symm.trans h.tip
        have hhash : n.hashHex b.header = n.hashHex b'.header :=
          congrArg Prod.snd (Option.some.inj heq)
        have hbody' := h.body
        rw [← hhash, hbody] at hbody'
        exact (Option.some.inj hbody').symm
      · rintro ⟨rfl, -, -⟩
        refine ⟨htip, hbody, ?_⟩
        -- the tip has moved, for its height is one more
        obtain ⟨tipH, tipHash, hold, -, hheight⟩ := extendsTip_iff.mp hext
        rw [hold, htip, hheight]
        simp
  -- the other two outcomes are those of a block that is not on the tip
  | forkStored r hpre hext' hkeep hres =>
      rw [hext] at hext'
      cases hext'
  | switched finH path hpre hext' hwork hpath =>
      rw [hext] at hext'
      cases hext'

/-- A check by replay is made of a block on the tip when it is configured and the index names the
tip at its height. -/
theorem MinedOn.validateMainParent_iff {x b : Block} (hb : n.MinedOn s x b)
    (htree : n.BlockTree dom s) (hpos : x.header.height + 1 ≠ 0)
    (htip : s.getTip = some (x.header.height, n.hashHex x.header))
    (hx : s.blockByHash (n.hashHex x.header) = some x) :
    n.validateBlockStateOnMainParent s b = .ok () ↔ (n.cfg.validation.validateForkState = true →
        s.hashByHeight x.header.height = some (n.hashHex x.header) →
          ∃ m, n.mainParentSim s x.header.height = .ok m ∧
            ∃ m', n.applyBlockToSim m b = .ok m') := by
  have hsub : b.header.height - 1 = x.header.height := by
    rw [hb.height]
    simp
  have hgate : n.forkStateChecked s b = true ↔ n.cfg.validation.validateForkState = true ∧
      s.hashByHeight x.header.height = some (n.hashHex x.header) := by
    unfold forkStateChecked
    rw [hsub, hb.parent, htip, hb.height]
    -- the tip is not below itself, so the replay bound does not matter
    cases hblk : s.getBlockByHeight x.header.height with
    | none =>
        have hidx : s.hashByHeight x.header.height ≠ some (n.hashHex x.header) := by
          intro hidx
          rw [DB.getBlockByHeight_eq_some_iff.mpr ⟨hidx, hx⟩] at hblk
          cases hblk
        simp [hidx]
    | some p =>
        obtain ⟨hidx, hp⟩ := DB.getBlockByHeight_eq_some_iff.mp hblk
        rw [hidx, (htree.key _ _ hp).1]
        simp [hpos]
  unfold validateBlockStateOnMainParent
  rw [hsub]
  by_cases hon : n.forkStateChecked s b = true
  · rw [if_pos hon]
    obtain ⟨hcfg, hidx⟩ := hgate.mp hon
    simp [hcfg, hidx, Res.bind_eq_ok]
  · rw [if_neg hon]
    exact iff_of_true rfl fun hcfg hidx => absurd (hgate.mpr ⟨hcfg, hidx⟩) hon

/-! ### What `MineOne` loses -/

variable {F : Type} [LinearOrder F]

variable (n) in
/-- The node's rules accept these transactions, behind the coinbase of `MineOne`, as the next block:
the difficulty is determined, the ledger takes the transactions in their order, the block passes the
checks of its contents and of the ledger, and also those of a replay if it is made. -/
structure Minable (s : DB) (txs : List Tx) : Prop where
  height : ∀ tipH tipHash, s.getTip = some (tipH, tipHash) → tipH + 1 ≠ 0
  bits : ∀ tipH tipHash, s.getTip = some (tipH, tipHash) → n.nextBits s tipH ≠ none
  apply : ∃ m, s.ledger.view.applyTxsToSim txs = .ok m
  accepts : ∀ hdr, n.Accepts s.ledger ⟨hdr, n.blockTxs txs⟩
  replay : ∀ tipH tipHash, s.getTip = some (tipH, tipHash) →
    n.cfg.validation.validateForkState = true → s.hashByHeight tipH = some tipHash →
      ∃ m, n.mainParentSim s tipH = .ok m ∧
        ∀ hdr, ∃ m', n.applyBlockToSim m ⟨hdr, n.blockTxs txs⟩ = .ok m'

variable (n) in
/-- Each transaction that `Drain` takes out of the mempool is in the new tip or in the mempool
afterwards. -/
def NoTxLost (env : MineEnv F n.prim.sha256) (s : DB) (pool : Mempool F) (s' : DB)
    (pool' : Mempool F) : Prop :=
  ∀ tx ∈ (n.drained env s.ledger pool).1,
    (∃ b, n.NewTip s s' b ∧ tx ∈ b.txs) ∨ ∃ acct k mt, pool'.entry acct k = some mt ∧ mt.tx = tx

/-- Nothing about a block but its transactions matters to the checks of its contents. -/
theorem accepts_header {l : Ledger} (hdr hdr' : BlockHeader) (h : n.Accepts l ⟨hdr, txs⟩) :
    n.Accepts l ⟨hdr', txs⟩ :=
  ⟨h.limits, h.basic, h.tip⟩

/-- The block of `MineOne` becomes the tip exactly when its transactions are minable. -/
theorem newTip_mined_iff {x b b' : Block} (htree : n.BlockTree dom s)
    (htip : s.getTip = some (x.header.height, n.hashHex x.header))
    (hx : s.blockByHash (n.hashHex x.header) = some x) (hb : n.MinedOn s x b)
    (htxs : b.txs = n.blockTxs txs) (hsel : ∃ m, s.ledger.view.applyTxsToSim txs = .ok m)
    (now : Int64) :
    n.NewTip s (n.submitBlock now s b).2 b' ↔ b' = b ∧ n.Minable s txs := by
  rw [newTip_submitBlock_iff (hb.extendsTip htip), hb.preStore_iff hx]
  apply and_congr_right
  intro _
  -- the checks that are left read the transactions of the block, not its header
  obtain ⟨hdr, btxs⟩ := b
  subst htxs
  constructor
  · rintro ⟨⟨hpos, ⟨hlimits, hbasic⟩, hmain⟩, hstate⟩
    have hacc : n.Accepts s.ledger ⟨hdr, n.blockTxs txs⟩ := ⟨hlimits, hbasic, hstate⟩
    refine ⟨?_, ?_, hsel, fun hdr' => accepts_header _ _ hacc, ?_⟩
    · intro tipH tipHash h
      rw [htip] at h
      cases h
      exact hpos
    · intro tipH tipHash h
      rw [htip] at h
      cases h
      rw [hb.bits]
      simp
    · intro tipH tipHash h hcfg hidx
      rw [htip] at h
      cases h
      obtain ⟨m, hm, m', hm'⟩ := (hb.validateMainParent_iff htree hpos htip hx).mp hmain hcfg hidx
      exact ⟨m, hm, fun _ => ⟨m', hm'⟩⟩
  · intro h
    have hpos := h.height _ _ htip
    have hacc := h.accepts hdr
    refine ⟨⟨hpos, ⟨hacc.limits, hacc.basic⟩, ?_⟩, hacc.tip⟩
    apply (hb.validateMainParent_iff htree hpos htip hx).mpr
    intro hcfg hidx
    obtain ⟨m, hm, hall⟩ := h.replay _ _ htip hcfg hidx
    exact ⟨m, hm, hall hdr⟩

variable {env : MineEnv F n.prim.sha256} {pool pool' : Mempool F} {s' : DB}
  {r : Res (String × UInt64)}

/-- What `MineOne` takes is not in the mempool that it leaves behind. -/
theorem not_mem_rest (hpool : pool.Valid n.prim.sha256) {tx : Tx}
    (htx : tx ∈ (n.drained env s.ledger pool).1) :
    ¬ ∃ acct k mt, (n.drained env s.ledger pool).2.entry acct k = some mt ∧ mt.tx = tx := by
  rintro ⟨acct, k, mt, hmt, heq⟩
  exact (Mempool.apart_drain hpool).2 tx htx acct k mt hmt heq

/-- The coinbase of `MineOne` was not taken from the mempool. -/
theorem ne_coinbaseTx (hpool : pool.Valid n.prim.sha256) {tx : Tx}
    (htx : tx ∈ (n.drained env s.ledger pool).1) : tx ≠ n.coinbaseTx := by
  obtain ⟨acct, k, mt, hmt, rfl⟩ := Mempool.mem_of_drain htx
  have hstored := hpool.stored acct k mt hmt
  intro heq
  apply hstored.acct_ne
  rw [← hstored.from_eq, heq]
  rfl

/-- All of a non-empty list of transactions that `Drain` took are in the block exactly when the
filter drops none. -/
theorem drained_subset_iff (hpool : pool.Valid n.prim.sha256) :
    (∀ tx ∈ (n.drained env s.ledger pool).1, tx ∈ n.blockTxs (n.selectedTxs env s.ledger pool)) ↔
      n.selectedTxs env s.ledger pool = env.sort.sort (n.drained env s.ledger pool).1 := by
  have hperm := env.sort.perm (n.drained env s.ledger pool).1
  constructor
  · intro h
    refine Sim.filterTxs_eq_self_of_subset (hperm.nodup_iff.mpr (Mempool.apart_drain hpool).1) ?_
    intro tx htx
    have htx := hperm.mem_iff.mp htx
    have hmem := h tx htx
    unfold blockTxs at hmem
    split at hmem
    · exact (List.mem_cons.mp hmem).resolve_left (ne_coinbaseTx hpool htx)
    · exact hmem
  · intro h tx htx
    rw [h]
    unfold blockTxs
    have htx := hperm.mem_iff.mpr htx
    split
    · exact List.mem_cons_of_mem _ htx
    · exact htx

variable (n) in
/-- `MineOne` takes no transaction, because mining is disabled or no sender has its next one in the
mempool, or it takes transactions that are minable in the order of their fees. -/
def KeepsTxs (env : MineEnv F n.prim.sha256) (s : DB) (pool : Mempool F) : Prop :=
  n.isReadOnly = true ∨
    (∀ acct, (pool.pruneLocked env.drainNow).entry acct (s.ledger.getNonce acct + 1) = none) ∨
      n.Minable s (env.sort.sort (n.drained env s.ledger pool).1)

/-- What `MineOne` submits carries all that `Drain` took exactly when that is minable. -/
theorem minable_selectedTxs_iff (hpool : pool.Valid n.prim.sha256) :
    (n.Minable s (n.selectedTxs env s.ledger pool) ∧ ∀ tx ∈ (n.drained env s.ledger pool).1,
          tx ∈ n.blockTxs (n.selectedTxs env s.ledger pool)) ↔
      n.Minable s (env.sort.sort (n.drained env s.ledger pool).1) := by
  rw [drained_subset_iff hpool]
  constructor
  · rintro ⟨hmin, heq⟩
    exact heq ▸ hmin
  · intro hmin
    have heq : n.selectedTxs env s.ledger pool = env.sort.sort (n.drained env s.ledger pool).1 :=
      Sim.filterTxs_eq_self_iff.mpr hmin.apply
    exact ⟨heq.symm ▸ hmin, heq⟩

/-- A mined block that is submitted loses nothing exactly if all that was drained can be mined. -/
theorem noTxLost_submit_iff (htree : n.BlockTree dom s) (hpool : pool.Valid n.prim.sha256)
    {b : Block} (hb : n.minedBlock env s pool = some (.ok b))
    (hne : ∃ tx, tx ∈ (n.drained env s.ledger pool).1) (now : Int64) :
    n.NoTxLost env s pool (n.submitBlock now s b).2 (n.drained env s.ledger pool).2 ↔
      n.Minable s (env.sort.sort (n.drained env s.ledger pool).1) := by
  obtain ⟨x, htip, hx⟩ := htree.tip
  have hon := minedOn_of_minedBlock htip hx hb
  have htxs := txs_of_minedBlock hb
  have hnew : ∀ b', n.NewTip s (n.submitBlock now s b).2 b' ↔
      b' = b ∧ n.Minable s (n.selectedTxs env s.ledger pool) := fun b' =>
    newTip_mined_iff htree htip hx hon htxs (Sim.applyTxsToSim_filterTxs _ _) now
  rw [← minable_selectedTxs_iff hpool, ← htxs]
  constructor
  · intro hkeep
    -- nothing of what was taken is in the mempool, so all of it is in the new tip
    have hall : ∀ tx ∈ (n.drained env s.ledger pool).1,
        n.Minable s (n.selectedTxs env s.ledger pool) ∧ tx ∈ b.txs := by
      intro tx htx
      obtain ⟨b', hb', hmem⟩ := (hkeep tx htx).resolve_right (not_mem_rest hpool htx)
      obtain ⟨rfl, hmin⟩ := (hnew b').mp hb'
      exact ⟨hmin, hmem⟩
    obtain ⟨tx, htx⟩ := hne
    exact ⟨(hall tx htx).1, fun tx htx => (hall tx htx).2⟩
  · rintro ⟨hmin, hall⟩ tx htx
    exact Or.inl ⟨b, (hnew b).mpr ⟨rfl, hmin⟩, hall tx htx⟩

variable (n) in
/-- The exits of `MineOne`, by the database and the mempool that they leave. -/
inductive MineOutcome (env : MineEnv F n.prim.sha256) (s : DB) (pool : Mempool F) :
    DB → Mempool F → Prop
  | disabled (hro : n.isReadOnly = true) : MineOutcome env s pool s pool
  | noHeader (e : Fault) (hro : ¬ n.isReadOnly = true)
      (hb : n.minedBlock env s pool = some (.error e)) :
      MineOutcome env s pool s (n.drained env s.ledger pool).2
  | submitted (b : Block) (hro : ¬ n.isReadOnly = true)
      (hb : n.minedBlock env s pool = some (.ok b)) :
      MineOutcome env s pool (n.submitBlock env.submitNow s b).2 (n.drained env s.ledger pool).2

/-- `MineOne` in one equation: the role is part of what `isReadOnly` asks. -/
theorem mineOne_eq (env : MineEnv F n.prim.sha256) (s : DB) (pool : Mempool F) :
    n.mineOne env s pool =
      if n.isReadOnly = true then some (.error (.error "mining_disabled"), s, pool)
      else
        (n.minedBlock env s pool).map fun
          | .error e => (.error e, s, (n.drained env s.ledger pool).2)
          | .ok b =>
              ((n.submitBlock env.submitNow s b).1.map fun _ =>
                  (n.hashHex b.header, b.header.nonce),
                (n.submitBlock env.submitNow s b).2, (n.drained env s.ledger pool).2) := by
  have hrole : (n.isReadOnly = true ∨ n.cfg.role = "observer") ↔ n.isReadOnly = true :=
    or_iff_left_of_imp fun hrole => by simp [isReadOnly, hrole]
  unfold mineOne
  simp only [hrole]
  -- once the mempool is drained, no exit puts anything back
  split
  · rfl
  cases n.minedBlock env s pool with
  | none => rfl
  | some res =>
      cases res with
      | error e => rfl
      | ok b =>
          dsimp only [Option.map_some]
          generalize n.submitBlock env.submitNow s b = out
          obtain ⟨res, s₁⟩ := out
          cases res <;> rfl

/-- Every call of `MineOne` that returns takes one of its exits. -/
theorem mineOne_outcome (hout : n.mineOne env s pool = some (r, s', pool')) :
    n.MineOutcome env s pool s' pool' := by
  rw [mineOne_eq] at hout
  split at hout
  next hro =>
    cases hout
    exact .disabled hro
  next hro =>
    obtain ⟨res, hb, heq⟩ := Option.map_eq_some_iff.mp hout
    cases res with
    | error e =>
        cases heq
        exact .noHeader e hro hb
    | ok b =>
        cases heq
        exact .submitted b hro hb

/-- One call of `MineOne`. -/
theorem noTxLost_mineOne_iff (htree : n.BlockTree dom s) (hpool : pool.Valid n.prim.sha256)
    (hout : n.mineOne env s pool = some (r, s', pool')) :
    n.NoTxLost env s pool s' pool' ↔ n.KeepsTxs env s pool := by
  by_cases hnil : (n.drained env s.ledger pool).1 = []
  · have hnone := (Mempool.drain_eq_nil_iff hpool).mp hnil
    refine iff_of_true (fun tx htx => ?_) (Or.inr (Or.inl hnone))
    rw [hnil] at htx
    cases htx
  obtain ⟨tx₀, htx₀⟩ := List.exists_mem_of_ne_nil _ hnil
  -- where mining is enabled, only the third alternative is left
  have hkeeps : ¬ n.isReadOnly = true → (n.KeepsTxs env s pool ↔
      n.Minable s (env.sort.sort (n.drained env s.ledger pool).1)) := by
    intro hro
    unfold KeepsTxs
    rw [or_iff_right hro, or_iff_right (mt (Mempool.drain_eq_nil_iff hpool).mpr hnil)]
  cases mineOne_outcome hout with
  | disabled hro =>
      exact iff_of_true (fun tx htx => Or.inr (Mempool.mem_of_drain htx)) (Or.inl hro)
  | noHeader e hro hb =>
      rw [hkeeps hro]
      obtain ⟨x, htip, hx⟩ := htree.tip
      refine iff_of_false (fun hkeep => ?_) fun hmin =>
        hmin.bits _ _ htip (nextBits_of_minedBlock_error htip hx hb)
      rcases hkeep tx₀ htx₀ with ⟨b, hb, -⟩ | hrest
      · exact hb.moved rfl
      · exact not_mem_rest hpool htx₀ hrest
  | submitted b hro hb =>
      rw [hkeeps hro]
      exact noTxLost_submit_iff htree hpool hb ⟨tx₀, htx₀⟩ env.submitNow

/-! ### Whole runs -/

/-- What can happen at a node with a mempool. The ledger is also written outside of the block
routines, by rebuilds. -/
inductive MinerEvent (F : Type) [LinearOrder F] (sha256 : List UInt8 → Hash) where
  | node (e : Event)
  | pool (op : PoolOp F)
  | ledger (l : Ledger)
  | mine (env : MineEnv F sha256)

variable (n) in
/-- The database and the mempool after an event. A call of `MineOne` that finds no header still has
emptied the mempool. -/
def minerStep (fl : FeeFloats F) (st : DB × Mempool F) :
    MinerEvent F n.prim.sha256 → DB × Mempool F
  | .node e => (n.step st.1 e, st.2)
  | .pool op => (st.1, st.2.step n.prim.sha256 fl op)
  | .ledger l => ({ st.1 with ledger := l }, st.2)
  | .mine env =>
      match n.mineOne env st.1 st.2 with
      | some (_, s', pool') => (s', pool')
      | none => (st.1, (n.drained env st.1.ledger st.2).2)

variable (n) in
/-- The headers of the blocks that an event submits are in the domain. -/
def SubmitsKnown (dom : n.HashDomain) (st : DB × Mempool F) : MinerEvent F n.prim.sha256 → Prop
  | .node e => ∀ b, e.block? = some b → dom.known b.header
  | .mine env => ∀ b, n.minedBlock env st.1 st.2 = some (.ok b) → dom.known b.header
  | _ => True

/-- The mempool that `MineOne` leaves behind is valid, and the blocks form a tree. -/
theorem sound_mineOne (htree : n.BlockTree dom s) (hpool : pool.Valid n.prim.sha256)
    (hknown : ∀ b, n.minedBlock env s pool = some (.ok b) → dom.known b.header)
    (hout : n.mineOne env s pool = some (r, s', pool')) :
    n.BlockTree dom s' ∧ pool'.Valid n.prim.sha256 := by
  have hrest : (n.drained env s.ledger pool).2.Valid n.prim.sha256 := hpool.drain ..
  cases mineOne_outcome hout with
  | disabled hro => exact ⟨htree, hpool⟩
  | noHeader e hro hb => exact ⟨htree, hrest⟩
  | submitted b hro hb => exact ⟨blockTree_submitBlock htree (hknown b hb) env.submitNow, hrest⟩

/-- Every event of a miner keeps the block tree and the books of the pool. -/
theorem sound_minerStep {fl : FeeFloats F} {st : DB × Mempool F} {e : MinerEvent F n.prim.sha256}
    (h : n.BlockTree dom st.1 ∧ st.2.Valid n.prim.sha256) (hknown : n.SubmitsKnown dom st e) :
    n.BlockTree dom (n.minerStep fl st e).1 ∧ (n.minerStep fl st e).2.Valid n.prim.sha256 := by
  cases e with
  | node e => exact ⟨blockTree_step h.1 hknown, h.2⟩
  | pool op => exact ⟨h.1, h.2.step op⟩
  | ledger l => exact ⟨h.1.congr rfl rfl rfl, h.2⟩
  | mine env =>
      unfold minerStep
      dsimp only
      cases hout : n.mineOne env st.1 st.2 with
      | none => exact ⟨h.1, h.2.drain ..⟩
      | some p => exact sound_mineOne h.1 h.2 hknown hout

/-- In every state that a node reaches, `MineOne` loses no transaction exactly when it takes none or
takes transactions that are minable. -/
theorem noTxLost_iff (n : Node) (dom : n.HashDomain) (registry : Table RegValidator)
    (cfg : MempoolConfig) (fl : FeeFloats F) (es : List (MinerEvent F n.prim.sha256))
    (hknown : Run.Admitted (n.minerStep fl) (n.SubmitsKnown dom)
      (n.genesisDB registry, Mempool.new cfg) es)
    (s : DB) (pool : Mempool F)
    (hreach : (s, pool) ∈ Run.states (n.minerStep fl) (n.genesisDB registry, Mempool.new cfg) es)
    (env : MineEnv F n.prim.sha256) (r : Res (String × UInt64)) (s' : DB) (pool' : Mempool F)
    (hout : n.mineOne env s pool = some (r, s', pool')) :
    n.NoTxLost env s pool s' pool' ↔ n.KeepsTxs env s pool := by
  have hinv := Run.invariant
    (I := fun st : DB × Mempool F => n.BlockTree dom st.1 ∧ st.2.Valid n.prim.sha256)
    (E := fun _ => True) (fun _ _ h _ hok => sound_minerStep h hok) (fun _ _ => trivial)
    ⟨blockTree_genesisDB dom registry, Mempool.valid_new cfg⟩ hknown
  obtain ⟨htree, hpool⟩ := hinv _ hreach
  exact noTxLost_mineOne_iff htree hpool hout

end Node

namespace Sample

/-- A node with the default policies at the lowest difficulty, with or without issuance. -/
def mint (enabled : Bool) : Node :=
  { gateway with
    cfg := { gateway.cfg with issuance := ⟨enabled, 5000, 5000, "", bob⟩ }
    prim := { prim with nextWorkRequired := fun _ _ _ => some 0x207fffff } }

/-- Alice pays 10 to bob, for a fee of 620. -/
def feePayment : Tx := gateway.filled (typed "")

/-- Alice gets 1000 by a rebuild of the ledger and adds the payment to the mempool. -/
def funding (enabled : Bool) : List (Node.MinerEvent ℕ (mint enabled).prim.sha256) :=
  [.ledger gatewayDB.ledger, .pool (.add gatewayDB.ledger 0 3600 feePayment)]

/-- The mempool with the payment. -/
def paidPool : Mempool ℕ :=
  ((Mempool.new poolConfig).add sha256 floats gatewayDB.ledger 0 3600 feePayment).2

/-- The block that is mined of it. -/
def paidBlock (enabled : Bool) : Block :=
  ⟨minedHeader ((mint enabled).blockTxs [feePayment]), (mint enabled).blockTxs [feePayment]⟩

/-- The state before mining is reached, and no block was submitted on the way. -/
theorem reached_funding (enabled : Bool) (dom : (mint enabled).HashDomain) :
    (gatewayDB, paidPool) ∈ Run.states ((mint enabled).minerStep floats)
        ((mint enabled).genesisDB ∅, Mempool.new poolConfig) (funding enabled) ∧
      Run.Admitted ((mint enabled).minerStep floats) ((mint enabled).SubmitsKnown dom)
        ((mint enabled).genesisDB ∅, Mempool.new poolConfig) (funding enabled) := by
  refine ⟨?_, trivial, trivial, trivial⟩
  exact Run.foldl_mem_states ((mint enabled).minerStep floats) _ (funding enabled)

/-- `Drain` takes the payment, and the filter keeps it. -/
theorem drained_payment :
    ((mint true).drained mineEnv gatewayDB.ledger paidPool).1 = [feePayment] ∧
      gatewayDB.ledger.view.filterTxs [feePayment] = [feePayment] := by
  constructor
  · decide +kernel
  · decide +kernel

theorem sort_payment : mineEnv.sort.sort [feePayment] = [feePayment] :=
  List.perm_singleton.mp (mineEnv.sort.perm _)

theorem minedBlock_payment (enabled : Bool)
    (hmeets : meetsTarget ((paidBlock enabled).header.hash sha256) 0x207fffff = true) :
    (mint enabled).minedBlock mineEnv gatewayDB paidPool = some (.ok (paidBlock enabled)) := by
  have hsel : (mint enabled).selectedTxs mineEnv gatewayDB.ledger paidPool = [feePayment] := by
    show gatewayDB.ledger.view.filterTxs (mineEnv.sort.sort
      ((mint true).drained mineEnv gatewayDB.ledger paidPool).1) = [feePayment]
    rw [drained_payment.1, sort_payment, drained_payment.2]
  have hblk : gatewayDB.blockByHash node.genesisHash = some node.genesisBlock := by
    rw [gatewayDB, Node.blockByHash_genesisDB, Function.update_self]
  have hbuild : (mint enabled).buildNextBlockHeader mineEnv.headerNow gatewayDB
      ((mint enabled).blockTxs [feePayment]) = .ok (paidBlock enabled).header := by
    have htip : gatewayDB.getTip = some (0, node.genesisHash) := rfl
    unfold Node.buildNextBlockHeader
    rw [htip]
    dsimp only
    rw [hblk]
    rfl
  exact Node.minedBlock_of_header hsel hbuild hmeets

end Sample

namespace Node

open Sample

/-- Without blocks there is no collision. -/
theorem collisionFree_nil (n : Node) : n.CollisionFree [] := by
  intro b hb b' hb' _
  rw [List.mem_singleton.mp hb, List.mem_singleton.mp hb']

/-- The payment is minable where no coinbase has to cover its fee. -/
theorem minable_payment : (mint false).Minable gatewayDB [feePayment] where
  height tipH tipHash h := by
    cases h
    decide
  bits tipH tipHash h := by simp [nextBits, mint]
  apply := Sim.filterTxs_eq_self_iff.mp drained_payment.2
  accepts hdr := by
    have hacc : (mint false).Accepts gatewayDB.ledger (paidBlock false) :=
      ⟨by decide +kernel, by decide +kernel, by decide +kernel⟩
    exact accepts_header _ hdr hacc
  replay tipH tipHash h hon := by cases hon

/-- Without issuance the payment gets into the new tip. -/
theorem noTxLost_payment :
    (gatewayDB, paidPool) ∈ Run.states ((mint false).minerStep floats)
        ((mint false).genesisDB ∅, Mempool.new poolConfig) (funding false) ∧
      ∃ res s' pool', (mint false).mineOne mineEnv gatewayDB paidPool = some (res, s', pool') ∧
        (mint false).NoTxLost mineEnv gatewayDB paidPool s' pool' := by
  obtain ⟨hreach, hadm⟩ := reached_funding false (collisionFree_nil (mint false)).domain
  have hb := minedBlock_payment false (by decide +kernel)
  have hmine := mineOne_eq mineEnv gatewayDB paidPool (n := mint false)
  rw [if_neg (by decide), hb] at hmine
  refine ⟨hreach, _, _, _, hmine, ?_⟩
  apply (noTxLost_iff (mint false) _ ∅ poolConfig floats (funding false) hadm gatewayDB paidPool
    hreach mineEnv _ _ _ hmine).mpr
  refine Or.inr (Or.inr ?_)
  have hsort : mineEnv.sort.sort ((mint false).drained mineEnv gatewayDB.ledger paidPool).1 =
      [feePayment] := by
    show mineEnv.sort.sort ((mint true).drained mineEnv gatewayDB.ledger paidPool).1 = [feePayment]
    rw [drained_payment.1, sort_payment]
  rw [hsort]
  exact minable_payment

/-- With issuance the block is refused, and the payment is nowhere. -/
theorem not_noTxLost_issuance :
    (gatewayDB, paidPool) ∈ Run.states ((mint true).minerStep floats)
        ((mint true).genesisDB ∅, Mempool.new poolConfig) (funding true) ∧
      ∃ pool', (mint true).mineOne mineEnv gatewayDB paidPool =
          some (.error (.error "coinbase_missing_fees"), gatewayDB, pool') ∧
        ¬ (mint true).NoTxLost mineEnv gatewayDB paidPool gatewayDB pool' := by
  have hb := minedBlock_payment true (by decide +kernel)
  have hpre : (mint true).preStore gatewayDB (paidBlock true) =
      .error (.error "coinbase_missing_fees") := by decide +kernel
  have hsub : (mint true).submitBlock mineEnv.submitNow gatewayDB (paidBlock true) =
      (.error (.error "coinbase_missing_fees"), gatewayDB) := by
    rw [submitBlock, hpre]
  have hmine := mineOne_eq mineEnv gatewayDB paidPool (n := mint true)
  rw [if_neg (by decide), hb, Option.map_some] at hmine
  dsimp only at hmine
  rw [hsub] at hmine
  refine ⟨(reached_funding true (collisionFree_nil (mint true)).domain).1, _, hmine, ?_⟩
  intro hkeep
  have htx : feePayment ∈ ((mint true).drained mineEnv gatewayDB.ledger paidPool).1 := by
    rw [drained_payment.1]
    exact List.mem_singleton.mpr rfl
  have hempty : (Mempool.new poolConfig : Mempool ℕ).Valid sha256 := Mempool.valid_new poolConfig
  have hvalid : paidPool.Valid (mint true).prim.sha256 := hempty.add ..
  have hgone := not_mem_rest (n := mint true) (s := gatewayDB) hvalid htx
  rcases hkeep feePayment htx with ⟨b, hnew, -⟩ | hrest
  · exact hnew.moved rfl
  · exact hgone hrest

end Node

end ReserveOS
