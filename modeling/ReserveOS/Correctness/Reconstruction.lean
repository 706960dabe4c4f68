import ReserveOS.Chain.Genesis
import ReserveOS.Correctness.MainChainValidity
import ReserveOS.Correctness.Rewind

/-!
# Three ways to the ledger of a height

The source reconstructs the ledger of the main chain in three places. `rebuildStateFromFinalized`
and `ApplyStateUpTo` write it to the database and run the blocks with `applyBlockTxs`;
`ValidateBlockStateOnMainParent` works on a copy and runs them with `applyBlockToSim`. Each begins
with another choice of snapshot, and with genesis allocations that are added, written one over the
other, or added to a map.

* `forkExact_of_startsRight`: fork validation is exact if the ledger it begins with is the main
  chain's, and only then is the block checked against the main chain's ledger;
* `pathsAgree_iff`: without snapshots, when the three reconstructions agree, in terms of the
  allocations, the coinbases and the running balances.
-/

namespace ReserveOS

open BalanceCall

/-- The main chain `bs` is complete: it leads from the root to the tip, and the height index names
all of its blocks. -/
structure DB.CompleteChain (s : DB) (tipH : UInt64) (tipHash : String) (bs : List Block) :
    Prop where
  tip : s.getTip = some (tipH, tipHash)
  path : s.RootPath tipHash bs
  indexed : s.IndexedBlocks tipH bs

namespace Node

variable {n : Node} {s : DB} {bs : List Block} {b : Block} {ss : Snapshot} {parentH : UInt64}

/-- The chain of a new database has no block above the root. -/
theorem completeChain_genesisDB (registry : Table RegValidator) :
    (n.genesisDB registry).CompleteChain 0 n.genesisHash [] := by
  have hblock : (n.genesisDB registry).blockByHash n.genesisHash = some n.genesisBlock := by
    rw [blockByHash_genesisDB, Function.update_self]
  have hindex : (n.genesisDB registry).hashByHeight 0 = some n.genesisHash := by
    rw [hashByHeight_genesisDB, Function.update_self]
  refine ⟨rfl, .root hblock rfl, rfl, by simp, n.genesisHash, n.genesisBlock, ?_, rfl⟩
  exact DB.getBlockByHeight_eq_some_iff.mpr ⟨hindex, hblock⟩

/-! ### The replay of the fork validator -/

/-- The fork validator replays the indexed blocks between its base and the parent; there are none if
the base is above it. -/
theorem mainParentSim_eq_ok_iff {upto : UInt64} (h : s.IndexedBlocks upto bs)
    (hle : parentH ≤ upto) (hbase : (n.forkBase parentH).1.toNat + 1 < 2 ^ 64) {m : Sim} :
    n.mainParentSim s parentH = .ok m ↔ n.replay (n.forkBase parentH).2
        ((bs.take parentH.toNat).drop (n.forkBase parentH).1.toNat) = .ok m := by
  have hparent := h.take hle
  unfold mainParentSim
  generalize n.forkBase parentH = base at hbase
  obtain ⟨k, m₀⟩ := base
  dsimp only at hbase ⊢
  have hcount : parentH.toNat + 1 - (k + 1).toNat =
      ((bs.take parentH.toNat).drop k.toNat).length := by
    rw [toNat_succ_of_lt hbase, List.length_drop, hparent.length]
    omega
  rw [hcount]
  apply replayIndex_eq_ok_iff
  intro i b hb
  rw [List.getElem?_drop] at hb
  obtain ⟨x, hx⟩ := hparent.block _ b hb
  refine ⟨x, ?_⟩
  -- the entry behind `k + i` others has the height `k + 1 + i`
  have hheight : k + 1 + UInt64.ofNat i = UInt64.ofNat (k.toNat + i + 1) := by
    rw [UInt64.ofNat_add, UInt64.ofNat_add, UInt64.ofNat_toNat]
    grind
  rwa [hheight]

/-! ### Fork validation -/

variable (n) in
/-- The snapshot that a fork replay reads: the file with the highest height in its name that is not
above the parent, unless reading it fails. -/
def pickedSnapshot (parentH : UInt64) : Option Snapshot :=
  let best := pickSnapshotForHeight (listSnapshots n.snapshotDir) parentH
  if best = "" then none else readSnapshot n.snapshotDir best

theorem forkBase_of_none (h : n.pickedSnapshot parentH = none) :
    n.forkBase parentH = (0, n.genesisSim) := by
  unfold pickedSnapshot at h
  simp only [forkBase, h]

theorem forkBase_of_some (h : n.pickedSnapshot parentH = some ss) :
    n.forkBase parentH = if ss.height = 0 then (0, ss.view.addAllocations n.genesis.allocations)
      else (ss.height, ss.view) := by
  unfold pickedSnapshot at h
  simp only [forkBase, h]

/-- A picked snapshot is the content of a file. -/
theorem exists_file_of_pickedSnapshot (h : n.pickedSnapshot parentH = some ss) :
    ∃ (name : String) (f : SnapshotFile), n.snapshotDir[name]? = some f ∧ f.json = some ss := by
  unfold pickedSnapshot readSnapshot at h
  dsimp only at h
  split at h
  · cases h
  · obtain ⟨f, hf, hss⟩ := Option.bind_eq_some_iff.mp h
    exact ⟨_, f, hf, hss⟩

variable (n) in
/-- The snapshot records the ledger that the chain with its tip hash replays to, at its height. -/
def RecordsReplay (s : DB) (ss : Snapshot) : Prop :=
  ∃ path, s.RootPath ss.tipHash path ∧ path.length = ss.height.toNat ∧
    n.replay n.genesisSim path = .ok ss.view

variable (n) in
/-- All snapshot files record the ledger of their chain, as either reader reads them. -/
def RecordingFiles (s : DB) : Prop :=
  ∀ (name : String) (f : SnapshotFile) (ss : Snapshot), n.snapshotDir[name]? = some f →
    f.json = some ss ∨ f.gob = some ss → n.RecordsReplay s ss

variable (n) in
/-- The fork validator accepts the block exactly if it applies to the ledger that the main chain
`bs` up to its parent replays to, from the genesis allocations. -/
def ForkExact (s : DB) (bs : List Block) (b : Block) : Prop :=
  n.validateBlockStateOnMainParent s b = .ok () ↔
    ∃ m m', n.replay n.genesisSim (bs.take (b.header.height - 1).toNat) = .ok m ∧
      n.applyBlockToSim m b = .ok m'

/-- A block that passes the gates is accepted if it applies to the replayed ledger. -/
theorem validateBlockStateOnMainParent_eq_ok_iff (hgate : n.forkStateChecked s b = true) :
    n.validateBlockStateOnMainParent s b = .ok () ↔
      ∃ m m', n.mainParentSim s (b.header.height - 1) = .ok m ∧ n.applyBlockToSim m b = .ok m' := by
  rw [validateBlockStateOnMainParent, if_pos hgate, Res.bind_eq_ok]
  simp only [Res.bind_eq_ok, and_true, exists_and_left]

end Node

/-! ### The genesis allocations -/

/-- The amounts allocated to an account, in the order of the genesis file. -/
def amounts (allocs : List Allocation) (id : String) : List Int64 :=
  (allocs.filter fun a => a.address = id).map fun a => parseInt64 a.balance

/-- Their `int64` sum. -/
def summed (vs : List Int64) : Int64 := vs.foldl (fun b v => b + v) 0

/-- The last of them, or zero if it is negative. -/
def lastWritten (vs : List Int64) : Int64 := vs.foldl (fun _ v => if v < 0 then 0 else v) 0

/-- Their sum without those that would make it negative. -/
def accepted (vs : List Int64) : Int64 := vs.foldl (fun b v => if b + v < 0 then b else b + v) 0

/-- A loop over the allocations that changes the balance of each allocation's account only. -/
theorem foldl_amounts {σ : Type} {step : σ → Allocation → σ} (bal : σ → Int64)
    {g : Int64 → Int64 → Int64} {id : String}
    (h : ∀ l a, bal (step l a) = if a.address = id then g (bal l) (parseInt64 a.balance) else bal l)
    (allocs : List Allocation) {l : σ} {v : Int64} (hl : bal l = v) :
    bal (allocs.foldl step l) = (amounts allocs id).foldl g v := by
  induction allocs generalizing l v with
  | nil => exact hl
  | cons a allocs ih =>
      rw [List.foldl_cons, ih (h l a), hl]
      by_cases hid : a.address = id
      · simp [amounts, hid]
      · simp [amounts, hid]

namespace Sim

theorem bal_addAllocations (m : Sim) (allocs : List Allocation) (id : String) :
    (m.addAllocations allocs).bal id = (amounts allocs id).foldl (fun b v => b + v) (m.bal id) := by
  refine foldl_amounts (fun m : Sim => m.bal id) (fun m a => ?_) allocs rfl
  rw [bal_addBal, Function.update_apply]
  by_cases hid : a.address = id
  · simp [hid]
  · simp [hid, Ne.symm hid]

theorem nonce_addAllocations (m : Sim) (allocs : List Allocation) :
    (m.addAllocations allocs).nonce = m.nonce := by
  unfold addAllocations
  apply List.foldlRecOn (motive := fun m' : Sim => m'.nonce = m.nonce)
  · rfl
  · intro m' h a _
    exact h

/-- Adding the allocations adds their sum to each account. -/
theorem bal_addAllocations_eq_add (m : Sim) (allocs : List Allocation) (id : String) :
    (m.addAllocations allocs).bal id = m.bal id + summed (amounts allocs id) := by
  rw [bal_addAllocations, summed]
  generalize amounts allocs id = vs
  induction vs using List.reverseRecOn with
  | nil => simp
  | append_singleton vs v ih =>
      rw [List.foldl_append, List.foldl_append, List.foldl_cons, List.foldl_cons, List.foldl_nil,
        List.foldl_nil, ih, Int64.add_assoc]

end Sim

namespace Ledger

variable (allocs : List Allocation) (id : String)

theorem getBalance_empty : empty.getBalance id = 0 := by simp [getBalance, empty]

/-- `SetBalance` leaves the last allocation. -/
theorem getBalance_setAllocations :
    (setAllocations allocs).getBalance id = lastWritten (amounts allocs id) := by
  refine foldl_amounts (fun l : Ledger => l.getBalance id) (fun l a => ?_) allocs
    (getBalance_empty id)
  simp only [getBalance, setBalance, Table.getElem?_put]
  by_cases hid : a.address = id
  · simp [hid]
  · simp [hid]

/-- `AddBalance` leaves the sum of the allocations that it accepts. -/
theorem getBalance_ofAllocations :
    (ofAllocations allocs).getBalance id = accepted (amounts allocs id) := by
  refine foldl_amounts (fun l : Ledger => l.getBalance id) (fun l a => ?_) allocs
    (getBalance_empty id)
  cases hadd : l.addBalance a.address (parseInt64 a.balance) with
  | ok l' =>
      obtain ⟨hnn, rfl⟩ := addBalance_eq_ok_iff.mp hadd
      rw [getBalance_setBalance l hnn, Function.update_apply]
      by_cases hid : a.address = id
      · subst hid
        simp [hnn]
      · simp [hid, Ne.symm hid]
  | error e =>
      -- a refused addition leaves the balance as it is
      have hneg : l.getBalance a.address + parseInt64 a.balance < 0 := by
        by_contra hnn
        rw [addBalance, if_neg hnn] at hadd
        cases hadd
      by_cases hid : a.address = id
      · subst hid
        simp [hneg]
      · simp [hid]

theorem getNonce_setAllocations : (setAllocations allocs).getNonce id = 0 := by
  unfold setAllocations
  apply List.foldlRecOn (motive := fun l : Ledger => l.getNonce id = 0)
  · simp [getNonce, empty]
  · intro l h a _
    exact h

/-- Allocations set no nonce. -/
theorem getNonce_ofAllocations : (ofAllocations allocs).getNonce id = 0 := by
  unfold ofAllocations
  apply List.foldlRecOn (motive := fun l : Ledger => l.getNonce id = 0)
  · simp [getNonce, empty]
  · intro l h a _
    split
    next l' hadd => rw [getNonce_of_addBalance hadd, h]
    next => exact h

end Ledger

/-- Where no account is named twice and no amount is negative, all three readings of the allocations
are the same. -/
theorem amounts_alike {allocs : List Allocation}
    (hdistinct : (allocs.map Allocation.address).Nodup)
    (hnn : ∀ a ∈ allocs, ¬ parseInt64 a.balance < 0) (id : String) :
    lastWritten (amounts allocs id) = accepted (amounts allocs id) ∧
      accepted (amounts allocs id) = summed (amounts allocs id) := by
  have hmem : ∀ v ∈ amounts allocs id, ¬ v < 0 := by
    intro v hv
    obtain ⟨a, ha, rfl⟩ := List.mem_map.mp hv
    exact hnn a (List.mem_of_mem_filter ha)
  -- an account has one amount at most
  have hone : (amounts allocs id).length ≤ 1 := by
    have hcount := List.nodup_iff_count_le_one.mp hdistinct id
    rw [List.count, List.countP_map, List.countP_eq_length_filter] at hcount
    rw [amounts, List.length_map]
    refine le_trans (le_of_eq (congrArg List.length (List.filter_congr fun a _ => ?_))) hcount
    rw [Bool.eq_iff_iff, decide_eq_true_iff, Function.comp_apply, beq_iff_eq]
  generalize amounts allocs id = vs at hmem hone
  rcases vs with _ | ⟨v, _ | ⟨w, vs⟩⟩
  · simp [lastWritten, accepted, summed]
  · have hv : ¬ v < 0 := hmem v List.mem_cons_self
    simp [lastWritten, accepted, summed, hv]
  · simp at hone

/-! ### What a replay books -/

/-- The credits of a transaction's outputs as the simulation books those of a coinbase: to the
address, even where it is empty. -/
def Tx.credits (tx : Tx) : List BalanceCall := tx.outputs.map fun o => ⟨o.address, o.amount, false⟩

/-- The coinbases among the transactions of the blocks. -/
def coinbases (bs : List Block) : List Tx :=
  (bs.flatMap Block.txs).filter fun tx => tx.type = "coinbase"

/-- The other transactions. -/
def payments (bs : List Block) : List Tx :=
  (bs.flatMap Block.txs).filter fun tx => tx.type ≠ "coinbase"

/-- The two kinds together book what the transactions book. -/
theorem booked_calls_eq (bs : List Block) (id : String) :
    booked ((bs.flatMap Block.txs).flatMap Tx.calls) id =
      booked ((coinbases bs).flatMap Tx.calls) id + booked ((payments bs).flatMap Tx.calls) id := by
  unfold coinbases payments
  generalize bs.flatMap Block.txs = txs
  induction txs with
  | nil => simp
  | cons tx txs ih =>
      by_cases hcb : tx.type = "coinbase"
      · simp [hcb, booked_append, ih, Int64.add_assoc]
      · simp [hcb, booked_append, ih]
        grind

namespace Node

variable {n : Node} {s : DB} {bs : List Block} {b : Block} {m m' : Sim} {ss : Snapshot}
  {parentH : UInt64}

theorem bal_genesisSim (n : Node) (id : String) :
    n.genesisSim.bal id = summed (amounts n.genesis.allocations id) :=
  Sim.bal_addAllocations Sim.empty n.genesis.allocations id

/-- A block that `applyBlockToSim` accepts credits its coinbase's outputs, books the calls of the
other transactions and sets the nonces of their senders. -/
theorem eq_of_applyBlockToSim (h : n.applyBlockToSim m b = .ok m') :
    m' = ⟨after m.bal ((coinbases [b]).flatMap Tx.credits ++ (payments [b]).flatMap Tx.calls),
      noncesAfter m.nonce (payments [b])⟩ := by
  unfold applyBlockToSim at h
  obtain ⟨⟨⟩, -, h⟩ := Res.bind_eq_ok.mp h
  obtain ⟨⟨⟩, hbasic, hsim⟩ := Res.bind_eq_ok.mp h
  have hshape := basicShape_of_validateBlockBasic hbasic
  unfold coinbases payments
  rw [List.flatMap_singleton]
  generalize b.txs = txs at hshape hsim
  -- checked transactions are no coinbases
  have hsplit : ∀ txs : List Tx, (∀ tx ∈ txs, n.TxChecked tx) →
      txs.filter (fun tx => tx.type = "coinbase") = [] ∧
        txs.filter (fun tx => tx.type ≠ "coinbase") = txs := by
    intro txs hall
    constructor
    · simpa using fun tx htx => (hall tx htx).not_coinbase
    · simpa using fun tx htx => (hall tx htx).not_coinbase
  have hchecked : ∀ (txs : List Tx) (m : Sim), (∀ tx ∈ txs, n.TxChecked tx) →
      m.applyTxsToSim txs = .ok m' →
        m' = ⟨after m.bal (txs.flatMap Tx.calls), noncesAfter m.nonce txs⟩ := by
    intro txs m hall hsim
    exact Sim.eq_of_simTxs hall (fun tx htx => (hall tx htx).from_ne)
      ((Sim.applyTxsToSim_eq_ok_iff hall).mp hsim)
  cases hshape with
  | @issuing cb o rest _ hcb houts _ hrest =>
      obtain ⟨hnone, hself⟩ := hsplit rest hrest
      rw [Sim.applyTxsToSim, Sim.applyTxToSim, if_pos hcb, houts] at hsim
      rw [List.filter_cons_of_pos (by simpa using hcb),
        List.filter_cons_of_neg (by simpa using hcb), hnone, hself, List.flatMap_singleton,
        Tx.credits, houts]
      exact hchecked rest _ hrest hsim
  | plain _ hall =>
      obtain ⟨hnone, hself⟩ := hsplit txs hall
      rw [hnone, hself]
      exact hchecked txs m hall hsim

/-- What a replay ends with. -/
theorem of_replay (h : n.replay m bs = .ok m') :
    (∀ id, m'.bal id = m.bal id + booked ((coinbases bs).flatMap Tx.credits) id +
      booked ((payments bs).flatMap Tx.calls) id) ∧
    m'.nonce = noncesAfter m.nonce (payments bs) := by
  induction bs generalizing m with
  | nil =>
      cases h
      simp [coinbases, payments, noncesAfter]
  | cons b bs ih =>
      rw [replay, Res.bind_eq_ok] at h
      obtain ⟨m₁, hone, htail⟩ := h
      obtain ⟨hbal, hnonce⟩ := ih htail
      obtain rfl := eq_of_applyBlockToSim hone
      have hcbs : coinbases (b :: bs) = coinbases [b] ++ coinbases bs := by simp [coinbases]
      have hpays : payments (b :: bs) = payments [b] ++ payments bs := by simp [payments]
      rw [hcbs, hpays]
      refine ⟨fun id => ?_, ?_⟩
      · rw [hbal]
        simp only [after_eq, booked_append, List.flatMap_append]
        grind
      · rw [hnonce, noncesAfter, noncesAfter, noncesAfter, List.foldl_append]

/-- The nonces after accepted transactions tell those before: a sender's first nonce is the next
one. -/
theorem nonce_eq_of_applyTxsToSim {txs : List Tx} {m₁ m₂ m₁' m₂' : Sim}
    (h₁ : m₁.applyTxsToSim txs = .ok m₁') (h₂ : m₂.applyTxsToSim txs = .ok m₂')
    (h : m₁'.nonce = m₂'.nonce) : m₁.nonce = m₂.nonce := by
  induction txs generalizing m₁ m₂ with
  | nil =>
      cases h₁
      cases h₂
      exact h
  | cons tx txs ih =>
      rw [Sim.applyTxsToSim, Res.bind_eq_ok] at h₁ h₂
      obtain ⟨k₁, hone₁, htail₁⟩ := h₁
      obtain ⟨k₂, hone₂, htail₂⟩ := h₂
      have hk := ih htail₁ htail₂
      rcases Sim.nonce_of_applyTxToSim hone₁ with ⟨hcb, hsame₁⟩ | ⟨hcb, hnext₁, hset₁⟩
      · rcases Sim.nonce_of_applyTxToSim hone₂ with ⟨-, hsame₂⟩ | ⟨hno, -⟩
        · rw [← hsame₁, ← hsame₂, hk]
        · exact absurd hcb hno
      · rcases Sim.nonce_of_applyTxToSim hone₂ with ⟨hyes, -⟩ | ⟨-, hnext₂, hset₂⟩
        · exact absurd hyes hcb
        · funext id
          by_cases hid : id = tx.fromId
          · rw [hid]
            grind
          · have hother := congrFun (hset₁.symm.trans (hk.trans hset₂)) id
            rwa [Function.update_of_ne hid, Function.update_of_ne hid] at hother

/-- Replays of the same blocks that end in one ledger began with one. -/
theorem replay_inj {m₁ m₂ : Sim} (h₁ : n.replay m₁ bs = .ok m) (h₂ : n.replay m₂ bs = .ok m) :
    m₁ = m₂ := by
  induction bs generalizing m₁ m₂ with
  | nil => exact Except.ok.inj (h₁.trans h₂.symm)
  | cons b bs ih =>
      rw [replay, Res.bind_eq_ok] at h₁ h₂
      obtain ⟨k, hone₁, htail₁⟩ := h₁
      obtain ⟨k', hone₂, htail₂⟩ := h₂
      obtain rfl := ih htail₁ htail₂
      ext1
      · funext id
        have hbal := congrArg (fun m : Sim => m.bal id)
          ((eq_of_applyBlockToSim hone₁).symm.trans (eq_of_applyBlockToSim hone₂))
        simpa only [after_eq, Int64.add_left_inj] using hbal
      · unfold applyBlockToSim at hone₁ hone₂
        obtain ⟨-, -, hone₁⟩ := Res.bind_eq_ok.mp hone₁
        obtain ⟨-, -, hone₁⟩ := Res.bind_eq_ok.mp hone₁
        obtain ⟨-, -, hone₂⟩ := Res.bind_eq_ok.mp hone₂
        obtain ⟨-, -, hone₂⟩ := Res.bind_eq_ok.mp hone₂
        exact nonce_eq_of_applyTxsToSim hone₁ hone₂ rfl

/-! ### When fork validation is exact -/

variable (n) in
/-- The ledger that the replay of the fork validator begins with is that of the main chain `bs`. It
reads no snapshot; or one of height zero, and the allocations, which it adds to it once more, add up
to nothing on every account; or one with the ledger of the main chain at its height, or at the
parent if that is lower. -/
def StartsRight (bs : List Block) (parentH : UInt64) : Prop :=
  ∀ ss, n.pickedSnapshot parentH = some ss →
    if ss.height = 0 then ∀ id, summed (amounts n.genesis.allocations id) = 0
    else n.replay n.genesisSim (bs.take (min ss.height.toNat parentH.toNat)) = .ok ss.view

/-- A snapshot of the main chain that is above height zero and not above the parent is a right
start. -/
theorem startsRight_of_onChain (hfiles : n.RecordingFiles s)
    (hpick : ∀ ss, n.pickedSnapshot parentH = some ss →
      ss.height ≠ 0 ∧ ss.height ≤ parentH ∧ s.RootPath ss.tipHash (bs.take ss.height.toNat)) :
    n.StartsRight bs parentH := by
  intro ss hss
  obtain ⟨hne, hbelow, hon⟩ := hpick ss hss
  obtain ⟨name, f, hf, hjson⟩ := exists_file_of_pickedSnapshot hss
  obtain ⟨path, hpath, -, hreplay⟩ := hfiles name f ss hf (.inl hjson)
  obtain rfl := Ancestry.rootPath_unique hpath hon
  rwa [if_neg hne, min_eq_left (UInt64.le_iff_toNat_le.mp hbelow)]

/-- The right starts in terms of the base of the replay. -/
theorem startsRight_iff (hfiles : n.RecordingFiles s) :
    n.StartsRight bs parentH ↔ n.replay n.genesisSim
          (bs.take (min (n.forkBase parentH).1.toNat parentH.toNat)) =
        .ok (n.forkBase parentH).2 := by
  cases hss : n.pickedSnapshot parentH with
  | none => simp [StartsRight, hss, forkBase_of_none hss, replay]
  | some ss =>
      rw [forkBase_of_some hss]
      simp only [StartsRight, hss, Option.some.injEq, forall_eq']
      by_cases hzero : ss.height = 0
      · -- a truthful snapshot of height zero has the allocations already
        obtain ⟨name, f, hf, hjson⟩ := exists_file_of_pickedSnapshot hss
        obtain ⟨path, -, hlen, hreplay⟩ := hfiles name f ss hf (.inl hjson)
        rw [hzero] at hlen
        obtain rfl := List.length_eq_zero_iff.mp hlen
        have hview : n.genesisSim = ss.view := Except.ok.inj hreplay
        rw [if_pos hzero, if_pos hzero, ← hview]
        simp only [UInt64.toNat_zero, Nat.zero_min, List.take_zero, replay, Except.ok.injEq]
        rw [Sim.ext_iff, Sim.nonce_addAllocations, funext_iff]
        simp [Sim.bal_addAllocations_eq_add]
      · rw [if_neg hzero, if_neg hzero]

/-- Where the main chain replays up to the parent, the block is checked against its ledger there
exactly if the replay begins with the main chain's; where it does not, the validator's fails too. -/
theorem mainParentSim_eq_replay_iff {tipH : UInt64} {tipHash : String}
    (hchain : s.CompleteChain tipH tipHash bs) (hfiles : n.RecordingFiles s)
    (hle : parentH ≤ tipH) (hbase : (n.forkBase parentH).1.toNat + 1 < 2 ^ 64) :
    (n.StartsRight bs parentH → ∀ m, n.mainParentSim s parentH = .ok m ↔
      n.replay n.genesisSim (bs.take parentH.toNat) = .ok m) ∧
    (∀ m, n.mainParentSim s parentH = .ok m →
      n.replay n.genesisSim (bs.take parentH.toNat) = .ok m → n.StartsRight bs parentH) := by
  simp only [mainParentSim_eq_ok_iff hchain.indexed hle hbase, startsRight_iff hfiles]
  generalize n.forkBase parentH = base
  -- the main chain up to the base, and from there to the parent
  have hsplit : ∀ m, n.replay n.genesisSim (bs.take parentH.toNat) = .ok m ↔
      ∃ m₀, n.replay n.genesisSim (bs.take (min base.1.toNat parentH.toNat)) = .ok m₀ ∧
        n.replay m₀ ((bs.take parentH.toNat).drop base.1.toNat) = .ok m := by
    intro m
    conv_lhs => rw [← List.take_append_drop base.1.toNat (bs.take parentH.toNat), List.take_take]
    exact replay_append_eq_ok
  constructor
  · intro hfront m
    rw [hsplit, hfront]
    simp
  · intro m hrun hmain
    obtain ⟨m₀, hfront, hrest⟩ := (hsplit m).mp hmain
    rw [hfront, replay_inj hrest hrun]

/-- With the gates passed, all snapshot files recording their chains and no snapshot of the largest
height read, fork validation is exact if the replay begins with the main chain's ledger. If it does
not, the block is checked against another ledger than the main chain's at its parent. -/
theorem forkExact_of_startsRight (n : Node) (s : DB) (b : Block) {tipH : UInt64} {tipHash : String}
    {bs : List Block} (hchain : s.CompleteChain tipH tipHash bs) (hfiles : n.RecordingFiles s)
    (hgate : n.forkStateChecked s b = true) (hle : b.header.height - 1 ≤ tipH)
    (hmax : ∀ ss, n.pickedSnapshot (b.header.height - 1) = some ss → ss.height.toNat + 1 < 2 ^ 64) :
    (n.StartsRight bs (b.header.height - 1) → n.ForkExact s bs b) ∧
    (¬ n.StartsRight bs (b.header.height - 1) →
      ∀ m, n.replay n.genesisSim (bs.take (b.header.height - 1).toNat) = .ok m →
        n.mainParentSim s (b.header.height - 1) ≠ .ok m) := by
  rw [ForkExact, validateBlockStateOnMainParent_eq_ok_iff hgate]
  generalize b.header.height - 1 = parentH at hle hmax
  have hbase : (n.forkBase parentH).1.toNat + 1 < 2 ^ 64 := by
    cases hss : n.pickedSnapshot parentH with
    | none => simp [forkBase_of_none hss]
    | some ss =>
        rw [forkBase_of_some hss]
        split
        · simp
        · exact hmax ss hss
  obtain ⟨hright, honly⟩ := mainParentSim_eq_replay_iff hchain hfiles hle hbase
  constructor
  · intro hstart
    simp only [hright hstart]
  · intro hwrong m hmain hrun
    exact hwrong (honly m hrun hmain)

/-! ### Agreement of the reconstructions -/

/-- The senders of the blocks are left with the same nonces whether coinbases set them or not. -/
def NoncesAlike (bs : List Block) : Prop :=
  noncesAfter (fun _ => 0) ((bs.flatMap Block.txs).filter Tx.SetsNonce) =
    noncesAfter (fun _ => 0) (payments bs)

/-- A stored ledger and a working copy without nonces, after the same blocks: they agree exactly if
the coinbases of the blocks, which are booked in two ways, make up for what they differ in. -/
theorem view_applyBlocks_eq_replay_iff {l : Ledger} (hok : (l.applyBlocks bs).1 = .ok ())
    (hreplay : n.replay m bs = .ok m') (hl : l.getNonce = fun _ => 0)
    (hm : m.nonce = fun _ => 0) :
    (l.applyBlocks bs).2.view = m' ↔
      (∀ id, l.getBalance id + booked ((coinbases bs).flatMap Tx.calls) id =
        m.bal id + booked ((coinbases bs).flatMap Tx.credits) id) ∧ NoncesAlike bs := by
  have hnonces : (l.applyBlocks bs).2.getNonce =
      noncesAfter l.getNonce ((bs.flatMap Block.txs).filter Tx.SetsNonce) := by
    rw [Ledger.applyBlocks_eq_applyTxs] at hok ⊢
    exact Ledger.getNonce_applyTxs_of_ok hok
  obtain ⟨hbal, hnonce⟩ := of_replay hreplay
  rw [Sim.ext_iff, Ledger.view_nonce, hnonces, hnonce, hl, hm, Ledger.view_bal, funext_iff,
    NoncesAlike]
  refine and_congr_left' (forall_congr' fun id => ?_)
  -- the other transactions book the same on both sides
  rw [Ledger.getBalance_applyBlocks hok, hbal, booked_calls_eq, ← Int64.add_assoc,
    Int64.add_left_inj]

variable (n) in
/-- On every account, the last allocation that is written is what the accepted allocations add up
to, and together with what the coinbases of the blocks book this is the sum of all allocations with
what the simulation credits for them. -/
def AllocationsAlike (bs : List Block) : Prop :=
  ∀ id, lastWritten (amounts n.genesis.allocations id) =
      accepted (amounts n.genesis.allocations id) ∧
    accepted (amounts n.genesis.allocations id) + booked ((coinbases bs).flatMap Tx.calls) id =
      summed (amounts n.genesis.allocations id) + booked ((coinbases bs).flatMap Tx.credits) id

variable (n) in
/-- `ApplyStateUpTo` and `rebuildStateFromFinalized` both return nil, and leave the ledger that the
fork validator replays to at height `T`. -/
def PathsAgree (s : DB) (T : UInt64) : Prop :=
  ∃ m, n.mainParentSim s T = .ok m ∧
    ((n.applyStateUpTo s T).1 = .ok () ∧ (n.applyStateUpTo s T).2.ledger.view = m) ∧
    (n.rebuildStateFromFinalized s).1 = .ok () ∧ (n.rebuildStateFromFinalized s).2.ledger.view = m

/-- Without snapshots every base is at height zero. -/
theorem bases_of_noSnapshots (hdir : listSnapshots n.snapshotDir = []) (T : UInt64) :
    n.forkBase T = (0, n.genesisSim) ∧
      n.stateBase T = (0, Ledger.setAllocations n.genesis.allocations) ∧
      n.rebuildBase = (0, Ledger.ofAllocations n.genesis.allocations) := by
  refine ⟨forkBase_of_none ?_, ?_, rebuildBase_of_not_used ?_⟩
  · simp [pickedSnapshot, hdir, pickSnapshotForHeight]
  · simp [stateBase, bestSnapshot, hdir]
  · simp [lastSnapshot, hdir]

/-- Without snapshot files, on a complete main chain below the largest height whose blocks replay,
the three reconstructions agree exactly when the allocations and coinbases leave the same balances
in each, the coinbases leave the same nonces, and `AddBalance` refuses none of the calls of the
blocks. -/
theorem pathsAgree_iff (n : Node) (s : DB) {T : UInt64} {tipHash : String} {bs : List Block}
    (hdir : listSnapshots n.snapshotDir = []) (hchain : s.CompleteChain T tipHash bs)
    (hfit : T.toNat + 1 < 2 ^ 64) (hvalid : ∃ m, n.replay n.genesisSim bs = .ok m) :
    n.PathsAgree s T ↔ n.AllocationsAlike bs ∧ NoncesAlike bs ∧
      Covered (fun id => accepted (amounts n.genesis.allocations id))
        ((bs.flatMap Block.txs).flatMap Tx.calls) := by
  obtain ⟨m, hreplay⟩ := hvalid
  obtain ⟨hfork, hstate, hrebuild⟩ := bases_of_noSnapshots hdir T
  have hall : bs.take T.toNat = bs := List.take_of_length_le hchain.indexed.length.le
  -- each path in terms of its base
  have hsim : ∀ m', n.mainParentSim s T = .ok m' ↔ m = m' := by
    intro m'
    rw [mainParentSim_eq_ok_iff hchain.indexed UInt64.le_rfl (by simp [hfork]), hfork, hall]
    show n.replay n.genesisSim bs = .ok m' ↔ _
    rw [hreplay, Except.ok.injEq]
  have hup : ((n.applyStateUpTo s T).1, (n.applyStateUpTo s T).2.ledger) =
      (Ledger.setAllocations n.genesis.allocations).applyBlocks bs := by
    rw [(applyStateUpTo_eq hchain.indexed UInt64.le_rfl hfit).1, rewound, hstate, hall]
    dsimp only
    rw [UInt64.toNat_zero, List.drop_zero]
  have hre : ((n.rebuildStateFromFinalized s).1, (n.rebuildStateFromFinalized s).2.ledger) =
      (Ledger.ofAllocations n.genesis.allocations).applyBlocks bs := by
    have hzero : ((0 : UInt64) + 1).toNat - 1 = 0 := rfl
    rw [rebuild_eq_applyBlocks hchain.tip hchain.indexed, hrebuild]
    dsimp only
    rw [hzero, List.drop_zero]
  obtain ⟨hup₁, hup₂⟩ := Prod.mk.inj hup
  obtain ⟨hre₁, hre₂⟩ := Prod.mk.inj hre
  have hreach : n.PathsAgree s T ↔
      ((Ledger.setAllocations n.genesis.allocations).applyBlocks bs).1 = .ok () ∧
      ((Ledger.setAllocations n.genesis.allocations).applyBlocks bs).2.view = m ∧
      ((Ledger.ofAllocations n.genesis.allocations).applyBlocks bs).1 = .ok () ∧
      ((Ledger.ofAllocations n.genesis.allocations).applyBlocks bs).2.view = m := by
    simp only [PathsAgree, hsim, hup₁, hup₂, hre₁, hre₂]
    constructor
    · rintro ⟨m', rfl, ⟨hok, hview⟩, hok', hview'⟩
      exact ⟨hok, hview, hok', hview'⟩
    · rintro ⟨hok, hview, hok', hview'⟩
      exact ⟨m, rfl, ⟨hok, hview⟩, hok', hview'⟩
  -- none of the bases has a nonce
  have hgen : n.genesisSim.nonce = fun _ => 0 := funext nonce_genesisSim
  have hset := fun hok => view_applyBlocks_eq_replay_iff (n := n) hok hreplay
    (funext (Ledger.getNonce_setAllocations n.genesis.allocations)) hgen
  have hof := fun hok => view_applyBlocks_eq_replay_iff (n := n) hok hreplay
    (funext (Ledger.getNonce_ofAllocations n.genesis.allocations)) hgen
  simp only [Ledger.getBalance_setAllocations, Ledger.getBalance_ofAllocations, bal_genesisSim]
    at hset hof
  rw [hreach]
  constructor
  · rintro ⟨hok, hview, hok', hview'⟩
    obtain ⟨hbal, hnonces⟩ := (hset hok).mp hview
    have hbal' := ((hof hok').mp hview').1
    rw [Ledger.applyBlocks_ok_iff_covered] at hok'
    refine ⟨fun id => ⟨?_, hbal' id⟩, hnonces, ?_⟩
    · exact (Int64.add_left_inj _).mp ((hbal id).trans (hbal' id).symm)
    · simpa only [funext (Ledger.getBalance_ofAllocations n.genesis.allocations)] using hok'
  · rintro ⟨hbal, hnonces, hcov⟩
    have hok' : ((Ledger.ofAllocations n.genesis.allocations).applyBlocks bs).1 = .ok () := by
      rw [Ledger.applyBlocks_ok_iff_covered]
      simpa only [funext (Ledger.getBalance_ofAllocations n.genesis.allocations)] using hcov
    -- the two stored ledgers have the same balances
    have hok : ((Ledger.setAllocations n.genesis.allocations).applyBlocks bs).1 = .ok () := by
      rw [Ledger.applyBlocks_ok_iff_covered]
      simpa only [funext (Ledger.getBalance_setAllocations n.genesis.allocations),
        fun id => (hbal id).1] using hcov
    refine ⟨hok, (hset hok).mpr ⟨fun id => ?_, hnonces⟩, hok', (hof hok').mpr ⟨?_, hnonces⟩⟩
    · rw [(hbal id).1]
      exact (hbal id).2
    · exact fun id => (hbal id).2

end Node

namespace Sample

/-- The node with a block reward, which has given alice 100 and bob 50 at genesis. -/
def endowed : Node :=
  { issuing true with
    genesis := { node.genesis with allocations := [⟨alice, "100"⟩, ⟨bob, "50"⟩] } }

/-- A snapshot of a ledger. -/
def snapshotOf (l : Ledger) (h : UInt64) (x : String) : Snapshot := ⟨h, x, l.bal, l.nonce⟩

theorem view_snapshotOf (l : Ledger) (h : UInt64) (x : String) :
    (snapshotOf l h x).view = l.view := rfl

/-- The ledger after the first block, on top of these allocations. -/
def spentLedger : Ledger :=
  ((Ledger.ofAllocations endowed.genesis.allocations).applyBlocks [spend₁]).2

/-- The snapshot of it. -/
def spentSnapshot : Snapshot := snapshotOf spentLedger 1 spend₂.prevHex

theorem tipHash_spentSnapshot : spentSnapshot.tipHash = spend₂.prevHex := rfl

/-- The same node with this snapshot as a file. -/
def recorded : Node := { endowed with snapshotDir := (withSnapshot spentSnapshot).snapshotDir }

/-- The first block replays and applies on top of the allocations, which are all read alike. -/
theorem endowed_read :
    (endowed.replay endowed.genesisSim [spend₁]).isNil = true ∧
    ((Ledger.ofAllocations endowed.genesis.allocations).applyBlocks [spend₁]).1 = .ok () ∧
    (endowed.genesis.allocations.map Allocation.address).Nodup ∧
    ∀ a ∈ endowed.genesis.allocations, ¬ parseInt64 a.balance < 0 := by
  decide +kernel

theorem completeChain_spentDB : spentDB.CompleteChain 1 spend₂.prevHex [spend₁] := by
  obtain ⟨-, -, -, hone, hzero, hidx, -, htip, hroot⟩ := spentDB_read
  have hpath : spentDB.RootPath spend₂.prevHex ([] ++ [spend₁]) :=
    .snoc hone (by decide) (.root hzero rfl)
  refine ⟨htip, hpath, rfl, fun i b hb => ?_, _, _, hroot, rfl⟩
  match i, hb with
  | 0, hb =>
      obtain rfl := Option.some.inj hb
      exact ⟨_, hidx⟩

/-- The coinbase of the first block is booked alike by both interpreters. -/
theorem coinbases_spend₁ : (coinbases [spend₁]).flatMap Tx.calls =
      (coinbases [spend₁]).flatMap Tx.credits ∧ Node.NoncesAlike [spend₁] :=
  ⟨rfl, rfl⟩

theorem allocationsAlike_endowed : endowed.AllocationsAlike [spend₁] := by
  obtain ⟨-, -, hdistinct, hnn⟩ := endowed_read
  intro id
  obtain ⟨hlast, hsum⟩ := amounts_alike hdistinct hnn id
  rw [hsum, coinbases_spend₁.1]
  exact ⟨hlast.trans hsum, rfl⟩

/-- The snapshot records the ledger that the first block replays to. -/
theorem recordsReplay_spentSnapshot : recorded.RecordsReplay spentDB spentSnapshot := by
  obtain ⟨hnil, hok, -⟩ := endowed_read
  obtain ⟨m, hreplay⟩ := Res.isNil_iff.mp hnil
  have hview : spentLedger.view = m := by
    refine (Node.view_applyBlocks_eq_replay_iff hok hreplay
      (funext (Ledger.getNonce_ofAllocations _)) (funext Node.nonce_genesisSim)).mpr
      ⟨fun id => ?_, coinbases_spend₁.2⟩
    rw [Ledger.getBalance_ofAllocations, Node.bal_genesisSim]
    exact (allocationsAlike_endowed id).2
  refine ⟨[spend₁], ?_, rfl, ?_⟩
  · rw [tipHash_spentSnapshot]
    exact completeChain_spentDB.path
  · rw [spentSnapshot, view_snapshotOf, hview]
    exact hreplay

/-- A genesis file that gives alice 100. -/
def givingGenesis : Genesis := ⟨"sample", 1, 1, 8, [⟨alice, "100"⟩]⟩

/-- The snapshot of the genesis ledger. -/
def rootSnapshot : Snapshot :=
  snapshotOf (Ledger.ofAllocations givingGenesis.allocations) 0
    { node with genesis := givingGenesis }.genesisHash

/-- The node of this genesis file, with fork validation and the snapshot as a file. -/
def giving : Node :=
  { issuing true with
    genesis := givingGenesis
    snapshotDir := (∅ : Table SnapshotFile).insert "state_0.json.gz" ⟨some rootSnapshot, none⟩ }

/-- Its database before the first block. -/
def givingDB : DB := giving.genesisDB ∅

/-- A first block in which alice spends 150 of her 100. -/
def overspend₁ : Block :=
  child giving.genesisBlock 1 0x20010000 [coinbase bob, transfer alice 1 [pay bob 150]]

/-- A first block without a payment. -/
def quiet₁ : Block := child giving.genesisBlock 1 0x20010000 [coinbase bob]

/-- The fork validator accepts both blocks, and only the second applies to the genesis ledger. -/
theorem givingDB_read :
    giving.validateBlockStateOnMainParent givingDB quiet₁ = .ok () ∧
    (giving.applyBlockToSim giving.genesisSim quiet₁).isNil = true ∧
    giving.forkStateChecked givingDB overspend₁ = true ∧
    giving.validateBlockStateOnMainParent givingDB overspend₁ = .ok () ∧
    (giving.applyBlockToSim giving.genesisSim overspend₁).isNil = false ∧
    (givingGenesis.allocations.map Allocation.address).Nodup ∧
    ∀ a ∈ givingGenesis.allocations, ¬ parseInt64 a.balance < 0 := by
  decide +kernel

/-- The only file is truthful: it has the ledger of the chain without blocks. -/
theorem recordingFiles_giving :
    giving.RecordingFiles givingDB ∧ giving.TruthfulSnapshots givingDB := by
  obtain ⟨-, -, -, -, -, hdistinct, hnn⟩ := givingDB_read
  have hroot : givingDB.blockByHash giving.genesisHash = some giving.genesisBlock := by
    rw [givingDB, Node.blockByHash_genesisDB, Function.update_self]
  have hview : rootSnapshot.view = giving.genesisSim := by
    ext1
    · funext id
      rw [Node.bal_genesisSim]
      exact (Ledger.getBalance_ofAllocations givingGenesis.allocations id).trans
        (amounts_alike hdistinct hnn id).2
    · funext id
      rw [Node.nonce_genesisSim]
      exact Ledger.getNonce_ofAllocations givingGenesis.allocations id
  have hpath : givingDB.RootPath rootSnapshot.tipHash [] := .root hroot rfl
  constructor
  · intro name f ss hfile hss
    obtain rfl := eq_of_singleFile hfile
    obtain rfl : rootSnapshot = ss := by simpa using hss
    exact ⟨[], hpath, rfl, by rw [hview]; rfl⟩
  · intro name f ss hfile hss
    obtain rfl := eq_of_singleFile hfile
    obtain rfl : rootSnapshot = ss := by simpa using hss
    exact ⟨giving.genesisBlock, [], _, hroot, rfl, hpath, rfl, rfl, rfl⟩

/-- A genesis file with two entries for alice. -/
def twiceGenesis : GenesisFile := ⟨⟨"sample", 1, 1, 8, [⟨alice, "60"⟩, ⟨alice, "40"⟩]⟩, none⟩

/-- The node that starts from it. -/
def twice : Node := { node with genesis := twiceGenesis.toGenesis }

/-- The file is accepted, and the two entries are read in two ways. -/
theorem twice_read :
    twiceGenesis.validate = .ok () ∧
    (twice.applyStateUpTo (twice.genesisDB ∅) 0).2.ledger.getBalance alice = 40 ∧
    (twice.rebuildStateFromFinalized (twice.genesisDB ∅)).2.ledger.getBalance alice = 100 := by
  decide +kernel

end Sample

namespace Node

open Sample

/-- The snapshot of the first block is read to validate the second one, and the result is that of a
replay from genesis. -/
theorem forkExact_spend₂ :
    recorded.pickedSnapshot 1 = some spentSnapshot ∧
    recorded.ForkExact spentDB [spend₁] spend₂ := by
  obtain ⟨-, -, -, -, -, -, hgate, -⟩ := spentDB_read
  -- the gates read neither the allocations nor the snapshots
  have hsame : ∀ (n : Node) (g : Genesis) (dir : Table SnapshotFile) (s : DB) (b : Block),
      { n with genesis := g, snapshotDir := dir }.forkStateChecked s b = n.forkStateChecked s b :=
    fun _ _ _ _ _ => rfl
  rw [← hsame _ endowed.genesis recorded.snapshotDir] at hgate
  have hpick : recorded.pickedSnapshot 1 = some spentSnapshot := by
    have hlist := listSnapshots_withSnapshot spentSnapshot
    have hread := readSnapshot_withSnapshot spentSnapshot
    have hname : pickSnapshotForHeight ["state_1.json.gz"] 1 = "state_1.json.gz" := by
      decide +kernel
    simp [pickedSnapshot, recorded, hlist, hname, hread]
  have hparent : spend₂.header.height - 1 = 1 := by decide
  have hfiles : recorded.RecordingFiles spentDB := by
    intro name f ss hfile hss
    obtain rfl := eq_of_singleFile hfile
    obtain rfl : spentSnapshot = ss := by simpa using hss
    exact recordsReplay_spentSnapshot
  refine ⟨hpick, (forkExact_of_startsRight _ _ _ completeChain_spentDB hfiles hgate
    (by rw [hparent]; exact UInt64.le_rfl) ?_).1 (startsRight_of_onChain hfiles ?_)⟩
  · intro ss hss
    rw [hparent, hpick] at hss
    obtain rfl := Option.some.inj hss
    decide
  · intro ss hss
    rw [hparent, hpick] at hss
    obtain rfl := Option.some.inj hss
    rw [hparent]
    have hmain : spentDB.RootPath spentSnapshot.tipHash [spend₁] := by
      rw [tipHash_spentSnapshot]
      exact completeChain_spentDB.path
    exact ⟨by decide, by decide, hmain⟩

/-- With a snapshot of height zero the allocations are counted twice: alice spends more than she
has, and the fork validator accepts it. About a block without payments its verdict is right, with
the same wrong ledger. -/
theorem not_forkExact_overspend :
    givingDB.CompleteChain 0 giving.genesisHash [] ∧
    giving.RecordingFiles givingDB ∧
    giving.TruthfulSnapshots givingDB ∧
    giving.forkStateChecked givingDB overspend₁ = true ∧
    overspend₁.header.height - 1 ≤ 0 ∧
    ¬ giving.ForkExact givingDB [] overspend₁ ∧
    giving.ForkExact givingDB [] quiet₁ := by
  obtain ⟨hidle, happlies, hgate, hval, hfail, -⟩ := givingDB_read
  obtain ⟨hrec, htrue⟩ := recordingFiles_giving
  refine ⟨completeChain_genesisDB ∅, hrec, htrue, hgate, by decide, fun hexact => ?_, ?_⟩
  · obtain ⟨m, m', hm, happ⟩ := hexact.mp hval
    -- the replay of no block ends in the genesis ledger
    have hm : giving.replay giving.genesisSim [] = .ok m := hm
    rw [replay] at hm
    obtain rfl := Except.ok.inj hm
    rw [happ] at hfail
    cases hfail
  · obtain ⟨m', happ⟩ := Res.isNil_iff.mp happlies
    exact iff_of_true hidle ⟨giving.genesisSim, m', rfl, happ⟩

/-- Different accounts, one block that earns and spends: the three reconstructions agree. -/
theorem pathsAgree_spend₁ :
    endowed.AllocationsAlike [spend₁] ∧ endowed.PathsAgree spentDB 1 := by
  have halike := allocationsAlike_endowed
  obtain ⟨hnil, hok, -⟩ := endowed_read
  rw [Ledger.applyBlocks_ok_iff_covered,
    funext (Ledger.getBalance_ofAllocations endowed.genesis.allocations)] at hok
  exact ⟨halike, (pathsAgree_iff endowed spentDB rfl completeChain_spentDB
    (by decide) (Res.isNil_iff.mp hnil)).mpr ⟨halike, coinbases_spend₁.2, hok⟩⟩

/-- Two allocations to alice: `ApplyStateUpTo` keeps the last one, 40, and the other two paths add
them up to 100. -/
theorem not_pathsAgree_twice :
    twiceGenesis.validate = .ok () ∧ twice.genesis = twiceGenesis.toGenesis ∧
    listSnapshots twice.snapshotDir = [] ∧
    (twice.genesisDB ∅).CompleteChain 0 twice.genesisHash [] ∧
    twice.replay twice.genesisSim [] = .ok twice.genesisSim ∧
    ¬ twice.PathsAgree (twice.genesisDB ∅) 0 := by
  obtain ⟨hacc, hup, hre⟩ := twice_read
  refine ⟨hacc, rfl, rfl, completeChain_genesisDB ∅, rfl, ?_⟩
  rintro ⟨m, -, ⟨-, hwritten⟩, -, hadded⟩
  have halice := congrFun (congrArg Sim.bal (hwritten.trans hadded.symm)) alice
  rw [Ledger.view_bal, Ledger.view_bal, hup, hre] at halice
  exact absurd halice (by decide)

end Node

end ReserveOS
