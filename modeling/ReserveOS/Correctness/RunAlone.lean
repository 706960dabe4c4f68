import ReserveOS.Node.Accesses

/-!
# `SubmitBlock` without interference

Run alone, each program of accesses computes what the function of the same name computes, and
`submitBlockCall` computes `submitBlock` (`run_submitBlockCall`). Two of them take an argument: the
simulation at the tip reads an account once and then keeps it in a map, where `simulateTip` works on
a copy of the whole ledger, and `ResetState` deletes the keys that it has listed.
-/

namespace ReserveOS

open Concurrent (Prog)
open Concurrent.Prog

namespace Call

variable {α β : Type} {p : Call (Res α)} {f : α → Call (Res β)} {s s' : DB}

theorem run_andThen_error {e : Fault} (hp : p.run s = (.error e, s')) :
    (andThen p f).run s = (.error e, s') := by
  simp [andThen, hp]

theorem run_andThen_ok {a : α} (hp : p.run s = (.ok a, s')) :
    (andThen p f).run s = (f a).run s' := by
  simp [andThen, hp]

theorem run_andThen_pure (hp : (p.run s).2 = s) {g : α → Res β}
    (hf : ∀ a, (f a).run s = (g a, s)) :
    (andThen p f).run s = ((p.run s).1.bind g, s) := by
  cases h : (p.run s).1 with
  | error e => exact run_andThen_error (Prod.ext h hp)
  | ok a => exact (run_andThen_ok (Prod.ext h hp)).trans (hf a)

/-! ### Storage -/

@[simp] theorem run_getBlockByHash (x : String) (s : DB) :
    (getBlockByHash x).run s = (s.blockByHash x, s) := rfl

@[simp] theorem run_getBlockByHeight (h : UInt64) (s : DB) :
    (getBlockByHeight h).run s = (s.getBlockByHeight h, s) := by
  unfold getBlockByHeight DB.getBlockByHeight getHashByHeight
  rw [run_bind, run_read]
  cases s.hashByHeight h with
  | none => rfl
  | some x =>
      dsimp only
      rw [run_bind, run_getBlockByHash]
      cases hb : s.blockByHash x <;> simp [hb]

@[simp] theorem run_getTip (s : DB) : getTip.run s = (s.getTip, s) := by
  unfold getTip DB.getTip
  rw [run_bind, run_read]
  cases s.tipHeight with
  | none => rfl
  | some h =>
      dsimp only
      rw [run_bind, run_read]
      cases s.tipBlockID <;> rfl

@[simp] theorem run_putTip (h : UInt64) (x : String) (s : DB) :
    (putTip h x).run s = ((), s.putTip h x) := rfl

@[simp] theorem run_getFinalized (s : DB) : getFinalized.run s = (s.finalized, s) := by
  unfold getFinalized
  rw [run_bind, run_read]
  cases hf : s.finalized with
  | none => rfl
  | some fin =>
      dsimp only [Option.map]
      rw [run_bind, run_read, hf]
      rfl

@[simp] theorem run_putFinalized (h : UInt64) (x : String) (s : DB) :
    (putFinalized h x).run s = ((), s.putFinalized h x) := by
  unfold putFinalized DB.putFinalized
  cases hf : s.finalized <;> simp [hf]

theorem run_each {f : α → Call Unit} {g : DB → α → DB}
    (hf : ∀ a s, (f a).run s = ((), g s a)) (as : List α) (s : DB) :
    (each f as).run s = ((), as.foldl g s) := by
  induction as generalizing s with
  | nil => rfl
  | cons a as ih => rw [each, run_bind, hf, ih, List.foldl_cons]

end Call

namespace Table

/-- Reading a table after a list of deletions. -/
theorem getElem?_eraseAll {V : Type} (t : Table V) (ks : List String) (a : String) :
    (ks.foldl (fun t k => t.erase k) t)[a]? = if a ∈ ks then none else t[a]? := by
  induction ks generalizing t with
  | nil => simp
  | cons k ks ih =>
      rw [List.foldl_cons, ih, Std.ExtTreeMap.getElem?_erase]
      by_cases ha : a ∈ ks
      · simp [ha]
      · by_cases hk : k = a
        · simp [hk]
        · simp [ha, hk, Ne.symm hk]

/-- Deleting every listed key empties a table. -/
theorem eraseAll_keys {V : Type} (t : Table V) :
    (t.toList.map Prod.fst).foldl (fun t k => t.erase k) t = ∅ := by
  apply Std.ExtTreeMap.ext_getElem?
  intro a
  rw [getElem?_eraseAll]
  split
  next => simp
  next hnot =>
    -- a key that is not listed has no entry
    cases hv : t[a]? with
    | none => simp
    | some v => exact absurd (List.mem_map.mpr ⟨(a, v), (mem_toList_iff t a v).mpr hv, rfl⟩) hnot

end Table

namespace Call

@[simp] theorem run_resetState (s : DB) :
    resetState.run s = ((), { s with ledger := Ledger.empty }) := by
  unfold resetState
  rw [run_bind, run_read, run_bind, run_read, run_write]
  dsimp only
  rw [Ledger.deleteKeys, Table.eraseAll_keys, Table.eraseAll_keys]
  rfl

/-- A fold over the ledger alone. -/
theorem foldl_ledger {α : Type} (g : Ledger → α → Ledger) (as : List α) (s : DB) :
    as.foldl (fun s a => { s with ledger := g s.ledger a }) s =
      { s with ledger := as.foldl g s.ledger } := by
  induction as generalizing s with
  | nil => rfl
  | cons a as ih => rw [List.foldl_cons, List.foldl_cons, ih]

@[simp] theorem run_restoreSnapshot (ss : Snapshot) (s : DB) :
    (restoreSnapshot ss).run s = ((), { s with ledger := ReserveOS.restoreSnapshot ss }) := by
  unfold restoreSnapshot
  have hbal : ∀ (e : String × Int64) (s : DB), (setBalance e.1 e.2).run s =
      ((), { s with ledger := s.ledger.setBalance e.1 e.2 }) := fun _ _ => rfl
  have hnonce : ∀ (e : String × UInt64) (s : DB), (setNonce e.1 e.2).run s =
      ((), { s with ledger := s.ledger.setNonce e.1 e.2 }) := fun _ _ => rfl
  rw [run_bind, run_resetState, run_bind, run_each hbal, run_each hnonce,
    foldl_ledger fun l (e : String × Int64) => l.setBalance e.1 e.2,
    foldl_ledger fun l (e : String × UInt64) => l.setNonce e.1 e.2]
  rfl

theorem run_addBalance_error {id : String} {d : Int64} {s : DB} {e : Fault}
    (h : s.ledger.addBalance id d = .error e) : (addBalance id d).run s = (.error e, s) := by
  unfold Ledger.addBalance at h
  unfold addBalance getBalance
  rw [run_bind, run_read]
  dsimp only
  split at h
  next hneg =>
    rw [if_pos hneg, run_pure, Except.error.inj h]
  next => cases h

theorem run_addBalance_ok {id : String} {d : Int64} {s : DB} {l : Ledger}
    (h : s.ledger.addBalance id d = .ok l) :
    (addBalance id d).run s = (.ok (), { s with ledger := l }) := by
  obtain ⟨hnn, rfl⟩ := Ledger.addBalance_eq_ok_iff.mp h
  unfold addBalance getBalance
  rw [run_bind, run_read]
  dsimp only
  rw [if_neg hnn]
  rfl

/-! ### The simulation at the tip -/

namespace Cache

/-- The maps stand for a working copy: an account that is not in them is read from the database. -/
structure Views (c : Cache) (s : DB) (m : Sim) : Prop where
  bal : ∀ id, m.bal id = c.bal[id]?.getD (s.ledger.getBalance id)
  nonce : ∀ id, m.nonce id = c.nonce[id]?.getD (s.ledger.getNonce id)

variable {c : Cache} {s : DB} {m : Sim}

/-- Reading a balance through the cache gives that of the working copy. -/
theorem Views.getBal (h : c.Views s m) (id : String) :
    ∃ c', (c.getBal id).run s = ((m.bal id, c'), s) ∧ c'.Views s m := by
  unfold Cache.getBal
  rw [h.bal id]
  cases hc : c.bal[id]? with
  | some v => exact ⟨c, rfl, h⟩
  | none =>
      refine ⟨_, rfl, fun a => ?_, h.nonce⟩
      rw [Table.getElem?_put, h.bal a]
      split
      next heq => rw [← heq, hc]; rfl
      next => rfl

/-- So it is for nonces. -/
theorem Views.getNon (h : c.Views s m) (id : String) :
    ∃ c', (c.getNon id).run s = ((m.nonce id, c'), s) ∧ c'.Views s m := by
  unfold Cache.getNon
  rw [h.nonce id]
  cases hc : c.nonce[id]? with
  | some v => exact ⟨c, rfl, h⟩
  | none =>
      refine ⟨_, rfl, h.bal, fun a => ?_⟩
      rw [Table.getElem?_put, h.nonce a]
      split
      next heq => rw [← heq, hc]; rfl
      next => rfl

theorem Views.setBal (h : c.Views s m) (id : String) (v : Int64) :
    (c.setBal id v).Views s (m.setBal id v) := by
  refine ⟨fun a => ?_, h.nonce⟩
  rw [Cache.setBal, Table.getElem?_put, Sim.bal_setBal, Function.update_apply]
  by_cases ha : a = id
  · simp [ha]
  · simp [ha, Ne.symm ha, h.bal a]

theorem Views.setNon (h : c.Views s m) (id : String) (v : UInt64) :
    (c.setNon id v).Views s (m.setNonce id v) := by
  refine ⟨h.bal, fun a => ?_⟩
  rw [Cache.setNon, Table.getElem?_put, Sim.nonce_setNonce, Function.update_apply]
  by_cases ha : a = id
  · simp [ha]
  · simp [ha, Ne.symm ha, h.nonce a]

theorem Views.addBal (h : c.Views s m) (id : String) (v : Int64) :
    ∃ c', (c.addBal id v).run s = (c', s) ∧ c'.Views s (m.addBal id v) := by
  obtain ⟨c', hrun, h'⟩ := h.getBal id
  refine ⟨_, ?_, h'.setBal id (m.bal id + v)⟩
  rw [Cache.addBal, run_bind, hrun]
  rfl

/-- Crediting outputs in the cache is crediting them in the working copy. -/
theorem Views.creditOutputs (h : c.Views s m) (outs : List TxOut) :
    ∃ c', (c.creditOutputs outs).run s = (c', s) ∧ c'.Views s (m.creditOutputs outs) := by
  induction outs generalizing c m with
  | nil => exact ⟨c, rfl, h⟩
  | cons o outs ih =>
      unfold Cache.creditOutputs
      rw [Sim.creditOutputs, List.foldl_cons, ← Sim.creditOutputs]
      split
      · obtain ⟨c', hrun, h'⟩ := h.addBal o.address o.amount
        obtain ⟨c'', hrun', h''⟩ := ih h'
        exact ⟨c'', by rw [run_bind, hrun, hrun'], h''⟩
      · split
        · obtain ⟨c', hrun, h'⟩ := h.addBal (otapBucket o.P) o.amount
          obtain ⟨c'', hrun', h''⟩ := ih h'
          exact ⟨c'', by rw [run_bind, hrun, hrun'], h''⟩
        · exact ih h

/-- One transaction on the cache and on the working copy: both fail alike, or both go on. -/
theorem Views.simTx (h : c.Views s m) (tx : Tx) :
    (∃ e, m.simTx tx = .error e ∧ (c.simTx tx).run s = (.error e, s)) ∨
      ∃ m' c', m.simTx tx = .ok m' ∧ (c.simTx tx).run s = (.ok c', s) ∧ c'.Views s m' := by
  -- both read the nonce first, the maps from the database if it is not there
  obtain ⟨c₁, hrun₁, h₁⟩ := h.getNon tx.normalize.fromId
  unfold Cache.simTx Sim.simTx
  rw [run_bind, hrun₁]
  dsimp only
  split
  · exact Or.inl ⟨_, rfl, rfl⟩
  replace h₁ := h₁.setNon tx.normalize.fromId tx.normalize.nonce
  split
  · -- a claim debits its bucket
    cases tx.normalize.otapClaim with
    | none => exact Or.inl ⟨_, rfl, rfl⟩
    | some cl =>
        obtain ⟨c₂, hrun₂, h₂⟩ := h₁.getBal (otapBucket cl.P)
        dsimp only
        rw [run_bind, hrun₂]
        dsimp only
        split
        · exact Or.inl ⟨_, rfl, rfl⟩
        · obtain ⟨c₃, hrun₃, h₃⟩ := (h₂.setBal (otapBucket cl.P) _).addBal cl.toId cl.amount
          exact Or.inr ⟨_, c₃, rfl, by rw [run_bind, hrun₃]; rfl, h₃⟩
  · -- a transfer debits its sender
    obtain ⟨c₂, hrun₂, h₂⟩ := h₁.getBal tx.normalize.fromId
    rw [run_bind, hrun₂]
    dsimp only
    split
    · exact Or.inl ⟨_, rfl, rfl⟩
    · obtain ⟨c₃, hrun₃, h₃⟩ := (h₂.setBal tx.normalize.fromId _).creditOutputs tx.normalize.outputs
      exact Or.inr ⟨_, c₃, rfl, by rw [run_bind, hrun₃]; rfl, h₃⟩

/-- The loop over the maps ends as the loop over the working copy. -/
theorem Views.simTxs (h : c.Views s m) (txs : List Tx) :
    ((c.simTxs txs).run s).2 = s ∧ ((c.simTxs txs).run s).1.bind (fun _ => .ok ()) =
        (m.simTxs txs).bind fun _ => (.ok () : Res Unit) := by
  induction txs generalizing c m with
  | nil => exact ⟨rfl, rfl⟩
  | cons tx txs ih =>
      rw [Cache.simTxs, Sim.simTxs]
      rcases h.simTx tx with ⟨e, hsim, hrun⟩ | ⟨m', c', hsim, hrun, h'⟩
      · rw [run_andThen_error hrun, hsim]
        exact ⟨rfl, rfl⟩
      · rw [run_andThen_ok hrun, hsim]
        exact ih h'

end Cache

end Call

namespace Node

variable (n : Node)

/-! ### Validation -/

/-- The simulation at the tip. -/
theorem run_simulateTipCall (b : Block) (s : DB) :
    ((n.simulateTipCall b).run s).2 = s ∧ ((n.simulateTipCall b).run s).1.bind (fun _ => .ok ()) =
        (n.simulateTip s.ledger.view b).bind fun _ => (.ok () : Res Unit) := by
  -- at the start the maps are empty
  have hview : (⟨∅, ∅⟩ : Call.Cache).Views s s.ledger.view := ⟨fun _ => by simp, fun _ => by simp⟩
  unfold simulateTipCall simulateTip
  split
  · cases b.txs with
    | nil => exact ⟨rfl, rfl⟩
    | cons cb rest =>
        cases hout : cb.outputs with
        | nil => simp [hout, Except.bind]
        | cons o outs =>
            obtain ⟨c, hrun, hc⟩ := hview.addBal o.address o.amount
            simp only [hout, run_bind, hrun]
            exact hc.simTxs rest
  · exact hview.simTxs _

/-- The tip validator, run alone. -/
@[simp] theorem run_validateBlockStateTipCall (b : Block) (s : DB) :
    (n.validateBlockStateTipCall b).run s = (n.validateBlockStateTip s.ledger b, s) := by
  obtain ⟨hstate, hres⟩ := n.run_simulateTipCall b s
  unfold validateBlockStateTipCall validateBlockStateTip
  rw [Call.run_andThen_pure hstate (fun _ => rfl)]
  -- the two simulations fail together, with the same error
  cases hsim : n.simulateTip s.ledger.view b with
  | error e =>
      rw [hsim] at hres
      cases hcall : ((n.simulateTipCall b).run s).1 with
      | error e' =>
          rw [hcall] at hres
          rw [show e' = e from Except.error.inj hres]
          rfl
      | ok c =>
          rw [hcall] at hres
          cases hres
  | ok m =>
      rw [hsim] at hres
      cases hcall : ((n.simulateTipCall b).run s).1 with
      | error e' =>
          rw [hcall] at hres
          cases hres
      | ok c => rfl

@[simp] theorem run_replayIndexCall (count : ℕ) (h : UInt64) (m : Sim) (s : DB) :
    (n.replayIndexCall count h m).run s = (n.replayIndex s count h m, s) := by
  induction count generalizing h m with
  | zero => rfl
  | succ count ih =>
      rw [replayIndexCall, replayIndex, run_bind, Call.run_getBlockByHeight]
      cases s.getBlockByHeight h with
      | none => rfl
      | some entry =>
          dsimp only
          cases n.applyBlockToSim m entry.2 with
          | error e => rfl
          | ok m' => exact ih _ _

/-- The fork validator, run alone. -/
@[simp] theorem run_validateBlockStateOnMainParentCall (b : Block) (s : DB) :
    (n.validateBlockStateOnMainParentCall b).run s = (n.validateBlockStateOnMainParent s b, s) := by
  unfold validateBlockStateOnMainParentCall validateBlockStateOnMainParent forkStateChecked
  by_cases hgate : (n.cfg.validation.validateForkState && b.header.height ≠ 0) = true
  · rw [if_pos hgate, hgate, Bool.true_and, run_bind, Call.run_getBlockByHeight]
    dsimp only
    cases hpar : s.getBlockByHeight (b.header.height - 1) with
    | none => rfl
    | some p =>
        dsimp only
        by_cases hhash : n.hashHex p.2.header = b.prevHex
        · rw [if_neg (not_not.mpr hhash), run_bind, Call.run_getTip]
          dsimp only
          split
          next hreplay => simp [hhash, hreplay]
          next hreplay =>
            rw [Call.run_andThen_pure (by rw [run_replayIndexCall]) (fun _ => rfl),
              run_replayIndexCall]
            simp [hhash, hreplay, mainParentSim]
        · simp [hhash]
  · rw [if_neg hgate, Bool.eq_false_iff.mpr hgate]
    rfl

/-! ### Applying blocks -/

theorem run_creditOutputsCall (outs : List TxOut) (s : DB) :
    (creditOutputsCall outs).run s =
      ((s.ledger.creditOutputs outs).1, { s with ledger := (s.ledger.creditOutputs outs).2 }) := by
  induction outs generalizing s with
  | nil => rfl
  | cons o outs ih =>
      rw [creditOutputsCall, Ledger.creditOutputs]
      split
      · cases hadd : s.ledger.addBalance o.address o.amount with
        | error e => exact Call.run_andThen_error (Call.run_addBalance_error hadd)
        | ok l => exact (Call.run_andThen_ok (Call.run_addBalance_ok hadd)).trans (ih _)
      · split
        · cases hadd : s.ledger.addBalance (otapBucket o.P) o.amount with
          | error e => exact Call.run_andThen_error (Call.run_addBalance_error hadd)
          | ok l => exact (Call.run_andThen_ok (Call.run_addBalance_ok hadd)).trans (ih _)
        · exact ih s

/-- Applying a transaction, run alone. -/
theorem run_applyTxCall (tx : Tx) (s : DB) :
    (applyTxCall tx).run s =
      ((s.ledger.applyTx tx).1, { s with ledger := (s.ledger.applyTx tx).2 }) := by
  unfold applyTxCall Ledger.applyTx
  dsimp only
  -- the first balance change that fails ends both
  cases (if tx.normalize.type = "otap_claim" then tx.normalize.otapClaim else none) with
  | some c =>
      dsimp only
      rw [run_bind]
      cases hdebit : (s.ledger.setNonce tx.normalize.fromId tx.normalize.nonce).addBalance
          (otapBucket c.P) (-(c.amount + tx.normalize.fee)) with
      | error e => exact Call.run_andThen_error (Call.run_addBalance_error hdebit)
      | ok l =>
          refine (Call.run_andThen_ok (Call.run_addBalance_ok hdebit)).trans ?_
          dsimp only
          cases hcredit : l.addBalance c.toId c.amount with
          | error e => exact Call.run_addBalance_error hcredit
          | ok l' => exact Call.run_addBalance_ok hcredit
  | none =>
      dsimp only
      split
      · cases hdebit : s.ledger.addBalance tx.normalize.fromId
            (-(outTotal tx.normalize.outputs + tx.normalize.fee)) with
        | error e => exact Call.run_andThen_error (Call.run_addBalance_error hdebit)
        | ok l =>
            refine (Call.run_andThen_ok (Call.run_addBalance_ok hdebit)).trans ?_
            exact run_creditOutputsCall _ _
      · exact run_creditOutputsCall _ _

theorem run_applyTxsCall (txs : List Tx) (s : DB) :
    (n.applyTxsCall txs).run s = n.applyTxs s txs := by
  induction txs generalizing s with
  | nil => rfl
  | cons tx txs ih =>
      rw [applyTxsCall, applyTxs, run_bind, run_write]
      dsimp only
      have hrun := run_applyTxCall tx (s.putTx (tx.id n.prim.sha256) tx)
      rcases hres : (s.putTx (tx.id n.prim.sha256) tx).ledger.applyTx tx with ⟨res, l⟩
      rw [hres] at hrun
      cases res with
      | error e => exact Call.run_andThen_error hrun
      | ok u => exact (Call.run_andThen_ok hrun).trans (ih _)

theorem run_applyBlockTxsCall (b : Block) (s : DB) :
    (n.applyBlockTxsCall b).run s = n.applyBlockTxs s b := by
  have hrun := n.run_applyTxsCall b.txs s
  unfold applyBlockTxsCall applyBlockTxs
  rcases hres : n.applyTxs s b.txs with ⟨res, s'⟩
  rw [hres] at hrun
  cases res with
  | error e => exact Call.run_andThen_error hrun
  | ok u => exact Call.run_andThen_ok hrun

theorem run_replayMainChainCall (count : ℕ) (h : UInt64) (s : DB) :
    (n.replayMainChainCall count h).run s = n.replayMainChain count h s := by
  induction count generalizing h s with
  | zero => rfl
  | succ count ih =>
      rw [replayMainChainCall, replayMainChain, run_bind, Call.run_getBlockByHeight]
      cases s.getBlockByHeight h with
      | none => rfl
      | some entry =>
          have hrun := n.run_applyBlockTxsCall entry.2 s
          dsimp only
          rcases hres : n.applyBlockTxs s entry.2 with ⟨res, s'⟩
          rw [hres] at hrun
          cases res with
          | error e => exact Call.run_andThen_error hrun
          | ok u => exact (Call.run_andThen_ok hrun).trans (ih _ _)

/-- The reset to the allocations, run alone. -/
theorem run_resetToGenesisCall (s : DB) :
    n.resetToGenesisCall.run s =
      ((), { s with ledger := Ledger.ofAllocations n.genesis.allocations }) := by
  have hstep : ∀ (a : Allocation) (s : DB), ((do
      let _ ← Call.addBalance a.address (parseInt64 a.balance)
      pure () : Call Unit)).run s = ((), { s with
        ledger :=
          ((s.ledger.addBalance a.address (parseInt64 a.balance)).toOption).getD s.ledger }) := by
    intro a s
    rw [run_bind]
    cases hadd : s.ledger.addBalance a.address (parseInt64 a.balance) with
    | error e => rw [Call.run_addBalance_error hadd]; rfl
    | ok l => rw [Call.run_addBalance_ok hadd]; rfl
  unfold resetToGenesisCall Ledger.ofAllocations
  rw [run_bind, Call.run_resetState, Call.run_each hstep,
    Call.foldl_ledger fun l (a : Allocation) =>
      ((l.addBalance a.address (parseInt64 a.balance)).toOption).getD l]
  congr 2
  refine congrFun (congrFun (congrArg List.foldl ?_) _) _
  funext l a
  cases l.addBalance a.address (parseInt64 a.balance) <;> rfl

/-- The replay after the base is restored. -/
theorem run_replayFromCall {h : UInt64} {l : Ledger} (hbase : n.rebuildBase = (h, l)) (s : DB) :
    (n.replayFromCall h).run { s with ledger := l } = n.rebuildStateFromFinalized s := by
  unfold replayFromCall rebuildStateFromFinalized
  rw [hbase, run_bind, Call.run_getTip]
  dsimp only
  cases DB.getTip { s with ledger := l } with
  | none => rfl
  | some tip => exact n.run_replayMainChainCall _ _ _

/-- The rebuild, run alone. -/
@[simp] theorem run_rebuildStateFromFinalizedCall (s : DB) :
    n.rebuildStateFromFinalizedCall.run s = n.rebuildStateFromFinalized s := by
  unfold rebuildStateFromFinalizedCall
  cases hsnap : (listSnapshots n.snapshotDir).getLast?.bind (readSnapshotAuto n.snapshotDir) with
  | none =>
      dsimp only
      rw [run_bind, run_resetToGenesisCall]
      exact n.run_replayFromCall (by rw [rebuildBase, hsnap]) s
  | some ss =>
      dsimp only
      rw [run_bind, Call.run_restoreSnapshot]
      split
      next hzero =>
        rw [run_bind, run_resetToGenesisCall]
        exact n.run_replayFromCall (by rw [rebuildBase, hsnap]; exact if_pos hzero) s
      next hpos => exact n.run_replayFromCall (by rw [rebuildBase, hsnap]; exact if_neg hpos) s

/-! ### Checkpoints -/

/-- `tryFinalizeHeight`, run alone. -/
theorem run_tryFinalizeHeightCall (now : Int64) (height : UInt64) (hashHex : String) (s : DB) :
    (n.tryFinalizeHeightCall now height hashHex).run s =
      ((), n.tryFinalizeHeight now s height hashHex) := by
  unfold tryFinalizeHeightCall tryFinalizeHeight
  rw [run_bind, run_read, run_bind, run_read]
  show (if n.quorumReached s height hashHex = true then _ else _ : Call Unit).run s = _
  split
  · rw [run_bind, Call.run_putFinalized]
    rfl
  · rfl

/-- Checkpoint voting, run alone. -/
@[simp] theorem run_processCheckpointVotesCall (now : Int64) (cp : Checkpoint) (s : DB) :
    (n.processCheckpointVotesCall now cp).run s = ((), n.processCheckpointVotes now s cp) := by
  unfold processCheckpointVotesCall processCheckpointVotes
  split
  · rfl
  split
  · rfl
  cases parsePriv n.localPrivHex with
  | none => rfl
  | some priv =>
      dsimp only
      rw [run_bind, run_read]
      dsimp only
      split
      · exact n.run_tryFinalizeHeightCall now _ _ s
      · rw [run_bind, run_write]
        exact n.run_tryFinalizeHeightCall now _ _ _

/-! ### Fork choice -/

@[simp] theorem run_switchAnchorCall (s : DB) : switchAnchorCall.run s = (s.switchAnchor, s) := by
  unfold switchAnchorCall DB.switchAnchor
  rw [run_bind, Call.run_getFinalized]
  cases s.finalized with
  | some fin => rfl
  | none =>
      dsimp only
      rw [run_bind, Call.run_getBlockByHeight]
      cases s.getBlockByHeight 0 <;> rfl

/-- The walk back, run alone. -/
@[simp] theorem run_walkBackCall (finH : UInt64) (k : ℕ) (x : String) (path : List String)
    (s : DB) :
    (walkBackCall finH k x path).run s = (s.walkBack finH k x path, s) := by
  induction k generalizing x path with
  | zero =>
      rw [walkBackCall, DB.walkBack]
      split
      · rfl
      · rw [run_bind, Call.run_getBlockByHash]
        cases s.blockByHash x <;> rfl
  | succ k ih =>
      rw [walkBackCall, DB.walkBack]
      split
      · rfl
      · rw [run_bind, Call.run_getBlockByHash]
        cases s.blockByHash x with
        | none => rfl
        | some b =>
            dsimp only
            split
            · rfl
            · exact ih _ _

@[simp] theorem run_rewriteIndexCall (h : UInt64) (path : List String) (s : DB) :
    (rewriteIndexCall h path).run s = ((), s.rewriteIndex h path) := by
  induction path generalizing h s with
  | nil => rfl
  | cons x path ih =>
      rw [rewriteIndexCall, DB.rewriteIndex, run_bind]
      exact ih _ _

/-- The chain switch, run alone. -/
@[simp] theorem run_trySwitchMainChainCall (x : String) (h : UInt64) (s : DB) :
    (n.trySwitchMainChainCall x h).run s = n.trySwitchMainChain s x h := by
  unfold trySwitchMainChainCall trySwitchMainChain DB.candidatePath
  cases hanchor : s.switchAnchor with
  | error e => exact Call.run_andThen_error (by rw [run_switchAnchorCall, hanchor])
  | ok fin =>
      have hrun : switchAnchorCall.run s = (.ok fin, s) := by rw [run_switchAnchorCall, hanchor]
      rw [Call.run_andThen_ok hrun, Except.bind]
      split
      · rfl
      cases hwalk : s.walkBack fin.1 h.toNat x [] with
      | error e => exact Call.run_andThen_error (by rw [run_walkBackCall, hwalk])
      | ok path =>
          have hrun : (walkBackCall fin.1 h.toNat x []).run s = (.ok path, s) := by
            rw [run_walkBackCall, hwalk]
          rw [Call.run_andThen_ok hrun, Except.bind]
          split
          · rfl
          · simp [DB.switchTo]

/-! ### `SubmitBlock` -/

theorem run_extendTipCall (now : Int64) (b : Block) (cum : UInt64) (s : DB) :
    (n.extendTipCall now b cum).run s = n.extendTip now s b cum := by
  unfold extendTipCall extendTip
  cases hval : n.validateBlockStateTip s.ledger b with
  | error e => exact Call.run_andThen_error (by rw [run_validateBlockStateTipCall, hval])
  | ok u =>
      have hrun : (n.validateBlockStateTipCall b).run s = (.ok u, s) := by
        rw [run_validateBlockStateTipCall, hval]
      rw [Call.run_andThen_ok hrun]
      unfold advanceTip
      dsimp only
      rw [run_bind, Call.run_putTip, run_bind, run_bind]
      split
      · rw [run_bind, run_bind, run_processCheckpointVotesCall]
        rfl
      · rfl

theorem run_selectForkCall (b : Block) (cum : UInt64) (s : DB) :
    (n.selectForkCall b cum).run s = n.selectFork s b cum := by
  unfold selectForkCall selectFork Call.getTipWork
  rw [run_bind, run_read]
  dsimp only
  split
  · rw [run_bind, run_trySwitchMainChainCall]
    rcases n.trySwitchMainChain s (n.hashHex b.header) b.header.height with ⟨res, s'⟩
    -- an error of the switch is dropped by both, a panic by neither
    cases res with
    | ok u => rfl
    | error e => cases e <;> rfl
  · rfl

/-- The part of `SubmitBlock` behind the checks, run alone. -/
theorem run_storeBlockCall (now : Int64) (b : Block) (s : DB) :
    (n.storeBlockCall now b).run s =
      if extendsTip (n.stored s b) b then n.extendTip now (n.stored s b) b (cumWork s b)
      else n.selectFork (n.stored s b) b (cumWork s b) := by
  -- the parent's work is read after the block and its header are written
  have hwork : ((s.putBlock (n.hashHex b.header) b.header.height b).putHeader (n.hashHex b.header)
      b.header).getWork b.prevHex = s.getWork b.prevHex := rfl
  unfold storeBlockCall Call.putBlock Call.putHeader Call.getWork Call.putWork extendsTip
  rw [run_bind, run_write, run_bind, run_write, run_bind, run_read, run_bind, run_write, run_bind,
    Call.run_getTip]
  dsimp only
  rw [hwork, ← cumWork, ← stored]
  cases (n.stored s b).getTip with
  | none => exact n.run_selectForkCall b (cumWork s b) (n.stored s b)
  | some tip =>
      dsimp only
      split
      · exact n.run_extendTipCall now b (cumWork s b) (n.stored s b)
      · exact n.run_selectForkCall b (cumWork s b) (n.stored s b)

section Submit

variable {nextWork : UInt64 → Call (Option UInt32)}
  (hnext : ∀ h s, (nextWork h).run s = (n.prim.nextWorkRequired (indexHeader s)
    (fun k => (indexHeader s k).map BlockHeader.bits) h, s))

include hnext

/-- The checks on the parent, run alone. -/
theorem run_checkParentCall (b : Block) (s : DB) :
    (checkParentCall nextWork b).run s = (n.checkParent s b, s) := by
  unfold checkParentCall checkParent checkBits
  rw [run_bind, Call.run_getBlockByHash]
  cases s.blockByHash b.prevHex with
  | none => rfl
  | some p =>
      dsimp only
      split
      · rfl
      rw [run_bind, hnext]
      dsimp only
      cases n.prim.nextWorkRequired (indexHeader s)
          (fun k => (indexHeader s k).map BlockHeader.bits) b.header.height with
      | none => rfl
      | some expected =>
          dsimp only
          split <;> rfl

/-- Run alone, `SubmitBlock` access by access is `SubmitBlock`. -/
theorem run_submitBlockCall (now : Int64) (b : Block) (s : DB) :
    (n.submitBlockCall nextWork now b).run s = n.submitBlock now s b := by
  unfold submitBlockCall submitBlock preStore
  -- both make the checks in one order, and the accesses of a check are those of its function
  split
  · rfl
  cases n.validateLimits b with
  | error e => rfl
  | ok u =>
      rw [Except.bind]
      have hfork := n.run_validateBlockStateOnMainParentCall b s
      cases hmain : n.validateBlockStateOnMainParent s b with
      | error e => exact Call.run_andThen_error (hmain ▸ hfork)
      | ok u' =>
          rw [hmain] at hfork
          rw [Call.run_andThen_ok hfork]
          dsimp only [Except.bind]
          cases n.validateBlockBasic b with
          | error e => rfl
          | ok u'' =>
              dsimp only
              split
              · rfl
              split
              · rfl
              have hcheck := n.run_checkParentCall hnext b s
              cases hpar : n.checkParent s b with
              | error e => exact Call.run_andThen_error (hpar ▸ hcheck)
              | ok v =>
                  rw [hpar] at hcheck
                  rw [Call.run_andThen_ok hcheck]
                  exact n.run_storeBlockCall now b s

end Submit

end Node

end ReserveOS
