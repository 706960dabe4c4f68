import ReserveOS.Correctness.Admission
import ReserveOS.Correctness.Gossip
import ReserveOS.General.Mailbox
import ReserveOS.Node.HttpGossip

/-!
# Relaying transactions over P2P

A node announces every transaction that it takes into its pool (`inv_tx`), but answers a request for
one (`get_tx`) from the transaction index. Only `/tx/submit` and the application of a block write
the index; the case `tx` of the handler does not. So a node that got a transaction from a peer
announces it and never sends it on. `pooled_origin` says this for networks of nodes that run the
handler, over every order of events.
-/

namespace ReserveOS

open Mailbox

/-! ### The transaction index -/

namespace DB

/-- Every indexed transaction meets `Q`, and every transaction in a stored block meets `B`. -/
structure Sourced (Q B : Tx → Prop) (s : DB) : Prop where
  index : ∀ id tx, s.txs id = some tx → Q tx
  blocks : ∀ x b, s.blockByHash x = some b → ∀ tx ∈ b.txs, B tx

variable {Q B : Tx → Prop} {s t : DB}

theorem Sourced.of_eq (h : s.Sourced Q B) (htxs : t.txs = s.txs)
    (hblocks : t.blockByHash = s.blockByHash) : t.Sourced Q B :=
  ⟨by rw [htxs]; exact h.index, by rw [hblocks]; exact h.blocks⟩

/-- An indexed transaction needs a source. -/
theorem Sourced.putTx (h : s.Sourced Q B) {tx : Tx} (htx : Q tx) (id : String) :
    (s.putTx id tx).Sourced Q B where
  index id' tx' hget := by
    change Function.update s.txs id (some tx) id' = some tx' at hget
    rw [Function.update_apply] at hget
    split at hget
    · cases hget
      exact htx
    · exact h.index id' tx' hget
  blocks := h.blocks

theorem Sourced.getBlockByHeight (h : s.Sourced Q B) {k : UInt64} {x : String} {b : Block}
    (hget : s.getBlockByHeight k = some (x, b)) : ∀ tx ∈ b.txs, B tx :=
  h.blocks x b (DB.getBlockByHeight_eq_some_iff.mp hget).2

end DB

namespace Node

variable {n : Node} {Q B : Tx → Prop} {s : DB} {b : Block}

/-- Applying transactions indexes them, and nothing else. -/
theorem sourced_applyTxs (h : s.Sourced Q B) {txs : List Tx} (htxs : ∀ tx ∈ txs, Q tx) :
    (n.applyTxs s txs).2.Sourced Q B := by
  induction txs generalizing s with
  | nil => exact h
  | cons tx txs ih =>
      have hput := h.putTx (htxs tx List.mem_cons_self) (tx.id n.prim.sha256)
      rw [applyTxs]
      split
      · exact hput.of_eq rfl rfl
      · exact ih (hput.of_eq rfl rfl) fun tx' htx' => htxs tx' (List.mem_cons_of_mem _ htx')

/-- Applying a block indexes its own transactions. -/
theorem sourced_applyBlockTxs (h : s.Sourced Q B) (hb : ∀ tx ∈ b.txs, Q tx) :
    (n.applyBlockTxs s b).2.Sourced Q B := by
  have happly := sourced_applyTxs (n := n) h hb
  unfold applyBlockTxs
  split
  next heq =>
    rw [heq] at happly
    exact happly
  next heq =>
    rw [heq] at happly
    exact happly.of_eq rfl rfl

/-- A replay indexes transactions of stored blocks. -/
theorem sourced_replayMainChain (hBQ : ∀ tx, B tx → Q tx) (count : ℕ) (k : UInt64)
    (h : s.Sourced Q B) : (n.replayMainChain count k s).2.Sourced Q B := by
  induction count generalizing k s with
  | zero => exact h
  | succ count ih =>
      rw [replayMainChain]
      split
      · exact h
      next hget =>
        have hb := fun tx htx => hBQ tx (h.getBlockByHeight hget tx htx)
        have happly := sourced_applyBlockTxs (n := n) h hb
        split
        next heq =>
          rw [heq] at happly
          exact happly
        next heq =>
          rw [heq] at happly
          exact ih _ happly

theorem sourced_rebuild (hBQ : ∀ tx, B tx → Q tx) (h : s.Sourced Q B) :
    (n.rebuildStateFromFinalized s).2.Sourced Q B := by
  unfold rebuildStateFromFinalized
  dsimp only
  split
  · exact h.of_eq rfl rfl
  · exact sourced_replayMainChain hBQ _ _ (h.of_eq rfl rfl)

/-- Storing a block indexes no transaction. -/
theorem sourced_stored (h : s.Sourced Q B) (hb : ∀ tx ∈ b.txs, B tx) :
    (n.stored s b).Sourced Q B where
  index := h.index
  blocks x b' hget := by
    rw [blockByHash_stored] at hget
    split at hget
    · cases hget
      exact hb
    · exact h.blocks x b' hget

/-- Finality code does not touch the transaction index. -/
theorem txs_advanceTip (now : Int64) (s : DB) (b : Block) (cum : UInt64) :
    (n.advanceTip now s b cum).txs = s.txs := by
  unfold advanceTip
  dsimp only
  split
  · refine Run.closure_invariant (R := n.FinStep (fun k x => k = b.header.height ∧
      x = n.hashHex b.header) (fun k x => k = b.header.height ∧ x = n.hashHex b.header)
      fun _ => False) (I := fun t => t.txs = s.txs) (fun _ _ hstep ht => ?_)
      (finSteps_processCheckpointVotes now _ ⟨rfl, rfl⟩ ⟨rfl, rfl⟩) rfl
    cases hstep <;> exact ht
  · rfl

/-- `SubmitBlock` indexes at most transactions of stored blocks. -/
theorem sourced_submitBlock (hBQ : ∀ tx, B tx → Q tx) (h : s.Sourced Q B)
    (hb : ∀ tx ∈ b.txs, B tx) (now : Int64) : (n.submitBlock now s b).2.Sourced Q B := by
  have hstored := sourced_stored (n := n) h hb
  have hout := n.submitBlock_outcome now s b
  generalize n.submitBlock now s b = res at hout
  cases hout with
  | rejected e hpre => exact h
  | ignored hpre => exact h
  | invalidTip e hpre hext hval => exact hstored
  | extended hpre hext hval =>
      refine hstored.of_eq (txs_advanceTip ..) ?_
      exact (n.sameChain_advanceTip now (n.stored s b) b (cumWork s b)).blockByHash
  | forkStored r hpre hext hkeep => exact hstored
  | switched finH path hpre hext hwork hpath =>
      refine (sourced_rebuild hBQ (hstored.of_eq ?_ (DB.blockByHash_switchTo ..))).of_eq rfl rfl
      rw [DB.switchTo, DB.rewriteIndex_eq]
      rfl

end Node

/-! ### Networks -/

/-- A message that is sent. -/
def Send.msg {D : Type} : Send D → Msg D
  | .to _ m => m
  | .all m => m

/-- `POST /tx/submit` with what it does to the P2P layer: `p2pBroadcastTx`, and `PutMempoolTx`. -/
def GossipEnv.submitTx {F D : Type} (env : GossipEnv F D) (senderCount : ℤ) (now : Int64)
    (s : GossipState F) (req : TxRequest) : GossipState F × List (Send D) :=
  let r := env.node.txSubmit env.floats senderCount now s.db s.pool req
  match (if r.1.status = 200 then req.body else none) with
  | none => ({ s with db := r.2.1, pool := r.2.2 }, [])
  | some tx =>
      let tx := env.node.filled tx
      ({ s with
          db := r.2.1
          pool := r.2.2
          persisted := s.persisted.putMempoolTx env.node.prim.sha256 now tx 3600 },
        [.all (env.withID .invTx (tx.id env.node.prim.sha256))])

/-- Nodes with P2P sessions between them. A node is known to its peers by its public key. -/
structure P2PNetwork (F D ι : Type) where
  env : ι → GossipEnv F D
  codec : GossipCodec D
  codec_eq : ∀ v, (env v).codec = codec
  pub : ι → String
  /-- `cfg.Gossip` -/
  http : ι → GossipConfig
  /-- the nodes that a node can send to -/
  sessions : ι → List ι

namespace P2PNetwork

variable {F D ι : Type} (net : P2PNetwork F D ι)

/-- Where a message goes, with its sender. -/
def routed (v : ι) : Send D → List (ι × ι × Msg D)
  | .to peer m => ((net.sessions v).filter fun u => net.pub u = peer).map fun u => (u, v, m)
  | .all m => (net.sessions v).map fun u => (u, v, m)

/-- A call of the handler. The clock and what `Add` counts come from outside. -/
def handle : Handler ι (GossipState F) (ι × Msg D) (Readings × ℤ) := fun v s e x =>
  let r := (net.env v).handle e.1 e.2 s (net.pub x.1) x.2
  (r.state, r.sends.flatMap (net.routed v))

/-- What happens in a network: a P2P message arrives; a transaction is submitted to a node, or
gossiped to it over HTTP; a block comes to it, mined there or fetched over HTTP. -/
inductive Event (ι : Type)
  | deliver (position : ℕ) (clk : Readings) (senderCount : ℤ)
  | submitTx (v : ι) (senderCount : ℤ) (now : Int64) (req : TxRequest)
  | gossipTx (v : ι) (senderCount : ℤ) (now : Int64) (msg : GossipTxMsg)
  | submitBlock (v : ι) (now : Int64) (b : Block)

variable [DecidableEq ι]

/-- The network after an event. -/
def step (w : World ι (GossipState F) (ι × Msg D)) :
    Event ι → World ι (GossipState F) (ι × Msg D)
  | .deliver position clk senderCount => w.deliver net.handle (position, clk, senderCount)
  | .submitTx v senderCount now req =>
      let r := (net.env v).submitTx senderCount now (w.state v) req
      ⟨Function.update w.state v r.1, w.posts ++ r.2.flatMap (net.routed v)⟩
  | .gossipTx v senderCount now msg =>
      let env := net.env v
      let s := w.state v
      let r := gossipTxHandler env.node.prim.sha256 env.floats (env.validateTxAdmission s.db)
        (net.http v) s.peers s.db.ledger senderCount now s.pool msg
      ⟨Function.update w.state v { s with pool := r.1 }, w.posts⟩
  | .submitBlock v now b =>
      let s := w.state v
      ⟨Function.update w.state v { s with db := ((net.env v).node.submitBlock now s.db b).2 },
        w.posts⟩

end P2PNetwork

/-! ### What a node passes on -/

/-- What the handler of `/tx/submit` can do: nothing, or it tries to add the transaction as it has
filled it in, and indexes it if that succeeds. -/
theorem Node.txSubmit_cases {F : Type} (n : Node) (fl : FeeFloats F) (senderCount : ℤ)
    (now : Int64) (s : DB) (pool : Mempool F) (req : TxRequest) :
    (n.txSubmit fl senderCount now s pool req).2 = (s, pool) ∨ ∃ tx, req.body = some tx ∧
        ((n.txSubmit fl senderCount now s pool req).2.1 = s ∨
          ∃ id, (n.txSubmit fl senderCount now s pool req).2.1 = s.putTx id (n.filled tx)) ∧
        (n.txSubmit fl senderCount now s pool req).2.2 =
          (pool.add n.prim.sha256 fl s.ledger senderCount now (n.filled tx)).2 := by
  unfold txSubmit
  split
  · exact .inl rfl
  split
  · exact .inl rfl
  split
  · exact .inl rfl
  cases hbody : req.body with
  | none => exact .inl rfl
  | some tx =>
      cases hchecks : n.admissionChecks s.ledger tx with
      | error resp => exact .inl (by simp [hchecks])
      | ok tx' =>
          obtain ⟨rfl, -⟩ := admissible_of_admissionChecks hchecks
          refine .inr ⟨tx, rfl, ?_⟩
          dsimp only
          rw [hchecks]
          dsimp only
          cases hadd : pool.add n.prim.sha256 fl s.ledger senderCount now (n.filled tx) with
          | mk r pool' =>
              cases r with
              | error code => exact ⟨.inl rfl, rfl⟩
              | ok _ => exact ⟨.inr ⟨_, rfl⟩, rfl⟩

namespace GossipEnv

variable {F D : Type} {env : GossipEnv F D} {clk : Readings} {k : ℤ} {s : GossipState F}
  {peer : String} {m : Msg D} {r : Handled F D}

/-- The bodies in what a node sends: indexed transactions and stored blocks. -/
def Bodied (env : GossipEnv F D) (s : GossipState F) (m : Msg D) : Prop :=
  (m.type = .tx → ∃ id tx, s.db.txs id = some tx ∧ m.data = env.codec.encodeTx tx) ∧
    (m.type = .block → ∃ x b, s.db.blockByHash x = some b ∧ m.data = env.codec.encodeBlock b)

/-- What a branch can do to the pool, and what it can send. -/
structure Carries (env : GossipEnv F D) (s : GossipState F) (m : Msg D) (r : Handled F D) :
    Prop where
  pool : r.state.pool = s.pool ∨ m.type = .tx ∧ ∃ k now tx t, env.codec.decodeTx m.data = some tx ∧
    env.validateTxAdmission s.db tx.normalize = some t ∧
    r.state.pool = (s.pool.add env.node.prim.sha256 env.floats s.db.ledger k now t).2
  sends : ∀ x ∈ r.sends, env.Bodied s x.msg

/-- A branch that leaves the pool alone and sends no body. -/
theorem Carries.of_plain (hpool : r.state.pool = s.pool)
    (hsends : ∀ x ∈ r.sends, x.msg.type ≠ .tx ∧ x.msg.type ≠ .block) : env.Carries s m r :=
  ⟨.inl hpool, fun x hx => ⟨fun h => absurd h (hsends x hx).1, fun h => absurd h (hsends x hx).2⟩⟩

/-- A branch that leaves the pool alone and sends nothing. -/
theorem Carries.of_silent (hpool : r.state.pool = s.pool) (hsends : r.sends = []) :
    env.Carries s m r :=
  .of_plain hpool fun _ hx => absurd (hsends ▸ hx) List.not_mem_nil

theorem carries_onHello : env.Carries s m (env.onHello s m) := by
  simp only [onHello]
  split
  · exact .of_silent rfl rfl
  · split <;> exact .of_silent rfl rfl

theorem carries_onAnchor : env.Carries s m (env.onAnchor s peer m) := by
  simp only [onAnchor]
  split
  · exact .of_silent rfl rfl
  · split
    · exact .of_silent rfl rfl
    · split <;> exact .of_silent rfl rfl

theorem carries_onHeaders : env.Carries s m (env.onHeaders s peer m) := by
  simp only [onHeaders]
  split <;> exact .of_silent rfl rfl

theorem carries_onPeers : env.Carries s m (env.onPeers s m) := by
  simp only [onPeers]
  split <;> exact .of_silent rfl rfl

/-- Requests carry no body. -/
theorem carries_onInv {kind : InvKind} {id : String} :
    env.Carries s m (env.onInv clk s peer kind id) := by
  refine .of_plain rfl fun x hx => ?_
  obtain ⟨r, -, rfl⟩ := List.mem_map.mp hx
  simp only [Send.msg, request]
  split
  · exact ⟨by simp [withID], by simp [withID]⟩
  · exact ⟨by simp [withHash], by simp [withHash]⟩

/-- A transaction is sent from the index. -/
theorem carries_onGetTx : env.Carries s m (env.onGetTx s peer m) := by
  simp only [onGetTx]
  split
  · exact .of_silent rfl rfl
  · cases htx : s.db.txs m.id with
    | none => exact .of_silent rfl rfl
    | some tx =>
        refine ⟨.inl rfl, fun x hx => ?_⟩
        rw [List.mem_singleton.mp hx]
        exact ⟨fun _ => ⟨m.id, tx, htx, rfl⟩, fun h => by cases h⟩

/-- A block is sent from the store. -/
theorem carries_onGetBlock : env.Carries s m (env.onGetBlock s peer m) := by
  simp only [onGetBlock]
  split
  · exact .of_silent rfl rfl
  · cases hb : s.db.blockByHash m.hash with
    | none => exact .of_silent rfl rfl
    | some b =>
        refine ⟨.inl rfl, fun x hx => ?_⟩
        rw [List.mem_singleton.mp hx]
        exact ⟨fun h => (by cases h), fun _ => ⟨m.hash, b, hb, rfl⟩⟩

/-- The one branch that adds to the pool; it announces, and indexes nothing. -/
theorem carries_onTx (htype : m.type = .tx) : env.Carries s m (env.onTx clk k s peer m) := by
  simp only [onTx]
  cases hdec : env.codec.decodeTx m.data with
  | none => exact .of_silent rfl rfl
  | some tx =>
      dsimp only
      cases hadm : env.validateTxAdmission s.db tx.normalize with
      | none => exact .of_silent rfl rfl
      | some t =>
          dsimp only
          split
          next hadd =>
            exact ⟨.inr ⟨htype, k, clk.now, tx, t, hdec, hadm, by rw [hadd]⟩,
              fun x hx => absurd hx List.not_mem_nil⟩
          next hadd =>
            refine ⟨.inr ⟨htype, k, clk.now, tx, t, hdec, hadm, by rw [hadd]⟩, fun x hx => ?_⟩
            rw [List.mem_singleton.mp hx]
            exact ⟨fun h => (by cases h), fun h => (by cases h)⟩

@[simp] theorem pool_received (hash : String) : (received s hash).pool = s.pool := by
  unfold received
  split <;> rfl

/-- A received block leaves the pool alone, and no body is sent for it. -/
theorem carries_onBlock : env.Carries s m (env.onBlock clk s peer m) := by
  simp only [onBlock]
  split
  · exact .of_silent rfl rfl
  · split
    · exact .of_silent (by simp) rfl
    · split
      · exact .of_silent (by simp) rfl
      · exact .of_silent (by simp) rfl
      · exact .of_plain (by simp) (by simp [Send.msg, withHash])

/-- What the `switch` can do to the pool, and what it can send. -/
theorem carries_dispatch : env.Carries s m (env.dispatch clk k s peer m) := by
  unfold dispatch
  cases htype : m.type with
  | getHello => exact .of_plain rfl (by simp [onGetHello, Send.msg, Msg.ofData])
  | hello => exact carries_onHello
  | getAnchor => exact .of_plain rfl (by simp [onGetAnchor, Send.msg, Msg.ofData])
  | anchor => exact carries_onAnchor
  | getHeaders => exact .of_plain rfl (by simp [onGetHeaders, Send.msg, Msg.ofData])
  | headers => exact carries_onHeaders
  | getPeers => exact .of_plain rfl (by simp [onGetPeers, Send.msg, Msg.ofData])
  | peers => exact carries_onPeers
  | invTx => exact carries_onInv
  | getTx => exact carries_onGetTx
  | tx => exact carries_onTx htype
  | invBlock => exact carries_onInv
  | getBlock => exact carries_onGetBlock
  | block => exact carries_onBlock
  | other => exact .of_silent rfl rfl

/-- What a call of the handler can do to the pool, and what it can send. -/
theorem carries_handle : env.Carries s m (env.handle clk k s peer m) := by
  cases hpass : env.passes clk s peer with
  | false =>
      obtain ⟨limiter, heq⟩ := handle_of_not_passes (k := k) (m := m) hpass
      rw [heq]
      exact .of_silent rfl rfl
  | true =>
      rw [handle_of_passes hpass]
      exact ⟨carries_dispatch.pool, carries_dispatch.sends⟩

/-- What a call of the handler can do to the database. -/
theorem db_handle (env : GossipEnv F D) (clk : Readings) (k : ℤ) (s : GossipState F)
    (peer : String) (m : Msg D) :
    (env.handle clk k s peer m).state.db = s.db ∨ m.type = .block ∧
      ∃ b, env.codec.decodeBlock m.data = some b ∧
        (env.handle clk k s peer m).state.db = (env.node.submitBlock clk.now s.db b).2 := by
  have hstep : (env.step s ⟨clk, k, peer, m⟩).db = _ := db_step s ⟨clk, k, peer, m⟩
  unfold submitCall submits at hstep
  dsimp only at hstep
  split at hstep
  · split at hstep
    next hblock =>
      cases hdec : env.codec.decodeBlock m.data with
      | none =>
          rw [hdec] at hstep
          exact .inl hstep
      | some b =>
          rw [hdec] at hstep
          exact .inr ⟨hblock.1, b, rfl, hstep⟩
    next => exact .inl hstep
  · exact .inl hstep

end GossipEnv

/-! ### Where pooled transactions come from -/

namespace Mempool

variable {F : Type} {m : Mempool F} {fl : FeeFloats F} {acct : String} {k : UInt64} {mt e : MemTx F}

/-- A stored entry was there before, or is the new one. -/
theorem entry_of_putEntry (h : (m.putEntry fl mt).2.entry acct k = some e) :
    m.entry acct k = some e ∨ e = mt := by
  -- the counters beside, an entry is put or the pool is as before
  have hput : (m.put mt.fromId mt.nonce mt).entry acct k = some e →
      m.entry acct k = some e ∨ e = mt := by
    intro hput
    rw [entry_put] at hput
    split at hput
    · exact .inr (Option.some.inj hput).symm
    · exact .inl hput
  unfold putEntry at h
  split at h
  · split at h
    · exact .inl h
    · exact hput h
  · split at h
    · exact .inl h
    · split at h
      · exact .inl h
      · exact hput h

/-- `Add` brings nothing into the pool but its transaction. -/
theorem entry_of_add {sha256 : List UInt8 → Hash} {l : Ledger} {senderCount : ℤ} {now : Int64}
    {tx : Tx} (h : (m.add sha256 fl l senderCount now tx).2.entry acct k = some mt) :
    m.entry acct k = some mt ∨ mt.tx = tx := by
  unfold add at h
  split at h
  · exact .inl h
  · dsimp only at h
    split at h
    · exact .inl (entry_of_pruneLocked h)
    · split at h
      · exact .inl (entry_of_pruneLocked h)
      · rcases entry_of_putEntry h with h | rfl
        · rw [entry_openLane] at h
          exact .inl (entry_of_pruneLocked h)
        · exact .inr rfl

end Mempool

namespace P2PNetwork

variable {F D ι : Type} (net : P2PNetwork F D ι) (es : List (Event ι))

/-- The transaction, as `/tx/submit` fills it in, is submitted at a node. -/
def SubmittedAt (v : ι) (t : Tx) : Prop :=
  ∃ senderCount now req tx, .submitTx v senderCount now req ∈ es ∧ req.body = some tx ∧
    t = (net.env v).node.filled tx

/-- The transaction is gossiped to a node over HTTP. -/
def GossipedTo (es : List (Event ι)) (v : ι) (t : Tx) : Prop :=
  ∃ senderCount now msg, .gossipTx v senderCount now msg ∈ es ∧ t = msg.tx

/-- The transaction is in a block that comes to some node. -/
def InBlock (es : List (Event ι)) (t : Tx) : Prop :=
  ∃ v now b, .submitBlock v now b ∈ es ∧ t ∈ b.txs

/-- Where a transaction in the pool of a node can come from. -/
def Origin (v : ι) (t : Tx) : Prop :=
  net.SubmittedAt es v t ∨ GossipedTo es v t ∨ InBlock es t ∨
    ∃ u, v ∈ net.sessions u ∧ net.SubmittedAt es u t

/-- The invariant of a node. -/
structure Traced (v : ι) (s : GossipState F) : Prop where
  db : s.db.Sourced (fun tx => net.SubmittedAt es v tx ∨ InBlock es tx) (InBlock es)
  pool : ∀ acct k mt, s.pool.entry acct k = some mt → ∃ t, mt.tx = t.normalize ∧ net.Origin es v t

/-- The invariant of a message in flight. -/
structure TracedMsg (v : ι) (x : ι × Msg D) : Prop where
  session : v ∈ net.sessions x.1
  tx : x.2.type = .tx → ∀ tx, net.codec.decodeTx x.2.data = some tx →
    net.SubmittedAt es x.1 tx ∨ InBlock es tx
  block : x.2.type = .block → ∀ b, net.codec.decodeBlock x.2.data = some b →
    ∀ tx ∈ b.txs, InBlock es tx

variable {net es} {v : ι} {s : GossipState F}

/-- Adding a transaction from a known origin. -/
theorem Traced.add (h : net.Traced es v s) {tx : Tx} (horigin : net.Origin es v tx)
    (sha256 : List UInt8 → Hash) (fl : FeeFloats F) (l : Ledger) (senderCount : ℤ) (now : Int64) :
    ∀ acct k mt, (s.pool.add sha256 fl l senderCount now tx.normalize).2.entry acct k = some mt →
      ∃ t, mt.tx = t.normalize ∧ net.Origin es v t := by
  intro acct k mt hmt
  rcases Mempool.entry_of_add hmt with hmt | htx
  · exact h.pool acct k mt hmt
  · exact ⟨tx, htx, horigin⟩

/-- What is sent from a database carries the origin of what is in it. -/
theorem Traced.routed (h : net.Traced es v s) {x : Send D} (hx : (net.env v).Bodied s x.msg) :
    ∀ y ∈ net.routed v x, net.TracedMsg es y.1 y.2 := by
  have hmsg : ∀ u ∈ net.sessions v, net.TracedMsg es u (v, x.msg) := by
    intro u hu
    refine ⟨hu, fun htype tx hdec => ?_, fun htype b hdec => ?_⟩
    · obtain ⟨id, tx', hget, hdata⟩ := hx.1 htype
      rw [hdata, net.codec_eq, net.codec.decodeTx_encodeTx] at hdec
      cases hdec
      exact h.db.index id tx hget
    · obtain ⟨y, b', hget, hdata⟩ := hx.2 htype
      rw [hdata, net.codec_eq, net.codec.decodeBlock_encodeBlock] at hdec
      cases hdec
      exact h.db.blocks y b hget
  intro y hy
  rcases x with ⟨peer, m⟩ | m
  · obtain ⟨u, hu, rfl⟩ := List.mem_map.mp hy
    exact hmsg u (List.mem_of_mem_filter hu)
  · obtain ⟨u, hu, rfl⟩ := List.mem_map.mp hy
    exact hmsg u hu

theorem Traced.submitBlock (h : net.Traced es v s) {now : Int64} {b : Block}
    (he : .submitBlock v now b ∈ es) :
    net.Traced es v { s with db := ((net.env v).node.submitBlock now s.db b).2 } :=
  ⟨Node.sourced_submitBlock (fun _ => .inr) h.db (fun _ htx => ⟨v, now, b, he, htx⟩) now, h.pool⟩

/-- A submitted transaction is pooled and indexed as its node fills it in. -/
theorem Traced.submitTx (h : net.Traced es v s) {senderCount : ℤ} {now : Int64} {req : TxRequest}
    (he : .submitTx v senderCount now req ∈ es) :
    net.Traced es v ((net.env v).submitTx senderCount now s req).1 ∧
      ∀ y ∈ ((net.env v).submitTx senderCount now s req).2.flatMap (net.routed v),
        net.TracedMsg es y.1 y.2 := by
  -- the database and the pool are those that the handler leaves, whatever else is done
  have hdb : ((net.env v).submitTx senderCount now s req).1.db =
      ((net.env v).node.txSubmit (net.env v).floats senderCount now s.db s.pool req).2.1 := by
    unfold GossipEnv.submitTx
    dsimp only
    split <;> rfl
  have hpool : ((net.env v).submitTx senderCount now s req).1.pool =
      ((net.env v).node.txSubmit (net.env v).floats senderCount now s.db s.pool req).2.2 := by
    unfold GossipEnv.submitTx
    dsimp only
    split <;> rfl
  have hsends : ∀ x ∈ ((net.env v).submitTx senderCount now s req).2, x.msg.type = .invTx := by
    unfold GossipEnv.submitTx
    dsimp only
    split
    · exact fun x hx => absurd hx List.not_mem_nil
    · intro x hx
      rw [List.mem_singleton.mp hx]
      rfl
  constructor
  · rcases (net.env v).node.txSubmit_cases (net.env v).floats senderCount now s.db s.pool req with
      hsame | ⟨tx, hbody, hindex, hadd⟩
    · rw [hsame] at hdb hpool
      exact ⟨hdb ▸ h.db, hpool ▸ h.pool⟩
    · have hsub : net.SubmittedAt es v ((net.env v).node.filled tx) :=
        ⟨senderCount, now, req, tx, he, hbody, rfl⟩
      refine ⟨?_, ?_⟩
      · rw [hdb]
        rcases hindex with hindex | ⟨id, hindex⟩
        · rw [hindex]
          exact h.db
        · rw [hindex]
          exact h.db.putTx (.inl hsub) id
      · rw [hpool, hadd, ← Node.normalize_filled]
        exact h.add (.inl hsub) _ _ _ _ _
  · intro y hy
    obtain ⟨send, hsend, hy⟩ := List.mem_flatMap.mp hy
    refine h.routed ⟨fun htype => ?_, fun htype => ?_⟩ y hy
    · rw [hsends send hsend] at htype
      cases htype
    · rw [hsends send hsend] at htype
      cases htype

section Steps

variable (hadm : ∀ v db tx t, (net.env v).validateTxAdmission db tx = some t → t = tx)
include hadm

/-- A call of the handler keeps the origins. -/
theorem Traced.handle (h : net.Traced es v s) {x : ι × Msg D} (hx : net.TracedMsg es v x)
    (e : Readings × ℤ) : net.Traced es v (net.handle v s e x).1 ∧
      ∀ y ∈ (net.handle v s e x).2, net.TracedMsg es y.1 y.2 := by
  obtain ⟨u, m⟩ := x
  have hcarries : (net.env v).Carries s m ((net.env v).handle e.1 e.2 s (net.pub u) m) :=
    GossipEnv.carries_handle
  refine ⟨⟨?_, ?_⟩, fun y hy => ?_⟩
  · -- the database: a block of the peer may be submitted
    rcases (net.env v).db_handle e.1 e.2 s (net.pub u) m with hdb | ⟨htype, b, hdec, hdb⟩
    · exact hdb ▸ h.db
    · rw [net.codec_eq] at hdec
      exact hdb ▸ Node.sourced_submitBlock (fun _ => .inr) h.db (hx.block htype b hdec) _
  · -- the pool: a transaction of the peer may be added
    rcases hcarries.pool with hpool | ⟨htype, k, now, tx, t, hdec, hval, hpool⟩
    · exact hpool ▸ h.pool
    · obtain rfl := hadm _ _ _ _ hval
      rw [net.codec_eq] at hdec
      have horigin : net.Origin es v tx := by
        rcases hx.tx htype tx hdec with hsub | hblock
        · exact .inr (.inr (.inr ⟨u, hx.session, hsub⟩))
        · exact .inr (.inr (.inl hblock))
      exact hpool ▸ h.add horigin _ _ _ _ _
  · obtain ⟨send, hsend, hy⟩ := List.mem_flatMap.mp hy
    exact h.routed (hcarries.sends send hsend) y hy

/-- A transaction that is gossiped over HTTP is traced to the event. -/
theorem Traced.gossipTx (h : net.Traced es v s) {senderCount : ℤ} {now : Int64} {msg : GossipTxMsg}
    (he : .gossipTx v senderCount now msg ∈ es) :
    net.Traced es v { s with pool := (gossipTxHandler (net.env v).node.prim.sha256
      (net.env v).floats ((net.env v).validateTxAdmission s.db) (net.http v) s.peers s.db.ledger
      senderCount now s.pool msg).1 } := by
  refine ⟨h.db, ?_⟩
  dsimp only
  unfold gossipTxHandler
  cases hval : (net.env v).validateTxAdmission s.db msg.tx.normalize with
  | none => exact h.pool
  | some t =>
      obtain rfl := hadm _ _ _ _ hval
      have hadded := h.add (.inr (.inl ⟨senderCount, now, msg, he, rfl⟩))
        (net.env v).node.prim.sha256 (net.env v).floats s.db.ledger senderCount now
      dsimp only
      split
      next hadd =>
        rw [hadd] at hadded
        exact hadded
      next hadd =>
        rw [hadd] at hadded
        exact hadded

variable [DecidableEq ι] {w : World ι (GossipState F) (ι × Msg D)}

/-- Every event keeps the origins. -/
theorem local_step (h : w.Local (net.Traced es) (net.TracedMsg es)) {e : Event ι} (he : e ∈ es) :
    (net.step w e).Local (net.Traced es) (net.TracedMsg es) := by
  cases e with
  | deliver position clk senderCount =>
      by_cases hd : w.Effective (position, clk, senderCount)
      · exact h.deliver hd fun v s x hs hx => hs.handle hadm hx _
      · have hnone : w.posts[position]? = none := List.getElem?_eq_none (Nat.not_lt.mp hd)
        have hsame : net.step w (.deliver position clk senderCount) = w := by
          rw [step, World.deliver, hnone]
        rwa [hsame]
  | submitTx v senderCount now req =>
      obtain ⟨hs, hsent⟩ := (h.1 v).submitTx he
      exact h.update hs _ hsent
  | gossipTx v senderCount now msg =>
      have hs := (h.1 v).gossipTx hadm he
      simpa [step] using h.update hs []
  | submitBlock v now b =>
      have hs := (h.1 v).submitBlock he
      simpa [step] using h.update hs []

end Steps

variable [DecidableEq ι]

/-- Nothing is in flight, pooled or indexed, and the stored blocks have no transactions. -/
structure Fresh (w : World ι (GossipState F) (ι × Msg D)) : Prop where
  posts : w.posts = []
  pool : ∀ v acct k, (w.state v).pool.entry acct k = none
  index : ∀ v id, (w.state v).db.txs id = none
  blocks : ∀ v x b, (w.state v).db.blockByHash x = some b → b.txs = []

/-- In a network whose nodes admit transactions as they are, whatever happens and in whatever order,
a transaction in the pool of a node was submitted or gossiped to the node itself, or is in a block,
or was submitted at a node that has a session with it: P2P does not carry it any further. -/
theorem pooled_origin (net : P2PNetwork F D ι)
    (hadm : ∀ v db tx t, (net.env v).validateTxAdmission db tx = some t → t = tx)
    (w : World ι (GossipState F) (ι × Msg D)) (hfresh : Fresh w) (es : List (Event ι)) :
    ∀ w' ∈ Run.states net.step w es, ∀ v acct k mt, (w'.state v).pool.entry acct k = some mt →
      ∃ t, mt.tx = t.normalize ∧ (net.SubmittedAt es v t ∨ GossipedTo es v t ∨ InBlock es t ∨
          ∃ u, v ∈ net.sessions u ∧ net.SubmittedAt es u t) := by
  have hinit : w.Local (net.Traced es) (net.TracedMsg es) := by
    refine ⟨fun v => ⟨⟨fun id tx hget => ?_, fun x b hget => ?_⟩, fun acct k mt hget => ?_⟩,
      fun x hx => ?_⟩
    · rw [hfresh.index] at hget
      cases hget
    · rw [hfresh.blocks v x b hget]
      exact fun tx htx => absurd htx List.not_mem_nil
    · rw [hfresh.pool] at hget
      cases hget
    · rw [hfresh.posts] at hx
      exact absurd hx List.not_mem_nil
  intro w' hw' v acct k mt hmt
  have hrun : Run.Admitted net.step (fun _ _ => True) w es :=
    Run.admitted_of_forall w fun _ _ _ => trivial
  have hlocal := Run.invariant (I := World.Local (net.Traced es) (net.TracedMsg es))
    (E := fun e => e ∈ es) (fun _ _ h he _ => local_step hadm h he) (fun _ he => he) hinit hrun
    w' hw'
  exact (hlocal.1 v).pool acct k mt hmt

end P2PNetwork

namespace Sample

/-- The nodes 0, 1 and 2 in a line; the others have no connections. -/
def line : P2PNetwork ℕ Payload ℕ where
  env _ := { talker with node := gateway, floats := floats }
  codec := payloadCodec
  codec_eq _ := rfl
  pub v := ["p", "q", "r"].getD v ""
  http _ := ⟨false, [], 0⟩
  sessions v := [[1], [0, 2], [1]].getD v []

/-- Before anything happens. -/
def idleLine : Mailbox.World ℕ (GossipState ℕ) (ℕ × Msg Payload) :=
  ⟨fun _ => listening gatewayDB, []⟩

/-- A payment is submitted at the first node, and so many messages arrive in the order in which they
are sent. The payment is announced to the second node, which requests it, gets it and announces it
to the third one. -/
def relayed (count : ℕ) : List (P2PNetwork.Event ℕ) :=
  .submitTx 0 0 10 ⟨"POST", some (typed "")⟩ :: (List.range count).map fun i =>
    .deliver 0 (atSecond (11 + i.toInt64)) 0

theorem fresh_idleLine : P2PNetwork.Fresh idleLine where
  posts := rfl
  pool v acct k := by simp [idleLine, listening, Mempool.new, Mempool.entry]
  index v id := rfl
  blocks v x b hget := by
    simp only [idleLine, listening, gatewayDB, Node.blockByHash_genesisDB,
      Function.update_apply] at hget
    split at hget
    · rw [← Option.some.inj hget]
      rfl
    · cases hget

end Sample

open Sample

/-- The second node has the payment, which was submitted next to it. -/
theorem P2PNetwork.pooled_origin_line :
    ∃ mt t, (((relayed 3).foldl line.step idleLine).state 1).pool.entry
        alice 1 = some mt ∧ mt.tx = t.normalize ∧
      (line.SubmittedAt (relayed 3) 1 t ∨ GossipedTo (relayed 3) 1 t ∨ InBlock (relayed 3) t ∨
        ∃ u, 1 ∈ line.sessions u ∧ line.SubmittedAt (relayed 3) u t) := by
  have hpooled : ((((relayed 3).foldl line.step idleLine).state 1).pool.entry
      alice 1).isSome = true := by decide +kernel
  obtain ⟨mt, hmt⟩ := Option.isSome_iff_exists.mp hpooled
  obtain ⟨t, htx, horigin⟩ := pooled_origin line (fun _ _ _ _ h => (Option.some.inj h).symm)
    idleLine fresh_idleLine (relayed 3) _ (Run.foldl_mem_states _ _ _) 1
    alice 1 mt hmt
  exact ⟨mt, t, hmt, htx, horigin⟩

-- The third node requests it from the second one, and is not answered.
example :
    let w := (relayed 7).foldl line.step idleLine
    w.posts.length = 0 ∧ (w.state 1).pool.totalTxs = 1 ∧ (w.state 2).pool.totalTxs = 0 := by
  decide +kernel

end ReserveOS
