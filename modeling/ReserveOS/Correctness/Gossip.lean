import ReserveOS.Node.Events
import ReserveOS.Node.Gossip

/-!
# Runs of the P2P handler

A run is a list of messages from any peers, in the order in which the handler is called.

`db_run_eq_submit`: to the database, the handler is `SubmitBlock`. What a run does to it is what the
`SubmitBlock` calls for some of the received blocks do, in the order of their arrival; every
invariant of `SubmitBlock` is one of the handler.
-/

namespace ReserveOS

/-- One call of the handler, with the readings of the clock and what `Add` counts first. -/
structure GossipCall (D : Type) where
  clk : Readings
  senderCount : ℤ
  peer : String
  msg : Msg D

namespace GossipEnv

variable {F D : Type} (env : GossipEnv F D)

/-- The state after a call. -/
def step (s : GossipState F) (c : GossipCall D) : GossipState F :=
  (env.handle c.clk c.senderCount s c.peer c.msg).state

/-- The verdict of a call. -/
def verdict (s : GossipState F) (c : GossipCall D) : Verdict :=
  (env.handle c.clk c.senderCount s c.peer c.msg).verdict

/-- The block that a message hands to `SubmitBlock`. -/
def submits (s : GossipState F) (peer : String) (m : Msg D) : Option Block :=
  if m.type = .block ∧ ¬ unanchored s peer then env.codec.decodeBlock m.data else none

/-- The `SubmitBlock` call that a call of the handler makes. -/
def submitCall (s : GossipState F) (c : GossipCall D) : Option (Int64 × Block) :=
  if env.passes c.clk s c.peer then (env.submits s c.peer c.msg).map fun b => (c.clk.now, b)
  else none

/-- The `SubmitBlock` calls that a run makes. -/
def submitted : GossipState F → List (GossipCall D) → List (Int64 × Block)
  | _, [] => []
  | s, c :: cs => (env.submitCall s c).toList ++ submitted (env.step s c) cs

/-- The blocks of a list of messages, with the clock at their arrival. -/
def receivedBlocks (cs : List (GossipCall D)) : List (Int64 × Block) :=
  cs.filterMap fun c =>
    if c.msg.type = .block then (env.codec.decodeBlock c.msg.data).map fun b => (c.clk.now, b)
    else none

variable {env} {clk : Readings} {k : ℤ} {s : GossipState F} {peer : String} {m : Msg D}

/-! ### What one call can do -/

/-- A message that does not reach the `switch` changes at most the limiter. -/
theorem handle_of_not_passes (h : env.passes clk s peer = false) :
    ∃ limiter, env.handle clk k s peer m = ⟨{ s with limiter := limiter }, [], .none⟩ := by
  unfold handle
  split
  · exact ⟨s.limiter, rfl⟩
  next hadm =>
    have hallow : (s.limiter.allow peer clk.nanos).1 = false := by
      simp only [not_or, not_not] at hadm
      simpa [passes, hadm] using h
    dsimp only
    rw [hallow]
    exact ⟨(s.limiter.allow peer clk.nanos).2, rfl⟩

/-- A message that reaches the `switch`. -/
theorem handle_of_passes (h : env.passes clk s peer = true) :
    let r := env.dispatch clk k { s with limiter := (s.limiter.allow peer clk.nanos).2 } peer m
    env.handle clk k s peer m =
      { r with state := { r.state with stats := r.state.stats.settle clk peer r.verdict } } := by
  have hparts : s.crashed = false ∧ env.admits clk s peer = true ∧
      (s.limiter.allow peer clk.nanos).1 = true := by
    simpa [passes, and_assoc] using h
  obtain ⟨hcrash, hadm, hallow⟩ := hparts
  unfold handle
  rw [if_neg (by simp [hcrash, hadm])]
  dsimp only
  rw [hallow]
  rfl

end GossipEnv

/-- A moderate verdict: a reward is 0 or 1, a penalty lies between 2 and 100. -/
def Verdict.Moderate : Verdict → Prop
  | .none => True
  | .score delta => delta = 0 ∨ delta = 1
  | .penalty delta => delta ∈ [-100, -10, -5, -3, -2]

namespace GossipEnv

variable {F D : Type} {env : GossipEnv F D} {clk : Readings} {k : ℤ} {s : GossipState F}
  {peer : String} {m : Msg D} {r : Handled F D}

/-- What a branch can do to the database, to the records of peers and to the score. -/
structure Effect (env : GossipEnv F D) (clk : Readings) (s : GossipState F) (peer : String)
    (m : Msg D) (r : Handled F D) : Prop where
  db : r.state.db =
    ((env.submits s peer m).map fun b => (env.node.submitBlock clk.now s.db b).2).getD s.db
  stats : r.state.stats = s.stats
  moderate : r.verdict.Moderate

/-- A branch for another type than `block` that leaves the database alone. -/
theorem Effect.of_quiet (hne : m.type ≠ .block) (hdb : r.state.db = s.db)
    (hstats : r.state.stats = s.stats) (hverdict : r.verdict.Moderate) :
    env.Effect clk s peer m r :=
  ⟨by simpa [submits, hne] using hdb, hstats, hverdict⟩

theorem effect_onHello (hne : m.type ≠ .block) : env.Effect clk s peer m (env.onHello s m) := by
  simp only [onHello]
  split
  · exact .of_quiet hne rfl rfl (by simp [Verdict.Moderate])
  · split
    · exact .of_quiet hne rfl rfl (by simp [Verdict.Moderate])
    · exact .of_quiet hne rfl rfl trivial

theorem effect_onAnchor (hne : m.type ≠ .block) :
    env.Effect clk s peer m (env.onAnchor s peer m) := by
  simp only [onAnchor]
  split
  · exact .of_quiet hne rfl rfl (by simp [Verdict.Moderate])
  · split
    · exact .of_quiet hne rfl rfl (by simp [Verdict.Moderate])
    · split
      · exact .of_quiet hne rfl rfl (by simp [Verdict.Moderate])
      · exact .of_quiet hne rfl rfl trivial

theorem effect_onHeaders (hne : m.type ≠ .block) :
    env.Effect clk s peer m (env.onHeaders s peer m) := by
  simp only [onHeaders]
  split
  · exact .of_quiet hne rfl rfl (by simp [Verdict.Moderate])
  · exact .of_quiet hne rfl rfl (.inl rfl)

theorem effect_onPeers (hne : m.type ≠ .block) : env.Effect clk s peer m (env.onPeers s m) := by
  simp only [onPeers]
  split
  · exact .of_quiet hne rfl rfl (by simp [Verdict.Moderate])
  · exact .of_quiet hne rfl rfl trivial

theorem effect_onGetTx (hne : m.type ≠ .block) :
    env.Effect clk s peer m (env.onGetTx s peer m) := by
  simp only [onGetTx]
  split
  · exact .of_quiet hne rfl rfl trivial
  · split <;> exact .of_quiet hne rfl rfl trivial

theorem effect_onGetBlock (hne : m.type ≠ .block) :
    env.Effect clk s peer m (env.onGetBlock s peer m) := by
  simp only [onGetBlock]
  split
  · exact .of_quiet hne rfl rfl trivial
  · split <;> exact .of_quiet hne rfl rfl trivial

theorem effect_onTx (hne : m.type ≠ .block) :
    env.Effect clk s peer m (env.onTx clk k s peer m) := by
  simp only [onTx]
  split
  · exact .of_quiet hne rfl rfl (by simp [Verdict.Moderate])
  · split
    · exact .of_quiet hne rfl rfl (by simp [Verdict.Moderate])
    · split
      · exact .of_quiet hne rfl rfl (by simp [Verdict.Moderate])
      · exact .of_quiet hne rfl rfl (.inr rfl)

@[simp] theorem db_received (hash : String) : (received s hash).db = s.db := by
  unfold received
  split <;> rfl

@[simp] theorem stats_received (hash : String) : (received s hash).stats = s.stats := by
  unfold received
  split <;> rfl

/-- The one branch that writes the chain. -/
theorem effect_onBlock (htype : m.type = .block) :
    env.Effect clk s peer m (env.onBlock clk s peer m) := by
  simp only [onBlock]
  split
  next hgate => exact ⟨by simp [submits, hgate], rfl, by simp [Verdict.Moderate]⟩
  next hgate =>
    have hsub : env.submits s peer m = env.codec.decodeBlock m.data := by
      simp [submits, htype, hgate]
    split
    next hnone => exact ⟨by simp [hsub, hnone], by simp, by simp [Verdict.Moderate]⟩
    next b hb =>
      -- whatever `SubmitBlock` returns, its writes stay
      rw [db_received]
      split
      next heq => exact ⟨by simp [hsub, hb, heq], by simp, trivial⟩
      next heq => exact ⟨by simp [hsub, hb, heq], by simp, by simp [Verdict.Moderate]⟩
      next heq => exact ⟨by simp [hsub, hb, heq], by simp, .inr rfl⟩

/-- What the `switch` can do. -/
theorem effect_dispatch : env.Effect clk s peer m (env.dispatch clk k s peer m) := by
  unfold dispatch
  cases htype : m.type with
  | hello => exact effect_onHello (by simp [htype])
  | anchor => exact effect_onAnchor (by simp [htype])
  | headers => exact effect_onHeaders (by simp [htype])
  | peers => exact effect_onPeers (by simp [htype])
  | getTx => exact effect_onGetTx (by simp [htype])
  | getBlock => exact effect_onGetBlock (by simp [htype])
  | tx => exact effect_onTx (by simp [htype])
  | block => exact effect_onBlock htype
  | _ => exact .of_quiet (by simp [htype]) rfl rfl trivial

/-- A call writes the chain as the `SubmitBlock` call that it makes. -/
theorem db_step (s : GossipState F) (c : GossipCall D) :
    (env.step s c).db = (env.submitCall s c).toList.foldl env.node.submit s.db := by
  unfold step submitCall
  cases hpass : env.passes c.clk s c.peer with
  | false =>
      obtain ⟨limiter, heq⟩ := handle_of_not_passes (k := c.senderCount) (m := c.msg) hpass
      simp [heq]
  | true =>
      -- the limiter is not what `submits` and `SubmitBlock` read
      rw [handle_of_passes hpass]
      dsimp only
      rw [effect_dispatch.db]
      have hsub : env.submits { s with limiter := (s.limiter.allow c.peer c.clk.nanos).2 } c.peer
          c.msg = env.submits s c.peer c.msg := rfl
      rw [hsub]
      cases env.submits s c.peer c.msg with
      | none => rfl
      | some b => rfl

/-- The calls of a run are for blocks it received, in the order of their arrival. -/
theorem submitted_sublist (s : GossipState F) (cs : List (GossipCall D)) :
    (env.submitted s cs).Sublist (env.receivedBlocks cs) := by
  induction cs generalizing s with
  | nil => exact List.Sublist.refl []
  | cons c cs ih =>
      have hone : (env.submitCall s c).toList.Sublist (env.receivedBlocks [c]) := by
        unfold submitCall submits receivedBlocks
        split
        · split
          next htype =>
            rw [List.filterMap_cons, if_pos htype.1]
            cases env.codec.decodeBlock c.msg.data <;> simp
          next => simp
        · simp
      have hsplit : env.receivedBlocks (c :: cs) =
          env.receivedBlocks [c] ++ env.receivedBlocks cs := by
        simp only [receivedBlocks, ← List.filterMap_append, List.singleton_append]
      rw [submitted, hsplit]
      exact hone.append (ih _)

/-- Whatever messages arrive from whatever peers, the database evolves as by calls of `SubmitBlock`
for some of the blocks that were received, in the order of their arrival; so every invariant of
these calls holds in every state of the run. -/
theorem db_run_eq_submit (env : GossipEnv F D) (s : GossipState F) (cs : List (GossipCall D)) :
    (env.submitted s cs).Sublist (env.receivedBlocks cs) ∧
      (cs.foldl env.step s).db = (env.submitted s cs).foldl env.node.submit s.db ∧
      ∀ I : DB → Prop, I s.db →
        (∀ db, ∀ c ∈ env.receivedBlocks cs, I db → I (env.node.submit db c)) →
        ∀ t ∈ Run.states env.step s cs, I t.db := by
  refine ⟨submitted_sublist s cs, ?_, fun I hinit hstep => ?_⟩
  · induction cs generalizing s with
    | nil => rfl
    | cons c cs ih =>
        rw [List.foldl_cons, ih, db_step, submitted, List.foldl_append]
  · -- each step is at most one call, for a block of the run
    have hall : Run.Admitted env.step (fun _ _ => True) s cs :=
      Run.admitted_of_forall s fun _ _ _ => trivial
    refine Run.invariant (I := fun t => I t.db) (E := fun c => c ∈ cs) ?_ (fun _ hc => hc) hinit
      hall
    intro t c ht hc _
    have hmem : ∀ x ∈ (env.submitCall t c).toList, x ∈ env.receivedBlocks cs := by
      intro x hx
      have hone : env.submitted t [c] ⊆ env.receivedBlocks [c] := (submitted_sublist t [c]).subset
      simp only [submitted, List.append_nil] at hone
      exact ((List.singleton_sublist.mpr hc).filterMap _).subset (hone hx)
    rw [db_step]
    cases hcall : env.submitCall t c with
    | none => exact ht
    | some x => exact hstep _ x (hmem x (by simp [hcall])) ht

end GossipEnv

namespace Sample

/-- Payloads as they are before encoding. -/
inductive Payload where
  | none
  | hello (chainID genesisHash : String)
  | anchor (a : AnchorInfo)
  | headersReq (req : HeadersReq)
  | headers (resp : HeadersResp)
  | peers (ps : List Peer)
  | tx (tx : Tx)
  | block (b : Block)

/-- A codec that encodes nothing. -/
def payloadCodec : GossipCodec Payload where
  empty := .none
  size _ := 0
  encodeHello := .hello
  decodeHello
    | .hello c g => ⟨c, g⟩
    | _ => ⟨none, none⟩
  encodeAnchor := .anchor
  decodeAnchor
    | .anchor a => a
    | _ => none
  decodeHeadersReq
    | .headersReq req => req
    | _ => ⟨0, 0, []⟩
  encodeHeaders := .headers
  decodeHeaders
    | .headers resp => resp
    | _ => ⟨0, [], []⟩
  encodePeers := .peers
  decodePeers
    | .peers ps => ps
    | _ => none
  encodeTx := .tx
  decodeTx
    | .tx tx => tx
    | _ => none
  encodeBlock := .block
  decodeBlock
    | .block b => b
    | _ => none
  decodeTx_encodeTx _ := rfl
  decodeBlock_encodeBlock _ := rfl

/-- A node that talks to every peer and admits every transaction. -/
def talker : GossipEnv ℕ Payload where
  node := node
  allowlist := []
  chainID := "reserve"
  chainGenesisHash := ""
  floats := ⟨fun _ _ => 0, id⟩
  codec := payloadCodec
  validateTxAdmission _ tx := some tx

/-- The handler over a database, before the first message. -/
def listening (db : DB) : GossipState ℕ where
  db := db
  pool := Mempool.new ⟨0, 100, 1000000, 1800, false, 50⟩
  stats := fun _ => none
  limiter := newPeerLimiter 30 60
  inv := Inventory.new fun _ _ => none
  sync := ⟨SyncManager.new, fun _ => none, fun _ => 0, fun _ => 0⟩
  peers := ∅
  persisted := ∅
  crashed := false

/-- The readings of a clock that shows the second `t` throughout a call. -/
def atSecond (t : Int64) : Readings := ⟨t * 1000000000, t, t, t, t, t⟩

end Sample

end ReserveOS
