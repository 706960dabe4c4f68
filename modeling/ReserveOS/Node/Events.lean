import ReserveOS.General.Run
import ReserveOS.Node.Frame

/-!
# The events of a node and the small steps of finality

`Event` lists what can happen at a running node, and `step` is the node's reaction.

All finality code is made of four writes: signing a vote with the local key, recording a received
vote, and the records of the two finalization routines. `FinStep` has one constructor for each, with
the guard under which the code makes it. The lemmas `finSteps_*` show that each operation is a chain
of such steps, so that an invariant of finality is checked on the four writes only.
-/

namespace ReserveOS

/-- What can happen at a running node. -/
inductive Event where
  | submitBlock (now : Int64) (b : Block)
  | submitVote (ord : MapOrder) (now : Int64) (req : VoteRequest)
  | ingestVote (now : Int64) (vr : VoteRecord)
  | tick (now : Int64)
  | checkpoint (now : Int64) (cp : Checkpoint)

namespace Event

/-- The block an event delivers. -/
def block? : Event → Option Block
  | submitBlock _ b => some b
  | _ => none

/-- The vote an event delivers. -/
def vote? : Event → Option VoteRecord
  | submitVote _ _ req => req.body
  | ingestVote _ vr => some vr
  | _ => none

end Event

namespace Node

variable (n : Node)

/-- The node's reaction to an event. A gossip tick does nothing while finality is disabled. -/
def step (s : DB) : Event → DB
  | .submitBlock now b => (n.submitBlock now s b).2
  | .submitVote ord now req => (n.submitVote ord now s req).2
  | .ingestVote now vr => n.ingestVote now s vr
  | .tick now => if n.finalityEnabled then n.ensureVotesUpToTip now s else s
  | .checkpoint now cp => n.processCheckpointVotes now s cp

/-- One write of the finality code. `signs` bounds what may be signed, `target` what may be
finalized by `tryFinalizeHeight`, and `delivered` which votes may be recorded. -/
inductive FinStep (signs target : UInt64 → String → Prop) (delivered : VoteRecord → Prop) :
    DB → DB → Prop
  | sign {s : DB} (now : Int64) (priv : List UInt8) (h : UInt64) (x : String) (hs : signs h x)
      (hpriv : parsePriv n.localPrivHex = some priv) (hnew : s.hasVote h n.localPubHex = false) :
      FinStep signs target delivered s (n.signAndStore now s priv h x)
  | record {s : DB} (vr : VoteRecord) (hd : delivered vr)
      (hchain : vr.chainID = n.genesis.chainID) (hval : n.isValidator vr.pubkeyHex = true)
      (hsig : n.prim.checkVote vr.pubkeyHex vr.sigHex vr.chainID vr.height vr.blockHash = true)
      (hnew : s.hasVote vr.height vr.pubkeyHex = false) :
      FinStep signs target delivered s (s.putVote vr)
  | finalize {s : DB} (now : Int64) (h : UInt64) (x : String) (ht : target h x)
      (hq : n.quorumReached s h x = true) :
      FinStep signs target delivered s ((s.putFinalized h x).putCheckpoint h ⟨h, x, now⟩)
  | finalizeWeighted {s : DB} (ord : MapOrder) (h : UInt64) (x : String)
      (hw : weightedWinner ord s h = some x) (hlt : s.finalizedHeight.getD 0 < h) :
      FinStep signs target delivered s ((s.setFinalized h x).putCheckpoint h ⟨h, x, 0⟩)

/-- A chain of finality writes. -/
abbrev FinSteps (signs target : UInt64 → String → Prop) (delivered : VoteRecord → Prop) :
    DB → DB → Prop :=
  Relation.ReflTransGen (n.FinStep signs target delivered)

variable {n}

/-- Finality code does not touch the chain, the ledger or the registry. -/
theorem FinStep.sameChain {signs target : UInt64 → String → Prop} {delivered : VoteRecord → Prop}
    {s t : DB} (h : n.FinStep signs target delivered s t) : s.SameChain t := by
  cases h with
  | sign => exact ⟨rfl, rfl, rfl, rfl, rfl, rfl, rfl, rfl⟩
  | record => exact ⟨rfl, rfl, rfl, rfl, rfl, rfl, rfl, rfl⟩
  | finalize => exact ⟨rfl, rfl, rfl, rfl, rfl, rfl, rfl, rfl⟩
  | finalizeWeighted => exact ⟨rfl, rfl, rfl, rfl, rfl, rfl, rfl, rfl⟩

/-- A chain of finality writes does not touch the chain, the ledger or the registry. -/
theorem FinSteps.sameChain {signs target : UInt64 → String → Prop} {delivered : VoteRecord → Prop}
    {s t : DB} (h : n.FinSteps signs target delivered s t) : s.SameChain t :=
  Run.closure_invariant (I := fun t => s.SameChain t)
    (fun _ _ hstep hst => hst.trans hstep.sameChain) h (DB.SameChain.refl s)

/-- Wider bounds admit the same writes. -/
theorem FinSteps.mono {signs signs' target target' : UInt64 → String → Prop}
    {delivered delivered' : VoteRecord → Prop} (hs : ∀ h x, signs h x → signs' h x)
    (ht : ∀ h x, target h x → target' h x) (hd : ∀ vr, delivered vr → delivered' vr) {s t : DB}
    (h : n.FinSteps signs target delivered s t) : n.FinSteps signs' target' delivered' s t := by
  refine Relation.ReflTransGen.mono (fun u v huv => ?_) _ _ h
  cases huv with
  | sign now priv k x hk hpriv hnew => exact .sign now priv k x (hs k x hk) hpriv hnew
  | record vr hvr hchain hval hsig hnew => exact .record vr (hd vr hvr) hchain hval hsig hnew
  | finalize now k x hk hq => exact .finalize now k x (ht k x hk) hq
  | finalizeWeighted ord k x hw hlt => exact .finalizeWeighted ord k x hw hlt

section Operations

variable {signs target : UInt64 → String → Prop} {delivered : VoteRecord → Prop}

theorem finSteps_tryFinalizeHeight (now : Int64) (s : DB) {h : UInt64} {x : String}
    (ht : target h x) : n.FinSteps signs target delivered s (n.tryFinalizeHeight now s h x) := by
  unfold tryFinalizeHeight
  split
  next hq => exact .single (.finalize now h x ht hq)
  next => exact .refl

/-- The weighted routine records a pair, or nothing. -/
theorem finSteps_TryFinalizeHeight (ord : MapOrder) (s : DB) (h : UInt64) :
    n.FinSteps signs target delivered s (TryFinalizeHeight ord s h) := by
  unfold TryFinalizeHeight
  split
  next => exact .refl
  next x hw =>
    split
    next hlt => exact .single (.finalizeWeighted ord h x hw hlt)
    next => exact .refl

/-- Checkpoint voting signs, stores its vote, and may finalize. -/
theorem finSteps_processCheckpointVotes (now : Int64) (s : DB) {cp : Checkpoint}
    (hs : signs cp.height cp.hashHex) (ht : target cp.height cp.hashHex) :
    n.FinSteps signs target delivered s (n.processCheckpointVotes now s cp) := by
  unfold processCheckpointVotes
  split
  · exact .refl
  · split
    · exact .refl
    · split
      next => exact .refl
      next priv hpriv =>
        dsimp only
        split
        next => exact finSteps_tryFinalizeHeight now s ht
        next hnew =>
          have hnew : s.hasVote cp.height n.localPubHex = false := Bool.eq_false_iff.mpr hnew
          exact .trans (.single (.sign now priv _ _ hs hpriv hnew))
            (finSteps_tryFinalizeHeight now _ ht)

/-- A tick at one height. -/
theorem finSteps_ensureVoteForHeight (now : Int64) (s : DB) {h : UInt64}
    (ht : ∀ x b, s.getBlockByHeight h = some (x, b) → signs h x ∧ target h x) :
    n.FinSteps signs target delivered s (n.ensureVoteForHeight now s h) := by
  unfold ensureVoteForHeight storeAndBroadcastVote
  split
  · exact .refl
  next hnew =>
    have hnew : s.hasVote h n.localPubHex = false := Bool.eq_false_iff.mpr hnew
    split
    · exact .refl
    next x b hidx =>
      split
      · exact finSteps_tryFinalizeHeight now s (ht x b hidx).2
      next priv hpriv =>
        exact .trans (.single (.sign now priv h x (ht x b hidx).1 hpriv hnew))
          (finSteps_tryFinalizeHeight now _ (ht x b hidx).2)

/-- The loop of a gossip tick. `V` is any property of heights that the loop counter keeps. -/
theorem finSteps_ensureVotesLoop (now : Int64) {lastCp : UInt64} {V : UInt64 → Prop}
    (hnext : ∀ k, V k → k ≤ lastCp → V (k + n.checkpointInterval)) (fuel : ℕ)
    {h : UInt64} (hh : V h) {s : DB}
    (ht : ∀ k x b, V k → k ≤ lastCp → s.getBlockByHeight k = some (x, b) → signs k x ∧ target k x) :
    n.FinSteps signs target delivered s (n.ensureVotesLoop now lastCp fuel h s) := by
  induction fuel generalizing h s with
  | zero => exact .refl
  | succ fuel ih =>
      rw [ensureVotesLoop]
      split
      next hle =>
        have hone : n.FinSteps signs target delivered s (n.ensureVoteForHeight now s h) :=
          finSteps_ensureVoteForHeight now s fun x b hb => ht h x b hh hle hb
        refine .trans hone (ih (hnext h hh hle) fun k x b hk hkle hb => ht k x b hk hkle ?_)
        rwa [hone.sameChain.getBlockByHeight] at hb
      next => exact .refl

/-- A tick: the loop visits the checkpoint heights up to the tip. -/
theorem finSteps_ensureVotesUpToTip (now : Int64) {s : DB} {V : UInt64 → Prop}
    (hstart : V (n.firstCheckpoint s))
    (hnext : ∀ tipH tipHash k, s.getTip = some (tipH, tipHash) → V k →
      k ≤ n.lastCheckpoint tipH → V (k + n.checkpointInterval))
    (ht : ∀ tipH tipHash k x b, s.getTip = some (tipH, tipHash) → V k →
      k ≤ n.lastCheckpoint tipH → s.getBlockByHeight k = some (x, b) → signs k x ∧ target k x) :
    n.FinSteps signs target delivered s (n.ensureVotesUpToTip now s) := by
  unfold ensureVotesUpToTip
  split
  next => exact .refl
  next tipH tipHash htip =>
    exact finSteps_ensureVotesLoop now (fun k => hnext tipH tipHash k htip) _ hstart
      fun k x b => ht tipH tipHash k x b htip

/-- A vote from a list of a peer is stored, and may finalize. -/
theorem finSteps_ingestVote (now : Int64) (s : DB) (vr : VoteRecord) (hd : delivered vr)
    (ht : target vr.height vr.blockHash) :
    n.FinSteps signs target delivered s (n.ingestVote now s vr) := by
  unfold ingestVote
  split
  · exact .refl
  split
  · exact .refl
  next hchain =>
    split
    · exact .refl
    split
    · exact .refl
    next hsig =>
      split
      · exact .refl
      next hval =>
        dsimp only
        split
        · exact finSteps_tryFinalizeHeight now s ht
        next hnew =>
          have hrec : n.FinStep signs target delivered s (s.putVote vr) :=
            .record vr hd (not_not.mp hchain) (not_not.mp hval) (not_not.mp hsig)
              (Bool.eq_false_iff.mpr hnew)
          exact .trans (.single hrec) (finSteps_tryFinalizeHeight now _ ht)

/-- A vote over HTTP goes to both finalization routines. -/
theorem finSteps_submitVote (ord : MapOrder) (now : Int64) (s : DB) (req : VoteRequest)
    (hd : ∀ vr, req.body = some vr → delivered vr)
    (ht : ∀ vr, req.body = some vr → target vr.height vr.blockHash) :
    n.FinSteps signs target delivered s (n.submitVote ord now s req).2 := by
  unfold submitVote
  split
  · exact .refl
  split
  · exact .refl
  next vr hbody =>
    split
    · exact .refl
    split
    · exact .refl
    next hchain =>
      split
      · exact .refl
      next hval =>
        split
        · exact .refl
        next hsig =>
          dsimp only
          split
          · exact finSteps_tryFinalizeHeight now s (ht vr hbody)
          next hnew =>
            have hrec : n.FinStep signs target delivered s (s.putVote vr) :=
              .record vr (hd vr hbody) (not_not.mp hchain) (not_not.mp hval) (not_not.mp hsig)
                (Bool.eq_false_iff.mpr hnew)
            exact .trans (.trans (.single hrec) (finSteps_TryFinalizeHeight ord _ vr.height))
              (finSteps_tryFinalizeHeight now _ (ht vr hbody))

/-- Moving the tip, then a chain of finality writes about the new tip. -/
theorem finSteps_advanceTip (now : Int64) (s : DB) (b : Block) (cum : UInt64) :
    ∃ s₁, (n.moveTip s b cum).SameChain s₁ ∧ (n.moveTip s b cum).SameFinality s₁ ∧
      n.FinSteps (fun k x => k = b.header.height ∧ x = n.hashHex b.header)
        (fun k x => k = b.header.height ∧ x = n.hashHex b.header) (fun _ => False) s₁
        (n.advanceTip now s b cum) := by
  unfold advanceTip
  dsimp only
  split
  next =>
    refine ⟨_, ?_, ?_, finSteps_processCheckpointVotes now _ ⟨rfl, rfl⟩ ⟨rfl, rfl⟩⟩
    · exact ⟨rfl, rfl, rfl, rfl, rfl, rfl, rfl, rfl⟩
    · exact sameFinality_putCheckpoint ..
  next => exact ⟨_, .refl _, .refl _, .refl⟩

/-- On the chain, advancing the tip is moving the tip. -/
theorem sameChain_advanceTip (now : Int64) (s : DB) (b : Block) (cum : UInt64) :
    (n.moveTip s b cum).SameChain (n.advanceTip now s b cum) := by
  obtain ⟨s₁, hsame, -, hfin⟩ := n.finSteps_advanceTip now s b cum
  exact hsame.trans hfin.sameChain

end Operations

variable (n) in
/-- What an event may make the node sign: a block that becomes the tip, the processed checkpoint, or
at a tick what the height index names. Receiving a vote signs nothing. -/
def Signs (s : DB) : Event → UInt64 → String → Prop
  | .submitBlock _ b => fun h x => h = b.header.height ∧ x = n.hashHex b.header
  | .tick _ => fun h x => ∃ b, s.getBlockByHeight h = some (x, b)
  | .checkpoint _ cp => fun h x => h = cp.height ∧ x = cp.hashHex
  | _ => fun _ _ => False

/-- Every event other than a block is a chain of finality writes. -/
theorem finSteps_step {s : DB} {e : Event} (he : e.block? = none) :
    n.FinSteps (n.Signs s e) (fun _ _ => True) (fun vr => e.vote? = some vr) s (n.step s e) := by
  cases e with
  | submitBlock now b => cases he
  | submitVote ord now req =>
      exact finSteps_submitVote ord now s req (fun vr hvr => hvr) (fun _ _ => trivial)
  | ingestVote now vr => exact finSteps_ingestVote now s vr rfl trivial
  | tick now =>
      rw [step]
      split
      · exact finSteps_ensureVotesUpToTip (V := fun _ => True) now trivial
          (fun _ _ _ _ _ _ => trivial) (fun _ _ k x b _ _ _ hb => ⟨⟨b, hb⟩, trivial⟩)
      · exact .refl
  | checkpoint now cp => exact finSteps_processCheckpointVotes now s ⟨rfl, rfl⟩ trivial

/-- One `SubmitBlock` call: the clock and the block. -/
def submit (n : Node) (s : DB) (c : Int64 × Block) : DB := (n.submitBlock c.1 s c.2).2

end Node

/-! ### A small node for concrete runs -/

namespace Sample

/-- A stand-in for SHA-256 that keeps the last eight bytes of the message, for a header its
nonce: headers with different nonces have different hashes. -/
def sha256 (m : List UInt8) : Hash :=
  ⟨Vector.ofFn fun i =>
    if i.val < 23 then 0 else if i.val = 23 then 1
    else (m.drop (m.length - 8)).getD (i.val - 24) 0⟩

/-- Primitives under which every well-formed signature verifies and no difficulty is required. -/
def prim : Primitives where
  sha256 := sha256
  ed25519Sign := fun _ _ => List.replicate 64 0
  ed25519Verify := fun _ _ _ => true
  pointSetBytes := fun _ => true
  schnorrVerify := fun _ _ _ => true
  nextWorkRequired := fun _ _ _ => none

/-- A configuration without issuance, fees or limits. -/
def cfg : Config where
  issuance := ⟨false, 0, 0, "", ""⟩
  fees := ⟨"", 0, 0, 1, .normal⟩
  limits := ⟨0, 0, 0⟩
  validation := ⟨false, 0⟩
  role := "full"
  readOnly := false
  allowPublicSubmit := true

/-- A node without allocations, validators or snapshots. -/
def node : Node where
  cfg := cfg
  genesis := ⟨"sample", 0, 1, 8, []⟩
  finalityEnabled := false
  checkpointInterval := 1
  thresholdNum := 2
  thresholdDen := 3
  validators := []
  localPubHex := ""
  localPrivHex := ""
  prim := prim
  snapshotDir := ∅
  checkpointInterval_pos := by decide

/-- A child of a block. Its hash is determined by `nonce` and its work by `bits`. -/
def child (parent : Block) (nonce : UInt64) (bits : UInt32) (txs : List Tx) : Block where
  header :=
    { version := 1
      chainID := "sample"
      height := parent.header.height + 1
      timeUnix := 0
      prevHash := parent.header.hash sha256
      stateRoot := Hash.zero
      txRoot := Hash.zero
      bits := bits
      nonce := nonce }
  txs := txs

/-- A block of height one with much work. -/
def main₁ : Block := child node.genesisBlock 1 0x20010000 []

/-- Its child. -/
def main₂ : Block := child main₁ 2 0x20010000 []

/-- Another block of height one, with little work. -/
def fork₁ : Block := child node.genesisBlock 3 0x207fffff []

/-- An account: 64 hexadecimal digits. -/
def alice : String := String.ofList (List.replicate 64 'a')

/-- Another account. -/
def bob : String := String.ofList (List.replicate 64 'b')

/-- A plain output. -/
def pay (address : String) (amount : Int64) : TxOut := ⟨amount, "", address, "", "", "", "", 0⟩

/-- A coinbase that pays the block reward. -/
def coinbase (address : String) : Tx :=
  ⟨"", "", "", "coinbase", none, 1, 0, 0, "", [pay address 5000], ""⟩

/-- A signed transfer without fee. -/
def transfer (sender : String) (nonce : UInt64) (outs : List TxOut) : Tx :=
  ⟨sender, sender, String.ofList (List.replicate 128 '0'), "transfer", none, 1, nonce, 0, "", outs,
    ""⟩

/-- A node with a block reward, and with or without fork validation. -/
def issuing (validateForkState : Bool) : Node :=
  { node with
    cfg := { cfg with
      issuance := ⟨true, 5000, 0, "", ""⟩, validation := ⟨validateForkState, 100⟩ } }

/-- The first block: alice earns the reward and pays it to bob. -/
def spend₁ : Block :=
  child node.genesisBlock 1 0x20010000 [coinbase alice, transfer alice 1 [pay bob 5000]]

/-- The next block: bob earns the reward and pays it to alice. -/
def spend₂ : Block := child spend₁ 2 0x20010000 [coinbase bob, transfer bob 1 [pay alice 5000]]

end Sample

end ReserveOS
