import ReserveOS.Node.Events

/-!
# What is recorded as finalized, and in which order

`tryFinalizeHeight` writes whatever pair the stored votes support, without looking at the pair that
is already recorded. `Records` says what one event can write; `finalityForward_of_forward` says that
finality never moves back as long as no event finalizes below, or beside, the recorded pair, and
`not_oneBoundary` that the two finalized pairs of the database are apart from the start.
-/

namespace ReserveOS

namespace DB

/-- The database with a received vote, unless the voter has already voted at that height. -/
def withVote (s : DB) (vr : VoteRecord) : DB :=
  if s.hasVote vr.height vr.pubkeyHex then s else s.putVote vr

/-- From `s` to `t` at most one pair is recorded as finalized, and it is an `allowed` one. -/
def Records (allowed : UInt64 → String → Prop) (s t : DB) : Prop :=
  (t.finalized = s.finalized ∧ t.finalizedLog = s.finalizedLog) ∨
    ∃ h x, allowed h x ∧ t.finalized = some (h, x) ∧ t.finalizedLog = (h, x) :: s.finalizedLog

theorem Records.refl (allowed : UInt64 → String → Prop) (s : DB) : Records allowed s s :=
  Or.inl ⟨rfl, rfl⟩

theorem Records.mono {allowed allowed' : UInt64 → String → Prop}
    (h : ∀ k x, allowed k x → allowed' k x) {s t : DB} (hr : Records allowed s t) :
    Records allowed' s t := by
  rcases hr with hsame | ⟨k, x, hk, hfin, hlog⟩
  · exact Or.inl hsame
  · exact Or.inr ⟨k, x, h k x hk, hfin, hlog⟩

/-- Steps before that record nothing do not matter. -/
theorem Records.of_same {allowed : UInt64 → String → Prop} {s s' t : DB}
    (hfin : s'.finalized = s.finalized) (hlog : s'.finalizedLog = s.finalizedLog)
    (hr : Records allowed s' t) : Records allowed s t := by
  unfold Records at hr ⊢
  rwa [hfin, hlog] at hr

end DB

namespace Node

variable {n : Node}

/-- The decision of `tryFinalizeHeight` reads the votes of the height and the registry. -/
theorem quorumReached_congr {s t : DB} (hvotes : t.votes = s.votes)
    (hvals : t.validators = s.validators) (h : UInt64) (x : String) :
    n.quorumReached t h x = n.quorumReached s h x := by
  unfold quorumReached tallyVotes DB.listValidators DB.listVotesForHeight
  rw [hvotes, hvals]

theorem records_tryFinalizeHeight (now : Int64) (s : DB) (h : UInt64) (x : String) :
    DB.Records (fun k y => k = h ∧ y = x ∧ n.quorumReached s h x = true) s
      (n.tryFinalizeHeight now s h x) := by
  unfold tryFinalizeHeight
  split
  next hq => exact Or.inr ⟨h, x, ⟨rfl, rfl, hq⟩, rfl, rfl⟩
  next => exact .refl _ s

/-- A processed checkpoint records no other pair. -/
theorem records_processCheckpointVotes (now : Int64) (s : DB) (cp : Checkpoint) :
    DB.Records (fun k y => k = cp.height ∧ y = cp.hashHex) s
      (n.processCheckpointVotes now s cp) := by
  unfold processCheckpointVotes
  split
  · exact .refl _ s
  · split
    · exact .refl _ s
    · split
      · exact .refl _ s
      · dsimp only
        split
        · exact (records_tryFinalizeHeight now s _ _).mono fun k y h => ⟨h.1, h.2.1⟩
        · refine .of_same ?_ ?_
            ((records_tryFinalizeHeight now _ _ _).mono fun k y h => ⟨h.1, h.2.1⟩)
          · rfl
          · rfl

/-- A tick records pairs of the heights that it visits. -/
theorem records_ensureVoteForHeight (now : Int64) (s : DB) (h : UInt64) :
    DB.Records (fun k _ => k = h) s (n.ensureVoteForHeight now s h) := by
  unfold ensureVoteForHeight storeAndBroadcastVote
  split
  · exact .refl _ s
  · split
    · exact .refl _ s
    · split
      · exact (records_tryFinalizeHeight now s _ _).mono fun k y h => h.1
      · refine .of_same ?_ ?_ ((records_tryFinalizeHeight now _ _ _).mono fun k y h => h.1)
        · rfl
        · rfl

/-- A vote from a peer's list records at most its own target, when the votes then support it. -/
theorem records_ingestVote (now : Int64) (s : DB) (vr : VoteRecord) :
    DB.Records (fun k y => k = vr.height ∧ y = vr.blockHash ∧
      n.quorumReached (s.withVote vr) vr.height vr.blockHash = true) s (n.ingestVote now s vr) := by
  unfold ingestVote
  split
  · exact .refl _ s
  split
  · exact .refl _ s
  split
  · exact .refl _ s
  split
  · exact .refl _ s
  split
  · exact .refl _ s
  · dsimp only
    unfold DB.withVote
    split
    · exact records_tryFinalizeHeight now s _ _
    · exact .of_same rfl rfl (records_tryFinalizeHeight now _ _ _)

/-- The weighted routine leaves the first pair, its log, the votes and the registry alone. -/
theorem sameVotes_TryFinalizeHeight (ord : MapOrder) (s : DB) (h : UInt64) :
    (TryFinalizeHeight ord s h).finalized = s.finalized ∧
    (TryFinalizeHeight ord s h).finalizedLog = s.finalizedLog ∧
    (TryFinalizeHeight ord s h).votes = s.votes ∧
    (TryFinalizeHeight ord s h).validators = s.validators := by
  unfold TryFinalizeHeight
  split
  · exact ⟨rfl, rfl, rfl, rfl⟩
  · split
    · exact ⟨rfl, rfl, rfl, rfl⟩
    · exact ⟨rfl, rfl, rfl, rfl⟩

/-- A vote by HTTP records at most its own target, when the votes then support it. -/
theorem records_submitVote (ord : MapOrder) (now : Int64) (s : DB) (req : VoteRequest) :
    DB.Records (fun k y => ∃ vr, req.body = some vr ∧ k = vr.height ∧ y = vr.blockHash ∧
      n.quorumReached (s.withVote vr) vr.height vr.blockHash = true) s
      (n.submitVote ord now s req).2 := by
  unfold submitVote
  split
  · exact .refl _ s
  split
  · exact .refl _ s
  next vr hbody =>
    split
    · exact .refl _ s
    split
    · exact .refl _ s
    split
    · exact .refl _ s
    split
    · exact .refl _ s
    · dsimp only
      split
      next hvote =>
        refine (records_tryFinalizeHeight now s _ _).mono fun k y h => ⟨vr, hbody, h.1, h.2.1, ?_⟩
        rw [DB.withVote, if_pos hvote]
        exact h.2.2
      next hvote =>
        -- `TryFinalizeHeight` comes first, and writes neither of the two tables
        obtain ⟨hfin, hlog, hvotes, hvals⟩ :=
          sameVotes_TryFinalizeHeight ord (s.putVote vr) vr.height
        refine .of_same hfin hlog ((records_tryFinalizeHeight now _ _ _).mono fun k y h =>
          ⟨vr, hbody, h.1, h.2.1, ?_⟩)
        rw [DB.withVote, if_neg hvote, ← quorumReached_congr hvotes hvals]
        exact h.2.2

variable (n) in
/-- The block extends the tip at a checkpoint height, so that `SubmitBlock` votes for it. -/
def extendsAtCheckpoint (s : DB) (b : Block) : Bool :=
  extendsTip s b && (n.finalityEnabled && b.header.height % n.checkpointInterval = 0)

/-- A block leaves the finality tables alone, or it extends the tip at a checkpoint height and its
checkpoint is processed. -/
theorem finality_submitBlock (now : Int64) (s : DB) (b : Block) :
    s.SameFinality (n.submitBlock now s b).2 ∨
      n.extendsAtCheckpoint s b = true ∧ ∃ s₁ time, s.SameFinality s₁ ∧ (n.submitBlock now s b).2 =
          n.processCheckpointVotes now s₁ ⟨b.header.height, n.hashHex b.header, time⟩ := by
  have hout := n.submitBlock_outcome now s b
  generalize n.submitBlock now s b = res at hout
  have hstored := n.sameFinality_stored s b
  have hmoved := hstored.trans (n.sameFinality_moveTip _ b (cumWork s b))
  cases hout with
  | rejected e hpre => exact .inl (.refl s)
  | ignored hpre => exact .inl (.refl s)
  | invalidTip e hpre hext hval => exact .inl hstored
  | extended hpre hext hval =>
      dsimp only
      unfold advanceTip
      split
      next hcp =>
        -- the tip is moved before the checkpoint is processed
        have hext : n.extendsAtCheckpoint s b = true := by
          rw [extendsAtCheckpoint, hext, hcp]
          rfl
        exact .inr ⟨hext, _, _, hmoved.trans (sameFinality_putCheckpoint ..), rfl⟩
      next => exact .inl hmoved
  | forkStored r hpre hext hkeep => exact .inl hstored
  | switched finH path hpre hext hwork hpath =>
      have hswitched := hstored.trans (sameFinality_switchTo _ finH path (n.hashHex b.header)
        b.header.height)
      refine .inl (hswitched.trans ?_)
      rw [rebuildStateFromFinalized_eq]
      exact ⟨rfl, rfl, rfl, rfl, rfl, rfl, rfl, rfl⟩

/-- A block records at most itself, when it extends the tip at a checkpoint height. -/
theorem records_submitBlock (now : Int64) (s : DB) (b : Block) :
    DB.Records (fun k y => n.extendsAtCheckpoint s b = true ∧ k = b.header.height ∧
      y = n.hashHex b.header) s (n.submitBlock now s b).2 := by
  rcases n.finality_submitBlock now s b with hsame | ⟨hext, s₁, time, hsame, heq⟩
  · exact .of_same hsame.finalized hsame.finalizedLog (.refl _ _)
  · rw [heq]
    refine .of_same hsame.finalized hsame.finalizedLog
      ((records_processCheckpointVotes now s₁ _).mono fun k y h => ⟨hext, h.1, h.2⟩)

end Node

/-! ### Finality never moves back -/

namespace DB

/-- The pair is above the recorded one, or is the recorded one. -/
def AboveFinalized (s : DB) (h : UInt64) (x : String) : Prop :=
  ∀ finH finHash, s.finalized = some (finH, finHash) → finH < h ∨ (finH = h ∧ finHash = x)

/-- `GetFinalized` returns the newest pair ever recorded, no pair was recorded after a higher one,
and no two with the same height and different hashes. -/
def FinalityForward (s : DB) : Prop :=
  s.finalized = s.finalizedLog.head? ∧
    s.finalizedLog.Pairwise fun new old => old.1 ≤ new.1 ∧ (old.1 = new.1 → old.2 = new.2)

/-- Recording a pair that is above the recorded one, or the same again, keeps the order. -/
theorem FinalityForward.of_records {s t : DB} (hs : s.FinalityForward)
    (hr : Records s.AboveFinalized s t) : t.FinalityForward := by
  obtain ⟨hhead, hpair⟩ := hs
  rcases hr with ⟨hfin, hlog⟩ | ⟨h, x, habove, hfin, hlog⟩
  · unfold FinalityForward
    rw [hfin, hlog]
    exact ⟨hhead, hpair⟩
  · unfold FinalityForward
    rw [hfin, hlog]
    refine ⟨rfl, List.pairwise_cons.mpr ⟨?_, hpair⟩⟩
    intro old hold
    change old.1 ≤ h ∧ (old.1 = h → old.2 = x)
    cases hcase : s.finalizedLog with
    | nil =>
        rw [hcase] at hold
        cases hold
    | cons top rest =>
        rw [hcase] at hold hpair
        have htop := habove top.1 top.2 (by rw [hhead, hcase]; rfl)
        -- the old pair is the newest one, or not above it
        have hle : old.1 ≤ top.1 ∧ (old.1 = top.1 → old.2 = top.2) := by
          rcases List.mem_cons.mp hold with rfl | hmem
          · exact ⟨UInt64.le_refl _, fun _ => rfl⟩
          · exact List.rel_of_pairwise_cons hpair hmem
        rw [UInt64.le_iff_toNat_le] at hle ⊢
        rcases htop with hlt | ⟨rfl, rfl⟩
        · rw [UInt64.lt_iff_toNat_lt] at hlt
          refine ⟨by omega, fun heq => ?_⟩
          rw [heq] at hle
          omega
        · exact hle

end DB

namespace Node

variable {n : Node}

variable (n) in
/-- The event does not finalize below or beside the recorded pair: a received vote whose target the
stored votes then support, a block that extends the tip at a checkpoint height and a processed
checkpoint are above the recorded pair or equal to it, and a tick's heights do not wrap. -/
def FinalizesForward (s : DB) : Event → Prop
  | .submitBlock _ b => n.extendsAtCheckpoint s b = true →
      s.AboveFinalized b.header.height (n.hashHex b.header)
  | .submitVote _ _ req => ∀ vr, req.body = some vr →
      n.quorumReached (s.withVote vr) vr.height vr.blockHash = true →
      s.AboveFinalized vr.height vr.blockHash
  | .ingestVote _ vr => n.quorumReached (s.withVote vr) vr.height vr.blockHash = true →
      s.AboveFinalized vr.height vr.blockHash
  | .tick _ => ∀ tipH tipHash, s.getTip = some (tipH, tipHash) →
      ((s.finalized.map Prod.fst).getD 0).toNat + n.checkpointInterval.toNat < 2 ^ 64 ∧
        (n.lastCheckpoint tipH).toNat + n.checkpointInterval.toNat < 2 ^ 64
  | .checkpoint _ cp => s.AboveFinalized cp.height cp.hashHex

/-- The loop of a tick finalizes at growing heights. -/
theorem finalityForward_ensureVotesLoop (now : Int64) {lastCp : UInt64}
    (hfit : lastCp.toNat + n.checkpointInterval.toNat < 2 ^ 64) (fuel : ℕ) {h : UInt64} {s : DB}
    (hs : s.FinalityForward)
    (hlow : ∀ finH finHash, s.finalized = some (finH, finHash) → finH < h) :
    (n.ensureVotesLoop now lastCp fuel h s).FinalityForward := by
  induction fuel generalizing h s with
  | zero => exact hs
  | succ fuel ih =>
      rw [ensureVotesLoop]
      split
      next hle =>
        have hr := records_ensureVoteForHeight (n := n) now s h
        -- the next height does not wrap, as the last one is far enough from the end
        have hnext : h < h + n.checkpointInterval := by
          have hpos := n.checkpointInterval_pos
          rw [UInt64.lt_iff_toNat_lt] at hpos ⊢
          rw [UInt64.le_iff_toNat_le] at hle
          rw [UInt64.toNat_add, Nat.mod_eq_of_lt (by omega)]
          have hzero : (0 : UInt64).toNat = 0 := rfl
          omega
        refine ih (hs.of_records (hr.mono ?_)) ?_
        · rintro k x rfl finH finHash hfin
          exact Or.inl (hlow finH finHash hfin)
        · -- whatever is recorded now is not above `h`
          intro finH finHash hfin
          rcases hr with ⟨hsame, -⟩ | ⟨k, x, rfl, hnew, -⟩
          · rw [hsame] at hfin
            exact UInt64.lt_trans (hlow finH finHash hfin) hnext
          · rw [hnew] at hfin
            obtain ⟨rfl, rfl⟩ : k = finH ∧ x = finHash := Prod.mk.inj (Option.some.inj hfin)
            exact hnext
      next => exact hs

/-- An event that does not finalize below or beside the recorded pair keeps the order. -/
theorem finalityForward_step {s : DB} (hs : s.FinalityForward) {e : Event}
    (he : n.FinalizesForward s e) : (n.step s e).FinalityForward := by
  cases e with
  | submitBlock now b =>
      refine hs.of_records ((records_submitBlock now s b).mono ?_)
      rintro k x ⟨hext, rfl, rfl⟩
      exact he hext
  | submitVote ord now req =>
      refine hs.of_records ((records_submitVote ord now s req).mono ?_)
      rintro k x ⟨vr, hbody, rfl, rfl, hq⟩
      exact he vr hbody hq
  | ingestVote now vr =>
      refine hs.of_records ((records_ingestVote now s vr).mono ?_)
      rintro k x ⟨rfl, rfl, hq⟩
      exact he hq
  | tick now =>
      rw [step]
      split
      next =>
        unfold ensureVotesUpToTip
        split
        next => exact hs
        next tipH tipHash htip =>
          -- the loop starts one interval above the recorded height
          obtain ⟨hstart, hlast⟩ := he tipH tipHash htip
          refine finalityForward_ensureVotesLoop now hlast _ hs ?_
          intro finH finHash hfin
          rw [hfin] at hstart
          have hpos := n.checkpointInterval_pos
          rw [UInt64.lt_iff_toNat_lt] at hpos ⊢
          rw [firstCheckpoint, hfin, UInt64.toNat_add]
          change finH.toNat + n.checkpointInterval.toNat < 2 ^ 64 at hstart
          change finH.toNat < (finH.toNat + n.checkpointInterval.toNat) % 2 ^ 64
          rw [Nat.mod_eq_of_lt hstart]
          have hzero : (0 : UInt64).toNat = 0 := rfl
          omega
      next => exact hs
  | checkpoint now cp =>
      refine hs.of_records ((records_processCheckpointVotes now s cp).mono ?_)
      rintro k x ⟨rfl, rfl⟩
      exact he

/-- In every run whose events do not finalize below or beside the recorded pair, finality never
moves back. -/
theorem finalityForward_of_forward (n : Node) (registry : Table RegValidator) (es : List Event)
    (hrun : Run.Admitted n.step n.FinalizesForward (n.genesisDB registry) es) :
    ∀ t ∈ Run.states n.step (n.genesisDB registry) es, t.FinalityForward := by
  refine Run.invariant (E := fun _ => True) ?_ (fun _ _ => trivial) ?_ hrun
  · intro s e hs _ he
    exact finalityForward_step hs he
  · exact ⟨rfl, List.pairwise_singleton _ _⟩

end Node

namespace Sample

/-- A node that follows one validator, alice, and has a checkpoint at every height. -/
def voting : Node := { node with finalityEnabled := true, validators := [⟨alice, 1⟩] }

/-- A signed vote of alice. -/
def vote (h : UInt64) (x : String) : VoteRecord :=
  ⟨h, x, "sample", alice, String.ofList (List.replicate 128 '0'), 0⟩

/-- The first of two checkpoints that alice votes for. -/
def vote₁ : VoteRecord := vote 1 "01"

/-- The second one. -/
def vote₂ : VoteRecord := vote 2 "02"

/-- The database after the first vote. -/
def votedDB : DB := voting.step (voting.genesisDB ∅) (.ingestVote 0 vote₁)

theorem votedDB_finalized : votedDB.finalized = some (1, "01") := by
  decide +kernel

/-- The pairs recorded when the first vote is sent again after the second one. -/
theorem finalizedLog_resent :
    ([.ingestVote 0 vote₁, .ingestVote 0 vote₂, .ingestVote 0 vote₁].foldl voting.step
      (voting.genesisDB ∅)).finalizedLog =
        [(1, "01"), (2, "02"), (1, "01"), (0, voting.genesisHash)] := by
  decide +kernel

end Sample

namespace Node

open Sample

/-- Votes for two checkpoints that arrive in order finalize them in order. -/
theorem finalityForward_ordered :
    Run.Admitted voting.step voting.FinalizesForward (voting.genesisDB ∅)
      [.ingestVote 0 vote₁, .ingestVote 0 vote₂] ∧
    ∀ t ∈ Run.states voting.step (voting.genesisDB ∅)
      [.ingestVote 0 vote₁, .ingestVote 0 vote₂], t.FinalityForward := by
  have hrun : Run.Admitted voting.step voting.FinalizesForward
      (voting.genesisDB ∅) [.ingestVote 0 vote₁, .ingestVote 0 vote₂] := by
    refine ⟨fun _ finH finHash hfin => ?_, fun _ finH finHash hfin => ?_, trivial⟩
    · obtain ⟨rfl, -⟩ : 0 = finH ∧ voting.genesisHash = finHash :=
        Prod.mk.inj (Option.some.inj hfin)
      exact Or.inl (by decide)
    · have hvoted : some (1, "01") = some (finH, finHash) := by
        rw [← hfin]
        exact votedDB_finalized.symm
      obtain ⟨rfl, -⟩ : 1 = finH ∧ "01" = finHash := Prod.mk.inj (Option.some.inj hvoted)
      exact Or.inl (by decide)
  exact ⟨hrun, finalityForward_of_forward voting ∅ _ hrun⟩

/-- A vote for an old checkpoint that is sent again after a later one was finalized moves finality
back. -/
theorem not_finalityForward_resent :
    ∃ t ∈ Run.states voting.step (voting.genesisDB ∅)
      [.ingestVote 0 vote₁, .ingestVote 0 vote₂, .ingestVote 0 vote₁],
      ¬ t.FinalityForward := by
  refine ⟨_, Run.foldl_mem_states _ _ _, ?_⟩
  rintro ⟨-, hpair⟩
  rw [finalizedLog_resent] at hpair
  have hfirst := List.rel_of_pairwise_cons hpair List.mem_cons_self
  exact absurd hfirst.1 (by decide)

end Node

/-! ### The two finalized pairs -/

namespace DB

/-- `GetFinalized` returns the pair that `GetFinalizedHeight` and `GetFinalizedHash` return. -/
def OneBoundary (s : DB) : Prop :=
  s.finalized = s.finalizedHeight.bind fun h => s.finalizedHash.map fun x => (h, x)

/-- The first pair is recorded and the second one is not set. -/
def SecondUnset (s : DB) : Prop := s.finalized.isSome ∧ s.finalizedHeight = none

theorem SecondUnset.boundaries_differ {s : DB} (h : s.SecondUnset) : ¬ s.OneBoundary := by
  obtain ⟨hsome, hnone⟩ := h
  unfold OneBoundary
  intro heq
  rw [heq, hnone] at hsome
  cases hsome

/-- Recording the first pair leaves the second one unset. -/
theorem SecondUnset.of_records {allowed : UInt64 → String → Prop} {s t : DB} (h : s.SecondUnset)
    (hr : Records allowed s t) (hheight : t.finalizedHeight = s.finalizedHeight) :
    t.SecondUnset := by
  obtain ⟨hsome, hnone⟩ := h
  refine ⟨?_, hheight.trans hnone⟩
  rcases hr with ⟨hfin, -⟩ | ⟨k, x, -, hfin, -⟩
  · rw [hfin]
    exact hsome
  · rw [hfin]
    rfl

end DB

namespace Node

variable {n : Node}

theorem finalizedHeight_tryFinalizeHeight (now : Int64) (s : DB) (h : UInt64) (x : String) :
    (n.tryFinalizeHeight now s h x).finalizedHeight = s.finalizedHeight := by
  unfold tryFinalizeHeight
  split <;> rfl

/-- A processed checkpoint leaves the second finalized pair alone. -/
theorem finalizedHeight_processCheckpointVotes (now : Int64) (s : DB) (cp : Checkpoint) :
    (n.processCheckpointVotes now s cp).finalizedHeight = s.finalizedHeight := by
  unfold processCheckpointVotes
  split
  · rfl
  · split
    · rfl
    · split
      · rfl
      · dsimp only
        rw [finalizedHeight_tryFinalizeHeight]
        split <;> rfl

theorem finalizedHeight_ensureVoteForHeight (now : Int64) (s : DB) (h : UInt64) :
    (n.ensureVoteForHeight now s h).finalizedHeight = s.finalizedHeight := by
  unfold ensureVoteForHeight storeAndBroadcastVote
  split
  · rfl
  · split
    · rfl
    · rw [finalizedHeight_tryFinalizeHeight]
      split <;> rfl

/-- So does a vote from a peer. -/
theorem finalizedHeight_ingestVote (now : Int64) (s : DB) (vr : VoteRecord) :
    (n.ingestVote now s vr).finalizedHeight = s.finalizedHeight := by
  unfold ingestVote
  split
  · rfl
  split
  · rfl
  split
  · rfl
  split
  · rfl
  split
  · rfl
  · dsimp only
    rw [finalizedHeight_tryFinalizeHeight]
    split <;> rfl

theorem finalizedHeight_submitBlock (now : Int64) (s : DB) (b : Block) :
    (n.submitBlock now s b).2.finalizedHeight = s.finalizedHeight := by
  rcases n.finality_submitBlock now s b with hsame | ⟨-, s₁, time, hsame, heq⟩
  · exact hsame.finalizedHeight
  · rw [heq, finalizedHeight_processCheckpointVotes, hsame.finalizedHeight]

/-- A tick leaves the second pair unset. -/
theorem secondUnset_ensureVotesLoop (now : Int64) {lastCp : UInt64} (fuel : ℕ) {h : UInt64}
    {s : DB} (hs : s.SecondUnset) : (n.ensureVotesLoop now lastCp fuel h s).SecondUnset := by
  induction fuel generalizing h s with
  | zero => exact hs
  | succ fuel ih =>
      rw [ensureVotesLoop]
      split
      · exact ih (hs.of_records (records_ensureVoteForHeight now s h)
          (finalizedHeight_ensureVoteForHeight now s h))
      · exact hs

/-- Only a vote by HTTP can set the second pair. -/
theorem secondUnset_step {s : DB} (hs : s.SecondUnset) {e : Event}
    (he : ∀ ord now req, e ≠ .submitVote ord now req) : (n.step s e).SecondUnset := by
  cases e with
  | submitBlock now b =>
      exact hs.of_records (records_submitBlock now s b) (finalizedHeight_submitBlock now s b)
  | submitVote ord now req => exact absurd rfl (he ord now req)
  | ingestVote now vr =>
      exact hs.of_records (records_ingestVote now s vr) (finalizedHeight_ingestVote now s vr)
  | tick now =>
      rw [step]
      split
      · unfold ensureVotesUpToTip
        split
        · exact hs
        · exact secondUnset_ensureVotesLoop now _ hs
      · exact hs
  | checkpoint now cp =>
      exact hs.of_records (records_processCheckpointVotes now s cp)
        (finalizedHeight_processCheckpointVotes now s cp)

/-- No run keeps the two pairs equal: they differ in the first state already, and without votes by
HTTP they differ in every state. -/
theorem not_oneBoundary (n : Node) (registry : Table RegValidator) (es : List Event) :
    (∃ t ∈ Run.states n.step (n.genesisDB registry) es, ¬ t.OneBoundary) ∧
      ((∀ e ∈ es, ∀ ord now req, e ≠ .submitVote ord now req) →
        ∀ t ∈ Run.states n.step (n.genesisDB registry) es, ¬ t.OneBoundary) := by
  have hinit : (n.genesisDB registry).SecondUnset := ⟨rfl, rfl⟩
  constructor
  · refine ⟨n.genesisDB registry, ?_, hinit.boundaries_differ⟩
    cases es <;> exact List.mem_cons_self
  · intro hes t ht
    have hall : ∀ u ∈ Run.states n.step (n.genesisDB registry) es, u.SecondUnset :=
      Run.invariant (fun s e hs he _ => secondUnset_step hs he) hes hinit
        (Run.admitted_of_forall _ fun _ _ _ => trivial)
    exact (hall t ht).boundaries_differ

open Sample

/-- A vote from a peer's list finalizes a checkpoint for `GetFinalized` only. -/
theorem not_oneBoundary_ingested :
    (voting.step (voting.genesisDB ∅) (.ingestVote 0 vote₁)).finalized = some (1, "01") ∧
    ¬ (voting.step (voting.genesisDB ∅)
      (.ingestVote 0 vote₁)).OneBoundary := by
  refine ⟨votedDB_finalized, DB.SecondUnset.boundaries_differ ?_⟩
  exact secondUnset_step ⟨rfl, rfl⟩ fun ord now req => nofun

end Node

end ReserveOS
