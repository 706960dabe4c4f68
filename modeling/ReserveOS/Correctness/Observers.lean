import ReserveOS.Network.Agreement

/-!
# What an observer signs

A node that is configured as read-only or as an observer is not to sign checkpoints.
`processCheckpointVotes` looks at the role. The gossip tick reaches the key through
`ensureVoteForHeight` and `storeAndBroadcastVote`, which do not.

`Silent` says when an event makes the node sign nothing, and a run of an observer signs nothing
exactly if all its events are silent (`neverSigns_iff`).
-/

namespace ReserveOS

namespace Node

variable (n : Node)

/-- The heights that the loop of a tick visits: `firstCheckpoint`, and from there in steps of the
interval as long as `lastCheckpoint` is not passed. Heights are `uint64` and wrap around. -/
def Visits (s : DB) (h : UInt64) : Prop :=
  ∃ tipH tipHash, s.getTip = some (tipH, tipHash) ∧
    ∃ i : UInt64, h = n.firstCheckpoint s + i * n.checkpointInterval ∧
      ∀ j ≤ i, n.firstCheckpoint s + j * n.checkpointInterval ≤ n.lastCheckpoint tipH

/-- `ensureVoteForHeight` has nothing to do. -/
def Settled (s : DB) (h : UInt64) : Prop :=
  s.hasVote h n.localPubHex = true ∨ s.getBlockByHeight h = none

/-- The event makes an observer sign nothing. -/
def Silent (s : DB) : Event → Prop
  | .tick _ => n.finalityEnabled = false ∨ parsePriv n.localPrivHex = none ∨
      ∀ h, n.Visits s h → n.Settled s h
  | _ => True

/-- Finality writes that sign only what `signs` allows. -/
abbrev SigningSteps (signs : UInt64 → String → Prop) : DB → DB → Prop :=
  n.FinSteps signs (fun _ _ => True) (fun _ => True)

variable {n} {signs : UInt64 → String → Prop} {s t : DB}

/-- Signed votes are never forgotten. -/
theorem SigningSteps.signLog_suffix (h : n.SigningSteps signs s t) :
    s.signLog <:+ t.signLog := by
  refine Run.closure_invariant (I := fun u => s.signLog <:+ u.signLog) (fun u v hstep hu => ?_) h
    (List.suffix_refl _)
  cases hstep with
  | sign => exact hu.trans (List.suffix_cons _ _)
  | record => exact hu
  | finalize => exact hu
  | finalizeWeighted => exact hu

/-- Code that may not sign, or that has no key, does not. -/
theorem SigningSteps.signLog_eq (h : n.SigningSteps signs s t)
    (hnone : (∀ k x, ¬ signs k x) ∨ parsePriv n.localPrivHex = none) :
    t.signLog = s.signLog := by
  refine Run.closure_invariant (I := fun u => u.signLog = s.signLog) (fun u v hstep hu => ?_) h rfl
  cases hstep with
  | sign now priv k x hsigns hpriv =>
      rcases hnone with hnot | hkey
      · exact absurd hsigns (hnot k x)
      · rw [hkey] at hpriv
        cases hpriv
  | record => exact hu
  | finalize => exact hu
  | finalizeWeighted => exact hu

/-! ### Blocks, checkpoints and votes -/

/-- `processCheckpointVotes` looks at the role. -/
theorem processCheckpointVotes_of_readOnly (hro : n.isReadOnly = true) (now : Int64) (s : DB)
    (cp : Checkpoint) : n.processCheckpointVotes now s cp = s := by
  unfold processCheckpointVotes
  exact if_pos (Or.inr hro)

/-- A block makes an observer sign nothing. -/
theorem signLog_submitBlock (hro : n.isReadOnly = true) (now : Int64) (s : DB) (b : Block) :
    (n.submitBlock now s b).2.signLog = s.signLog := by
  have hout := n.submitBlock_outcome now s b
  generalize n.submitBlock now s b = r at hout
  have hstored := (n.sameFinality_stored s b).signLog
  cases hout with
  | rejected => rfl
  | ignored => rfl
  | invalidTip => exact hstored
  | extended =>
      -- only checkpoint processing could sign
      unfold advanceTip
      dsimp only
      split
      · rw [processCheckpointVotes_of_readOnly hro]
        exact hstored
      · exact hstored
  | forkStored => exact hstored
  | switched finH path =>
      rw [rebuildStateFromFinalized_eq]
      exact (sameFinality_switchTo (n.stored s b) finH path (n.hashHex b.header)
        b.header.height).signLog.trans hstored

/-! ### Ticks -/

theorem ensureVoteForHeight_of_settled (now : Int64) {h : UInt64} (hset : n.Settled s h) :
    n.ensureVoteForHeight now s h = s := by
  unfold ensureVoteForHeight
  rcases hset with hvote | hnone
  · exact if_pos hvote
  · rw [hnone]
    split <;> rfl

/-- Otherwise the block of the height is signed, whatever the role. -/
theorem signLog_ensureVoteForHeight (now : Int64) {priv : List UInt8}
    (hpriv : parsePriv n.localPrivHex = some priv) {h : UInt64} (hset : ¬ n.Settled s h) :
    ∃ x, (n.ensureVoteForHeight now s h).signLog = (h, x) :: s.signLog := by
  obtain ⟨hvote, hblock⟩ := not_or.mp hset
  obtain ⟨⟨x, b⟩, hb⟩ := Option.ne_none_iff_exists'.mp hblock
  refine ⟨x, ?_⟩
  unfold ensureVoteForHeight storeAndBroadcastVote
  rw [if_neg hvote, hb, hpriv]
  have hfin : n.SigningSteps (fun _ _ => False) (n.signAndStore now s priv h x)
      (n.tryFinalizeHeight now (n.signAndStore now s priv h x) h x) :=
    finSteps_tryFinalizeHeight now _ trivial
  exact hfin.signLog_eq (Or.inl fun _ _ => id)

/-- The next round of the loop is one interval higher. -/
theorem add_succ_mul (h : UInt64) (i : ℕ) (k : UInt64) :
    h + UInt64.ofNat (i + 1) * k = h + k + UInt64.ofNat i * k := by
  rw [UInt64.ofNat_add, UInt64.add_mul, show UInt64.ofNat 1 = 1 from rfl, UInt64.one_mul,
    UInt64.add_comm _ k, UInt64.add_assoc]

theorem add_zero_mul (h k : UInt64) : h + UInt64.ofNat 0 * k = h := by
  rw [show UInt64.ofNat 0 = 0 from rfl, UInt64.zero_mul, UInt64.add_zero]

/-- What holds of every height that `fuel + 1` rounds visit holds of the first one and of those that
the rounds from the next one on visit. -/
theorem forall_rounds_succ_iff {P : UInt64 → Prop} {lastCp h k : UInt64} (hle : h ≤ lastCp)
    (fuel : ℕ) :
    (∀ i < fuel + 1, (∀ j ≤ i, h + UInt64.ofNat j * k ≤ lastCp) → P (h + UInt64.ofNat i * k)) ↔
      P h ∧ ∀ i < fuel, (∀ j ≤ i, h + k + UInt64.ofNat j * k ≤ lastCp) →
        P (h + k + UInt64.ofNat i * k) := by
  constructor
  · intro hall
    refine ⟨?_, fun i hi hj => ?_⟩
    · have hfirst := hall 0 (by omega)
      rw [add_zero_mul] at hfirst
      refine hfirst fun j hj => ?_
      rw [Nat.le_zero.mp hj, add_zero_mul]
      exact hle
    · -- round `i` from the next height on is round `i + 1`
      rw [← add_succ_mul]
      refine hall (i + 1) (by omega) fun j hji => ?_
      cases j with
      | zero => rwa [add_zero_mul]
      | succ j =>
          rw [add_succ_mul]
          exact hj j (by omega)
  · rintro ⟨hfirst, hrest⟩ i hi hj
    cases i with
    | zero => rwa [add_zero_mul]
    | succ i =>
        rw [add_succ_mul]
        refine hrest i (by omega) fun j hji => ?_
        rw [← add_succ_mul]
        exact hj (j + 1) (by omega)

/-- The loop signs nothing exactly if every height it visits is settled before it starts. -/
theorem signLog_ensureVotesLoop_iff (now : Int64) {priv : List UInt8}
    (hpriv : parsePriv n.localPrivHex = some priv) (lastCp : UInt64) (fuel : ℕ) (h : UInt64)
    (s : DB) :
    (n.ensureVotesLoop now lastCp fuel h s).signLog = s.signLog ↔
      ∀ i < fuel, (∀ j ≤ i, h + UInt64.ofNat j * n.checkpointInterval ≤ lastCp) →
        n.Settled s (h + UInt64.ofNat i * n.checkpointInterval) := by
  induction fuel generalizing h s with
  | zero => simp [ensureVotesLoop]
  | succ fuel ih =>
      rw [ensureVotesLoop]
      by_cases hle : h ≤ lastCp
      · rw [if_pos hle, forall_rounds_succ_iff hle]
        by_cases hset : n.Settled s h
        · -- a settled height changes nothing, so the rest decides
          rw [ensureVoteForHeight_of_settled now hset, and_iff_right hset]
          exact ih (h + n.checkpointInterval) s
        · refine iff_of_false (fun heq => ?_) fun hall => hset hall.1
          -- the new vote stays in the log
          obtain ⟨x, hx⟩ := signLog_ensureVoteForHeight now hpriv hset
          have hfin : n.SigningSteps (fun _ _ => True) (n.ensureVoteForHeight now s h)
              (n.ensureVotesLoop now lastCp fuel (h + n.checkpointInterval)
                (n.ensureVoteForHeight now s h)) :=
            finSteps_ensureVotesLoop (V := fun _ => True) now (fun _ _ _ => trivial) fuel trivial
              fun _ _ _ _ _ _ => ⟨trivial, trivial⟩
          have hsuffix := hfin.signLog_suffix
          rw [heq, hx] at hsuffix
          exact absurd hsuffix.length_le (by simp)
      · rw [if_neg hle]
        refine iff_of_true rfl fun i hi hj => absurd ?_ hle
        have hfirst := hj 0 (Nat.zero_le i)
        rwa [add_zero_mul] at hfirst

/-- A tick signs nothing exactly if every height that it visits is settled. -/
theorem signLog_ensureVotesUpToTip_iff (now : Int64) {priv : List UInt8}
    (hpriv : parsePriv n.localPrivHex = some priv) (s : DB) :
    (n.ensureVotesUpToTip now s).signLog = s.signLog ↔ ∀ h, n.Visits s h → n.Settled s h := by
  unfold ensureVotesUpToTip Visits
  cases htip : s.getTip with
  | none => simp
  | some tip =>
      obtain ⟨tipH, tipHash⟩ := tip
      refine (signLog_ensureVotesLoop_iff now hpriv (n.lastCheckpoint tipH) (2 ^ 64)
        (n.firstCheckpoint s) s).trans ⟨?_, ?_⟩
      -- rounds are counted by a natural number in the loop, and by a `uint64` in `Visits`
      · rintro hall h ⟨_, _, heq, i, rfl, hj⟩
        cases heq
        have hi := hall i.toNat i.toNat_lt fun j hji => hj (UInt64.ofNat j) ?_
        · rwa [UInt64.ofNat_toNat] at hi
        · rw [UInt64.le_iff_toNat_le, UInt64.toNat_ofNat_of_lt' (hji.trans_lt i.toNat_lt)]
          exact hji
      · intro hall i hi hj
        refine hall _ ⟨tipH, tipHash, rfl, UInt64.ofNat i, rfl, fun j hji => ?_⟩
        rw [UInt64.le_iff_toNat_le, UInt64.toNat_ofNat_of_lt' hi] at hji
        have hle := hj j.toNat hji
        rwa [UInt64.ofNat_toNat] at hle

/-! ### Runs -/

/-- An event makes an observer sign nothing exactly if it is silent. -/
theorem signLog_step_iff (hro : n.isReadOnly = true) (s : DB) (e : Event) :
    (n.step s e).signLog = s.signLog ↔ n.Silent s e := by
  cases e with
  | submitBlock now b => exact iff_of_true (signLog_submitBlock hro now s b) trivial
  | submitVote ord now req =>
      have hfin : n.SigningSteps (fun _ _ => False) s (n.submitVote ord now s req).2 :=
        finSteps_submitVote ord now s req (fun _ _ => trivial) (fun _ _ => trivial)
      exact iff_of_true (hfin.signLog_eq (Or.inl fun _ _ => id)) trivial
  | ingestVote now vr =>
      have hfin : n.SigningSteps (fun _ _ => False) s (n.ingestVote now s vr) :=
        finSteps_ingestVote now s vr trivial trivial
      exact iff_of_true (hfin.signLog_eq (Or.inl fun _ _ => id)) trivial
  | checkpoint now cp =>
      refine iff_of_true ?_ trivial
      rw [step, processCheckpointVotes_of_readOnly hro]
  | tick now =>
      rw [step, Silent]
      cases hfin : n.finalityEnabled with
      | false => exact iff_of_true rfl (Or.inl rfl)
      | true =>
          cases hpriv : parsePriv n.localPrivHex with
          | none =>
              -- without a key the votes of the loop are not made
              have hticks : n.SigningSteps (fun _ _ => True) s (n.ensureVotesUpToTip now s) :=
                finSteps_ensureVotesUpToTip (V := fun _ => True) now trivial
                  (fun _ _ _ _ _ _ => trivial) (fun _ _ _ _ _ _ _ _ _ => ⟨trivial, trivial⟩)
              exact iff_of_true (hticks.signLog_eq (Or.inr hpriv)) (Or.inr (Or.inl rfl))
          | some priv =>
              rw [if_pos rfl, signLog_ensureVotesUpToTip_iff now hpriv s]
              simp

/-- A run of a read-only node or an observer signs nothing exactly if each of its ticks finds
finality disabled, no usable key, or nothing to sign. -/
theorem neverSigns_iff (n : Node) (hro : n.isReadOnly = true) (s : DB) (es : List Event) :
    (∀ t ∈ Run.states n.step s es, t.signLog = s.signLog) ↔ Run.Admitted n.step n.Silent s es := by
  refine Run.forall_states_iff (I := fun _ => True) (E := fun _ => True)
    (fun _ _ _ _ => trivial) (fun t e _ _ ht => ?_) (fun _ _ => trivial) trivial rfl
  rw [← ht]
  exact signLog_step_iff hro t e

end Node

namespace Sample

/-- Alice's node, as an observer. -/
def observer : Node := { seat alice with cfg := { cfg with role := "observer" } }

/-- A tick, the first block, and its checkpoint. -/
def watching : List Event := [.tick 0, .submitBlock 0 main₁, .checkpoint 0 ⟨1, hash₁, 0⟩]

/-- At genesis there is no checkpoint to sign. -/
theorem admitted_watching :
    Run.Admitted observer.step observer.Silent (observer.genesisDB ∅) watching := by
  refine ⟨Or.inr (Or.inr ?_), trivial, trivial, trivial⟩
  rintro h ⟨tipH, tipHash, htip, i, -, hj⟩
  have hgenesis : ((observer.genesisDB ∅).getTip.map Prod.fst) = some 0 := by decide
  rw [htip] at hgenesis
  cases Option.some.inj hgenesis
  exact absurd (hj 0 (UInt64.zero_le)) (by decide)

end Sample

namespace Node

open Sample

/-- Before the first tick above a checkpoint, nothing is signed. -/
theorem neverSigns_watching : observer.isReadOnly = true ∧
    ∀ t ∈ Run.states observer.step (observer.genesisDB ∅) watching,
      t.signLog = (observer.genesisDB ∅).signLog :=
  ⟨by decide, (neverSigns_iff observer (by decide) _ _).mpr admitted_watching⟩

/-- The observer receives the first block, and signs it at the next tick. -/
theorem not_neverSigns_tick : observer.isReadOnly = true ∧ (observer.genesisDB ∅).signLog = [] ∧
    ∃ t ∈ Run.states observer.step (observer.genesisDB ∅)
      [.submitBlock 0 main₁, .tick 0], t.signLog = [(1, hash₁)] := by
  refine ⟨by decide, rfl, _, Run.foldl_mem_states _ _ _, ?_⟩
  decide +kernel

end Node

end ReserveOS
