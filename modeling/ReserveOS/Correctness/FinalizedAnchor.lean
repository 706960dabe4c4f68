import ReserveOS.Correctness.Anchor
import ReserveOS.Correctness.FinalityRecord

/-!
# The finalized anchor under all events

`SubmitBlock` keeps the finalized pair on the main chain. Votes need not: `tryFinalizeHeight`
records the pair that the votes name, whether or not this node has the block or has it on its main
chain, and a gossip tick votes for what the height index names. `anchored_of_finalizesOnMainChain`
says that these are the only ways to lose the anchor.
-/

namespace ReserveOS

namespace Node

variable {n : Node} {dom : n.HashDomain} {s : DB}

/-- Events other than a block do not touch the chain. -/
theorem sameChain_step {e : Event} (he : e.block? = none) : s.SameChain (n.step s e) :=
  (finSteps_step he).sameChain

/-- The block tree invariant holds along every event. -/
theorem blockTree_step (h : n.BlockTree dom s) {e : Event}
    (he : ∀ b, e.block? = some b → dom.known b.header) : n.BlockTree dom (n.step s e) := by
  cases hb : e.block? with
  | none => exact h.sameChain (sameChain_step hb)
  | some b =>
      cases e with
      | submitBlock now b' => exact blockTree_submitBlock h (he b' rfl) now
      | submitVote ord now req => cases hb
      | ingestVote now vr => cases hb
      | tick now => cases hb
      | checkpoint now cp => cases hb

variable (n) in
/-- The event finalizes on the main chain only: a received vote whose target the stored votes then
support, a processed checkpoint, and every block that the index names at a height a tick visits are
on the main chain. -/
def FinalizesOnMainChain (s : DB) : Event → Prop
  | .submitBlock _ _ => True
  | .submitVote _ _ req => ∀ vr, req.body = some vr →
      n.quorumReached (s.withVote vr) vr.height vr.blockHash = true →
      s.OnMainChain vr.height vr.blockHash
  | .ingestVote _ vr => n.quorumReached (s.withVote vr) vr.height vr.blockHash = true →
      s.OnMainChain vr.height vr.blockHash
  | .tick _ => ∀ tipH tipHash j x b, s.getTip = some (tipH, tipHash) →
      n.firstCheckpoint s + UInt64.ofNat j * n.checkpointInterval ≤ n.lastCheckpoint tipH →
      s.getBlockByHeight (n.firstCheckpoint s + UInt64.ofNat j * n.checkpointInterval) =
        some (x, b) →
      s.OnMainChain (n.firstCheckpoint s + UInt64.ofNat j * n.checkpointInterval) x
  | .checkpoint _ cp => s.OnMainChain cp.height cp.hashHex

/-- Recording a pair of the main chain keeps the anchor. -/
theorem anchored_of_records {t : DB} (hs : s.Anchored) (hsame : s.SameChain t)
    (hr : DB.Records s.OnMainChain s t) : t.Anchored := by
  intro finH finHash hfin
  rw [DB.OnMainChain.sameChain hsame]
  rcases hr with ⟨hold, -⟩ | ⟨h, x, hmain, hnew, -⟩
  · rw [hold] at hfin
    exact hs finH finHash hfin
  · rw [hnew] at hfin
    obtain ⟨rfl, rfl⟩ : h = finH ∧ x = finHash := Prod.mk.inj (Option.some.inj hfin)
    exact hmain

/-- An event that finalizes on the main chain only keeps the anchor. -/
theorem BlockTree.anchored_step (h : n.BlockTree dom s) (hs : s.Anchored) {e : Event}
    (hknown : ∀ b, e.block? = some b → dom.known b.header) (he : n.FinalizesOnMainChain s e) :
    (n.step s e).Anchored := by
  cases e with
  | submitBlock now b => exact anchored_submitBlock h (hknown b rfl) now hs
  | submitVote ord now req =>
      refine anchored_of_records hs (sameChain_step rfl)
        ((records_submitVote ord now s req).mono ?_)
      rintro k x ⟨vr, hbody, rfl, rfl, hq⟩
      exact he vr hbody hq
  | ingestVote now vr =>
      refine anchored_of_records hs (sameChain_step rfl) ((records_ingestVote now s vr).mono ?_)
      rintro k x ⟨rfl, rfl, hq⟩
      exact he hq
  | tick now =>
      rw [step]
      split
      · -- the heights of the loop are the first one plus multiples of the interval
        have hfin : n.FinSteps (fun _ _ => True) (fun k x => s.OnMainChain k x) (fun _ => False) s
            (n.ensureVotesUpToTip now s) := by
          refine finSteps_ensureVotesUpToTip (V := fun k => ∃ j,
            k = n.firstCheckpoint s + UInt64.ofNat j * n.checkpointInterval) now ⟨0, by simp⟩ ?_ ?_
          · rintro tipH tipHash k - ⟨j, rfl⟩ -
            refine ⟨j + 1, ?_⟩
            rw [UInt64.ofNat_add, UInt64.add_mul, ← UInt64.add_assoc]
            simp
          · rintro tipH tipHash k x b htip ⟨j, rfl⟩ hle hb
            exact ⟨trivial, he tipH tipHash j x b htip hle hb⟩
        exact anchored_finSteps hfin (fun k x hk => hk) hs
      · exact hs
  | checkpoint now cp =>
      refine anchored_of_records hs (sameChain_step rfl)
        ((records_processCheckpointVotes now s cp).mono ?_)
      rintro k x ⟨rfl, rfl⟩
      exact he

/-- In every run whose events finalize on the main chain only, the main chain contains the finalized
pair in every state. -/
theorem anchored_of_finalizesOnMainChain (n : Node) (registry : Table RegValidator)
    (es : List Event) (hcf : n.CollisionFree (es.filterMap Event.block?))
    (hrun : Run.Admitted n.step n.FinalizesOnMainChain (n.genesisDB registry) es) :
    ∀ t ∈ Run.states n.step (n.genesisDB registry) es, t.Anchored := by
  intro t ht
  have hboth : n.BlockTree hcf.domain t ∧ t.Anchored := by
    refine Run.invariant (I := fun s => n.BlockTree hcf.domain s ∧ s.Anchored)
      (E := fun e => ∀ b, e.block? = some b → hcf.domain.known b.header) ?_ ?_ ?_ hrun t ht
    · rintro s e ⟨htree, hs⟩ hknown he
      exact ⟨blockTree_step htree hknown, htree.anchored_step hs hknown he⟩
    · intro e he b hb
      exact hcf.known (List.mem_filterMap.mpr ⟨e, he, hb⟩)
    · exact ⟨blockTree_genesisDB _ registry, anchored_genesisDB registry⟩
  exact hboth.2

end Node

namespace Sample

/-- The hash of the first block. -/
def hash₁ : String := node.hashHex main₁.header

/-- The database after the first block. -/
def firstDB : DB := voting.step (voting.genesisDB ∅) (.submitBlock 0 main₁)

theorem firstDB_read : firstDB.getTip = some (1, hash₁) ∧
    firstDB.blockByHash hash₁ = some main₁ := by
  decide +kernel

end Sample

namespace Node

open Sample

/-- A vote for the block at the tip finalizes on the main chain. -/
theorem anchored_tip :
    voting.CollisionFree [main₁] ∧
    ∀ t ∈ Run.states voting.step (voting.genesisDB ∅)
      [.submitBlock 0 main₁, .ingestVote 0 (vote 1 hash₁)], t.Anchored := by
  have hcf : voting.CollisionFree [main₁] :=
    collisionFree_blocks.of_subset rfl rfl (by simp)
  obtain ⟨htip, hblk⟩ := firstDB_read
  refine ⟨hcf, anchored_of_finalizesOnMainChain voting ∅ [.submitBlock 0 main₁,
    .ingestVote 0 (vote 1 hash₁)] hcf ⟨trivial, fun _ => ?_, trivial⟩⟩
  exact ⟨1, hash₁, htip, by decide, Ancestry.ancestorAt_self hblk⟩

/-- A vote for a checkpoint that this node does not have finalizes it above the tip. -/
theorem not_anchored_unknown :
    ∃ t ∈ Run.states voting.step (voting.genesisDB ∅) [.ingestVote 0 vote₁], ¬ t.Anchored := by
  refine ⟨votedDB, List.mem_cons_of_mem _ List.mem_cons_self, fun hs => ?_⟩
  obtain ⟨tipH, tipHash, htip, hle, -⟩ := hs 1 "01" votedDB_finalized
  have hsame : (voting.genesisDB ∅).SameChain votedDB := sameChain_step rfl
  rw [hsame.getTip] at htip
  obtain ⟨rfl, -⟩ : 0 = tipH ∧ voting.genesisHash = tipHash :=
    Prod.mk.inj (Option.some.inj htip)
  exact absurd hle (by decide)

end Node

end ReserveOS
