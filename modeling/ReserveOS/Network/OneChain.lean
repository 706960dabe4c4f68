import ReserveOS.Network.Agreement

/-!
# Checkpoints of different heights

A vote names a height and a hash and nothing else: no rule keeps a validator from voting on one
branch, switching, and voting on another branch at the next checkpoint. Honest validators that do so
can finalize two conflicting blocks (`not_oneChain_switched`). It takes a third of the weight: as
long as the validators whose signed votes do not lie on one chain hold less than that, all finalized
checkpoints lie on one chain, at all nodes (`oneChain_of_votes`).
-/

namespace ReserveOS

open Quorum

/-! ### Signed blocks are stored -/

namespace DB

/-- One of the two blocks is an ancestor of the other. -/
def OneChain (s : DB) (x y : String) : Prop := s.IsAncestor x y ∨ s.IsAncestor y x

/-- Every block that the node signed is stored. -/
def SignedStored (s : DB) : Prop := ∀ h x, (h, x) ∈ s.signLog → ∃ b, s.blockByHash x = some b

/-- The votes that the node signed lie on one chain. -/
def VotesOnOneChain (s : DB) : Prop :=
  ∀ h x h' y, (h, x) ∈ s.signLog → (h', y) ∈ s.signLog → s.OneChain x y

end DB

namespace Node

variable {n : Node} {dom : n.HashDomain} {s : DB}

/-- Stored blocks stay stored. -/
theorem blockByHash_step {x : String} {b : Block} (hx : s.blockByHash x = some b) (e : Event) :
    ∃ b', (n.step s e).blockByHash x = some b' := by
  cases hb : e.block? with
  | none =>
      rw [(sameChain_step hb).blockByHash]
      exact ⟨b, hx⟩
  | some c =>
      obtain ⟨now, rfl⟩ : ∃ now, e = .submitBlock now c := by
        cases e <;> cases hb
        exact ⟨_, rfl⟩
      rcases n.blockByHash_submitBlock now s c with ⟨-, hsame⟩ | ⟨-, hsame⟩
      · rw [step, hsame]
        exact ⟨b, hx⟩
      · rw [step, hsame, blockByHash_stored]
        split
        · exact ⟨c, rfl⟩
        · exact ⟨b, hx⟩

/-- What an event makes the node sign is stored after it. -/
theorem BlockTree.signedStored_step (h : n.BlockTree dom s) (hs : s.SignedStored) {e : Event}
    (hcp : ∀ now cp, e = .checkpoint now cp → s.getTip = some (cp.height, cp.hashHex)) :
    (n.step s e).SignedStored := by
  intro k x hx
  have hstay : (k, x) ∈ s.signLog → ∃ b, (n.step s e).blockByHash x = some b := by
    intro hold
    obtain ⟨b, hb⟩ := hs k x hold
    exact blockByHash_step hb e
  rcases (n.signLog_step s e).2 k x hx with hold | hsigns
  · exact hstay hold
  · -- one case for each way to sign: the new tip, the index entry, the processed checkpoint
    cases e with
    | submitBlock now b =>
        obtain ⟨rfl, rfl⟩ := hsigns
        rcases n.blockByHash_submitBlock now s b with ⟨-, hsame⟩ | ⟨-, hsame⟩
        · rw [step, hsame] at hx
          exact hstay hx
        · rw [step, hsame]
          exact ⟨b, blockByHash_stored_self⟩
    | submitVote ord now req => exact hsigns.elim
    | ingestVote now vr => exact hsigns.elim
    | tick now =>
        obtain ⟨b, hget⟩ := hsigns
        exact blockByHash_step (DB.getBlockByHeight_eq_some_iff.mp hget).2 (.tick now)
    | checkpoint now cp =>
        obtain ⟨rfl, rfl⟩ := hsigns
        obtain ⟨t, htip, ht⟩ := h.tip
        rw [hcp now cp rfl] at htip
        rw [← (Prod.mk.inj (Option.some.inj htip)).2] at ht
        exact blockByHash_step ht (.checkpoint now cp)

/-- The genesis block is an ancestor of every stored block. -/
theorem BlockTree.genesis_isAncestor (h : n.BlockTree dom s) {x : String} {b : Block}
    (hx : s.blockByHash x = some b) : s.IsAncestor n.genesisHash x := by
  obtain ⟨a, hanc, c, hc, hzero⟩ := Ancestry.exists_ancestorAt h.linked hx (Nat.zero_le _)
  rwa [h.root a c hc hzero] at hanc

end Node

namespace Network

variable {ι : Type} {net : Network ι} {s : ι → DB}

/-- All validators are honest: every validator key belongs to one node. Weights are positive and so
small that no product overflows. -/
structure AllHonest (net : Network ι) : Prop where
  registry : net.registry = ∅
  honest : ∀ v ∈ net.validators, ∃ i, net.pub i = v.pubkeyHex
  keys : ∀ i j, (∃ v ∈ net.validators, v.pubkeyHex = net.pub i) → net.pub i = net.pub j → i = j
  pos : ∀ v ∈ net.validators, 0 < v.weight
  small : 3 * total (configElectors net.validators) < 2 ^ 63

variable (net) in
/-- The keys of the nodes whose signed votes do not lie on one chain. -/
def switchers (s : ι → DB) : Set String := {k | ∃ m, net.pub m = k ∧ ¬ (s m).VotesOnOneChain}

theorem AllHonest.electors_eq (h : net.AllHonest) :
    net.electors = configElectors net.validators := by
  unfold electors electorsOf listed
  rw [h.registry, if_neg (by simp)]

/-- Nobody is faulty. -/
theorem AllHonest.weight_faulty_union (h : net.AllHonest) (F : Set String) :
    weight net.electors (net.faulty ∪ F) ≤ weight net.electors F := by
  rw [h.electors_eq]
  refine weight_le_weight (fun e he => ?_) fun e he hmem => hmem.resolve_left fun hfaulty => ?_
  · obtain ⟨v, hv, rfl⟩ := List.mem_map.mp he
    exact (weight_pos_iff.mp (h.pos v hv)).le
  · obtain ⟨v, hv, rfl⟩ := List.mem_map.mp he
    obtain ⟨i, hi⟩ := h.honest v hv
    exact hfaulty i hi

/-- Validators of the network itself are an electorate to be trusted. -/
theorem AllHonest.trusted (h : net.AllHonest) : net.Trusted net.electors := by
  have hlisted : net.listed = [] := by
    unfold listed
    rw [h.registry]
    simp
  refine ⟨fun i j hi hij => h.keys i j ?_ hij, fun e he => ?_, ?_, fun htotal => ?_⟩
  · rw [h.electors_eq] at hi
    obtain ⟨e, he, heq⟩ := List.mem_map.mp hi
    obtain ⟨v, hv, rfl⟩ := List.mem_map.mp he
    exact ⟨v, hv, heq⟩
  · rw [h.electors_eq] at he
    obtain ⟨v, hv, rfl⟩ := List.mem_map.mp he
    exact weight_pos_iff.mp (h.pos v hv)
  · rw [hlisted, roundsOf, if_neg (not_not.mpr rfl), one_mul, h.electors_eq]
    exact h.small
  · have hzero := h.weight_faulty_union ∅
    rw [Set.union_empty, weight_empty] at hzero
    omega

variable (net) in
/-- Every node has a block tree and has signed stored blocks only. -/
structure Stores (dom : ∀ i, (net.node i).HashDomain) (s : ι → DB) : Prop where
  tree : ∀ i, (net.node i).BlockTree (dom i) (s i)
  signed : ∀ i, (s i).SignedStored

theorem stores_init (dom : ∀ i, (net.node i).HashDomain) : net.Stores dom net.init where
  tree := fun i => Node.blockTree_genesisDB (dom i) net.registry
  signed := fun _ _ _ hmem => by cases hmem

/-- Every event keeps what the nodes have stored. -/
theorem Stores.step [DecidableEq ι] {dom : ∀ i, (net.node i).HashDomain} (h : net.Stores dom s)
    {e : ι × Event} (hknown : ∀ b, e.2.block? = some b → ∀ i, (dom i).known b.header)
    (he : net.Admits s e) : net.Stores dom (net.step s e) := by
  refine ⟨net.forall_step _ h.tree ?_,
    net.forall_step (P := fun _ t => t.SignedStored) _ h.signed ?_⟩
  · exact Node.blockTree_step (h.tree e.1) fun b hb => hknown b hb e.1
  · exact (h.tree e.1).signedStored_step (h.signed e.1) he.2

/-- Every two checkpoints that `PutFinalized` ever wrote, at any two nodes, lie on one chain. -/
def FinalizedOnOneChain (t : ι → DB) : Prop :=
  ∀ i j h x h' y, (h, x) ∈ (t i).finalizedLog → (h', y) ∈ (t j).finalizedLog →
    ∃ m, (t m).OneChain x y

/-- A supported pair and the genesis block lie on one chain. -/
theorem Stores.genesis_oneChain {dom : ∀ i, (net.node i).HashDomain} (h : net.Stores dom s)
    (hinv : net.Invariant s) (ht : net.Trusted net.electors) {i : ι} {k : UInt64} {x : String}
    (hx : (net.node i).Supported (s i) k x) :
    ∃ m, (s m).IsAncestor net.genesisHash x := by
  obtain ⟨m, hm, -⟩ := hinv.common_signer ht hx hx
  obtain ⟨b, hb⟩ := h.signed m k x hm
  rw [← genesisHash_eq m]
  exact ⟨m, (h.tree m).genesis_isAncestor hb⟩

/-- Two finalized checkpoints have a signer in common whose votes lie on one chain. -/
theorem Stores.finalizedOnOneChain {dom : ∀ i, (net.node i).HashDomain} (h : net.Stores dom s)
    (hinv : net.Invariant s) (ht : net.Trusted net.electors)
    (hvotes : 0 < total net.electors →
      3 * weight net.electors (net.faulty ∪ net.switchers s) < total net.electors) :
    FinalizedOnOneChain s := by
  intro i j k x k' y hx hy
  -- a record is the genesis pair of the start, or supported by votes
  rcases (hinv.book i).finalized k x hx with ⟨-, rfl⟩ | hx
  · rcases (hinv.book j).finalized k' y hy with ⟨-, rfl⟩ | hy
    · refine ⟨i, Or.inl ?_⟩
      rw [genesisHash_eq j, ← genesisHash_eq i]
      exact .refl (h.tree i).genesis
    · obtain ⟨m, hm⟩ := h.genesis_oneChain hinv ht hy
      rw [genesisHash_eq]
      exact ⟨m, Or.inl hm⟩
  · rcases (hinv.book j).finalized k' y hy with ⟨-, rfl⟩ | hy
    · obtain ⟨m, hm⟩ := h.genesis_oneChain hinv ht hx
      rw [genesisHash_eq]
      exact ⟨m, Or.inr hm⟩
    · obtain ⟨m, hm, hmx, hmy⟩ := hinv.common_signer_of_lt ht hvotes hx hy
      have hchain : (s m).VotesOnOneChain := by
        by_contra hswitched
        exact hm ⟨m, rfl, hswitched⟩
      exact ⟨m, hchain k x k' y hmx hmy⟩

/-- In every state of every run with honest validators in which the validators whose votes do not
lie on one chain hold less than a third of the weight, all finalized checkpoints lie on one
chain. -/
theorem oneChain_of_votes [DecidableEq ι] (net : Network ι) (hall : net.AllHonest)
    (es : List (ι × Event))
    (hcf : ∀ i, (net.node i).CollisionFree (es.filterMap fun e => e.2.block?))
    (hrun : Run.Admitted net.step net.Admits net.init es) :
    ∀ t ∈ Run.states net.step net.init es, (0 < total net.electors →
        3 * weight net.electors (net.switchers t) < total net.electors) →
      FinalizedOnOneChain t := by
  intro t hmem hvotes
  have hstores : net.Stores (fun i => (hcf i).domain) t := by
    refine Run.invariant (E := fun e => ∀ b, e.2.block? = some b →
      ∀ i, (hcf i).domain.known b.header) (fun s e hs hknown he => hs.step hknown he) ?_
      (stores_init _) hrun t hmem
    intro e he b hb i
    exact (hcf i).known (List.mem_filterMap.mpr ⟨e, he, hb⟩)
  refine hstores.finalizedOnOneChain (Invariant.states hall.trusted hrun t hmem) hall.trusted ?_
  intro hpos
  have hlt := hvotes hpos
  have hle := hall.weight_faulty_union (net.switchers t)
  omega

end Network

/-! ### Carol switches -/

namespace Sample

theorem pub_council : ∀ i j, (council carol).pub i = (council carol).pub j → i = j := by
  decide +kernel

theorem allHonest_council : (council carol).AllHonest where
  registry := rfl
  honest := by decide +kernel
  keys := fun i j _ hij => pub_council i j hij
  pos := by decide
  small := by decide

/-- The hash of the second block. -/
def hash₂ : String := node.hashHex main₂.header

/-- A light block, a heavier one of the same height, and its child. -/
def switching : List Block := [fork₁, main₁, main₂]

/-- The hash of the light block. -/
def forkHash : String := node.hashHex fork₁.header

/-- The run in which alice and bob see the given blocks, and carol sees both branches. Bob's votes
for the hash and for the second block reach alice. -/
def run (bs : List Block) (x : String) : List (Fin 3 × Event) :=
  Network.relay (deliveries bs bs switching) [bobToAlice 1 x, bobToAlice 2 hash₂]

/-- The state after the run. -/
def after (bs : List Block) (x : String) : Fin 3 → DB :=
  (run bs x).foldl (council carol).step (council carol).init

theorem collisionFree_run {bs : List Block} (h : bs ⊆ [main₁, main₂, fork₁]) (x : String)
    (i : Fin 3) :
    ((council carol).node i).CollisionFree ((run bs x).filterMap fun e => e.2.block?) := by
  refine collisionFree_blocks.of_subset rfl rfl fun b hb => ?_
  obtain ⟨e, he, hblock⟩ := List.mem_filterMap.mp hb
  rcases List.mem_append.mp he with he | he
  · obtain ⟨d, hd, rfl⟩ := List.mem_map.mp he
    obtain rfl := Option.some.inj hblock
    simp only [deliveries, List.mem_append, List.mem_map] at hd
    rcases hd with (⟨b, hbs, rfl⟩ | ⟨b, hbs, rfl⟩) | ⟨b, hbs, rfl⟩
    · exact h hbs
    · exact h hbs
    · revert hbs
      simp +contextual [switching, or_comm, or_left_comm]
  · -- the votes deliver no block
    obtain ⟨d, -, rfl⟩ := List.mem_map.mp he
    cases hblock

/-- The run is admitted if bob signed the two votes. -/
theorem admitted_run {bs : List Block} {x : String}
    (hsigned : ∀ p ∈ [(1, x), (2, hash₂)], p ∈ ((Network.relay (deliveries bs bs switching)
      []).foldl (council carol).step (council carol).init 1).signLog) :
    Run.Admitted (council carol).step (council carol).Admits (council carol).init (run bs x) := by
  refine Network.admitted_relay fun e he _ => ⟨1, ?_⟩
  simp only [List.mem_cons, List.not_mem_nil, or_false] at he
  rcases he with rfl | rfl
  · exact ⟨rfl, hsigned _ List.mem_cons_self⟩
  · exact ⟨rfl, hsigned _ (List.mem_cons_of_mem _ List.mem_cons_self)⟩

/-- What bob has signed before his votes are delivered. -/
theorem signed_read :
    (∀ p ∈ [(1, hash₁), (2, hash₂)], p ∈ ((Network.relay (deliveries [main₁, main₂] [main₁, main₂]
      switching) []).foldl (council carol).step (council carol).init 1).signLog) ∧
    ∀ p ∈ [(1, forkHash), (2, hash₂)], p ∈ ((Network.relay (deliveries switching switching
      switching) []).foldl (council carol).step (council carol).init 1).signLog := by
  decide +kernel

/-- Alice and bob on the main chain. -/
theorem steady_read :
    (2, hash₂) ∈ (after [main₁, main₂] hash₁ 0).finalizedLog ∧
    ∀ i < 2, (after [main₁, main₂] hash₁ i).signLog = [(2, hash₂), (1, hash₁)] ∧
      (after [main₁, main₂] hash₁ i).blockByHash hash₂ = some main₂ ∧
      (after [main₁, main₂] hash₁ i).blockByHash main₂.prevHex = some main₁ ∧
      main₂.prevHex = hash₁ ∧ main₂.height ≠ 0 := by
  decide +kernel

theorem votesOnOneChain_steady {i : Fin 3} (hi : i < 2) :
    (after [main₁, main₂] hash₁ i).VotesOnOneChain := by
  obtain ⟨hlog, hmain₂, hmain₁, hparent, hpos⟩ := steady_read.2 i hi
  generalize after [main₁, main₂] hash₁ i = s at *
  have hrefl₁ : s.IsAncestor main₂.prevHex main₂.prevHex := .refl hmain₁
  have hrefl₂ : s.IsAncestor hash₂ hash₂ := .refl hmain₂
  have hstep : s.IsAncestor main₂.prevHex hash₂ := .step hmain₂ hpos hrefl₁
  rw [hparent] at hrefl₁ hstep
  intro h x h' y hx hy
  rw [hlog] at hx hy
  simp only [List.mem_cons, Prod.mk.injEq, List.not_mem_nil, or_false] at hx hy
  rcases hx with ⟨-, rfl⟩ | ⟨-, rfl⟩
  · rcases hy with ⟨-, rfl⟩ | ⟨-, rfl⟩
    · exact Or.inl hrefl₂
    · exact Or.inr hstep
  · rcases hy with ⟨-, rfl⟩ | ⟨-, rfl⟩
    · exact Or.inl hstep
    · exact Or.inl hrefl₁

/-- A node has the blocks of both branches. -/
def HasBranches (s : DB) : Prop :=
  s.blockByHash forkHash = some fork₁ ∧ s.blockByHash hash₂ = some main₂ ∧
    s.blockByHash main₂.prevHex = some main₁ ∧
    s.blockByHash node.genesisHash = some node.genesisBlock

/-- The votes of carol, and of all three if they all switch; alice has finalized both branches. -/
theorem switching_read :
    (∀ p ∈ [(1, forkHash), (2, hash₂)], p ∈ (after [main₁, main₂] hash₁ 2).signLog) ∧
    ((1, forkHash) ∈ (after switching forkHash 0).finalizedLog ∧
      (2, hash₂) ∈ (after switching forkHash 0).finalizedLog) ∧
    HasBranches (after [main₁, main₂] hash₁ 2) ∧ ∀ i, HasBranches (after switching forkHash i) := by
  unfold HasBranches
  decide +kernel

/-- The hashes of the two branches are distinct, and both start at the genesis block. -/
theorem branches_read :
    (forkHash ≠ hash₂ ∧ forkHash ≠ main₂.prevHex ∧ forkHash ≠ node.genesisHash ∧
      hash₂ ≠ node.genesisHash) ∧
    fork₁.prevHex = node.genesisHash ∧ main₁.prevHex = node.genesisHash ∧
    node.genesisBlock.height = 0 := by
  decide +kernel

/-- No chain goes through both branches. -/
theorem HasBranches.not_oneChain {s : DB} (hs : HasBranches s) :
    ¬ s.OneChain forkHash hash₂ := by
  obtain ⟨hfork, hmain₂, hmain₁, hgenesis⟩ := hs
  obtain ⟨⟨hne, hne₁, hfork₀, hmain₀⟩, hparent, hparent₁, hzero⟩ := branches_read
  -- the genesis block has no ancestor but itself
  have hroot : ∀ a, a ≠ node.genesisHash → ¬ s.IsAncestor a node.genesisHash := by
    intro a ha hanc
    rcases hanc.eq_or_parent hgenesis with heq | ⟨hpos, -⟩
    · exact ha heq
    · exact hpos hzero
  rintro (hanc | hanc)
  · rcases hanc.eq_or_parent hmain₂ with heq | ⟨-, hanc⟩
    · exact hne heq
    · rcases hanc.eq_or_parent hmain₁ with heq | ⟨-, hanc⟩
      · exact hne₁ heq
      · rw [hparent₁] at hanc
        exact hroot _ hfork₀ hanc
  · rcases hanc.eq_or_parent hfork with heq | ⟨-, hanc⟩
    · exact hne heq.symm
    · rw [hparent] at hanc
      exact hroot _ hmain₀ hanc

end Sample

namespace Network

open Sample

/-- Carol, with one fifth of the weight, votes on both branches. Alice and bob stay on one chain and
finalize both of its blocks. -/
theorem oneChain_of_votes_steady :
    ¬ (after [main₁, main₂] hash₁ 2).VotesOnOneChain ∧
    (2, hash₂) ∈ (after [main₁, main₂] hash₁ 0).finalizedLog ∧
    FinalizedOnOneChain (after [main₁, main₂] hash₁) := by
  have hkept : ∀ m < 2, (council carol).pub m ∉
      (council carol).switchers
        (after [main₁, main₂] hash₁) := by
    rintro m hm ⟨i, hi, hswitched⟩
    obtain rfl := pub_council i m hi
    exact hswitched (votesOnOneChain_steady hm)
  refine ⟨fun hchain => ?_, steady_read.1, oneChain_of_votes (council carol)
    allHonest_council (run [main₁, main₂] hash₁)
    (collisionFree_run (by simp) _) (admitted_run signed_read.1) _
    (Run.foldl_mem_states _ _ _) fun _ => ?_⟩
  · have hsigned := switching_read.1
    exact switching_read.2.2.1.not_oneChain
      (hchain 1 _ 2 _ (hsigned _ List.mem_cons_self)
        (hsigned _ (List.mem_cons_of_mem _ List.mem_cons_self)))
  · have halice : alice ∉ _ := hkept 0 (by decide)
    have hbob : bob ∉ _ := hkept 1 (by decide)
    rw [electors_council, weight_cons, weight_cons, weight_cons, if_neg halice, if_neg hbob,
      weight_nil]
    split <;> decide

/-- Three honest validators vote for a light block, switch to a heavier branch and vote for its
second block. Both blocks are finalized, and neither is an ancestor of the other. -/
theorem not_oneChain_switched :
    (council carol).AllHonest ∧ (∀ i, ((council carol).node i).CollisionFree
        ((run switching forkHash).filterMap fun e => e.2.block?)) ∧
      Run.Admitted (council carol).step (council carol).Admits
        (council carol).init (run switching forkHash) ∧
      ∃ t ∈ Run.states (council carol).step (council carol).init
        (run switching forkHash), ¬ FinalizedOnOneChain t := by
  refine ⟨allHonest_council, collisionFree_run (by simp [switching]) _,
    admitted_run signed_read.2, _, Run.foldl_mem_states _ _ _, fun hchain => ?_⟩
  obtain ⟨hfork, hmain⟩ := switching_read.2.1
  obtain ⟨m, hm⟩ := hchain 0 0 1 forkHash 2 hash₂ hfork hmain
  exact (switching_read.2.2.2 m).not_oneChain hm

end Network

end ReserveOS
