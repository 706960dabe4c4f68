import ReserveOS.Correctness.BlockTree

/-!
# Stored bodies

A block is stored under the hash of its header, which commits to the transactions through `TxRoot`
alone. No step of `SubmitBlock` compares `TxRoot` with the transactions of the block, so a header
that was accepted once is accepted again with other transactions, and `PutBlock` overwrites the
body. Nothing else can replace a body (`keepsBodies_of_oneBody`).
-/

namespace ReserveOS

namespace DB

/-- Every body of the first database is still read back, with the same transactions. -/
def KeepsBodies (s t : DB) : Prop :=
  ∀ x b, s.blockByHash x = some b → ∃ b', t.blockByHash x = some b' ∧ b'.txs = b.txs

theorem KeepsBodies.refl (s : DB) : s.KeepsBodies s := fun _ b hb => ⟨b, hb, rfl⟩

theorem KeepsBodies.trans {s t u : DB} (h₁ : s.KeepsBodies t) (h₂ : t.KeepsBodies u) :
    s.KeepsBodies u := by
  intro x b hb
  obtain ⟨b', hb', htxs'⟩ := h₁ x b hb
  obtain ⟨b'', hb'', htxs''⟩ := h₂ x b' hb'
  exact ⟨b'', hb'', htxs''.trans htxs'⟩

end DB

namespace Node

variable (n : Node)

/-- The block passes the checks of `SubmitBlock` that read its transactions and no database. -/
def BodyChecked (b : Block) : Prop := n.validateLimits b = .ok () ∧ n.validateBlockBasic b = .ok ()

instance (b : Block) : Decidable (n.BodyChecked b) :=
  inferInstanceAs (Decidable (n.validateLimits b = .ok () ∧ n.validateBlockBasic b = .ok ()))

/-- Among blocks that pass those checks, the header determines the transactions. -/
def OneBody (bs : List Block) : Prop :=
  ∀ b ∈ bs, ∀ b' ∈ bs, n.BodyChecked b → n.BodyChecked b' → b.header = b'.header → b.txs = b'.txs

instance (bs : List Block) : Decidable (n.OneBody bs) :=
  inferInstanceAs (Decidable (∀ b ∈ bs, ∀ b' ∈ bs, n.BodyChecked b → n.BodyChecked b' →
    b.header = b'.header → b.txs = b'.txs))

/-- Every stored block is genesis or one of the blocks `P`. -/
def StoresOnly (P : Block → Prop) (s : DB) : Prop :=
  ∀ x b, s.blockByHash x = some b → b = n.genesisBlock ∨ P b

variable {n} {dom : n.HashDomain} {P : Block → Prop} {bs : List Block} {s : DB} {b : Block}

theorem storesOnly_genesisDB (registry : Table RegValidator) :
    n.StoresOnly P (n.genesisDB registry) := by
  intro x b hb
  rw [blockByHash_genesisDB, Function.update_apply] at hb
  split at hb
  · exact Or.inl (Option.some.inj hb).symm
  · cases hb

/-- `SubmitBlock` stores no block but its own, and that only if it passes the checks. -/
theorem StoresOnly.submitBlock (h : n.StoresOnly P s) (hb : n.preStore s b = .ok true → P b)
    (now : Int64) : n.StoresOnly P (n.submitBlock now s b).2 := by
  rcases n.blockByHash_submitBlock now s b with ⟨-, hsame⟩ | ⟨hpre, hblk⟩
  · rw [hsame]
    exact h
  · intro x c hc
    rw [hblk, blockByHash_stored] at hc
    split at hc
    · cases hc
      exact Or.inr (hb hpre)
    · exact h x c hc

theorem bodyChecked_of_preStore (h : n.preStore s b = .ok true) : n.BodyChecked b :=
  ⟨(storable_of_preStore n h).limits, (storable_of_preStore n h).basic⟩

/-- One `SubmitBlock` keeps every body, where the header determines the transactions. -/
theorem keepsBodies_submitBlock (htree : n.BlockTree dom s)
    (hfrom : n.StoresOnly (fun b => b ∈ bs ∧ n.BodyChecked b) s)
    (hone : n.OneBody bs) (hmem : b ∈ bs) (hb : dom.known b.header) (now : Int64) :
    s.KeepsBodies (n.submitBlock now s b).2 := by
  rcases n.blockByHash_submitBlock now s b with ⟨-, hsame⟩ | ⟨hpre, hblk⟩
  · rw [hsame]
    exact .refl s
  · intro x c hc
    rw [hblk, blockByHash_stored]
    split
    next hx =>
      -- the block is stored over `c`, so both have the same header
      subst hx
      have hhead : c.header = b.header := htree.header_eq hb hc
      refine ⟨b, rfl, ?_⟩
      rcases hfrom _ c hc with rfl | ⟨hcmem, hchecked⟩
      · -- `b` is above genesis
        exact absurd (congrArg BlockHeader.height hhead.symm)
          (storable_of_preStore n hpre).height_ne_zero
      · exact hone b hmem c hcmem (bodyChecked_of_preStore hpre) hchecked hhead.symm
    next => exact ⟨c, hc, rfl⟩

/-- No body is replaced: whatever a run has stored after the calls `pre` is read back after every
further list of calls, as long as no two blocks of the run that pass the checks of their bodies
share a header and differ in their transactions. -/
theorem keepsBodies_of_oneBody (n : Node) (registry : Table RegValidator)
    (pre post : List (Int64 × Block)) (hcf : n.CollisionFree ((pre ++ post).map Prod.snd))
    (hone : n.OneBody ((pre ++ post).map Prod.snd)) :
    (pre.foldl n.submit (n.genesisDB registry)).KeepsBodies
      ((pre ++ post).foldl n.submit (n.genesisDB registry)) := by
  have hmem : ∀ c ∈ pre ++ post, c.2 ∈ (pre ++ post).map Prod.snd := fun c hc =>
    List.mem_map_of_mem hc
  -- what holds in every state of the run
  let I : DB → Prop := fun s => n.BlockTree hcf.domain s ∧
    n.StoresOnly (fun b => b ∈ (pre ++ post).map Prod.snd ∧ n.BodyChecked b) s
  have hstep : ∀ s (c : Int64 × Block), I s → c ∈ pre ++ post → I (n.submit s c) := by
    intro s c hs hc
    exact ⟨hs.1.submit (hcf.known (hmem c hc)),
      hs.2.submitBlock (fun hpre => ⟨hmem c hc, bodyChecked_of_preStore hpre⟩) c.1⟩
  have hpre : I (pre.foldl n.submit (n.genesisDB registry)) :=
    Run.invariant (I := I) (fun s c hs hc _ => hstep s c hs hc)
      (fun c hc => List.mem_append_left _ hc)
      ⟨blockTree_genesisDB _ registry, storesOnly_genesisDB registry⟩
      (Run.admitted_of_forall _ fun _ _ _ => trivial) _ (Run.foldl_mem_states n.submit _ pre)
  rw [List.foldl_append]
  -- along `post` the invariant goes on to hold, and every body stays
  refine (Run.invariant (E := fun c => c ∈ pre ++ post)
    (I := fun t => I t ∧ (pre.foldl n.submit (n.genesisDB registry)).KeepsBodies t)
    (fun s c hs hc _ => ?_) (fun c hc => List.mem_append_right _ hc) ⟨hpre, .refl _⟩
    (Run.admitted_of_forall _ fun _ _ _ => trivial) _ (Run.foldl_mem_states n.submit _ post)).2
  refine ⟨hstep s c hs.1 hc, hs.2.trans ?_⟩
  exact keepsBodies_submitBlock hs.1.1 hs.1.2 hone (hmem c hc) (hcf.known (hmem c hc)) c.1

open Sample

/-- Two blocks with payments, the first of which is submitted once more: its body is read back. -/
theorem keepsBodies_of_oneBody_spend :
    ([(0, spend₁)].foldl (issuing false).submit
      ((issuing false).genesisDB ∅)).KeepsBodies
        ([((0 : Int64), spend₁), (0, spend₂), (0, spend₁)].foldl
          (issuing false).submit ((issuing false).genesisDB ∅)) :=
  keepsBodies_of_oneBody (issuing false) ∅ [(0, spend₁)]
    [(0, spend₂), (0, spend₁)] (by decide +kernel) (by decide +kernel)

end Node

namespace Sample

/-- The header of the first block with another list of transactions. -/
def main₁' : Block := { main₁ with txs := [transfer alice 1 []] }

end Sample

namespace Node

open Sample

/-- The second submission of a header replaces the transactions stored under its hash. -/
theorem not_keepsBodies_resubmitted :
    node.CollisionFree [main₁, main₁'] ∧ ¬ (node.submit (node.genesisDB ∅) (0, main₁)).KeepsBodies
        (node.submit (node.submit (node.genesisDB ∅) (0, main₁))
          (0, main₁')) := by
  -- the two blocks have one header
  have hcf : node.CollisionFree [main₁, main₁'] :=
    collisionFree_blocks.of_headers rfl rfl fun b hb => by
      rcases List.mem_pair.mp hb with rfl | rfl <;> exact ⟨main₁, by simp, rfl⟩
  refine ⟨hcf, fun hkeeps => ?_⟩
  have hread : (node.submit (node.genesisDB ∅) (0, main₁)).blockByHash
      (node.hashHex main₁.header) = some main₁ ∧
      (node.submit (node.submit (node.genesisDB ∅) (0, main₁))
        (0, main₁')).blockByHash (node.hashHex main₁.header) = some main₁' := by
    decide +kernel
  obtain ⟨b, hb, htxs⟩ := hkeeps _ _ hread.1
  rw [hread.2] at hb
  cases hb
  exact absurd htxs (by decide)

end Node

end ReserveOS
