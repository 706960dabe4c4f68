import ReserveOS.Correctness.HeaderChain

/-!
# The finalized guard

`enforceFinalizedOnCandidate` walks from a candidate back to the finalized height and compares the
block there with the main chain. It returns nil not only when the two are the same block, but also
when it has nothing to compare: when the main chain has no block at the height, and when the walk
ends before it (`guardSound_iff`).

The walk of the source has no bound. `AncestorSearch` is the walk as a relation, without a result
where it does not end. Where parents are stored one height below it is what the function of the
model computes (`guardReturns_iff`).
-/

namespace ReserveOS

/-- The chain of stored blocks from `c` goes down to the block `b` of height `k`. -/
inductive DB.Reaches (s : DB) (k : UInt64) : String → Block → Prop
  | here {c : String} {b : Block} (hc : s.blockByHash c = some b) (hk : b.header.height = k) :
      Reaches s k c b
  | back {c : String} {b b' : Block} (hc : s.blockByHash c = some b') (hk : k < b'.header.height)
      (h : Reaches s k b'.prevHex b) : Reaches s k c b

namespace Node

variable (n : Node)

/-- The walk of `GetAncestorHashAtHeight` from `c` ends with a hash, or without one. -/
inductive AncestorSearch (s : DB) (k : UInt64) : String → Option String → Prop
  | missing {c : String} (hc : s.blockByHash c = none) : AncestorSearch s k c none
  | found {c : String} {b : Block} (hc : s.blockByHash c = some b) (hk : b.header.height = k) :
      AncestorSearch s k c (some (n.hashHex b.header))
  | lower {c : String} {b : Block} (hc : s.blockByHash c = some b) (hk : b.header.height < k) :
      AncestorSearch s k c none
  | back {c : String} {b : Block} {r : Option String} (hc : s.blockByHash c = some b)
      (hk : k < b.header.height) (h : AncestorSearch s k b.prevHex r) : AncestorSearch s k c r

/-- The comparison of `enforceFinalizedOnCandidate` with the main chain. -/
def compareWithMain (mainB : Block) (cand : Option String) : Res Unit :=
  match cand with
  | none => .ok ()
  | some candHash =>
      if candHash ≠ n.hashHex mainB.header then .error (.error "violates_finalized") else .ok ()

/-- `enforceFinalizedOnCandidate` returns `r`. -/
def GuardReturns (s : DB) (c : String) (r : Res Unit) : Prop :=
  match s.finalizedHeight with
  | none => r = .ok ()
  | some finH =>
      if finH = 0 then r = .ok ()
      else
        match s.getBlockByHeight finH with
        | none => r = .ok ()
        | some (_, mainB) =>
            ∃ cand, n.AncestorSearch s finH c cand ∧ r = n.compareWithMain mainB cand

/-- The chain of stored blocks from `c` reaches height `k`, with the block of the main chain. -/
def OnMainChainAt (s : DB) (c : String) (k : UInt64) : Prop :=
  ∃ x b mainB, s.Reaches k c b ∧ s.getBlockByHeight k = some (x, mainB) ∧
    n.hashHex b.header = n.hashHex mainB.header

/-- If the guard returns nil for `c`, then the chain of `c` has the main-chain block at height `k`.
-/
def GuardSound (s : DB) (c : String) (k : UInt64) : Prop :=
  n.GuardReturns s c (.ok ()) → n.OnMainChainAt s c k

variable {n} {s : DB} {k : UInt64} {c : String}

/-! ### The walk -/

/-- A hash that the walk finds is that of a block it reaches. -/
theorem AncestorSearch.reaches {x : String} (h : n.AncestorSearch s k c (some x)) :
    ∃ b, s.Reaches k c b ∧ n.hashHex b.header = x := by
  generalize hr : some x = r at h
  induction h with
  | missing hc => cases hr
  | @found c b hc hk => exact ⟨b, .here hc hk, (Option.some.inj hr).symm⟩
  | lower hc hk => cases hr
  | back hc hk h ih =>
      obtain ⟨b, hb, hx⟩ := ih hr
      exact ⟨b, .back hc hk hb, hx⟩

theorem AncestorSearch.of_reaches {b : Block} (h : s.Reaches k c b) :
    n.AncestorSearch s k c (some (n.hashHex b.header)) := by
  induction h with
  | here hc hk => exact .found hc hk
  | back hc hk h ih => exact .back hc hk ih

/-- The walk has one result. -/
theorem AncestorSearch.unique {r r' : Option String} (h : n.AncestorSearch s k c r)
    (h' : n.AncestorSearch s k c r') : r = r' := by
  -- both walks read the same block at `c`, and its height decides how they go on
  induction h with
  | missing hc => cases h' <;> simp_all
  | found hc hk => cases h' <;> simp_all
  | lower hc hk =>
      cases h' with
      | missing | lower => rfl
      | found hc' hk' | back hc' hk' =>
          obtain rfl := Option.some.inj (hc.symm.trans hc')
          grind
  | back hc hk h ih =>
      cases h' with
      | missing hc' => simp [hc] at hc'
      | back hc' hk' h' =>
          obtain rfl := Option.some.inj (hc.symm.trans hc')
          exact ih h'
      | found hc' hk' | lower hc' hk' =>
          obtain rfl := Option.some.inj (hc.symm.trans hc')
          grind

/-! ### Where heights go down -/

/-- With as many rounds as the height allows, the walk of the model ends as that of the source. -/
theorem ancestorSearch_walk (hlink : Ancestry.Linked s.blockByHash Block.prevHex Block.height)
    {fuel : ℕ} {b : Block} (hb : s.blockByHash c = some b) (hfuel : b.height < fuel) :
    n.AncestorSearch s k c (n.ancestorWalk s k fuel c) := by
  induction fuel generalizing c b with
  | zero => omega
  | succ fuel ih =>
      rw [ancestorWalk, hb]
      dsimp only
      split
      next hk => exact .found hb hk
      next hne =>
        split
        next hlt => exact .lower hb hlt
        next hge =>
          have hgt : k < b.header.height :=
            UInt64.lt_of_le_of_ne (UInt64.not_lt.mp hge) (Ne.symm hne)
          have hzero : b.header.height ≠ 0 := fun h0 => UInt64.not_lt_zero (h0 ▸ hgt)
          rw [if_neg hzero]
          have hpos : b.height ≠ 0 := fun h0 => hzero (UInt64.toNat.inj h0)
          obtain ⟨p, hp, hstep⟩ := hlink c b hb hpos
          exact .back hb hgt (ih hp (by omega))

/-- `GetAncestorHashAtHeight` of the model is the walk of the source. -/
theorem ancestorSearch_iff (hlink : Ancestry.Linked s.blockByHash Block.prevHex Block.height)
    {r : Option String} : n.AncestorSearch s k c r ↔ n.getAncestorHashAtHeight s c k = r := by
  have hself : n.AncestorSearch s k c (n.getAncestorHashAtHeight s c k) := by
    unfold getAncestorHashAtHeight
    cases hb : s.blockByHash c with
    | none =>
        rw [ancestorWalk, hb]
        exact .missing hb
    | some b => exact ancestorSearch_walk hlink hb (Nat.lt_succ_self _)
  constructor
  · exact fun h => hself.unique h
  · rintro rfl
    exact hself

/-- `enforceFinalizedOnCandidate` of the model returns what the source returns. -/
theorem guardReturns_iff (hlink : Ancestry.Linked s.blockByHash Block.prevHex Block.height)
    {r : Res Unit} : n.GuardReturns s c r ↔ n.enforceFinalizedOnCandidate s c = r := by
  unfold GuardReturns enforceFinalizedOnCandidate
  cases s.finalizedHeight with
  | none => exact eq_comm
  | some finH =>
      dsimp only
      split
      next => exact eq_comm
      next =>
        cases s.getBlockByHeight finH with
        | none => exact eq_comm
        | some e =>
            simp only [ancestorSearch_iff hlink, exists_eq_left']
            rw [eq_comm]
            rfl

/-! ### The guard -/

/-- A candidate that is not stored passes. -/
theorem guardReturns_of_missing (hc : s.blockByHash c = none) : n.GuardReturns s c (.ok ()) := by
  unfold GuardReturns
  split
  · rfl
  · split
    · rfl
    · split
      · rfl
      · exact ⟨none, .missing hc, rfl⟩

/-- A candidate above the main-chain block at the finalized height passes. -/
theorem guardReturns_of_reaches {x : String} {b : Block} (hfin : s.finalizedHeight = some k)
    (hpos : 0 < k) (hmain : s.getBlockByHeight k = some (x, b)) (hreach : s.Reaches k c b) :
    n.GuardReturns s c (.ok ()) := by
  rw [GuardReturns, hfin]
  dsimp only
  rw [if_neg (UInt64.ne_of_lt hpos).symm, hmain]
  refine ⟨_, AncestorSearch.of_reaches hreach, ?_⟩
  rw [compareWithMain, if_neg (not_not.mpr rfl)]

/-- The guard is sound for a candidate exactly if the main chain has a block at the finalized
height, and the walk from the candidate does not end without one: not at a missing block, and not
below the height. -/
theorem guardSound_iff (n : Node) (s : DB) (c : String) (k : UInt64)
    (hfin : s.finalizedHeight = some k) (hpos : 0 < k) :
    n.GuardSound s c k ↔
      (∃ x mainB, s.getBlockByHeight k = some (x, mainB)) ∧ ¬ n.AncestorSearch s k c none := by
  have hne : k ≠ 0 := (UInt64.ne_of_lt hpos).symm
  have hreturns : n.GuardReturns s c (.ok ()) ↔ match s.getBlockByHeight k with
      | none => True
      | some (_, mainB) => ∃ cand, n.AncestorSearch s k c cand ∧
          .ok () = n.compareWithMain mainB cand := by
    rw [GuardReturns, hfin]
    dsimp only
    rw [if_neg hne]
    split
    · exact iff_of_true rfl trivial
    · rfl
  constructor
  · intro hsound
    cases hmain : s.getBlockByHeight k with
    | none =>
        -- nothing to compare with
        obtain ⟨x, b, mainB, -, hmain', -⟩ := hsound (hreturns.mpr (by rw [hmain]; trivial))
        rw [hmain] at hmain'
        cases hmain'
    | some e =>
        refine ⟨⟨e.1, e.2, rfl⟩, fun hnone => ?_⟩
        obtain ⟨x, b, mainB, hreach, -⟩ :=
          hsound (hreturns.mpr (by rw [hmain]; exact ⟨none, hnone, rfl⟩))
        exact absurd ((AncestorSearch.of_reaches hreach).unique hnone) (Option.some_ne_none _)
  · rintro ⟨⟨x, mainB, hmain⟩, hfound⟩ hret
    rw [hreturns, hmain] at hret
    obtain ⟨cand, hsearch, hcmp⟩ := hret
    cases cand with
    | none => exact absurd hsearch hfound
    | some candHash =>
        obtain ⟨b, hreach, rfl⟩ := hsearch.reaches
        refine ⟨x, b, mainB, hreach, hmain, ?_⟩
        by_contra hdiff
        rw [compareWithMain, if_pos hdiff] at hcmp
        cases hcmp

end Node

namespace Sample

/-- Two blocks above genesis, of which the first is finalized. -/
def guardedDB : DB :=
  { ((node.genesisDB ∅).putBlock (node.hashHex main₁.header) 1 main₁).putBlock
      (node.hashHex main₂.header) 2 main₂ with finalizedHeight := some 1 }

theorem guardedDB_read : guardedDB.blockByHash (node.hashHex main₂.header) = some main₂ ∧
    guardedDB.blockByHash (node.hashHex main₁.header) = some main₁ ∧
    guardedDB.blockByHash "ff" = none := by
  obtain ⟨hne, hff, hff', hff''⟩ : node.hashHex main₁.header ≠ node.hashHex main₂.header ∧
      "ff" ≠ node.hashHex main₂.header ∧ "ff" ≠ node.hashHex main₁.header ∧
      "ff" ≠ node.genesisHash := by decide +kernel
  have hread : guardedDB.blockByHash = Function.update (Function.update
      (node.genesisDB ∅).blockByHash (node.hashHex main₁.header) (some main₁))
      (node.hashHex main₂.header) (some main₂) := by
    rw [guardedDB]
    dsimp only
    rw [DB.blockByHash_putBlock, DB.blockByHash_putBlock]
  rw [hread, Node.blockByHash_genesisDB]
  refine ⟨Function.update_self .., ?_, ?_⟩
  · rw [Function.update_of_ne hne, Function.update_self]
  · rw [Function.update_of_ne hff, Function.update_of_ne hff', Function.update_of_ne hff'']

theorem reaches_guardedDB : guardedDB.Reaches 1 (node.hashHex main₂.header) main₁ := by
  obtain ⟨htip, hparent, -⟩ := guardedDB_read
  have hprev : main₂.prevHex = node.hashHex main₁.header := by decide +kernel
  exact .back htip (by decide) (.here (hprev ▸ hparent) rfl)

theorem main_guardedDB :
    guardedDB.getBlockByHeight 1 = some (node.hashHex main₁.header, main₁) := by
  obtain ⟨-, hparent, -⟩ := guardedDB_read
  have hindex : guardedDB.hashByHeight 1 = some (node.hashHex main₁.header) := rfl
  exact DB.getBlockByHeight_eq_some_iff.mpr ⟨hindex, hparent⟩

theorem finalized_guardedDB : guardedDB.finalizedHeight = some 1 := by
  rw [guardedDB]

end Sample

open Sample in
/-- The guard lets the second block pass, and the finalized block is below it. -/
theorem Node.guardSound_guardedDB : guardedDB.finalizedHeight = some 1 ∧
    node.GuardReturns guardedDB (node.hashHex main₂.header) (.ok ()) ∧
    node.OnMainChainAt guardedDB (node.hashHex main₂.header) 1 := by
  have hfin := finalized_guardedDB
  have hmain := main_guardedDB
  have hreach := reaches_guardedDB
  -- only these readings matter
  generalize guardedDB = s at hfin hmain hreach ⊢
  have hret : node.GuardReturns s (node.hashHex main₂.header) (.ok ()) :=
    guardReturns_of_reaches hfin (by decide) hmain hreach
  refine ⟨hfin, hret, (guardSound_iff node s _ 1 hfin (by decide)).mpr
    ⟨⟨_, _, hmain⟩, fun hnone => ?_⟩ hret⟩
  exact absurd ((AncestorSearch.of_reaches hreach).unique hnone) (Option.some_ne_none _)

open Sample in
/-- The guard lets a candidate pass that is not stored at all. -/
theorem Node.not_guardSound_unknown : guardedDB.finalizedHeight = some 1 ∧
    guardedDB.getBlockByHeight 1 = some (node.hashHex main₁.header, main₁) ∧
    node.GuardReturns guardedDB "ff" (.ok ()) ∧ ¬ node.GuardSound guardedDB "ff" 1 := by
  have hfin := finalized_guardedDB
  have hmain := main_guardedDB
  obtain ⟨-, -, hff⟩ := guardedDB_read
  generalize guardedDB = s at hfin hmain hff ⊢
  refine ⟨hfin, hmain, guardReturns_of_missing hff, fun hsound => ?_⟩
  obtain ⟨x, b, mainB, hreach, -⟩ := hsound (guardReturns_of_missing hff)
  cases hreach with
  | here hc | back hc => simp [hff] at hc

end ReserveOS
