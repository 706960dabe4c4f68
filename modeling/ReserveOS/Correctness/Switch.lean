import ReserveOS.Correctness.HeightIndex
import ReserveOS.Crypto.Edwards25519

/-!
# When a chain switch succeeds, and what it writes

`trySwitchMainChain` walks back from the candidate by parent pointers, with a height counter of its
own. In a store where parents are one height below their children, the counter is the height of the
block (`exists_walkBack`), and the switch succeeds exactly if the walk ends at the finalized block.

The path slice is allocated before the walk, with a capacity that Go computes as an `int`, so a
chain of more than `2 ^ 44` blocks above the finalized height is not switched to.
-/

namespace ReserveOS

namespace DB

/-! ### The walk -/

/-- From a stored candidate not below the finalized height, the walk ends there. -/
theorem exists_walkBack {s : DB} (hlink : Ancestry.Linked s.blockByHash Block.prevHex Block.height)
    {finH : UInt64} {k : ℕ} {x : String} {b : Block} (hb : s.blockByHash x = some b)
    (hk : b.height = k) (hle : finH.toNat ≤ k) (acc : List String) :
    ∃ path, s.walkBack finH k x acc = .ok path := by
  induction k generalizing x b acc with
  | zero =>
      have hzero : finH = 0 := UInt64.toNat.inj (Nat.le_zero.mp hle)
      exact ⟨x :: acc, by rw [walkBack, if_pos hzero]⟩
  | succ k ih =>
      rw [walkBack]
      split
      next => exact ⟨x :: acc, rfl⟩
      next hne =>
        -- above the finalized height the parent is stored, one below
        obtain ⟨p, hp, hheight⟩ := hlink x b hb (by omega)
        rw [hb]
        dsimp only
        rw [if_neg (by omega)]
        exact ih hp (by omega) (by omega) (x :: acc)

/-- The panic of the allocation comes before the walk. -/
theorem candidatePath_of_makesliceFails {s : DB} {x : String} {newH finH : UInt64}
    {finHash : String} (hfin : s.finalized = some (finH, finHash))
    (hcap : makesliceFails (pathCap finH newH) = true) :
    s.candidatePath x newH = .error (.panic "makeslice: cap out of range") := by
  unfold candidatePath
  rw [switchAnchor_of_finalized hfin]
  show (if makesliceFails (pathCap finH newH) then _ else _) = _
  rw [hcap, if_pos rfl]

/-- The path of a candidate, when its slice can be allocated: the switch goes on exactly if the
candidate descends from the finalized block. -/
theorem candidatePath_cases {s : DB}
    (hlink : Ancestry.Linked s.blockByHash Block.prevHex Block.height) {x : String} {b : Block}
    (hb : s.blockByHash x = some b) {finH : UInt64} {finHash : String}
    (hfin : s.finalized = some (finH, finHash)) (hle : finH ≤ b.header.height)
    (hcap : makesliceFails (pathCap finH b.header.height) = false) :
    (∃ path, s.candidatePath x b.header.height = .ok (finH, path) ∧
      s.CandidatePath x b.header.height finH path) ∨
    (∃ e, s.candidatePath x b.header.height = .error e) ∧ ¬ s.AncestorAt x finH.toNat finHash := by
  have hle' : finH.toNat ≤ b.height := UInt64.le_iff_toNat_le.mp hle
  obtain ⟨path, hwalk⟩ := exists_walkBack hlink hb rfl hle' []
  obtain ⟨-, pre, hpre, hlen, hanc⟩ := walkBack_spec hlink hb rfl (by omega) hwalk
  rw [List.append_nil] at hpre
  subst hpre
  -- the first hash of the path is the ancestor at the finalized height
  obtain ⟨y, rest, rfl⟩ : ∃ y rest, path = y :: rest :=
    List.exists_cons_of_ne_nil (List.ne_nil_of_length_pos (by omega))
  have hfirst : s.AncestorAt x finH.toNat y := hanc 0 y rfl
  have hanchor := switchAnchor_of_finalized hfin
  have hpath : s.candidatePath x b.header.height =
      if y ≠ finHash then .error (.error "candidate chain anchor mismatch")
      else .ok (finH, y :: rest) := by
    unfold candidatePath
    rw [hanchor]
    show (if makesliceFails (pathCap finH b.header.height) then _ else _) = _
    rw [hcap, if_neg Bool.false_ne_true]
    show ((s.walkBack finH b.height x []).bind _) = _
    rw [hwalk]
    show (if (y :: rest).head? ≠ some finHash then _ else _) = _
    simp
  by_cases hy : y = finHash
  · subst hy
    refine .inl ⟨y :: rest, ?_, hle', hlen, hanc, y, hanchor, hfirst⟩
    rw [hpath, if_neg (not_not.mpr rfl)]
  · refine .inr ⟨⟨_, by rw [hpath, if_pos hy]⟩, fun hanc' => ?_⟩
    exact hy (Ancestry.ancestorAt_unique hlink hfirst hanc')

/-- What a switch to the candidate `x` of height `newH` leaves: the index names the candidate's
ancestors from the finalized height up, is as before below, and the tip is the candidate. -/
structure SwitchedTo (s s' : DB) (finH : UInt64) (x : String) (newH : UInt64) : Prop where
  index : ∀ k, finH ≤ k → k ≤ newH → ∃ y, s'.hashByHeight k = some y ∧ s.AncestorAt x k.toNat y
  below : ∀ k, k < finH → s'.hashByHeight k = s.hashByHeight k
  tip : s'.getTip = some (newH, x)

end DB

/-- What the witness below reads from the database with the fork block. -/
theorem Sample.forkDB_fork :
    forkDB.finalized = some (0, node.genesisHash) ∧
    forkDB.blockByHash (node.hashHex fork₁.header) = some fork₁ ∧
    fork₁.prevHex = node.genesisHash := by
  decide +kernel

namespace Node

/-- The index and the tip after a switch along a candidate path. -/
theorem switchedTo_rebuild (n : Node) {s : DB} {x : String} {newH finH : UInt64}
    {path : List String} (hp : s.CandidatePath x newH finH path) :
    s.SwitchedTo (n.rebuildStateFromFinalized (s.switchTo finH path x newH)).2 finH x newH := by
  rw [rebuildStateFromFinalized_eq]
  refine ⟨fun k hfin hk => (hp.hashByHeight_switchTo k).1 hfin hk, fun k hk => ?_, rfl⟩
  exact (hp.hashByHeight_switchTo k).2 fun hin => UInt64.not_le.mpr hk hin.1

/-- `trySwitchMainChain` succeeds exactly if the path slice can be allocated and the candidate's
ancestor at the finalized height is the finalized block. Then the index and the tip follow the
candidate; otherwise nothing changes. -/
theorem trySwitchMainChain_spec (n : Node) (s : DB)
    (hlink : Ancestry.Linked s.blockByHash Block.prevHex Block.height) (finH : UInt64)
    (finHash : String) (hfin : s.finalized = some (finH, finHash)) (x : String) (b : Block)
    (hb : s.blockByHash x = some b) (hle : finH ≤ b.header.height) :
    ((n.trySwitchMainChain s x b.header.height).1 = .ok () ↔
      DB.makesliceFails (DB.pathCap finH b.header.height) = false ∧
        s.AncestorAt x finH.toNat finHash) ∧
    ((n.trySwitchMainChain s x b.header.height).1 = .ok () →
      s.SwitchedTo (n.trySwitchMainChain s x b.header.height).2 finH x b.header.height) ∧
    ((n.trySwitchMainChain s x b.header.height).1 ≠ .ok () →
      (n.trySwitchMainChain s x b.header.height).2 = s) := by
  have hanchor := DB.switchAnchor_of_finalized hfin
  unfold trySwitchMainChain
  cases hcap : DB.makesliceFails (DB.pathCap finH b.header.height) with
  | true =>
      rw [DB.candidatePath_of_makesliceFails hfin hcap]
      simp
  | false =>
      -- the walk reaches the finalized height, at the finalized block or beside it
      rcases DB.candidatePath_cases hlink hb hfin hle hcap with
        ⟨path, hpath, hp⟩ | ⟨⟨e, herr⟩, hnot⟩
      · rw [hpath]
        obtain ⟨finHash', hanchor', hanc⟩ := hp.anchor
        obtain rfl : finHash = finHash' := by
          rw [hanchor] at hanchor'
          exact (Prod.mk.inj (Except.ok.inj hanchor')).2
        exact ⟨iff_of_true rfl ⟨rfl, hanc⟩, fun _ => n.switchedTo_rebuild hp,
          fun hne => absurd rfl hne⟩
      · rw [herr]
        simp [hnot]

open Sample

/-- After two main-chain blocks and a fork block, the node can be moved to the fork block. -/
theorem trySwitchMainChain_fork :
    (node.trySwitchMainChain forkDB (node.hashHex fork₁.header)
      fork₁.header.height).1 = .ok () ∧
    forkDB.SwitchedTo (node.trySwitchMainChain forkDB
      (node.hashHex fork₁.header) fork₁.header.height).2 0
      (node.hashHex fork₁.header) fork₁.header.height := by
  have hmem : forkDB ∈ Run.states _ _ _ := Run.foldl_mem_states node.submit
    (node.genesisDB ∅) [(0, main₁), (0, main₂), (0, fork₁)]
  have htree := blockTree_submit_states ∅ collisionFree_blocks _ hmem
  obtain ⟨hfin, hb, hparent⟩ := forkDB_fork
  obtain ⟨hok, hswitch, -⟩ := trySwitchMainChain_spec node forkDB htree.linked 0
    node.genesisHash hfin _ fork₁ hb (by decide)
  have hroot : forkDB.AncestorAt fork₁.prevHex 0 node.genesisHash := by
    rw [hparent]
    exact Ancestry.ancestorAt_self htree.genesis
  have hdone := hok.mpr ⟨by decide, hroot.of_parent hb (by decide)⟩
  exact ⟨hdone, hswitch hdone⟩

end Node

/-! ### A chain that is too long -/

namespace Sample

/-- A hash that holds a number. -/
def numberHash (k : ℕ) : Hash := ⟨Vector.ofFn fun i => (leBytes 32 k).getD i.val 0⟩

/-- The block of height `k` of a long chain. -/
def longBlock (k : ℕ) : Block :=
  { main₁ with header :=
      { main₁.header with height := UInt64.ofNat k, prevHash := numberHash (k - 1) } }

/-- A database with the blocks up to height `2 ^ 44` of the long chain, all stored under their
number, whose block of height zero is finalized. -/
def longDB : DB :=
  { DB.fresh ∅ with
    blockByHash := fun x =>
      (hexDecode x).bind fun bytes =>
        if (numberHash (leValue bytes)).toHex = x ∧ leValue bytes ≤ 2 ^ 44 then
          some (longBlock (leValue bytes))
        else none
    finalized := some (0, (numberHash 0).toHex) }

theorem toHex_numberHash (k : ℕ) : (numberHash k).toHex = hexEncode (leBytes 32 k) := by
  have hbytes : (numberHash k).bytes.toList = leBytes 32 k := by
    apply List.ext_getElem
    · simp
    · intro i hi hi'
      simp [numberHash]
  rw [← hbytes]
  rfl

theorem blockByHash_longDB_eq (x : String) :
    longDB.blockByHash x = (hexDecode x).bind fun bytes =>
      if (numberHash (leValue bytes)).toHex = x ∧ leValue bytes ≤ 2 ^ 44 then
        some (longBlock (leValue bytes))
      else none :=
  rfl

/-- The long chain is stored. -/
theorem blockByHash_longDB {k : ℕ} (hk : k ≤ 2 ^ 44) :
    longDB.blockByHash (numberHash k).toHex = some (longBlock k) := by
  have hvalue : leValue (leBytes 32 k) = k := leValue_leBytes (by omega)
  rw [blockByHash_longDB_eq, toHex_numberHash, hexDecode_hexEncode, Option.bind_some, hvalue,
    toHex_numberHash, if_pos ⟨rfl, hk⟩]

/-- Nothing else is stored. -/
theorem longDB_stored {x : String} {b : Block} (h : longDB.blockByHash x = some b) :
    ∃ k ≤ 2 ^ 44, x = (numberHash k).toHex ∧ b = longBlock k := by
  rw [blockByHash_longDB_eq] at h
  obtain ⟨bytes, -, hbytes⟩ := Option.bind_eq_some_iff.mp h
  split at hbytes
  next hin => exact ⟨leValue bytes, hin.2, hin.1.symm, (Option.some.inj hbytes).symm⟩
  next => cases hbytes

theorem height_longBlock {k : ℕ} (hk : k ≤ 2 ^ 44) : (longBlock k).height = k := by
  show (UInt64.ofNat k).toNat = k
  rw [UInt64.toNat_ofNat']
  exact Nat.mod_eq_of_lt (by omega)

theorem linked_longDB : Ancestry.Linked longDB.blockByHash Block.prevHex Block.height := by
  intro x b hb hpos
  obtain ⟨k, hk, rfl, rfl⟩ := longDB_stored hb
  rw [height_longBlock hk] at hpos ⊢
  have hk' : k - 1 ≤ 2 ^ 44 := by omega
  refine ⟨longBlock (k - 1), blockByHash_longDB hk', ?_⟩
  rw [height_longBlock hk']
  omega

end Sample

namespace Node

open Sample

/-- A candidate `2 ^ 44` blocks above its finalized ancestor: the switch does not succeed. -/
theorem not_trySwitchMainChain_long :
    Ancestry.Linked longDB.blockByHash Block.prevHex Block.height ∧
    longDB.finalized = some (0, (numberHash 0).toHex) ∧
    longDB.blockByHash (numberHash (2 ^ 44)).toHex = some (longBlock (2 ^ 44)) ∧
    (0 : UInt64) ≤ (longBlock (2 ^ 44)).header.height ∧
    ¬ ((node.trySwitchMainChain longDB (numberHash (2 ^ 44)).toHex
        (longBlock (2 ^ 44)).header.height).1 = .ok () ↔
      longDB.AncestorAt (numberHash (2 ^ 44)).toHex 0
        (numberHash 0).toHex) := by
  have hstored := blockByHash_longDB (Nat.le_refl (2 ^ 44))
  refine ⟨linked_longDB, rfl, hstored, UInt64.zero_le, fun hiff => ?_⟩
  -- the ancestor at height zero is the only stored block of that height
  obtain ⟨a, hanc⟩ := Ancestry.exists_ancestorAt linked_longDB hstored (Nat.zero_le _)
  obtain ⟨b, hb, hzero⟩ := hanc.2
  obtain ⟨k, hk, rfl, rfl⟩ := longDB_stored hb
  obtain rfl : k = 0 := (height_longBlock hk).symm.trans hzero
  have hok := hiff.mpr hanc
  -- but the slice for the path cannot be allocated
  have hcap :
      DB.makesliceFails (DB.pathCap 0 (longBlock (2 ^ 44)).header.height) = true := by
    decide
  rw [trySwitchMainChain, DB.candidatePath_of_makesliceFails rfl hcap] at hok
  cases hok

end Node

end ReserveOS
