import ReserveOS.Correctness.HeaderHash
import ReserveOS.General.LevelTree
import ReserveOS.Node.Mining

/-!
# What a transaction root commits to

`TxRoot` joins the ids of a block level by level, and a last node without a partner is hashed with
itself. Ids are 64 bytes long and digests 32, so there is no confusion between leaves, nodes and the
root of the empty list. If SHA-256 does not collide on what is hashed, the root determines the
leaves of the tree, which are the ids with some of the last ones repeated (`txRoot_eq_iff`). So it
commits to lists of a known length, and to lists without a repeated id (`txRoot_commits`).
-/

namespace ReserveOS

open LevelTree

variable {sha256 : List UInt8 → Hash}

/-! ### Lengths -/

/-- An id is 64 bytes long. -/
theorem length_stringBytes_id (tx : Tx) : (stringBytes (tx.id sha256)).length = 64 := by
  rw [Tx.id, Hash.toHex, stringBytes_ofList, List.length_map, List.length_flatMap]
  · simp
  · intro c hc
    obtain ⟨x, -, hx⟩ := List.mem_flatMap.mp hc
    have hlt := x.toNat_lt
    rcases List.mem_pair.mp hx with rfl | rfl
    · exact (hexValue_hexDigit _ (by omega)).2
    · exact (hexValue_hexDigit _ (by omega)).2

theorem length_sha (a b : List UInt8) : (sha sha256 a b).length = 32 := by
  simp [sha]

/-! ### The loop -/

theorem nextLevel_eq_pairUp (level : List (List UInt8)) :
    nextLevel sha256 level = pairUp (sha sha256) level := by
  unfold pairUp
  fun_induction nextLevel sha256 level with
  | case1 => rfl
  | case2 a => rfl
  | case3 a b rest ih => rw [ih, pairs, List.map_cons]

/-- The root is the general one, joined by the hash. -/
theorem topNode_eq_top (fuel : ℕ) (level : List (List UInt8)) :
    topNode sha256 fuel level = (top (sha sha256) fuel level).getD [] := by
  induction fuel generalizing level with
  | zero => rw [topNode, top, List.headD_eq_head?_getD]
  | succ fuel ih =>
      rw [topNode, top]
      split
      · rw [ih, nextLevel_eq_pairUp]
      · rw [List.headD_eq_head?_getD]

/-- The ids of a block. -/
def txIDs (sha256 : List UInt8 → Hash) (txs : List Tx) : List String := txs.map (Tx.id sha256)

/-- The lowest level of the tree. -/
def leafLevel (sha256 : List UInt8 → Hash) (txs : List Tx) : List (List UInt8) :=
  (txIDs sha256 txs).map stringBytes

/-- Everything that `TxRoot` hashes, apart from the transactions themselves. -/
def rootInputs (sha256 : List UInt8 → Hash) (txs : List Tx) : List (List UInt8) :=
  if txs = [] then
    [stringBytes "txroot:empty", (sha256 (stringBytes "txroot:empty")).bytes.toList]
  else
    topNode sha256 txs.length (leafLevel sha256 txs) ::
      (joined (sha sha256) txs.length (leafLevel sha256 txs)).map fun p => p.1 ++ p.2

theorem txRoot_eq {txs : List Tx} (h : txs ≠ []) :
    txRoot sha256 txs = sha256 (topNode sha256 txs.length (leafLevel sha256 txs)) := by
  rw [txRoot, if_neg h, leafLevel, txIDs, List.map_map]
  rfl

/-- The nodes on one level are all as long as ids, or all as long as digests. -/
def EvenLevel (level : List (List UInt8)) : Prop :=
  (∀ a ∈ level, a.length = 64) ∨ ∀ a ∈ level, a.length = 32

theorem evenLevel_pairUp (level : List (List UInt8)) : EvenLevel (pairUp (sha sha256) level) := by
  refine .inr fun c hc => ?_
  obtain ⟨a, -, b, -, -, rfl⟩ := exists_of_mem_pairUp hc
  exact length_sha a b

theorem evenLevel_leafLevel (txs : List Tx) : EvenLevel (leafLevel sha256 txs) := by
  refine .inl fun a ha => ?_
  rw [leafLevel, txIDs, List.map_map] at ha
  obtain ⟨tx, -, rfl⟩ := List.mem_map.mp ha
  exact length_stringBytes_id tx

/-- The two parts of every node have the same length, and one of the two lengths. -/
theorem length_of_mem_joined {txs : List Tx} {n : ℕ} :
    ∀ p ∈ joined (sha sha256) n (leafLevel sha256 txs),
      p.1.length = p.2.length ∧ (p.1.length = 64 ∨ p.1.length = 32) := by
  refine forall_joined (P := EvenLevel) (fun level _ => evenLevel_pairUp level) ?_
    (evenLevel_leafLevel txs)
  intro level heven p hp
  obtain ⟨h₁, h₂⟩ := mem_of_mem_pairs hp
  rcases heven with h | h
  · exact ⟨(h _ h₁).trans (h _ h₂).symm, .inl (h _ h₁)⟩
  · exact ⟨(h _ h₁).trans (h _ h₂).symm, .inr (h _ h₁)⟩

/-! ### The root -/

/-- SHA-256 does not collide on what is hashed for the roots of two lists. -/
def RootCollisionFree (sha256 : List UInt8 → Hash) (l₁ l₂ : List Tx) : Prop :=
  CollisionFreeOn sha256 (rootInputs sha256 l₁ ++ rootInputs sha256 l₂)

instance (l₁ l₂ : List Tx) : Decidable (RootCollisionFree sha256 l₁ l₂) :=
  inferInstanceAs (Decidable (CollisionFreeOn _ _))

theorem RootCollisionFree.symm {l₁ l₂ : List Tx} (h : RootCollisionFree sha256 l₁ l₂) :
    RootCollisionFree sha256 l₂ l₁ := by
  intro x hx y hy
  exact h x (List.mem_append.mpr (List.mem_append.mp hx).symm) y
    (List.mem_append.mpr (List.mem_append.mp hy).symm)

/-- The last node of a tree. -/
theorem exists_top_leafLevel (sha256 : List UInt8 → Hash) {txs : List Tx} (hne : txs ≠ []) :
    ∃ a, top (sha sha256) txs.length (leafLevel sha256 txs) = some a ∧
      topNode sha256 txs.length (leafLevel sha256 txs) = a := by
  have hlevel : leafLevel sha256 txs ≠ [] := by simpa [leafLevel, txIDs] using hne
  have hlen : (leafLevel sha256 txs).length ≤ txs.length := by simp [leafLevel, txIDs]
  have hstep : ∀ level, True → (fun _ => True) (pairUp (sha sha256) level) := fun _ _ => trivial
  obtain ⟨a, htop, -⟩ := exists_top hstep hlevel hlen trivial
  exact ⟨a, htop, by rw [topNode_eq_top, htop, Option.getD_some]⟩

/-- The root of the empty list is no other root. -/
theorem txRoot_nil_ne {txs : List Tx} (hne : txs ≠ []) (hfree : RootCollisionFree sha256 [] txs) :
    txRoot sha256 [] ≠ txRoot sha256 txs := by
  intro heq
  obtain ⟨a, htop, hnode⟩ := exists_top_leafLevel sha256 hne
  have hroot : (sha256 (stringBytes "txroot:empty")).bytes.toList = a := by
    rw [txRoot, if_pos rfl, sha256d, txRoot_eq hne, hnode] at heq
    refine hfree _ ?_ _ ?_ heq
    · simp [rootInputs]
    · simp [rootInputs, hne, hnode]
  have hshort : a.length = 32 := by simp [← hroot]
  rcases mem_or_exists_joined htop with hleaf | ⟨p, hp, ha⟩
  · -- an id is too long
    rw [leafLevel, txIDs, List.map_map] at hleaf
    obtain ⟨tx, -, htx⟩ := List.mem_map.mp hleaf
    have hlong : (stringBytes (tx.id sha256)).length = 64 := length_stringBytes_id tx
    rw [show stringBytes (tx.id sha256) = a from htx] at hlong
    omega
  · -- what is hashed for a node is too long
    have hsame : stringBytes "txroot:empty" = p.1 ++ p.2 := by
      refine hfree _ ?_ _ ?_ (Hash.bytes_toList_injective (hroot.trans ha))
      · simp [rootInputs]
      · rw [rootInputs, rootInputs, if_neg hne]
        exact List.mem_append_right _ (List.mem_cons_of_mem _ (List.mem_map_of_mem hp))
    have hlen := congrArg List.length hsame
    rw [List.length_append, show (stringBytes "txroot:empty").length = 12 by decide] at hlen
    have hpair := length_of_mem_joined p hp
    omega

/-- The nodes of the two trees. -/
def joinedNodes (sha256 : List UInt8 → Hash) (l₁ l₂ : List Tx) :
    Set (List UInt8 × List UInt8) :=
  {p | p ∈ joined (sha sha256) l₁.length (leafLevel sha256 l₁) ∨
    p ∈ joined (sha sha256) l₂.length (leafLevel sha256 l₂)}

theorem length_of_mem_joinedNodes {l₁ l₂ : List Tx} {p : List UInt8 × List UInt8}
    (hp : p ∈ joinedNodes sha256 l₁ l₂) : p.1.length = p.2.length := by
  rcases hp with hp | hp
  · exact (length_of_mem_joined p hp).1
  · exact (length_of_mem_joined p hp).1

theorem mem_rootInputs_of_mem_joinedNodes {l₁ l₂ : List Tx} (hne₁ : l₁ ≠ []) (hne₂ : l₂ ≠ [])
    {p : List UInt8 × List UInt8} (hp : p ∈ joinedNodes sha256 l₁ l₂) :
    p.1 ++ p.2 ∈ rootInputs sha256 l₁ ++ rootInputs sha256 l₂ := by
  rw [rootInputs, rootInputs, if_neg hne₁, if_neg hne₂]
  rcases hp with hp | hp
  · exact List.mem_append_left _ (List.mem_cons_of_mem _ (List.mem_map_of_mem hp))
  · exact List.mem_append_right _ (List.mem_cons_of_mem _ (List.mem_map_of_mem hp))

/-- A node determines its two parts. -/
theorem injOn_joinedNodes {l₁ l₂ : List Tx} (hne₁ : l₁ ≠ []) (hne₂ : l₂ ≠ [])
    (hfree : RootCollisionFree sha256 l₁ l₂) :
    (joinedNodes sha256 l₁ l₂).InjOn fun p => sha sha256 p.1 p.2 := by
  intro p hp q hq heq
  have happ : p.1 ++ p.2 = q.1 ++ q.2 :=
    hfree _ (mem_rootInputs_of_mem_joinedNodes hne₁ hne₂ hp) _
      (mem_rootInputs_of_mem_joinedNodes hne₁ hne₂ hq) (Hash.bytes_toList_injective heq)
  have hlen := congrArg List.length happ
  rw [List.length_append, List.length_append, ← length_of_mem_joinedNodes hp,
    ← length_of_mem_joinedNodes hq] at hlen
  obtain ⟨h₁, h₂⟩ := List.append_inj happ (by omega)
  exact Prod.ext h₁ h₂

/-- Two lists have one root exactly if their ids have one completion. -/
theorem txRoot_eq_iff {l₁ l₂ : List Tx} (hfree : RootCollisionFree sha256 l₁ l₂) :
    txRoot sha256 l₁ = txRoot sha256 l₂ ↔
      completed (txIDs sha256 l₁) = completed (txIDs sha256 l₂) := by
  have hnil : ∀ l, completed (txIDs sha256 l) = [] ↔ l = [] := fun l =>
    completed_eq_nil_iff.trans List.map_eq_nil_iff
  rcases eq_or_ne l₁ [] with rfl | hne₁ <;> rcases eq_or_ne l₂ [] with rfl | hne₂
  · exact iff_of_true rfl rfl
  · exact iff_of_false (txRoot_nil_ne hne₂ hfree) fun hcomp => hne₂ ((hnil l₂).mp hcomp.symm)
  · exact iff_of_false (txRoot_nil_ne hne₁ hfree.symm).symm fun hcomp => hne₁ ((hnil l₁).mp hcomp)
  · obtain ⟨a₁, htop₁, hnode₁⟩ := exists_top_leafLevel sha256 hne₁
    obtain ⟨a₂, htop₂, hnode₂⟩ := exists_top_leafLevel sha256 hne₂
    have hroot : txRoot sha256 l₁ = txRoot sha256 l₂ ↔ a₁ = a₂ := by
      rw [txRoot_eq hne₁, txRoot_eq hne₂, hnode₁, hnode₂]
      refine ⟨hfree a₁ ?_ a₂ ?_, congrArg sha256⟩
      · simp [rootInputs, hne₁, hnode₁]
      · simp [rootInputs, hne₂, hnode₂]
    have hlen : ∀ l, (txIDs sha256 l).length = l.length := fun l => List.length_map _
    -- an id is hexadecimal, twice as long as a digest
    have hleaf : ∀ x ∈ txIDs sha256 l₁ ++ txIDs sha256 l₂, ∀ p ∈ joinedNodes sha256 l₁ l₂,
        stringBytes x ≠ sha sha256 p.1 p.2 := by
      intro x hx p _ heq
      rw [txIDs, txIDs, ← List.map_append] at hx
      obtain ⟨tx, -, rfl⟩ := List.mem_map.mp hx
      have hlong := congrArg List.length heq
      rw [length_stringBytes_id, length_sha] at hlong
      omega
    have hiff := top_eq_iff (fun _ _ => stringBytes_injective) (injOn_joinedNodes hne₁ hne₂ hfree)
      hleaf (mt List.map_eq_nil_iff.mp hne₁) (mt List.map_eq_nil_iff.mp hne₂)
      (by rw [hlen]; exact fun p hp => .inl hp) (by rw [hlen]; exact fun p hp => .inr hp)
    rw [hroot, ← hiff, hlen, hlen, ← Option.some_inj, ← htop₁, ← htop₂]
    rfl

/-- The root commits to the ids up to completion, hence to the ids of lists of one length, and to
those of lists without a repeated id. -/
theorem txRoot_commits (l₁ l₂ : List Tx) (hfree : RootCollisionFree sha256 l₁ l₂) :
    (txRoot sha256 l₁ = txRoot sha256 l₂ ↔
      completed (txIDs sha256 l₁) = completed (txIDs sha256 l₂)) ∧
    (l₁.length = l₂.length ∨ (txIDs sha256 l₁).Nodup ∧ (txIDs sha256 l₂).Nodup →
      txRoot sha256 l₁ = txRoot sha256 l₂ → txIDs sha256 l₁ = txIDs sha256 l₂) := by
  refine ⟨txRoot_eq_iff hfree, fun hcase hroot => ?_⟩
  refine eq_of_completed_eq ((txRoot_eq_iff hfree).mp hroot) ?_
  rw [txIDs, txIDs, List.length_map, List.length_map]
  exact hcase

namespace Sample

/-- A transfer with a nonce. -/
def numberedTx (nonce : UInt64) : Tx where
  fromId := "a"
  pubKey := ""
  sigHex := ""
  type := "transfer"
  otapClaim := none
  version := 1
  nonce := nonce
  fee := 0
  gasAsset := ""
  outputs := []
  memo := ""

end Sample

open Sample

/-- Two transactions in the two orders have different roots. -/
theorem txRoot_commits_swapped :
    RootCollisionFree wideHash (List.map numberedTx [1, 2])
      (List.map numberedTx [2, 1]) ∧
    txRoot wideHash (List.map numberedTx [1, 2]) ≠
      txRoot wideHash (List.map numberedTx [2, 1]) := by
  have hfree : RootCollisionFree wideHash (List.map numberedTx [1, 2])
      (List.map numberedTx [2, 1]) := by decide +kernel
  refine ⟨hfree, fun hroot => ?_⟩
  exact absurd ((txRoot_commits _ _ hfree).2 (.inl rfl) hroot) (by decide +kernel)

/-- A last transaction that is listed twice does not change the root. -/
theorem txRoot_repeated_last :
    RootCollisionFree wideHash (List.map numberedTx [1, 2, 3])
      (List.map numberedTx [1, 2, 3, 3]) ∧
    txRoot wideHash (List.map numberedTx [1, 2, 3]) =
      txRoot wideHash (List.map numberedTx [1, 2, 3, 3]) ∧
    txIDs wideHash (List.map numberedTx [1, 2, 3]) ≠
      txIDs wideHash (List.map numberedTx [1, 2, 3, 3]) := by
  decide +kernel

end ReserveOS
