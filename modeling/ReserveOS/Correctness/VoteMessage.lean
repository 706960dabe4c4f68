import ReserveOS.Correctness.HeaderHash

/-!
# What a vote signature commits to

`VoteMessage` hashes the chain id, the height in decimal and the block hash, with a bar between
them. The chain id and the block hash may contain bars themselves. So the bytes do not always
determine the three: what one triple has as a part of its block hash, another one has as a part of
its chain id. This is the only way in which two triples have the same bytes
(`VoteKey.bytes_eq_iff`), and a vote binds its triple against all others (`voteBinds_iff`).
-/

namespace ReserveOS

open Wire

/-- What a vote is about. -/
structure VoteKey where
  chainID : String
  height : UInt64
  blockHash : String
deriving DecidableEq

namespace VoteKey

/-- The bytes that `VoteMessage` hashes. -/
def bytes (k : VoteKey) : List UInt8 :=
  stringBytes "ReserveOS:PoSFinality:v1|" ++ stringBytes k.chainID ++ stringBytes "|" ++
    stringBytes (toString k.height.toNat) ++ stringBytes "|" ++ stringBytes k.blockHash

/-- The chain id of the second triple continues with the height and the beginning of the block hash
of the first one, and the rest of this block hash holds the height and block hash of the second. -/
def Shifts (k k' : VoteKey) : Prop :=
  ∃ u : String, k'.chainID ++ "|" = k.chainID ++ "|" ++ toString k.height.toNat ++ "|" ++ u ∧
    k.blockHash = u ++ toString k'.height.toNat ++ "|" ++ k'.blockHash

end VoteKey

/-! ### Decimal numbers -/

/-- There is no bar in a decimal number. -/
theorem bar_notMem_toString (n : ℕ) : '|' ∉ (toString n).toList := by
  rw [Nat.toString_eq_repr, Nat.toList_repr]
  intro hmem
  exact absurd (Nat.isDigit_of_mem_toDigits (by decide) le_rfl hmem) (by decide)

theorem toString_nat_injective {n m : ℕ} (h : toString n = toString m) : n = m := by
  have hbytes := congrArg stringBytes h
  rw [stringBytes_toString, stringBytes_toString] at hbytes
  exact Decimal.text_injective hbytes

namespace VoteKey

/-! ### The bytes -/

/-- The fields as lists of characters. -/
theorem bytes_eq_iff_toList {k k' : VoteKey} :
    k.bytes = k'.bytes ↔
      k.chainID.toList ++ '|' :: ((toString k.height.toNat).toList ++ '|' :: k.blockHash.toList) =
        k'.chainID.toList ++
          '|' :: ((toString k'.height.toNat).toList ++ '|' :: k'.blockHash.toList) := by
  have hbytes : ∀ k : VoteKey, k.bytes = stringBytes "ReserveOS:PoSFinality:v1|" ++
      stringBytes (k.chainID ++ "|" ++ toString k.height.toNat ++ "|" ++ k.blockHash) := by
    intro k
    simp only [bytes, stringBytes_append, List.append_assoc]
  rw [hbytes, hbytes, List.append_right_inj]
  refine Iff.trans ⟨stringBytes_injective, congrArg stringBytes⟩ ?_
  rw [← String.toList_inj]
  simp only [String.toList_append, List.append_assoc]
  rfl

/-- One triple can be shifted to another if this is so for their texts. -/
theorem shifts_iff {k k' : VoteKey} :
    k.Shifts k' ↔ Shifted '|' k.chainID.toList (toString k.height.toNat).toList k.blockHash.toList
      k'.chainID.toList (toString k'.height.toNat).toList k'.blockHash.toList := by
  constructor
  · rintro ⟨u, hchain, hhash⟩
    refine ⟨u.toList, ?_, ?_⟩
    · simpa [String.toList_append] using congrArg String.toList hchain
    · simpa [String.toList_append] using congrArg String.toList hhash
  · rintro ⟨u, hchain, hhash⟩
    refine ⟨String.ofList u, ?_, ?_⟩
    · rw [← String.toList_inj]
      simpa [String.toList_append] using hchain
    · rw [← String.toList_inj]
      simpa [String.toList_append] using hhash

/-- Two triples have the same bytes exactly if they are equal or one can be shifted to the other. -/
theorem bytes_eq_iff {k k' : VoteKey} :
    k.bytes = k'.bytes ↔ k = k' ∨ k.Shifts k' ∨ k'.Shifts k := by
  rw [bytes_eq_iff_toList, separated_eq_iff (bar_notMem_toString _) (bar_notMem_toString _),
    ← shifts_iff, ← shifts_iff]
  refine or_congr_left ⟨?_, ?_⟩
  · rintro ⟨hchain, hheight, hhash⟩
    have hheight := UInt64.toNat.inj (toString_nat_injective (String.toList_inj.mp hheight))
    cases k
    cases k'
    exact congr (congr (congrArg VoteKey.mk (String.toList_inj.mp hchain)) hheight)
      (String.toList_inj.mp hhash)
  · rintro rfl
    exact ⟨rfl, rfl, rfl⟩

/-- A shift makes the chain id longer. -/
theorem Shifts.ne {k k' : VoteKey} (h : k.Shifts k') : k ≠ k' := by
  rintro rfl
  obtain ⟨u, hchain, -⟩ := h
  have hlen := congrArg String.length hchain
  simp only [String.length_append] at hlen
  have hbar : "|".length = 1 := by decide
  omega

/-- A shift needs a bar in the chain id and in the block hash. -/
theorem Shifts.bar_mem {k k' : VoteKey} (h : k.Shifts k') :
    '|' ∈ k'.chainID.toList ∧ '|' ∈ k.blockHash.toList := by
  obtain ⟨u, hchain, hhash⟩ := shifts_iff.mp h
  constructor
  · -- the bar after the shorter chain id is inside the longer one
    have hlen := congrArg List.length hchain
    have hbar := congrArg (fun l => l[k.chainID.toList.length]?) hchain
    simp only [List.length_append, List.length_cons, List.length_nil] at hlen
    rw [List.getElem?_append_left (by omega), List.getElem?_append_right le_rfl,
      Nat.sub_self] at hbar
    exact List.mem_of_getElem? hbar
  · rw [hhash]
    simp

/-! ### Votes -/

/-- The bytes of two triples, and a signature that is verified for both, say that they are the same.
SHA-256 does not collide on the two, and a signature is valid for at most one message. -/
structure Binds (k k' : VoteKey) : Prop where
  bytes : k.bytes = k'.bytes → k = k'
  signature : ∀ (prim : Primitives) (pub : List UInt8) (sigHex : String),
    CollisionFreeOn prim.sha256 [k.bytes, k'.bytes] →
    (∀ sig m m', prim.ed25519Verify pub m sig = true → prim.ed25519Verify pub m' sig = true →
      m = m') →
    prim.verifyVote pub sigHex k.chainID k.height k.blockHash = true →
    prim.verifyVote pub sigHex k'.chainID k'.height k'.blockHash = true → k = k'

/-- A signature that is verified for two triples is one for the same bytes. -/
theorem bytes_eq_of_verifyVote {k k' : VoteKey} {prim : Primitives} {pub : List UInt8}
    {sigHex : String} (hfree : CollisionFreeOn prim.sha256 [k.bytes, k'.bytes])
    (hunforgeable : ∀ sig m m', prim.ed25519Verify pub m sig = true →
      prim.ed25519Verify pub m' sig = true → m = m')
    (h : prim.verifyVote pub sigHex k.chainID k.height k.blockHash = true)
    (h' : prim.verifyVote pub sigHex k'.chainID k'.height k'.blockHash = true) :
    k.bytes = k'.bytes := by
  unfold Primitives.verifyVote at h h'
  split at h
  next sig hsig =>
    rw [hsig] at h'
    have hmsg := hunforgeable sig _ _ h h'
    exact hfree _ (by simp) _ (by simp) (Hash.bytes_toList_injective hmsg)
  next => simp at h

end VoteKey

/-- A vote binds its triple exactly against the triples to which it cannot be shifted, hence always
if there is no bar in the chain ids or none in the block hashes. -/
theorem voteBinds_iff (k k' : VoteKey) :
    (k.Binds k' ↔ ¬ k.Shifts k' ∧ ¬ k'.Shifts k) ∧
    ('|' ∉ k.chainID.toList ∧ '|' ∉ k'.chainID.toList ∨
      '|' ∉ k.blockHash.toList ∧ '|' ∉ k'.blockHash.toList → k.Binds k') := by
  have hiff : k.Binds k' ↔ ¬ k.Shifts k' ∧ ¬ k'.Shifts k := by
    constructor
    · intro h
      constructor
      · intro hs
        exact hs.ne (h.bytes (VoteKey.bytes_eq_iff.mpr (.inr (.inl hs))))
      · intro hs
        exact hs.ne (h.bytes (VoteKey.bytes_eq_iff.mpr (.inr (.inr hs)))).symm
    · rintro ⟨hs, hs'⟩
      have hbytes : k.bytes = k'.bytes → k = k' := fun heq =>
        (VoteKey.bytes_eq_iff.mp heq).resolve_right (not_or_intro hs hs')
      exact ⟨hbytes, fun prim pub sigHex hfree hunforgeable h h' =>
        hbytes (VoteKey.bytes_eq_of_verifyVote hfree hunforgeable h h')⟩
  refine ⟨hiff, fun hbar => hiff.mpr ⟨fun hs => ?_, fun hs => ?_⟩⟩
  · rcases hbar with ⟨-, hbar⟩ | ⟨hbar, -⟩
    · exact hbar hs.bar_mem.1
    · exact hbar hs.bar_mem.2
  · rcases hbar with ⟨hbar, -⟩ | ⟨-, hbar⟩
    · exact hbar hs.bar_mem.1
    · exact hbar hs.bar_mem.2

/-- Without bars in the block hashes, the chain ids may have them. -/
theorem voteBinds_hex : (⟨"a", 1, "ff"⟩ : VoteKey).Binds ⟨"a|1", 2, "ff"⟩ :=
  (voteBinds_iff _ _).2 (.inr (by decide))

/-- A vote on the chain `a` at height one is a vote on the chain `a|1` at height two. -/
theorem not_voteBinds_bar :
    ¬ (⟨"a", 1, "2|ff"⟩ : VoteKey).Binds ⟨"a|1", 2, "ff"⟩ ∧
    Sample.wideNode.prim.voteMessage "a" 1 "2|ff" =
      Sample.wideNode.prim.voteMessage "a|1" 2 "ff" := by
  have hbytes : (⟨"a", 1, "2|ff"⟩ : VoteKey).bytes = (⟨"a|1", 2, "ff"⟩ : VoteKey).bytes := by
    decide +kernel
  refine ⟨fun h => absurd (h.bytes hbytes) (by decide), ?_⟩
  exact congrArg (fun m => (Sample.wideNode.prim.sha256 m).bytes.toList) hbytes

end ReserveOS
