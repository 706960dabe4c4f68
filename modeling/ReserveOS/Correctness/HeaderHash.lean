import ReserveOS.Correctness.BlockTree
import ReserveOS.Correctness.Encoding
import ReserveOS.Crypto.Edwards25519

/-!
# What a block hash commits to

Every table of blocks is keyed by the hexadecimal block hash. The header is written field by field:
integers of fixed width, digests of 32 bytes, and the chain id behind its length, so the bytes
determine the header (`parse_bytesForHash`).

SHA-256 is not injective, so it is only asked not to collide on what is hashed. Then the block hash
determines the header (`header_unambiguous`), and no two headers of a run have the same hash, which
is what the results about runs assume (`collisionFree_of_sha256`).
-/

namespace ReserveOS

open Wire

/-! ### Digests -/

/-- SHA-256 does not collide on a list of messages. -/
def CollisionFreeOn (sha256 : List UInt8 → Hash) (msgs : List (List UInt8)) : Prop :=
  ∀ x ∈ msgs, ∀ y ∈ msgs, sha256 x = sha256 y → x = y

instance (sha256 : List UInt8 → Hash) (msgs : List (List UInt8)) :
    Decidable (CollisionFreeOn sha256 msgs) :=
  inferInstanceAs (Decidable (∀ x ∈ msgs, ∀ y ∈ msgs, sha256 x = sha256 y → x = y))

theorem Hash.bytes_toList_injective {h h' : Hash} (heq : h.bytes.toList = h'.bytes.toList) :
    h = h' := by
  have hbytes := Vector.toList_inj.mp heq
  cases h
  cases h'
  exact congrArg Hash.mk hbytes

/-- The hexadecimal form determines the digest. -/
theorem Hash.toHex_injective {h h' : Hash} (heq : h.toHex = h'.toHex) : h = h' := by
  have hbytes : some h.bytes.toList = some h'.bytes.toList := by
    rw [← hexDecode_hexEncode, ← hexDecode_hexEncode]
    exact congrArg hexDecode heq
  exact Hash.bytes_toList_injective (Option.some_inj.mp hbytes)

/-- Without collisions in its two rounds the double hash determines the message. -/
theorem CollisionFreeOn.eq_of_sha256d_eq {sha256 : List UInt8 → Hash} {msgs : List (List UInt8)}
    (hfree : CollisionFreeOn sha256 msgs) {a b : List UInt8}
    (ha : [a, (sha256 a).bytes.toList] ⊆ msgs) (hb : [b, (sha256 b).bytes.toList] ⊆ msgs)
    (heq : sha256d sha256 a = sha256d sha256 b) : a = b := by
  -- the second round first
  have hdigest := hfree _ (ha (by simp)) _ (hb (by simp)) heq
  exact hfree _ (ha (by simp)) _ (hb (by simp)) (Hash.bytes_toList_injective hdigest)

theorem selfDelimiting_hash : SelfDelimiting (fun _ => True) fun h : Hash => h.bytes.toList :=
  selfDelimiting_of_length (k := 32) (fun _ _ => by simp) fun _ _ _ _ =>
    Hash.bytes_toList_injective

/-! ### Headers -/

/-- The bytes of a header and what follows them determine the header and what follows. -/
theorem BlockHeader.parse_bytesForHash {h h' : BlockHeader} (hs : ShortString h.chainID)
    (hs' : ShortString h'.chainID) {r s : List UInt8}
    (heq : h.bytesForHash ++ r = h'.bytesForHash ++ s) : h = h' ∧ r = s := by
  simp only [bytesForHash, List.append_assoc] at heq
  obtain ⟨hversion, heq⟩ := selfDelimiting_putU32 _ _ trivial trivial _ _ heq
  obtain ⟨hchain, heq⟩ := selfDelimiting_putString _ _ hs hs' _ _ heq
  obtain ⟨hheight, heq⟩ := selfDelimiting_putU64 _ _ trivial trivial _ _ heq
  obtain ⟨htime, heq⟩ := selfDelimiting_putI64 _ _ trivial trivial _ _ heq
  obtain ⟨hprev, heq⟩ := selfDelimiting_hash _ _ trivial trivial _ _ heq
  obtain ⟨hstate, heq⟩ := selfDelimiting_hash _ _ trivial trivial _ _ heq
  obtain ⟨htx, heq⟩ := selfDelimiting_hash _ _ trivial trivial _ _ heq
  obtain ⟨hbits, heq⟩ := selfDelimiting_putU32 _ _ trivial trivial _ _ heq
  obtain ⟨hnonce, heq⟩ := selfDelimiting_putU64 _ _ trivial trivial _ _ heq
  refine ⟨?_, heq⟩
  cases h
  cases h'
  simp_all

theorem BlockHeader.bytesForHash_injective {h h' : BlockHeader} (hs : ShortString h.chainID)
    (hs' : ShortString h'.chainID) (heq : h.bytesForHash = h'.bytesForHash) : h = h' :=
  (parse_bytesForHash (r := []) (s := []) hs hs' (by rw [heq])).1

/-- What is hashed for a block hash. -/
def BlockHeader.hashInputs (sha256 : List UInt8 → Hash) (h : BlockHeader) : List (List UInt8) :=
  [h.bytesForHash, (sha256 h.bytesForHash).bytes.toList]

namespace Node

variable (n : Node)

/-- The block hash determines the bytes of the header. -/
theorem bytesForHash_eq_of_hashHex {h h' : BlockHeader} {msgs : List (List UInt8)}
    (hfree : CollisionFreeOn n.prim.sha256 msgs) (hm : h.hashInputs n.prim.sha256 ⊆ msgs)
    (hm' : h'.hashInputs n.prim.sha256 ⊆ msgs) (heq : n.hashHex h = n.hashHex h') :
    h.bytesForHash = h'.bytesForHash :=
  hfree.eq_of_sha256d_eq hm hm' (Hash.toHex_injective heq)

/-- If SHA-256 does not collide on what is hashed for the blocks of a run, no two of their headers
have the same hash. -/
theorem collisionFree_of_sha256 (bs : List Block)
    (hshort : ∀ b ∈ n.genesisBlock :: bs, ShortString b.header.chainID)
    (hfree : CollisionFreeOn n.prim.sha256
      ((n.genesisBlock :: bs).flatMap fun b => b.header.hashInputs n.prim.sha256)) :
    n.CollisionFree bs := by
  intro b hb b' hb' heq
  have hsub : ∀ c ∈ n.genesisBlock :: bs, c.header.hashInputs n.prim.sha256 ⊆
      (n.genesisBlock :: bs).flatMap fun b => b.header.hashInputs n.prim.sha256 :=
    fun c hc x hx => List.mem_flatMap_of_mem hc hx
  exact BlockHeader.bytesForHash_injective (hshort b hb) (hshort b' hb')
    (n.bytesForHash_eq_of_hashHex hfree (hsub b hb) (hsub b' hb') heq)

/-- The bytes of a header determine its nine fields, and if SHA-256 does not collide on what is
hashed for two blocks, the key under which they are stored determines their header. -/
theorem header_unambiguous (b₁ b₂ : Block) (h₁ : ShortString b₁.header.chainID)
    (h₂ : ShortString b₂.header.chainID) :
    (b₁.header.bytesForHash = b₂.header.bytesForHash ↔ b₁.header = b₂.header) ∧
    (CollisionFreeOn n.prim.sha256
      (b₁.header.hashInputs n.prim.sha256 ++ b₂.header.hashInputs n.prim.sha256) →
        (n.hashHex b₁.header = n.hashHex b₂.header ↔ b₁.header = b₂.header)) := by
  constructor
  · exact ⟨BlockHeader.bytesForHash_injective h₁ h₂, fun heq => by rw [heq]⟩
  · intro hfree
    refine ⟨fun heq => BlockHeader.bytesForHash_injective h₁ h₂ ?_, fun heq => by rw [heq]⟩
    exact n.bytesForHash_eq_of_hashHex hfree (List.subset_append_left _ _)
      (List.subset_append_right _ _) heq

end Node

namespace Sample

/-- A stand-in for SHA-256 that depends on every byte of the message: the message as a number to
base 257, modulo a number of 256 bits. -/
def wideHash (m : List UInt8) : Hash :=
  let v := m.foldl (fun v x => (v * 257 + x.toNat + 1) % (2 ^ 256 - 189)) 0
  ⟨Vector.ofFn fun i => (leBytes 32 v).getD i.val 0⟩

/-- The small node with this stand-in. -/
def wideNode : Node := { node with prim := { prim with sha256 := wideHash } }

/-- A block at a time. -/
def timedBlock (t : Int64) : Block :=
  { main₁ with header := { main₁.header with timeUnix := t } }

end Sample

open Sample

/-- Two times of which one is negative. -/
theorem header_unambiguous_negative :
    CollisionFreeOn wideNode.prim.sha256
      ((timedBlock (-1)).header.hashInputs wideNode.prim.sha256 ++
        (timedBlock 1).header.hashInputs wideNode.prim.sha256) ∧
    wideNode.hashHex (timedBlock (-1)).header ≠ wideNode.hashHex (timedBlock 1).header := by
  have hfree : CollisionFreeOn wideNode.prim.sha256
      ((timedBlock (-1)).header.hashInputs wideNode.prim.sha256 ++
        (timedBlock 1).header.hashInputs wideNode.prim.sha256) := by decide +kernel
  have hiff := (wideNode.header_unambiguous (timedBlock (-1)) (timedBlock 1)
    (by decide) (by decide)).2 hfree
  refine ⟨hfree, fun heq => ?_⟩
  exact absurd (congrArg BlockHeader.timeUnix (hiff.mp heq)) (by decide)

end ReserveOS
