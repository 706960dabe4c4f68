import ReserveOS.General.Ancestry
import ReserveOS.Node.Events

/-!
# The stored blocks form a tree

`BlockTree` is the invariant of the block tables: every block is stored under its own hash, its
parent is stored one height below, genesis is the only block of height zero, the height index names
stored blocks of the right height, and the tip is stored. It holds in every state of every run,
whatever the blocks, as long as no two headers of the run have the same hash. A path that passes the
checks of `trySwitchMainChain` is the path from the finalized anchor to the candidate
(`candidatePath_spec`).
-/

namespace ReserveOS

namespace DB

/-- Following parent hashes from the stored block `c` reaches the stored block `a`. -/
abbrev IsAncestor (s : DB) (a c : String) : Prop :=
  Ancestry.IsAncestor s.blockByHash Block.prevHex Block.height a c

/-- `a` is the hash of the ancestor of `c` at height `k`. -/
abbrev AncestorAt (s : DB) (c : String) (k : ℕ) (a : String) : Prop :=
  Ancestry.AncestorAt s.blockByHash Block.prevHex Block.height c k a

/-- The blocks above genesis on the path to `c`, in height order. -/
abbrev RootPath (s : DB) (c : String) (bs : List Block) : Prop :=
  Ancestry.RootPath s.blockByHash Block.prevHex Block.height c bs

end DB

namespace Node

variable (n : Node)

/-- No two of the headers of a run, genesis included, have the same hash. -/
def CollisionFree (bs : List Block) : Prop :=
  ∀ b ∈ n.genesisBlock :: bs, ∀ b' ∈ n.genesisBlock :: bs,
    n.hashHex b.header = n.hashHex b'.header → b.header = b'.header

instance (bs : List Block) : Decidable (n.CollisionFree bs) :=
  inferInstanceAs (Decidable (∀ b ∈ n.genesisBlock :: bs, ∀ b' ∈ n.genesisBlock :: bs,
    n.hashHex b.header = n.hashHex b'.header → b.header = b'.header))

/-- A set of headers, with the genesis header, on which the hash is injective. -/
structure HashDomain where
  /-- The headers of the set. -/
  known : BlockHeader → Prop
  genesis_known : known n.genesisBlock.header
  injective : ∀ h h', known h → known h' → n.hashHex h = n.hashHex h' → h = h'

variable {n}

/-- The headers of a collision-free run. -/
def CollisionFree.domain {bs : List Block} (h : n.CollisionFree bs) : n.HashDomain where
  known hd := ∃ b ∈ n.genesisBlock :: bs, b.header = hd
  genesis_known := ⟨n.genesisBlock, List.mem_cons_self, rfl⟩
  injective := by
    rintro _ _ ⟨b, hb, rfl⟩ ⟨b', hb', rfl⟩ heq
    exact h b hb b' hb' heq

theorem CollisionFree.known {bs : List Block} (h : n.CollisionFree bs) {b : Block} (hb : b ∈ bs) :
    h.domain.known b.header :=
  ⟨b, List.mem_cons_of_mem _ hb, rfl⟩

/-- Blocks with no other headers, at a node with the same genesis file and hash function. -/
theorem CollisionFree.of_headers {n' : Node} {bs bs' : List Block} (h : n.CollisionFree bs)
    (hgenesis : n'.genesis = n.genesis) (hprim : n'.prim = n.prim)
    (hsub : ∀ b' ∈ bs', ∃ b ∈ bs, b.header = b'.header) : n'.CollisionFree bs' := by
  have hblock : n'.genesisBlock = n.genesisBlock := by
    rw [genesisBlock, hgenesis, hprim, genesisBlock]
  have hhash : n'.hashHex = n.hashHex := by
    funext hd
    rw [hashHex, hprim, hashHex]
  have hknown : ∀ b ∈ n'.genesisBlock :: bs', h.domain.known b.header := by
    rw [hblock]
    refine List.forall_mem_cons.mpr ⟨h.domain.genesis_known, fun b' hb' => ?_⟩
    obtain ⟨b, hb, heq⟩ := hsub b' hb'
    exact heq ▸ h.known hb
  intro b hb b' hb' heq
  rw [hhash] at heq
  exact h.domain.injective _ _ (hknown b hb) (hknown b' hb') heq

/-- Fewer blocks at a node with the same genesis file and hash function. -/
theorem CollisionFree.of_subset {n' : Node} {bs bs' : List Block} (h : n.CollisionFree bs)
    (hgenesis : n'.genesis = n.genesis) (hprim : n'.prim = n.prim) (hsub : bs' ⊆ bs) :
    n'.CollisionFree bs' :=
  h.of_headers hgenesis hprim fun b hb => ⟨b, hsub hb, rfl⟩

variable (n) in
/-- The invariant of the block tables. -/
structure BlockTree (dom : n.HashDomain) (s : DB) : Prop where
  key : ∀ h b, s.blockByHash h = some b → h = n.hashHex b.header ∧ dom.known b.header
  linked : Ancestry.Linked s.blockByHash Block.prevHex Block.height
  genesis : s.blockByHash n.genesisHash = some n.genesisBlock
  root : ∀ h b, s.blockByHash h = some b → b.height = 0 → h = n.genesisHash
  index : ∀ k h, s.hashByHeight k = some h → ∃ b, s.blockByHash h = some b ∧ b.header.height = k
  tip : ∃ b, s.getTip = some (b.header.height, n.hashHex b.header) ∧
    s.blockByHash (n.hashHex b.header) = some b

/-- The invariant only reads the block tables, the index and the tip. -/
theorem BlockTree.congr {dom : n.HashDomain} {s s' : DB} (h : n.BlockTree dom s)
    (hblk : s'.blockByHash = s.blockByHash) (hidx : s'.hashByHeight = s.hashByHeight)
    (htip : s'.getTip = s.getTip) : n.BlockTree dom s' where
  key := by
    rw [hblk]
    exact h.key
  linked := by
    rw [hblk]
    exact h.linked
  genesis := by
    rw [hblk]
    exact h.genesis
  root := by
    rw [hblk]
    exact h.root
  index := by
    rw [hblk, hidx]
    exact h.index
  tip := by
    rw [hblk, htip]
    exact h.tip

/-- Finality code keeps the invariant. -/
theorem BlockTree.sameChain {dom : n.HashDomain} {s s' : DB} (h : n.BlockTree dom s)
    (hs : s.SameChain s') : n.BlockTree dom s' :=
  h.congr hs.blockByHash hs.hashByHeight hs.getTip

/-- A stored block and another one with the same key have the same header. -/
theorem BlockTree.header_eq {dom : n.HashDomain} {s : DB} (h : n.BlockTree dom s) {b x : Block}
    (hb : dom.known b.header) (hx : s.blockByHash (n.hashHex b.header) = some x) :
    x.header = b.header := by
  obtain ⟨hkey, hknown⟩ := h.key _ _ hx
  exact dom.injective _ _ hknown hb hkey.symm

/-- The heights of a block and of its parent as numbers. -/
theorem height_eq_succ {b p : Block} (hne : b.header.height ≠ 0)
    (hp : p.header.height + 1 = b.header.height) : b.height = p.height + 1 := by
  have hne : b.header.height.toNat ≠ 0 := fun h0 => hne (UInt64.toNat.inj h0)
  have hsum : (p.header.height + 1).toNat = b.header.height.toNat := by rw [hp]
  rw [toNat_succ] at hsum
  have hlt := p.header.height.toNat_lt
  unfold Block.height
  omega

theorem Storable.height_pos {s : DB} {b : Block} (h : n.Storable s b) : b.height ≠ 0 :=
  fun h0 => h.height_ne_zero (UInt64.toNat.inj h0)

section Stored

variable {dom : n.HashDomain} {s : DB} {b : Block}

theorem blockByHash_stored (h : String) :
    (n.stored s b).blockByHash h = if h = n.hashHex b.header then some b else s.blockByHash h := by
  change Function.update s.blockByHash _ _ h = _
  rw [Function.update_apply]

theorem hashByHeight_stored (k : UInt64) :
    (n.stored s b).hashByHeight k =
      if k = b.header.height then some (n.hashHex b.header) else s.hashByHeight k := by
  change Function.update s.hashByHeight _ _ k = _
  rw [Function.update_apply]

/-- Storing a block keeps every stored block, if it does not replace a body. -/
theorem blockByHash_stored_of_some
    (hsame : ∀ b', s.blockByHash (n.hashHex b.header) = some b' → b' = b) (a : String) (x : Block)
    (hx : s.blockByHash a = some x) : (n.stored s b).blockByHash a = some x := by
  rw [blockByHash_stored]
  split
  next ha =>
    rw [ha] at hx
    rw [hsame x hx]
  next => exact hx

/-- Storing a block keeps the header of every stored block. -/
theorem BlockTree.keep_header (h : n.BlockTree dom s) (hb : dom.known b.header) {a : String}
    {x : Block} (hx : s.blockByHash a = some x) :
    ∃ x', (n.stored s b).blockByHash a = some x' ∧ x'.header = x.header := by
  rw [blockByHash_stored]
  split
  next ha =>
    subst ha
    exact ⟨b, rfl, (h.header_eq hb hx).symm⟩
  next => exact ⟨x, hx, rfl⟩

/-- Storing a block keeps the parent and the height of every stored block. -/
theorem BlockTree.keep (h : n.BlockTree dom s) (hb : dom.known b.header) (a : String) (x : Block)
    (hx : s.blockByHash a = some x) :
    ∃ x', (n.stored s b).blockByHash a = some x' ∧ x'.prevHex = x.prevHex ∧
      x'.height = x.height := by
  obtain ⟨x', hx', hhead⟩ := h.keep_header hb hx
  refine ⟨x', hx', ?_, ?_⟩
  · rw [Block.prevHex, Block.prevHex, hhead]
  · rw [Block.height, Block.height, hhead]

/-- Storing a block that passed the checks keeps the invariant. -/
theorem BlockTree.stored (h : n.BlockTree dom s) (hs : n.Storable s b)
    (hb : dom.known b.header) : n.BlockTree dom (n.stored s b) where
  key := by
    intro a x hx
    rw [blockByHash_stored] at hx
    split at hx
    next ha =>
      cases hx
      exact ⟨ha, hb⟩
    next => exact h.key a x hx
  linked := by
    intro a x hx hpos
    rw [blockByHash_stored] at hx
    split at hx
    next =>
      cases hx
      obtain ⟨p, hp, hheight⟩ := hs.parent
      obtain ⟨p', hp', -, hh⟩ := h.keep hb _ _ hp
      exact ⟨p', hp', by rw [hh, height_eq_succ hs.height_ne_zero hheight]⟩
    next =>
      obtain ⟨p, hp, hheight⟩ := h.linked a x hx hpos
      obtain ⟨p', hp', -, hh⟩ := h.keep hb _ _ hp
      exact ⟨p', hp', by rw [hh, hheight]⟩
  genesis := by
    rw [blockByHash_stored, if_neg, h.genesis]
    -- a block with the hash of genesis would have its header, hence height zero
    intro heq
    have hhead := dom.injective _ _ dom.genesis_known hb heq
    exact hs.height_ne_zero (by rw [← hhead]; rfl)
  root := by
    intro a x hx h0
    rw [blockByHash_stored] at hx
    split at hx
    next =>
      cases hx
      exact absurd h0 hs.height_pos
    next => exact h.root a x hx h0
  index := by
    intro k a ha
    rw [hashByHeight_stored] at ha
    split at ha
    next hk =>
      cases ha
      exact ⟨b, by rw [blockByHash_stored, if_pos rfl], hk.symm⟩
    next =>
      obtain ⟨x, hx, hk⟩ := h.index k a ha
      obtain ⟨x', hx', hhead⟩ := h.keep_header hb hx
      exact ⟨x', hx', by rw [hhead, hk]⟩
  tip := by
    obtain ⟨x, htip, hx⟩ := h.tip
    obtain ⟨x', hx', hhead⟩ := h.keep_header hb hx
    refine ⟨x', ?_, ?_⟩
    · rw [hhead]
      exact htip
    · rw [hhead]
      exact hx'

end Stored

end Node

/-! ### The path of a chain switch -/

namespace DB

/-- A walk that starts at the finalized height stops there. -/
theorem ancestorAt_of_walk_stop {s : DB} {finH : UInt64} {k : ℕ} {h : String} {acc : List String}
    {b : Block} (hb : s.blockByHash h = some b) (hk : b.height = k) (hfin : k = finH.toNat) :
    ∃ pre, h :: acc = pre ++ acc ∧ pre.length = k + 1 - finH.toNat ∧
      ∀ i x, pre[i]? = some x → s.AncestorAt h (finH.toNat + i) x := by
  refine ⟨[h], rfl, by simp only [List.length_singleton]; omega, fun i x hi => ?_⟩
  obtain ⟨rfl, rfl⟩ : i = 0 ∧ h = x := by
    cases i with
    | zero => exact ⟨rfl, by simpa using hi⟩
    | succ i => simp at hi
  have hself : s.AncestorAt h b.height h := Ancestry.ancestorAt_self hb
  rwa [hk, hfin] at hself

/-- A walk that succeeds has collected the ancestors from the finalized height up. -/
theorem walkBack_spec {s : DB} (hlink : Ancestry.Linked s.blockByHash Block.prevHex Block.height)
    {finH : UInt64} {k : ℕ} {h : String} {acc path : List String} {b : Block}
    (hb : s.blockByHash h = some b) (hk : b.height = k) (hpos : k ≠ 0 ∨ finH.toNat = 0)
    (hok : s.walkBack finH k h acc = .ok path) :
    finH.toNat ≤ k ∧ ∃ pre, path = pre ++ acc ∧ pre.length = k + 1 - finH.toNat ∧
      ∀ i x, pre[i]? = some x → s.AncestorAt h (finH.toNat + i) x := by
  induction k generalizing h acc b with
  | zero =>
      have hfin : finH.toNat = 0 := by omega
      have hfin' : finH = 0 := UInt64.toNat.inj hfin
      rw [walkBack, if_pos hfin'] at hok
      cases hok
      exact ⟨by omega, ancestorAt_of_walk_stop hb hk hfin.symm⟩
  | succ k ih =>
      rw [walkBack] at hok
      split at hok
      next hfin =>
        cases hok
        exact ⟨by omega, ancestorAt_of_walk_stop hb hk hfin⟩
      next hne =>
        rw [hb] at hok
        dsimp only at hok
        split at hok
        · cases hok
        next hge =>
          -- the rest of the walk starts at the parent, and its path comes first
          have hbpos : b.height ≠ 0 := by omega
          obtain ⟨p, hp, hheight⟩ := hlink h b hb hbpos
          obtain ⟨hle, pre, rfl, hlen, hanc⟩ := ih hp (by omega) (by omega) hok
          have hlen' : (pre ++ [h]).length = k + 1 + 1 - finH.toNat := by
            rw [List.length_append, List.length_singleton]
            omega
          refine ⟨by omega, pre ++ [h], by simp, hlen', fun i x hi => ?_⟩
          rcases Nat.lt_or_ge i pre.length with hlt | hge'
          · rw [List.getElem?_append_left hlt] at hi
            exact (hanc i x hi).of_parent hb hbpos
          · rw [List.getElem?_append_right hge'] at hi
            obtain ⟨hi0, rfl⟩ : i - pre.length = 0 ∧ h = x := by
              cases hi' : i - pre.length with
              | zero => exact ⟨rfl, by simpa [hi'] using hi⟩
              | succ j => simp [hi'] at hi
            have hself : s.AncestorAt h b.height h := Ancestry.ancestorAt_self hb
            have heq : b.height = finH.toNat + i := by omega
            rwa [heq] at hself

/-- What the checks of `trySwitchMainChain` establish about the candidate `x` of height `h`. -/
structure CandidatePath (s : DB) (x : String) (h : UInt64) (finH : UInt64) (path : List String) :
    Prop where
  finH_le : finH.toNat ≤ h.toNat
  length_eq : path.length = h.toNat + 1 - finH.toNat
  ancestor : ∀ i y, path[i]? = some y → s.AncestorAt x (finH.toNat + i) y
  anchor : ∃ finHash, s.switchAnchor = .ok (finH, finHash) ∧ s.AncestorAt x finH.toNat finHash

/-- The steps of the checks: the anchor, the slice, the walk down from the candidate, and the
comparison of its end with the anchor. -/
theorem candidatePath_eq_ok_iff {s : DB} {x : String} {h finH : UInt64} {path : List String} :
    s.candidatePath x h = .ok (finH, path) ↔ ∃ finHash, s.switchAnchor = .ok (finH, finHash) ∧
      makesliceFails (pathCap finH h) = false ∧ s.walkBack finH h.toNat x [] = .ok path ∧
      path.head? = some finHash := by
  unfold candidatePath
  constructor
  · intro hok
    obtain ⟨⟨finH', finHash⟩, hanchor, hok⟩ := Res.bind_eq_ok.mp hok
    obtain ⟨hcap, hok⟩ := Res.ite_error_eq_ok.mp hok
    obtain ⟨path', hwalk, hok⟩ := Res.bind_eq_ok.mp hok
    obtain ⟨hhead, hok⟩ := Res.ite_error_eq_ok.mp hok
    obtain ⟨rfl, rfl⟩ := Prod.mk.inj (Except.ok.inj hok)
    exact ⟨finHash, hanchor, Bool.eq_false_iff.mpr hcap, hwalk, not_not.mp hhead⟩
  · rintro ⟨finHash, hanchor, hcap, hwalk, hhead⟩
    refine Res.bind_eq_ok.mpr ⟨_, hanchor, ?_⟩
    refine Res.ite_error_eq_ok.mpr ⟨Bool.eq_false_iff.mp hcap, ?_⟩
    refine Res.bind_eq_ok.mpr ⟨path, hwalk, ?_⟩
    exact Res.ite_error_eq_ok.mpr ⟨not_not.mpr hhead, rfl⟩

/-- A path that passes the checks is the path from the finalized anchor to the candidate. -/
theorem candidatePath_spec {s : DB}
    (hlink : Ancestry.Linked s.blockByHash Block.prevHex Block.height) {x : String} {h : UInt64}
    {b : Block} (hb : s.blockByHash x = some b) (hh : b.header.height = h) (hpos : b.height ≠ 0)
    {finH : UInt64} {path : List String} (hok : s.candidatePath x h = .ok (finH, path)) :
    s.CandidatePath x h finH path := by
  obtain ⟨finHash, hanchor, -, hwalk, hhead⟩ := candidatePath_eq_ok_iff.mp hok
  have hbh : b.height = h.toNat := by rw [← hh]; rfl
  obtain ⟨hle, pre, rfl, hlen, hanc⟩ := walkBack_spec hlink hb hbh (Or.inl (by omega)) hwalk
  rw [List.append_nil] at *
  rw [List.head?_eq_getElem?] at hhead
  exact ⟨hle, hlen, hanc, finHash, hanchor, by simpa using hanc 0 finHash hhead⟩

theorem switchAnchor_of_finalized {s : DB} {fin : UInt64 × String} (hfin : s.finalized = some fin) :
    s.switchAnchor = .ok fin := by
  rw [switchAnchor, hfin]

/-- The anchor of a switch is the genesis entry of the index or the finalized pair. -/
theorem switchAnchor_eq_ok {s : DB} {finH : UInt64} {finHash : String}
    (h : s.switchAnchor = .ok (finH, finHash)) :
    (finH = 0 ∧ s.hashByHeight 0 = some finHash) ∨ s.finalized = some (finH, finHash) := by
  unfold switchAnchor at h
  split at h
  next fin hfin =>
    cases h
    exact Or.inr hfin
  next =>
    split at h
    · cases h
    next ghash b hb =>
      cases h
      exact Or.inl ⟨rfl, (getBlockByHeight_eq_some_iff.mp hb).1⟩

/-- The index after a switch: the candidate's ancestors from the finalized height up, and the old
entries elsewhere. -/
theorem CandidatePath.hashByHeight_switchTo {s : DB} {x : String} {h finH : UInt64}
    {path : List String} (hp : s.CandidatePath x h finH path) (k : UInt64) :
    (finH ≤ k → k ≤ h → ∃ y, (s.switchTo finH path x h).hashByHeight k = some y ∧
      s.AncestorAt x k.toNat y) ∧
    (¬ (finH ≤ k ∧ k ≤ h) → (s.switchTo finH path x h).hashByHeight k = s.hashByHeight k) := by
  have hle := hp.finH_le
  have hlen := hp.length_eq
  have hlt := h.toNat_lt
  have hread := hashByHeight_rewriteIndex path s finH k (by omega)
  change (s.switchTo finH path x h).hashByHeight k = _ at hread
  rw [hread]
  constructor
  · intro hfin hkh
    rw [UInt64.le_iff_toNat_le] at hfin hkh
    rw [if_pos (by omega)]
    have hidx : k.toNat - finH.toNat < path.length := by omega
    refine ⟨path[k.toNat - finH.toNat], List.getElem?_eq_getElem hidx, ?_⟩
    have hanc := hp.ancestor _ _ (List.getElem?_eq_getElem hidx)
    rwa [Nat.add_sub_cancel' hfin] at hanc
  · intro hout
    rw [UInt64.le_iff_toNat_le, UInt64.le_iff_toNat_le] at hout
    rw [if_neg (by omega)]

@[simp] theorem blockByHash_switchTo (s : DB) (finH : UInt64) (path : List String) (x : String)
    (h : UInt64) : (s.switchTo finH path x h).blockByHash = s.blockByHash := by
  rw [switchTo, rewriteIndex_eq]
  rfl

@[simp] theorem getTip_switchTo (s : DB) (finH : UInt64) (path : List String) (x : String)
    (h : UInt64) : (s.switchTo finH path x h).getTip = some (h, x) := rfl

end DB

namespace Node

variable {n : Node} {dom : n.HashDomain} {s : DB} {b : Block}

/-! ### The invariant over whole runs -/

theorem blockByHash_genesisDB (registry : Table RegValidator) :
    (n.genesisDB registry).blockByHash =
      Function.update (fun _ => none) n.genesisHash (some n.genesisBlock) := rfl

theorem hashByHeight_genesisDB (registry : Table RegValidator) :
    (n.genesisDB registry).hashByHeight =
      Function.update (fun _ => none) 0 (some n.genesisHash) := rfl

/-- A new database satisfies the invariant. -/
theorem blockTree_genesisDB (dom : n.HashDomain) (registry : Table RegValidator) :
    n.BlockTree dom (n.genesisDB registry) := by
  have hgen : (n.genesisDB registry).blockByHash n.genesisHash = some n.genesisBlock := by
    rw [blockByHash_genesisDB, Function.update_self]
  have hblk : ∀ h x, (n.genesisDB registry).blockByHash h = some x →
      h = n.genesisHash ∧ x = n.genesisBlock := by
    intro h x hx
    rw [blockByHash_genesisDB, Function.update_apply] at hx
    split at hx
    next heq => exact ⟨heq, by simpa using hx.symm⟩
    next => cases hx
  refine ⟨?_, ?_, hgen, fun h x hx _ => (hblk h x hx).1, ?_, n.genesisBlock, rfl, hgen⟩
  · intro h x hx
    obtain ⟨rfl, rfl⟩ := hblk h x hx
    exact ⟨rfl, dom.genesis_known⟩
  · intro h x hx hpos
    obtain ⟨rfl, rfl⟩ := hblk h x hx
    exact absurd rfl hpos
  · intro k h hk
    rw [hashByHeight_genesisDB, Function.update_apply] at hk
    split at hk
    next h0 =>
      cases hk
      exact ⟨n.genesisBlock, hgen, h0.symm⟩
    next => cases hk

/-- Moving the tip to a stored block keeps the invariant. -/
theorem BlockTree.moveTip (h : n.BlockTree dom s)
    (hb : s.blockByHash (n.hashHex b.header) = some b) (cum : UInt64) :
    n.BlockTree dom (n.moveTip s b cum) where
  key := h.key
  linked := h.linked
  genesis := h.genesis
  root := h.root
  index := by
    intro k a ha
    change Function.update s.hashByHeight _ _ k = some a at ha
    rw [Function.update_apply] at ha
    split at ha
    next hk =>
      cases ha
      exact ⟨b, hb, hk.symm⟩
    next => exact h.index k a ha
  tip := ⟨b, rfl, hb⟩

/-- A switch to a stored block whose path passed the checks keeps the invariant. -/
theorem BlockTree.switchTo (h : n.BlockTree dom s)
    (hb : s.blockByHash (n.hashHex b.header) = some b) {finH : UInt64} {path : List String}
    (hp : s.CandidatePath (n.hashHex b.header) b.header.height finH path) :
    n.BlockTree dom (s.switchTo finH path (n.hashHex b.header) b.header.height) where
  key := by
    rw [DB.blockByHash_switchTo]
    exact h.key
  linked := by
    rw [DB.blockByHash_switchTo]
    exact h.linked
  genesis := by
    rw [DB.blockByHash_switchTo]
    exact h.genesis
  root := by
    rw [DB.blockByHash_switchTo]
    exact h.root
  index := by
    rw [DB.blockByHash_switchTo]
    intro k a ha
    obtain ⟨hin, hout⟩ := hp.hashByHeight_switchTo k
    by_cases hk : finH ≤ k ∧ k ≤ b.header.height
    · obtain ⟨y, hy, -, x, hx, hheight⟩ := hin hk.1 hk.2
      rw [hy] at ha
      cases ha
      exact ⟨x, hx, UInt64.toNat.inj hheight⟩
    · rw [hout hk] at ha
      exact h.index k a ha
  tip := by
    refine ⟨b, rfl, ?_⟩
    rw [DB.blockByHash_switchTo]
    exact hb

/-- The block tables, the index and the tip after a switch and its ledger rebuild. -/
theorem sameTables_rebuild (s : DB) (w : UInt64) :
    ((n.rebuildStateFromFinalized s).2.putTipWork w).blockByHash = s.blockByHash ∧
    ((n.rebuildStateFromFinalized s).2.putTipWork w).hashByHeight = s.hashByHeight ∧
    ((n.rebuildStateFromFinalized s).2.putTipWork w).getTip = s.getTip ∧
    s.SameFinality ((n.rebuildStateFromFinalized s).2.putTipWork w) := by
  rw [rebuildStateFromFinalized_eq]
  exact ⟨rfl, rfl, rfl, rfl, rfl, rfl, rfl, rfl, rfl, rfl, rfl⟩

/-- The block just stored is found under its hash. -/
theorem blockByHash_stored_self : (n.stored s b).blockByHash (n.hashHex b.header) = some b := by
  rw [blockByHash_stored, if_pos rfl]

/-- Moving the tip writes no block. -/
theorem blockByHash_moveTip (s : DB) (b : Block) (cum : UInt64) :
    (n.moveTip s b cum).blockByHash = s.blockByHash := rfl

/-- A block that becomes the tip is found under its hash. -/
theorem blockByHash_moveTip_self (cum : UInt64) :
    (n.moveTip (n.stored s b) b cum).blockByHash (n.hashHex b.header) = some b := by
  rw [blockByHash_moveTip, blockByHash_stored_self]

theorem getTip_moveTip (s : DB) (b : Block) (cum : UInt64) :
    (n.moveTip s b cum).getTip = some (b.header.height, n.hashHex b.header) := rfl

/-- The checks of a switch to a block that is being submitted. -/
theorem BlockTree.candidatePath (h : n.BlockTree dom s) (hs : n.Storable s b)
    (hb : dom.known b.header) {finH : UInt64} {path : List String}
    (hpath : (n.stored s b).candidatePath (n.hashHex b.header) b.header.height = .ok (finH, path)) :
    (n.stored s b).CandidatePath (n.hashHex b.header) b.header.height finH path :=
  DB.candidatePath_spec (h.stored hs hb).linked blockByHash_stored_self rfl hs.height_pos hpath

/-- `SubmitBlock` either leaves the database as it is or writes exactly one block body. -/
theorem blockByHash_submitBlock (now : Int64) (s : DB) (b : Block) :
    (n.preStore s b ≠ .ok true ∧ (n.submitBlock now s b).2 = s) ∨ (n.preStore s b = .ok true ∧
        (n.submitBlock now s b).2.blockByHash = (n.stored s b).blockByHash) := by
  have hout := n.submitBlock_outcome now s b
  generalize n.submitBlock now s b = res at hout
  cases hout with
  | rejected e hpre =>
      rw [hpre]
      exact Or.inl ⟨by simp, rfl⟩
  | ignored hpre =>
      rw [hpre]
      exact Or.inl ⟨by simp, rfl⟩
  | invalidTip e hpre hext hval => exact Or.inr ⟨hpre, rfl⟩
  | extended hpre hext hval =>
      exact Or.inr ⟨hpre, (n.sameChain_advanceTip now (n.stored s b) b (cumWork s b)).blockByHash⟩
  | forkStored r hpre hext hkeep => exact Or.inr ⟨hpre, rfl⟩
  | switched finH path hpre hext hwork hpath =>
      obtain ⟨hblk, -, -, -⟩ := sameTables_rebuild (n := n) ((n.stored s b).switchTo finH path
        (n.hashHex b.header) b.header.height) (cumWork s b)
      exact Or.inr ⟨hpre, hblk.trans (DB.blockByHash_switchTo ..)⟩

/-- `SubmitBlock` keeps the invariant, whatever the block and whatever it returns. -/
theorem blockTree_submitBlock (h : n.BlockTree dom s) (hb : dom.known b.header) (now : Int64) :
    n.BlockTree dom (n.submitBlock now s b).2 := by
  have hout := n.submitBlock_outcome now s b
  generalize n.submitBlock now s b = res at hout
  cases hout with
  | rejected e hpre => exact h
  | ignored hpre => exact h
  | invalidTip e hpre hext hval => exact h.stored (storable_of_preStore n hpre) hb
  | extended hpre hext hval =>
      have hst := h.stored (storable_of_preStore n hpre) hb
      exact (hst.moveTip blockByHash_stored_self _).sameChain (n.sameChain_advanceTip now _ b _)
  | forkStored r hpre hext hkeep => exact h.stored (storable_of_preStore n hpre) hb
  | switched finH path hpre hext hwork hpath =>
      have hs := storable_of_preStore n hpre
      have hst := h.stored hs hb
      obtain ⟨hblk, hidx, htip, -⟩ := sameTables_rebuild (n := n) ((n.stored s b).switchTo finH path
        (n.hashHex b.header) b.header.height) (cumWork s b)
      exact (hst.switchTo blockByHash_stored_self (h.candidatePath hs hb hpath)).congr
        hblk hidx htip

theorem BlockTree.submit (h : n.BlockTree dom s) {c : Int64 × Block} (hb : dom.known c.2.header) :
    n.BlockTree dom (n.submit s c) :=
  blockTree_submitBlock h hb c.1

/-- The invariant holds in every state of every run of `SubmitBlock` calls. -/
theorem blockTree_submit_states (registry : Table RegValidator) {calls : List (Int64 × Block)}
    (hcf : n.CollisionFree (calls.map Prod.snd)) :
    ∀ t ∈ Run.states n.submit (n.genesisDB registry) calls, n.BlockTree hcf.domain t := by
  refine Run.invariant (E := fun c => hcf.domain.known c.2.header) ?_ ?_
    (blockTree_genesisDB _ registry) (Run.admitted_of_forall _ fun _ _ _ => trivial)
  · intro s c h hc _
    exact h.submit hc
  · intro c hc
    exact hcf.known (List.mem_map_of_mem hc)

/-- An event changes the finality tables by a chain of finality writes only. -/
theorem finSteps_event (n : Node) (s : DB) (e : Event) :
    ∃ s₁, s.SameFinality s₁ ∧
      n.FinSteps (n.Signs s e) (fun _ _ => True) (fun vr => e.vote? = some vr) s₁ (n.step s e) := by
  cases e with
  | submitBlock now b =>
      have hout := n.submitBlock_outcome now s b
      rw [step]
      generalize n.submitBlock now s b = res at hout
      have hstored : s.SameFinality (n.stored s b) := sameFinality_stored s b
      cases hout with
      | rejected err hpre => exact ⟨s, .refl s, .refl⟩
      | ignored hpre => exact ⟨s, .refl s, .refl⟩
      | invalidTip err hpre hext hval => exact ⟨_, hstored, .refl⟩
      | extended hpre hext hval =>
          obtain ⟨s₁, -, hfsame, hfin⟩ := n.finSteps_advanceTip now (n.stored s b) b (cumWork s b)
          exact ⟨s₁, (hstored.trans (sameFinality_moveTip ..)).trans hfsame,
            hfin.mono (fun _ _ h => h) (fun _ _ _ => trivial) fun _ h => h.elim⟩
      | forkStored r hpre hext hkeep => exact ⟨_, hstored, .refl⟩
      | switched finH path hpre hext hwork hpath =>
          obtain ⟨-, -, -, hfsame⟩ := sameTables_rebuild (n := n) ((n.stored s b).switchTo finH path
            (n.hashHex b.header) b.header.height) (cumWork s b)
          exact ⟨_, (hstored.trans (sameFinality_switchTo ..)).trans hfsame, .refl⟩
  | submitVote ord now req => exact ⟨s, .refl s, finSteps_step rfl⟩
  | ingestVote now vr => exact ⟨s, .refl s, finSteps_step rfl⟩
  | tick now => exact ⟨s, .refl s, finSteps_step rfl⟩
  | checkpoint now cp => exact ⟨s, .refl s, finSteps_step rfl⟩

end Node

open Sample

/-- The hashes of the sample blocks are distinct. -/
theorem Sample.collisionFree_blocks :
    node.CollisionFree [main₁, main₂, fork₁] := by
  decide +kernel

end ReserveOS
