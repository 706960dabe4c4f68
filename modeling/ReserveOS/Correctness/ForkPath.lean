import ReserveOS.Correctness.Rewind
import ReserveOS.Correctness.Switch

/-!
# The fork point and the path above it

`findForkPoint` and `headerPathFromTo` over any header store whose headers are linked down to the
genesis block, and any main chain that names its blocks by their hashes. The walk ends at the
greatest height that the two chains share (`GreatestShared`), and the path lists the header chain
above it (`PathFromFork`). Go allocates the path before it walks, and more than `2 ^ 44` strings do
not fit in the address space.
-/

namespace ReserveOS

/-- The height index names a stored block at every height up to `c`, by its own hash, and `curHash`
is the hash at `c`. -/
structure Node.MainChain (n : Node) (s : DB) (c : UInt64) (curHash : String) : Prop where
  tip : s.hashByHeight c = some curHash
  block : ∀ k ≤ c, ∃ x b, s.hashByHeight k = some x ∧ s.blockByHash x = some b ∧
    n.hashHex b.header = x ∧ b.header.height = k

namespace HeaderIndex

/-- The headers are linked down to the genesis block of the main chain, and `tip` is one of them. -/
structure ChainFrom (hs : HeaderIndex) (s : DB) (H : UInt64) (tip : String) : Prop where
  linked : hs.Linked
  genesis : ∀ x hdr, hs.header x = some hdr → hdr.height = 0 → s.hashByHeight 0 = some x
  stored : ∃ hdr, hs.header tip = some hdr ∧ hdr.height = H

/-- Of all heights up to both tips at which the header chain and the main chain have the same hash,
`h` is the greatest. -/
structure GreatestShared (hs : HeaderIndex) (s : DB) (c H : UInt64) (tip : String) (h : UInt64) :
    Prop where
  le_main : h ≤ c
  le_header : h ≤ H
  shared : hs.Shares s tip h
  greatest : ∀ k, k ≤ c → k ≤ H → hs.Shares s tip k → k ≤ h

/-- The hashes of the header chain above `h` in ascending order, of which the first has the block of
the main chain at `h` as its parent, and each next one the hash before it. -/
structure PathFromFork (hs : HeaderIndex) (s : DB) (h H : UInt64) (tip : String)
    (path : List String) : Prop extends hs.PathAbove h H tip path where
  first : ∀ x, path[0]? = some x →
    ∃ hdr, hs.header x = some hdr ∧ s.hashByHeight h = some hdr.prevHash.toHex
  next : ∀ i x y, path[i]? = some x → path[i + 1]? = some y →
    ∃ hdr, hs.header y = some hdr ∧ hdr.prevHash.toHex = x

variable {hs : HeaderIndex} {s : DB} {c H h : UInt64} {tip : String}

/-- The chain of every header ends in the genesis block. -/
theorem ChainFrom.shares_zero (hchain : hs.ChainFrom s H tip) : hs.Shares s tip 0 := by
  obtain ⟨hdr, hstored, -⟩ := hchain.stored
  obtain ⟨x, hanc⟩ := Ancestry.exists_ancestorAt hchain.linked hstored (Nat.zero_le _)
  obtain ⟨root, hroot, hzero⟩ := hanc.2
  exact ⟨x, hanc, hchain.genesis x root hroot (UInt64.toNat.inj hzero)⟩

/-- The fork of the walk is the greatest shared height. -/
theorem ForkAt.greatestShared (hfork : hs.ForkAt s c tip h) (hchain : hs.ChainFrom s H tip) :
    hs.GreatestShared s c H tip h where
  le_main := hfork.le
  le_header := hfork.le_tip hchain.linked hchain.stored
  shared := by
    by_cases hzero : h = 0
    · rw [hzero]
      exact hchain.shares_zero
    · exact hfork.shared hzero
  greatest := by
    intro k hk _ hshare
    by_contra hlt
    exact hfork.above k (UInt64.not_le.mp hlt) hk hshare

/-- The entries of a path are stored, and the parent of each is the ancestor below. -/
theorem PathAbove.parent {path : List String} (hpath : hs.PathAbove h H tip path)
    (hlink : hs.Linked) {i : ℕ} {x : String} (hx : path[i]? = some x) :
    ∃ hdr, hs.header x = some hdr ∧ hs.AncestorAt tip (h.toNat + i) hdr.prevHash.toHex := by
  have hanc := hpath.ancestor i x hx
  obtain ⟨hdr, hstored, -⟩ := hanc.2
  refine ⟨hdr, hstored, Ancestry.AncestorAt.pred hlink ?_ hstored⟩
  rwa [show h.toNat + i + 1 = h.toNat + 1 + i by omega]

/-- A path above a shared height starts there. -/
theorem PathAbove.fromFork {path : List String} (hpath : hs.PathAbove h H tip path)
    (hlink : hs.Linked) (hshared : hs.Shares s tip h) : hs.PathFromFork s h H tip path where
  toPathAbove := hpath
  first := by
    intro x hx
    obtain ⟨hdr, hstored, hparent⟩ := hpath.parent hlink hx
    obtain ⟨y, hanc, hy⟩ := hshared
    refine ⟨hdr, hstored, ?_⟩
    rw [hy, Ancestry.ancestorAt_unique hlink hanc hparent]
  next := by
    intro i x y hx hy
    obtain ⟨hdr, hstored, hparent⟩ := hpath.parent hlink hy
    refine ⟨hdr, hstored, Ancestry.ancestorAt_unique hlink hparent ?_⟩
    rw [show h.toNat + (i + 1) = h.toNat + 1 + i by omega]
    exact hpath.ancestor i x hx

/-- The slice of a path of at most `2 ^ 44` hashes can be made. -/
theorem makesliceFails_sub (hle : h ≤ H) (hcap : H.toNat - h.toNat ≤ 2 ^ 44) :
    DB.makesliceFails (H - h).toInt64 = false := by
  have hsub : (H - h).toNat = H.toNat - h.toNat := UInt64.toNat_sub_of_le H h hle
  have hint : (H - h).toInt64.toInt = H.toNat - h.toNat := by
    show (H - h).toBitVec.toInt = _
    rw [BitVec.toInt_eq_toNat_of_lt (by show 2 * (H - h).toNat < _; omega)]
    show ((H - h).toNat : ℤ) = _
    have hle' := UInt64.le_iff_toNat_le.mp hle
    omega
  have hle' := UInt64.le_iff_toNat_le.mp hle
  rw [DB.makesliceFails, Bool.or_eq_false_iff, decide_eq_false_iff_not, decide_eq_false_iff_not,
    Int64.lt_iff_toInt_lt, Int64.lt_iff_toInt_lt, hint]
  exact ⟨by rw [Int64.toInt_zero]; omega, by
    rw [show (0x100000000000 : Int64).toInt = 2 ^ 44 from rfl]; omega⟩

/-- Above the fork the path is the header chain, if the slice for it can be made. -/
theorem headerPathFromTo_fork (hchain : hs.ChainFrom s H tip)
    (hshared : hs.GreatestShared s c H tip h) (hnext : h.toNat + 1 < 2 ^ 64)
    (hcap : H.toNat - h.toNat ≤ 2 ^ 44) :
    ∃ path, hs.headerPathFromTo (h + 1) H tip = .ok path ∧ hs.PathFromFork s h H tip path := by
  rcases UInt64.lt_or_eq_of_le hshared.le_header with hlt | rfl
  · have hspec := headerPathFromTo_spec hchain.linked hchain.stored hlt
    rw [makesliceFails_sub hshared.le_header hcap, if_neg Bool.false_ne_true] at hspec
    obtain ⟨path, hok, hpath⟩ := hspec
    exact ⟨path, hok, hpath.fromFork hchain.linked hshared.shared⟩
  · -- the header tip is the fork
    have hsucc : h + 1 ≠ 0 := by
      intro hzero
      have := congrArg UInt64.toNat hzero
      rw [toNat_succ_of_lt hnext] at this
      exact Nat.succ_ne_zero _ this
    refine ⟨[], headerPathFromTo_tip hsucc, ⟨⟨rfl, ?_⟩, ?_, ?_⟩⟩
    · exact fun i x hx => by simp at hx
    · exact fun x hx => by simp at hx
    · exact fun i x y hx => by simp at hx

end HeaderIndex

namespace Node

theorem MainChain.namesBlocks {n : Node} {s : DB} {c : UInt64} {curHash : String}
    (h : n.MainChain s c curHash) : n.NamesBlocks s c := by
  intro k hk x hx
  obtain ⟨y, b, hy, hb, hkey, -⟩ := h.block k hk
  obtain rfl : y = x := Option.some.inj (hy.symm.trans hx)
  exact ⟨b, hb, hkey⟩

/-- The tip of a main chain has a hash. -/
theorem MainChain.tip_ne_empty {n : Node} {s : DB} {c : UInt64} {curHash : String}
    (h : n.MainChain s c curHash) : curHash ≠ "" := by
  obtain ⟨b, -, hkey⟩ := h.namesBlocks c UInt64.le_rfl curHash h.tip
  rw [← hkey]
  exact n.hashHex_ne_empty b.header

/-- The walk for the fork ends, at the greatest height that the chains share. The path above it is
the header chain, whenever it has at most `2 ^ 44` hashes. -/
theorem forkPath_spec (n : Node) (hs : HeaderIndex) (s : DB) (c H : UInt64) (curHash tip : String)
    (hmain : n.MainChain s c curHash) (hchain : hs.ChainFrom s H tip) :
    ∃ h x, n.findForkPoint hs s c curHash tip = .ok (h, x) ∧ hs.GreatestShared s c H tip h ∧
      (h.toNat + 1 < 2 ^ 64 → H.toNat - h.toNat ≤ 2 ^ 44 →
        ∃ path, hs.headerPathFromTo (h + 1) H tip = .ok path ∧ hs.PathFromFork s h H tip path) := by
  obtain ⟨hdr, hstored, -⟩ := hchain.stored
  obtain ⟨h, x, hwalk, hfork⟩ :=
    findForkPoint_spec hmain.namesBlocks hchain.linked hstored hmain.tip_ne_empty
  have hshared := hfork.greatestShared hchain
  exact ⟨h, x, hwalk, hshared, HeaderIndex.headerPathFromTo_fork hchain hshared⟩

end Node

/-! ### A header chain that is too long -/

namespace Sample

/-- The number in the hash of the genesis block. -/
def genesisNumber : ℕ := 256 ^ 23

/-- The hash of the header of height `k` of a long header chain. -/
def longKey (k : ℕ) : String := (numberHash (genesisNumber + k)).toHex

/-- The header of height `k` of a long header chain. -/
def longHeader (k : ℕ) : BlockHeader :=
  { main₁.header with
    height := UInt64.ofNat k, prevHash := numberHash (genesisNumber + (k - 1)) }

/-- The headers of heights up to `2 ^ 44 + 1` above the genesis block. -/
def longHeaders : HeaderIndex where
  header x := (hexDecode x).bind fun bytes =>
    if x = longKey (leValue bytes - genesisNumber) ∧ leValue bytes - genesisNumber ≤ 2 ^ 44 + 1 then
      some (longHeader (leValue bytes - genesisNumber))
    else none
  tip := none

theorem header_longHeaders_eq (x : String) :
    longHeaders.header x = (hexDecode x).bind fun bytes =>
      if x = longKey (leValue bytes - genesisNumber) ∧
          leValue bytes - genesisNumber ≤ 2 ^ 44 + 1 then
        some (longHeader (leValue bytes - genesisNumber))
      else none :=
  rfl

theorem header_longHeaders {k : ℕ} (hk : k ≤ 2 ^ 44 + 1) :
    longHeaders.header (longKey k) = some (longHeader k) := by
  have hvalue : leValue (leBytes 32 (genesisNumber + k)) = genesisNumber + k := by
    apply leValue_leBytes
    rw [genesisNumber]
    omega
  have hdecode : hexDecode (longKey k) = some (leBytes 32 (genesisNumber + k)) := by
    rw [longKey, toHex_numberHash, hexDecode_hexEncode]
  rw [header_longHeaders_eq, hdecode, Option.bind_some, hvalue, Nat.add_sub_cancel_left,
    if_pos ⟨rfl, hk⟩]

theorem longHeaders_stored {x : String} {hdr : BlockHeader}
    (h : longHeaders.header x = some hdr) :
    ∃ k ≤ 2 ^ 44 + 1, x = longKey k ∧ hdr = longHeader k := by
  rw [header_longHeaders_eq] at h
  obtain ⟨bytes, -, hbytes⟩ := Option.bind_eq_some_iff.mp h
  split at hbytes
  next hin => exact ⟨_, hin.2, hin.1, (Option.some.inj hbytes).symm⟩
  next => cases hbytes

theorem height_longHeader {k : ℕ} (hk : k ≤ 2 ^ 44 + 1) : (longHeader k).height.toNat = k := by
  show (UInt64.ofNat k).toNat = k
  rw [UInt64.toNat_ofNat']
  exact Nat.mod_eq_of_lt (by omega)

/-- The long header chain starts at the genesis block of a new node. -/
theorem chainFrom_longHeaders {k : ℕ} (hk : k ≤ 2 ^ 44 + 1) :
    longHeaders.ChainFrom (node.genesisDB ∅) (UInt64.ofNat k) (longKey k) where
  linked := by
    intro x hdr hx hpos
    obtain ⟨j, hj, rfl, rfl⟩ := longHeaders_stored hx
    dsimp only at hpos ⊢
    rw [height_longHeader hj] at hpos ⊢
    have hj' : j - 1 ≤ 2 ^ 44 + 1 := by omega
    refine ⟨longHeader (j - 1), header_longHeaders hj', ?_⟩
    rw [height_longHeader hj']
    omega
  genesis := by
    intro x hdr hx hzero
    obtain ⟨j, hj, rfl, rfl⟩ := longHeaders_stored hx
    have hj0 := height_longHeader hj
    rw [hzero] at hj0
    obtain rfl : 0 = j := hj0
    have hkey : longKey 0 = node.genesisHash := by decide +kernel
    rw [hkey, Node.hashByHeight_genesisDB, Function.update_self]
  stored := ⟨longHeader k, header_longHeaders hk, rfl⟩

theorem mainChain_genesisDB : node.MainChain (node.genesisDB ∅) 0 node.genesisHash := by
  have hindex : (node.genesisDB ∅).hashByHeight 0 = some node.genesisHash := by
    rw [Node.hashByHeight_genesisDB, Function.update_self]
  refine ⟨hindex, fun k hk => ⟨node.genesisHash, node.genesisBlock, ?_, ?_, rfl, ?_⟩⟩
  · rw [UInt64.le_antisymm hk UInt64.zero_le]
    exact hindex
  · rw [Node.blockByHash_genesisDB, Function.update_self]
  · exact UInt64.le_antisymm UInt64.zero_le hk

end Sample

open Sample in
/-- The first two headers of the chain are the path above the genesis block. -/
theorem Node.forkPath_spec_two : node.MainChain (node.genesisDB ∅) 0 node.genesisHash ∧
    longHeaders.ChainFrom (node.genesisDB ∅) 2 (longKey 2) ∧
    ∃ x path, node.findForkPoint longHeaders (node.genesisDB ∅) 0 node.genesisHash (longKey 2) =
        .ok (0, x) ∧
      longHeaders.headerPathFromTo 1 2 (longKey 2) = .ok path ∧ path.length = 2 := by
  have hchain := chainFrom_longHeaders (show 2 ≤ 2 ^ 44 + 1 by decide)
  obtain ⟨h, x, hfind, hshared, hpath⟩ := forkPath_spec node longHeaders (node.genesisDB ∅) 0 2
    node.genesisHash (longKey 2) mainChain_genesisDB hchain
  obtain rfl : h = 0 := UInt64.le_antisymm hshared.le_main UInt64.zero_le
  obtain ⟨path, hok, hfork⟩ := hpath (by decide) (by decide)
  have hlen : 0 + path.length = 2 := hfork.length
  exact ⟨mainChain_genesisDB, hchain, x, path, hfind, hok, by omega⟩

open Sample in
/-- A header tip `2 ^ 44 + 1` above the fork: there is no slice for the path. -/
theorem Node.not_forkPath_spec_long : node.MainChain (node.genesisDB ∅) 0 node.genesisHash ∧
    longHeaders.ChainFrom (node.genesisDB ∅) (UInt64.ofNat (2 ^ 44 + 1)) (longKey (2 ^ 44 + 1)) ∧
    (∃ x, node.findForkPoint longHeaders (node.genesisDB ∅) 0 node.genesisHash
      (longKey (2 ^ 44 + 1)) = .ok (0, x)) ∧
    longHeaders.headerPathFromTo 1 (UInt64.ofNat (2 ^ 44 + 1)) (longKey (2 ^ 44 + 1)) =
      .error (.panic "makeslice: cap out of range") := by
  have hchain := chainFrom_longHeaders (Nat.le_refl (2 ^ 44 + 1))
  refine ⟨mainChain_genesisDB, hchain, ?_, ?_⟩
  · obtain ⟨h, x, hfind, hfork⟩ := findForkPoint_spec mainChain_genesisDB.namesBlocks hchain.linked
      (header_longHeaders (Nat.le_refl _)) mainChain_genesisDB.tip_ne_empty
    obtain rfl : h = 0 := UInt64.le_antisymm hfork.le UInt64.zero_le
    exact ⟨x, hfind⟩
  · rw [HeaderIndex.headerPathFromTo, if_neg (by decide), if_pos (by decide)]

end ReserveOS
