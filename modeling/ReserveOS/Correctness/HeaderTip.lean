import ReserveOS.Correctness.Rewind

/-!
# The header chain in the block store

A node with a complete main chain and linked headers (`ReorgSetting`), and the fork between the two.
If all headers above the fork have their blocks, then the header chain from the fork on is a chain
of stored blocks (`ancestorAt_of_header`), and going back to the fork and applying the new blocks is
applying to the base the rest of that chain (`rewound_append`).
-/

namespace ReserveOS

namespace Node

variable (n : Node)

/-- A complete main chain `main` with its tip, and linked headers with theirs. -/
structure ReorgSetting (dom : n.HashDomain) (hs : HeaderIndex) (s : DB) (curH : UInt64)
    (curHash : String) (hH : UInt64) (hHash : String) (main : List Block) : Prop where
  tree : n.BlockTree dom s
  index : s.IndexIsMainChain
  tip : s.getTip = some (curH, curHash)
  main : s.RootPath curHash main
  headers : hs.TipAt hH hHash

namespace ReorgSetting

variable {n} {dom : n.HashDomain} {hs : HeaderIndex} {s : DB} {curH hH F : UInt64}
  {curHash hHash : String} {main bs : List Block} {path : List String}

variable (h : n.ReorgSetting dom hs s curH curHash hH hHash main)

include h

theorem indexed : s.IndexedBlocks curH main := h.tree.indexedBlocks h.index h.tip h.main

/-- The tip is stored, at its height. -/
theorem stored_tip : ∃ b, s.blockByHash curHash = some b ∧ b.header.height = curH := by
  obtain ⟨b, htip, hb⟩ := h.tree.tip
  rw [h.tip] at htip
  obtain ⟨rfl, rfl⟩ := Prod.mk.inj (Option.some.inj htip)
  exact ⟨b, hb, rfl⟩

theorem curHash_ne_empty : curHash ≠ "" := by
  obtain ⟨b, hb, -⟩ := h.stored_tip
  rw [(h.tree.key curHash b hb).1]
  exact n.hashHex_ne_empty b.header

/-- The index names the tip at its height. -/
theorem hashByHeight_tip : s.hashByHeight curH = some curHash := by
  obtain ⟨b, hb, rfl⟩ := h.stored_tip
  obtain ⟨x, hx, hanc⟩ := h.index _ _ h.tip b.header.height (UInt64.le_refl _)
  have hself : s.AncestorAt curHash b.header.height.toNat curHash := Ancestry.ancestorAt_self hb
  rw [hx, Ancestry.ancestorAt_unique h.tree.linked hanc hself]

theorem ancestorAt_tip : hs.AncestorAt hHash hH.toNat hHash := by
  obtain ⟨hdr, hstored, rfl⟩ := h.headers.stored
  exact Ancestry.ancestorAt_self hstored

/-- The header tip is the only header of its chain at its height. -/
theorem eq_hHash {x : String} (hanc : hs.AncestorAt hHash hH.toNat x) : x = hHash := by
  exact Ancestry.ancestorAt_unique h.headers.linked hanc h.ancestorAt_tip

theorem le_of_ancestorAt {k : ℕ} {x : String} (hanc : hs.AncestorAt hHash k x) : k ≤ hH.toNat := by
  obtain ⟨hdr, hstored, rfl⟩ := h.headers.stored
  exact hanc.le_height h.headers.linked hstored

/-- The header tip has a header at every height up to its own. -/
theorem exists_header {k : UInt64} (hk : k ≤ hH) : ∃ x, hs.AncestorAt hHash k.toNat x := by
  obtain ⟨hdr, hstored, rfl⟩ := h.headers.stored
  exact Ancestry.exists_ancestorAt h.headers.linked hstored (UInt64.le_iff_toNat_le.mp hk)

/-- A fork at the largest height would be the header tip and the tip. -/
theorem fork_fits (hne : curHash ≠ hHash) (hfork : hs.ForkAt s curH hHash F) :
    F.toNat + 1 < 2 ^ 64 := by
  by_contra hlarge
  have hcur := UInt64.le_iff_toNat_le.mp hfork.le
  have hhead := UInt64.le_iff_toNat_le.mp (hfork.le_tip h.headers.linked h.headers.stored)
  have hcur_lt := curH.toNat_lt
  have hhead_lt := hH.toNat_lt
  obtain rfl : F = curH := UInt64.toNat.inj (by omega)
  obtain rfl : F = hH := UInt64.toNat.inj (by omega)
  have hpos : F ≠ 0 := by
    rintro rfl
    exact hlarge (by decide)
  obtain ⟨x, hanc, hx⟩ := hfork.shared hpos
  rw [h.hashByHeight_tip] at hx
  exact hne ((Option.some.inj hx).trans (h.eq_hHash hanc))

/-- If all headers above `F` have their blocks, the header chain from `F` on is a chain of blocks.
-/
theorem ancestorAt_of_header (hlt : F < hH)
    (huse : ∀ k x, F.toNat < k → hs.AncestorAt hHash k x → ∃ b, hs.Usable s x b) {k : ℕ}
    {x : String} (hk : F.toNat ≤ k) (hanc : hs.AncestorAt hHash k x) : s.AncestorAt hHash k x := by
  -- downwards from the header tip
  obtain ⟨d, hd⟩ : ∃ d, hH.toNat = k + d := by
    have hle := h.le_of_ancestorAt hanc
    exact ⟨hH.toNat - k, by omega⟩
  induction d generalizing k x with
  | zero =>
      rw [Nat.add_zero] at hd
      rw [← hd] at hanc ⊢
      obtain rfl := h.eq_hHash hanc
      obtain ⟨b, hb, hdr, hhdr, hheight, -⟩ := huse _ _ (UInt64.lt_iff_toNat_lt.mp hlt) hanc
      obtain ⟨hdr', hhdr', rfl⟩ := h.headers.stored
      obtain rfl : hdr = hdr' := Option.some.inj (hhdr.symm.trans hhdr')
      rw [hheight]
      exact Ancestry.ancestorAt_self hb
  | succ d ih =>
      obtain ⟨hdr', hhdr', htip⟩ := h.headers.stored
      have hle : k + 1 ≤ hdr'.height.toNat := by
        rw [htip]
        omega
      obtain ⟨y, hy⟩ := Ancestry.exists_ancestorAt h.headers.linked hhdr' hle
      have hyblock : s.AncestorAt hHash (k + 1) y := ih (by omega) hy (by omega)
      obtain ⟨b, hb, hdr, hhdr, hheight, hprev, -⟩ := huse _ _ (by omega) hy
      -- `x` is the parent of `y`, as a header and so as a block
      have hyx : hs.AncestorAt y k x := hy.restrict h.headers.linked hanc (by omega)
      have hbk : b.height = k + 1 := by
        obtain ⟨-, b', hb', hk'⟩ := hyblock
        obtain rfl : b = b' := Option.some.inj (hb.symm.trans hb')
        exact hk'
      obtain ⟨p, hp, hstep⟩ := h.tree.linked y b hb (by omega)
      have hpk : p.height = k := by omega
      have hparent : b.prevHex = x := by
        have hhk : hdr.height.toNat = k + 1 := by
          rw [hheight]
          exact hbk
        obtain ⟨q, hq, hqstep⟩ := h.headers.linked.parent hhdr (by omega)
        have hself : hs.AncestorAt hdr.prevHash.toHex q.height.toNat hdr.prevHash.toHex :=
          Ancestry.ancestorAt_self hq
        rw [show q.height.toNat = k by omega] at hself
        have hxy := hyx.to_parent hhdr (by rw [hhk]; omega)
        rw [Ancestry.ancestorAt_unique h.headers.linked hxy hself, hprev]
        rfl
      have hself : s.AncestorAt b.prevHex p.height b.prevHex := Ancestry.ancestorAt_self hp
      rw [hpk, hparent] at hself
      refine hyblock.trans ?_
      refine Ancestry.AncestorAt.of_parent hb (by omega) ?_
      rw [hparent]
      exact hself

/-- The block of the header chain at the fork is the one of the height index. -/
theorem hashByHeight_fork (hfork : hs.ForkAt s curH hHash F) {x : String}
    (hanc : hs.AncestorAt hHash F.toNat x) (hblock : s.AncestorAt hHash F.toNat x) :
    s.hashByHeight F = some x := by
  by_cases hzero : F = 0
  · -- there is only one block at height zero
    subst hzero
    obtain ⟨g, hg, -, b, hb, hheight⟩ := h.index _ _ h.tip 0 UInt64.zero_le
    obtain ⟨-, c, hc, hheight'⟩ := hblock
    rw [hg, h.tree.root g b hb hheight, h.tree.root x c hc hheight']
  · obtain ⟨y, hy, hidx⟩ := hfork.shared hzero
    rw [hidx, Ancestry.ancestorAt_unique h.headers.linked hy hanc]

/-- The header at each height above `F` is on the path. -/
theorem getElem?_path (hpath : hs.PathAbove F hH hHash path) {k : ℕ} {x : String} (hk : F.toNat < k)
    (hanc : hs.AncestorAt hHash k x) : path[k - (F.toNat + 1)]? = some x := by
  have hle := h.le_of_ancestorAt hanc
  have hlen := hpath.length
  have hi : k - (F.toNat + 1) < path.length := by omega
  have hy := hpath.ancestor _ _ (List.getElem?_eq_getElem hi)
  rw [show F.toNat + 1 + (k - (F.toNat + 1)) = k by omega] at hy
  rw [List.getElem?_eq_getElem hi, Ancestry.ancestorAt_unique h.headers.linked hy hanc]

/-- The path has blocks exactly if all headers above `F` have theirs. -/
theorem exists_usable_iff (hpath : hs.PathAbove F hH hHash path) :
    (∃ bs, List.Forall₂ (hs.Usable s) path bs) ↔
      ∀ k x, F.toNat < k → hs.AncestorAt hHash k x → ∃ b, hs.Usable s x b := by
  constructor
  · rintro ⟨bs, hbs⟩ k x hk hanc
    obtain ⟨hlen, hget⟩ := List.forall₂_iff_get.mp hbs
    obtain ⟨hi, rfl⟩ := List.getElem?_eq_some_iff.mp (h.getElem?_path hpath hk hanc)
    exact ⟨_, hget _ hi (by omega)⟩
  · intro huse
    have hall : ∀ x ∈ path, ∃ b, hs.Usable s x b := by
      intro x hx
      obtain ⟨i, hi⟩ := List.getElem?_of_mem hx
      exact huse _ x (by omega) (hpath.ancestor i x hi)
    clear hpath huse
    induction path with
    | nil => exact ⟨[], .nil⟩
    | cons x path ih =>
        obtain ⟨b, hb⟩ := hall x List.mem_cons_self
        obtain ⟨bs, hbs⟩ := ih fun y hy => hall y (List.mem_cons_of_mem x hy)
        exact ⟨b :: bs, .cons hb hbs⟩

/-- Up to the fork the chain of the header tip is the main chain. -/
theorem take_rootPath (hfork : hs.ForkAt s curH hHash F) (hlt : F < hH)
    (huse : ∀ k x, F.toNat < k → hs.AncestorAt hHash k x → ∃ b, hs.Usable s x b)
    (hbs : s.RootPath hHash bs) : bs.take F.toNat = main.take F.toNat := by
  obtain ⟨x, hx⟩ := h.exists_header (UInt64.le_of_lt hlt)
  have hblock := h.ancestorAt_of_header hlt huse (Nat.le_refl _) hx
  -- both are the path to the block at the fork
  obtain ⟨y, hy, hyanc⟩ := h.index _ _ h.tip F hfork.le
  rw [h.hashByHeight_fork hfork hx hblock] at hy
  obtain rfl := Option.some.inj hy
  exact Ancestry.rootPath_unique (hbs.take h.tree.linked hblock) (h.main.take h.tree.linked hyanc)

/-- Above the fork the chain of the header tip has the blocks of the path. -/
theorem drop_rootPath (hlt : F < hH) (hpath : hs.PathAbove F hH hHash path) {new : List Block}
    (hnew : List.Forall₂ (hs.Usable s) path new) (hbs : s.RootPath hHash bs) :
    bs.drop F.toNat = new := by
  have huse := (h.exists_usable_iff hpath).mp ⟨new, hnew⟩
  obtain ⟨hlen, hget⟩ := List.forall₂_iff_get.mp hnew
  have hplen := hpath.length
  have hbslen : bs.length = hH.toNat := by
    obtain ⟨-, b, hb, hheight⟩ := h.ancestorAt_of_header hlt huse
      (UInt64.le_iff_toNat_le.mp (UInt64.le_of_lt hlt)) h.ancestorAt_tip
    rw [hbs.length_eq h.tree.linked hb, hheight]
  apply List.ext_getElem (by rw [List.length_drop]; omega)
  intro i hi hi'
  have hi'' : i < path.length := by omega
  have hF : F.toNat + i < bs.length := by omega
  -- both blocks are the ancestor of the header tip at this height
  obtain ⟨a, ha, hanc⟩ := hbs.ancestorAt h.tree.linked (List.getElem?_eq_getElem hF)
  have hx := h.ancestorAt_of_header hlt huse (by omega)
    (hpath.ancestor i _ (List.getElem?_eq_getElem hi''))
  rw [show F.toNat + 1 + i = F.toNat + i + 1 by omega] at hx
  rw [Ancestry.ancestorAt_unique h.tree.linked hanc hx] at ha
  rw [List.getElem_drop]
  exact Option.some.inj (ha.symm.trans (hget i hi'' hi').1)

/-- The ledger of a run along the path is the base with the rest of the chain of the header tip. -/
theorem rewound_append (hfork : hs.ForkAt s curH hHash F) (hlt : F < hH)
    (hpath : hs.PathAbove F hH hHash path) {new : List Block}
    (hnew : List.Forall₂ (hs.Usable s) path new) (hbs : s.RootPath hHash bs) {l' : Ledger} :
    (n.stateBase F).2.applyBlocks (bs.drop (n.stateBase F).1.toNat) = (.ok (), l') ↔
      ∃ l, n.rewound main F = (.ok (), l) ∧ l.applyBlocks new = (.ok (), l') := by
  have huse := (h.exists_usable_iff hpath).mp ⟨new, hnew⟩
  have hbase := UInt64.le_iff_toNat_le.mp (n.stateBase_le F)
  have hsplit : bs.drop (n.stateBase F).1.toNat =
      (main.take F.toNat).drop (n.stateBase F).1.toNat ++ new := by
    rw [← h.take_rootPath hfork hlt huse hbs, ← h.drop_rootPath hlt hpath hnew hbs, List.drop_take]
    conv_lhs => rw [← List.take_append_drop (F.toNat - (n.stateBase F).1.toNat)
      (bs.drop (n.stateBase F).1.toNat)]
    rw [List.drop_drop, Nat.add_sub_cancel' hbase]
  rw [hsplit, Ledger.applyBlocks_append_eq_ok]
  rfl

end ReorgSetting

end Node

end ReserveOS
