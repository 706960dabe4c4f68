import ReserveOS.Correctness.HeaderTip
import ReserveOS.Correctness.Locator

/-!
# Reorganising to the header tip: all or nothing

`ReorgAtomic` is what a reorganisation should do: return an error and leave the tip, the height
index and the ledger as they were, or end at the header tip with its chain in the index and its
ledger in the state. The code rewrites the ledger before it knows that the blocks of the new chain
are there and apply, moves the tip block by block, and never writes the height index.
`reorgAtomic_iff` says when the result is right all the same (`ReorgSafe`): nothing is written; the
header tip is the tip already; the header chain extends the tip, by stored blocks that the index
names already; or the call stops before the tip moves, with the ledger from before.
-/

namespace ReserveOS

/-! ### The property -/

namespace DB

/-- The tip, the height index, and every balance and nonce are the same. -/
structure Unchanged (s s' : DB) : Prop where
  tip : s'.getTip = s.getTip
  index : s'.hashByHeight = s.hashByHeight
  ledger : s'.ledger.view = s.ledger.view

/-- The finalized height is above zero, and the stored blocks of the candidate have another block
there than the height index. -/
def FinalityConflict (s : DB) (candidate : String) : Prop :=
  ∃ finH x y, s.finalizedHeight = some finH ∧ finH ≠ 0 ∧ s.hashByHeight finH = some x ∧
    s.AncestorAt candidate finH.toNat y ∧ y ≠ x

end DB

namespace Node

variable (n : Node)

/-- The database `s` has been moved to the header tip: the index names the chain of the tip, the
ledger is its replay from genesis, and what was on the main chain up to the finalized height still
is. -/
structure Completed (hs : HeaderIndex) (s s' : DB) : Prop where
  tip : s'.getTip = hs.tip
  index : s'.IndexIsMainChain
  ledger : n.LedgerAgrees s'
  finalized : ∀ finH, s.finalizedHeight = some finH → ∀ k ≤ finH, ∀ x, s.OnMainChain k x →
    s'.OnMainChain k x

/-- An error with nothing changed, or a completed move; not a panic. -/
def Atomic {α : Type} (hs : HeaderIndex) (s : DB) : Res α × DB → Prop
  | (.ok _, s') => n.Completed hs s s'
  | (.error (.error _), s') => s.Unchanged s'
  | (.error (.panic _), _) => False

/-- A reorganisation does all or nothing. -/
def ReorgAtomic (hs : HeaderIndex) (s : DB) : Prop := n.Atomic hs s (n.reorgToBestHeaderChain hs s)

theorem not_reorgAtomic_of_ok {n : Node} {hs : HeaderIndex} {s : DB} {txs : List Tx}
    (hok : (n.reorgToBestHeaderChain hs s).1 = .ok txs)
    (hnot : ¬ n.Completed hs s (n.reorgToBestHeaderChain hs s).2) : ¬ n.ReorgAtomic hs s := by
  unfold ReorgAtomic
  generalize n.reorgToBestHeaderChain hs s = p at hok hnot
  obtain ⟨r, s'⟩ := p
  obtain rfl : r = .ok txs := hok
  exact hnot

theorem not_reorgAtomic_of_error {n : Node} {hs : HeaderIndex} {s : DB} {msg : String}
    (herr : (n.reorgToBestHeaderChain hs s).1 = .error (.error msg))
    (hnot : ¬ s.Unchanged (n.reorgToBestHeaderChain hs s).2) : ¬ n.ReorgAtomic hs s := by
  unfold ReorgAtomic
  generalize n.reorgToBestHeaderChain hs s = p at herr hnot
  obtain ⟨r, s'⟩ := p
  obtain rfl : r = .error (.error msg) := herr
  exact hnot

/-! ### The condition -/

/-- The call stops before it moves the tip, with the ledger `l`: the replay to the fork fails, or
the first block of the header chain above it is not there, or does not apply. -/
inductive StopsWith (hs : HeaderIndex) (s : DB) (F hH : UInt64) (hHash : String)
    (main : List Block) : Ledger → Prop
  | replay {e : Fault} {l : Ledger} (hrew : n.rewound main F = (.error e, l)) :
      StopsWith hs s F hH hHash main l
  | missing {l : Ledger} {x : String} (hrew : n.rewound main F = (.ok (), l)) (hlt : F < hH)
      (hcap : DB.makesliceFails (hH - F).toInt64 = false)
      (hx : hs.AncestorAt hHash (F.toNat + 1) x) (hnot : ∀ b, ¬ hs.Usable s x b) :
      StopsWith hs s F hH hHash main l
  | refused {l l' : Ledger} {x : String} {b : Block} {e : Fault}
      (hrew : n.rewound main F = (.ok (), l)) (hlt : F < hH)
      (hcap : DB.makesliceFails (hH - F).toInt64 = false)
      (hx : hs.AncestorAt hHash (F.toNat + 1) x) (huse : hs.Usable s x b)
      (happ : l.applyTxs b.txs = (.error e, l')) : StopsWith hs s F hH hHash main l'

/-- The ledger `base` agrees with the chain `bs` at height `k`: the blocks up to there apply to the
genesis allocations, and give its balances, and its nonces for the accounts that send nothing above.
-/
def BaseFits (base : Ledger) (k : ℕ) (bs : List Block) : Prop :=
  ∃ l, (Ledger.ofAllocations n.genesis.allocations).applyBlocks (bs.take k) = (.ok (), l) ∧
    base.getBalance = l.getBalance ∧
    ∀ id, ¬ Ledger.Sends (bs.drop k) id → base.getNonce id = l.getNonce id

/-- The header chain extends the tip by stored blocks that match their headers and that the height
index names already; its blocks apply to the genesis allocations, and the base of the replay agrees
with them. -/
structure Extends (hs : HeaderIndex) (s : DB) (curH hH : UInt64) (hHash : String) : Prop where
  higher : curH < hH
  cap : DB.makesliceFails (hH - curH).toInt64 = false
  usable : ∀ k x, curH.toNat < k → hs.AncestorAt hHash k x → ∃ b, hs.Usable s x b
  indexed : ∀ k x, curH < k → hs.AncestorAt hHash k.toNat x → s.hashByHeight k = some x
  ledger : ∃ bs l, s.RootPath hHash bs ∧
    (Ledger.ofAllocations n.genesis.allocations).applyBlocks bs = (.ok (), l) ∧
    n.BaseFits (n.stateBase curH).2 (n.stateBase curH).1.toNat bs

/-- When a reorganisation does all or nothing. The collection of the old transactions counts up to
the height of the tip, and does not end if this is the largest one. -/
inductive ReorgSafe (hs : HeaderIndex) (s : DB) (curH : UInt64) (curHash : String) (hH : UInt64)
    (hHash : String) (main : List Block) : Prop
  | noHeaderTip (h : hHash = "")
  | atHeaderTip (h : (curH, curHash) = (hH, hHash)) (hledger : n.LedgerAgrees s)
  | conflict (hne : curHash ≠ hHash) (h : s.FinalityConflict hHash)
  | belowFinalized {F finH : UInt64} (hne : curHash ≠ hHash) (hfork : hs.ForkAt s curH hHash F)
      (hend : F < curH → curH.toNat + 1 < 2 ^ 64) (hfin : s.finalizedHeight = some finH)
      (hlt : F < finH)
  | stops {F : UInt64} {l : Ledger} (hne : curHash ≠ hHash) (hfork : hs.ForkAt s curH hHash F)
      (hend : F < curH → curH.toNat + 1 < 2 ^ 64)
      (hstop : n.StopsWith hs s F hH hHash main l) (hview : l.view = s.ledger.view)
  | onTip (hne : curHash ≠ hHash) (hfork : hs.ForkAt s curH hHash curH)
      (hext : n.Extends hs s curH hH hHash)

namespace ReorgSetting

variable {n} {dom : n.HashDomain} {hs : HeaderIndex} {s : DB} {curH hH F : UInt64}
  {curHash hHash : String} {main bs : List Block} {path : List String}

/-! ### A run to the end -/

section Complete

variable (h : n.ReorgSetting dom hs s curH curHash hH hHash main)

include h

/-- If the fork is at the tip, the chain of the header tip goes through the tip. -/
theorem tip_ancestorAt (hfork : hs.ForkAt s curH hHash curH) (hlt : curH < hH)
    (huse : ∀ k x, curH.toNat < k → hs.AncestorAt hHash k x → ∃ b, hs.Usable s x b) :
    s.AncestorAt hHash curH.toNat curHash := by
  obtain ⟨x, hx⟩ := h.exists_header (UInt64.le_of_lt hlt)
  have hblock := h.ancestorAt_of_header hlt huse (Nat.le_refl _) hx
  have hidx := h.hashByHeight_fork hfork hx hblock
  rw [h.hashByHeight_tip] at hidx
  rwa [Option.some.inj hidx]

/-- An index that names the chain of the header tip leaves only one place for the fork: the tip. -/
theorem fork_eq_tip (hfork : hs.ForkAt s curH hHash F) (hlt : F < hH)
    (hidx : ∀ k x, F < k → hs.AncestorAt hHash k.toNat x → s.hashByHeight k = some x) :
    F = curH := by
  rcases UInt64.lt_or_eq_of_le hfork.le with hcur | heq
  · have hlt' := UInt64.lt_iff_toNat_lt.mp hlt
    have hcur' := UInt64.lt_iff_toNat_lt.mp hcur
    have hlarge := hH.toNat_lt
    have hsucc : (F + 1).toNat = F.toNat + 1 := toNat_succ_of_lt (by omega)
    have hle : F + 1 ≤ hH := UInt64.le_iff_toNat_le.mpr (by omega)
    obtain ⟨x, hx⟩ := h.exists_header hle
    have habove : F < F + 1 := UInt64.lt_iff_toNat_lt.mpr (by omega)
    exact absurd ⟨x, hx, hidx _ _ habove hx⟩
      (hfork.above _ habove (UInt64.le_iff_toNat_le.mpr (by omega)))
  · exact heq

/-- The index of a database at the header tip names its chain exactly if the fork is at the old tip
and the index has named the header chain above it before. -/
theorem indexIsMainChain_iff_fork (hfork : hs.ForkAt s curH hHash F) (hlt : F < hH)
    (huse : ∀ k x, F.toNat < k → hs.AncestorAt hHash k x → ∃ b, hs.Usable s x b) {s' : DB}
    (hsame : s.SameBlocks s') (htip : s'.getTip = some (hH, hHash)) :
    s'.IndexIsMainChain ↔ F = curH ∧
      ∀ k x, curH < k → hs.AncestorAt hHash k.toNat x → s.hashByHeight k = some x := by
  constructor
  · intro hmain
    have hidx : ∀ k x, F < k → hs.AncestorAt hHash k.toNat x → s.hashByHeight k = some x := by
      intro k x hk hx
      have hkH : k ≤ hH := UInt64.le_iff_toNat_le.mpr (h.le_of_ancestorAt hx)
      obtain ⟨a, ha, hanc⟩ := hmain _ _ htip k hkH
      rw [hsame.hashByHeight] at ha
      -- both are the ancestor of the header tip among the stored blocks
      have hblock := h.ancestorAt_of_header hlt huse
        (Nat.le_of_lt (UInt64.lt_iff_toNat_lt.mp hk)) hx
      rw [ha, Ancestry.ancestorAt_unique h.tree.linked (hsame.ancestorAt_iff.mp hanc) hblock]
    obtain rfl := h.fork_eq_tip hfork hlt hidx
    exact ⟨rfl, hidx⟩
  · rintro ⟨rfl, hidx⟩ tipH tipHash htip' k hk
    rw [htip] at htip'
    obtain ⟨rfl, rfl⟩ := Prod.mk.inj (Option.some.inj htip')
    rw [hsame.hashByHeight]
    rcases UInt64.le_total k F with hlow | hhigh
    · -- up to the old tip nothing has changed
      obtain ⟨a, ha, hanc⟩ := h.index _ _ h.tip k hlow
      exact ⟨a, ha, hsame.ancestorAt_iff.mpr ((h.tip_ancestorAt hfork hlt huse).trans hanc)⟩
    · obtain ⟨x, hx⟩ := h.exists_header hk
      have hblock := h.ancestorAt_of_header hlt huse (UInt64.le_iff_toNat_le.mp hhigh) hx
      refine ⟨x, ?_, hsame.ancestorAt_iff.mpr hblock⟩
      rcases UInt64.lt_or_eq_of_le hhigh with hlt' | rfl
      · exact hidx k x hlt' hx
      · exact h.hashByHeight_fork hfork hx hblock

/-- The ledger of a run to the header tip is the one of its chain exactly if the base agrees with
the chain. -/
theorem ledgerAgrees_iff_baseFits (hfork : hs.ForkAt s curH hHash F) (hlt : F < hH)
    (hpath : hs.PathAbove F hH hHash path) {new : List Block}
    (hnew : List.Forall₂ (hs.Usable s) path new) {l : Ledger} {s' : DB}
    (hrew : n.rewound main F = (.ok (), l)) (happ : l.applyBlocks new = (.ok (), s'.ledger))
    (hsame : s.SameBlocks s') (htip : s'.getTip = some (hH, hHash)) :
    n.LedgerAgrees s' ↔ ∃ bs l₀, s.RootPath hHash bs ∧
      (Ledger.ofAllocations n.genesis.allocations).applyBlocks bs = (.ok (), l₀) ∧
      n.BaseFits (n.stateBase F).2 (n.stateBase F).1.toNat bs := by
  have hfits : ∀ {bs}, s.RootPath hHash bs →
      ((∃ l, (Ledger.ofAllocations n.genesis.allocations).applyBlocks bs = (.ok (), l) ∧
        s'.ledger.view = l.view) ↔
        n.BaseFits (n.stateBase F).2 (n.stateBase F).1.toNat bs) := by
    intro bs hbs
    have hrun := (h.rewound_append hfork hlt hpath hnew hbs).mpr ⟨l, hrew, happ⟩
    rw [BaseFits, ← applyBlocks_drop_eq_iff (congrArg Prod.fst hrun), hrun]
  constructor
  · rintro ⟨tipH, tipHash, bs, l₀, htip', hbs, hrun, hview⟩
    rw [htip] at htip'
    obtain ⟨rfl, rfl⟩ := Prod.mk.inj (Option.some.inj htip')
    have hbs := hsame.rootPath_iff.mp hbs
    exact ⟨bs, l₀, hbs, hrun, (hfits hbs).mp ⟨l₀, hrun, hview⟩⟩
  · rintro ⟨bs, -, hbs, -, hbase⟩
    obtain ⟨l₀, hrun, hview⟩ := (hfits hbs).mpr hbase
    exact ⟨hH, hHash, bs, l₀, htip, hsame.rootPath_iff.mpr hbs, hrun, hview⟩

/-- A run that has moved the tip to the header tip is complete exactly if the header chain extends
the old tip as `Extends` says. -/
theorem completed_iff (hfork : hs.ForkAt s curH hHash F) (hlt : F < hH)
    (hcap : DB.makesliceFails (hH - F).toInt64 = false) (hpath : hs.PathAbove F hH hHash path)
    {new : List Block} (hnew : List.Forall₂ (hs.Usable s) path new) {l : Ledger} {s' : DB}
    (hrew : n.rewound main F = (.ok (), l)) (happ : l.applyBlocks new = (.ok (), s'.ledger))
    (hsame : s.SameBlocks s') (htip : s'.getTip = some (hH, hHash)) :
    n.Completed hs s s' ↔ F = curH ∧ n.Extends hs s curH hH hHash := by
  have huse := (h.exists_usable_iff hpath).mp ⟨new, hnew⟩
  have hindex := h.indexIsMainChain_iff_fork hfork hlt huse hsame htip
  have hledger := h.ledgerAgrees_iff_baseFits hfork hlt hpath hnew hrew happ hsame htip
  constructor
  · intro hdone
    obtain ⟨rfl, hidx⟩ := hindex.mp hdone.index
    exact ⟨rfl, hlt, hcap, huse, hidx, hledger.mp hdone.ledger⟩
  · rintro ⟨rfl, hext⟩
    refine ⟨htip.trans h.headers.tip.symm, hindex.mpr ⟨rfl, hext.indexed⟩,
      hledger.mpr hext.ledger, ?_⟩
    -- the whole old chain is below the header tip
    rintro finH - k - x ⟨tipH, tipHash, htip', hk, hx⟩
    rw [h.tip] at htip'
    obtain ⟨rfl, rfl⟩ := Prod.mk.inj (Option.some.inj htip')
    exact ⟨hH, hHash, htip, UInt64.le_of_lt (UInt64.lt_of_le_of_lt hk hlt),
      hsame.ancestorAt_iff.mpr ((h.tip_ancestorAt hfork hlt huse).trans hx)⟩

end Complete

/-! ### Every run -/

/-- Above the finalized height, `RebuildStateToHeight` rebuilds. -/
theorem rebuildStateToHeight_eq (hfin : ∀ finH, s.finalizedHeight = some finH → ¬ F < finH) :
    n.rebuildStateToHeight s F = n.applyStateUpTo s F := by
  unfold rebuildStateToHeight
  split
  next finH heq => rw [if_neg fun hlt => hfin finH heq hlt.2]
  next => rfl

/-- Below the finalized height it does nothing. -/
theorem moveTo_of_lt_finalized {finH : UInt64} (hfin : s.finalizedHeight = some finH)
    (hlt : F < finH) : n.moveTo hs s F hH hHash = (.error (.error "below_finalized"), s) := by
  have hpos : 0 < finH := UInt64.lt_of_le_of_lt UInt64.zero_le hlt
  simp only [moveTo, rebuildStateToHeight, hfin, hpos, hlt, and_self, if_true]

section Move

variable (h : n.ReorgSetting dom hs s curH curHash hH hHash main)

include h

theorem key_of_sameBlocks {s₁ : DB} (hsame : s.SameBlocks s₁) :
    ∀ x b, s₁.blockByHash x = some b → x = n.hashHex b.header := by
  intro x b hb
  rw [hsame.blockByHash] at hb
  exact (h.tree.key x b hb).1

omit h in
/-- After a failed replay the ledger is what the replay left. -/
theorem stopsWith_iff_of_error {e : Fault} {l l' : Ledger}
    (hrew : n.rewound main F = (.error e, l)) : n.StopsWith hs s F hH hHash main l' ↔ l' = l := by
  constructor
  · rintro (⟨hrew'⟩ | ⟨hrew'⟩ | ⟨hrew'⟩)
    · rw [hrew] at hrew'
      exact (Prod.mk.inj hrew').2.symm
    · rw [hrew] at hrew'
      cases hrew'
    · rw [hrew] at hrew'
      cases hrew'
  · rintro rfl
    exact .replay hrew

/-- After the replay, the block above the fork decides. -/
theorem stopsWith_iff_of_ok {l l' : Ledger} (hrew : n.rewound main F = (.ok (), l)) (hlt : F < hH)
    (hcap : DB.makesliceFails (hH - F).toInt64 = false) {x : String}
    (hx : hs.AncestorAt hHash (F.toNat + 1) x) :
    n.StopsWith hs s F hH hHash main l' ↔ (l' = l ∧ ∀ b, ¬ hs.Usable s x b) ∨
        ∃ b e, hs.Usable s x b ∧ l.applyTxs b.txs = (.error e, l') := by
  constructor
  · rintro (⟨hrew'⟩ | ⟨hrew', -, -, hy, hnot⟩ | ⟨hrew', -, -, hy, huse, happ⟩)
    · rw [hrew] at hrew'
      cases hrew'
    · rw [hrew] at hrew'
      obtain rfl := Ancestry.ancestorAt_unique h.headers.linked hx hy
      exact .inl ⟨(Prod.mk.inj hrew').2.symm, hnot⟩
    · rw [hrew] at hrew'
      obtain rfl := (Prod.mk.inj hrew').2
      obtain rfl := Ancestry.ancestorAt_unique h.headers.linked hx hy
      exact .inr ⟨_, _, huse, happ⟩
  · rintro (⟨rfl, hnot⟩ | ⟨b, e, huse, happ⟩)
    · exact .missing hrew hlt hcap hx hnot
    · exact .refused hrew hlt hcap hx huse happ

/-- A block above the fork that can be used stops the call only if it does not apply. -/
theorem stopsWith_iff_of_usable {l l' : Ledger} (hrew : n.rewound main F = (.ok (), l))
    (hlt : F < hH) (hcap : DB.makesliceFails (hH - F).toInt64 = false) {x : String}
    (hx : hs.AncestorAt hHash (F.toNat + 1) x) {b : Block} (huse : hs.Usable s x b) :
    n.StopsWith hs s F hH hHash main l' ↔ ∃ e, l.applyTxs b.txs = (.error e, l') := by
  rw [h.stopsWith_iff_of_ok hrew hlt hcap hx]
  constructor
  · rintro (⟨-, hnot⟩ | ⟨b', e, huse', hfail⟩)
    · exact absurd huse (hnot b)
    · obtain rfl := huse.unique huse'
      exact ⟨e, hfail⟩
  · rintro ⟨e, hfail⟩
    exact .inr ⟨b, e, huse, hfail⟩

/-- If the header chain extends the tip, all of its blocks apply. -/
theorem applies_of_extends (hfork : hs.ForkAt s curH hHash curH)
    (hext : n.Extends hs s curH hH hHash) (hpath : hs.PathAbove curH hH hHash path) :
    ∃ l new l', n.rewound main curH = (.ok (), l) ∧ List.Forall₂ (hs.Usable s) path new ∧
      l.applyBlocks new = (.ok (), l') := by
  obtain ⟨new, hnew⟩ := (h.exists_usable_iff hpath).mpr hext.usable
  obtain ⟨bs, l₀, hbs, hrun, l₁, hfront, hbal, -⟩ := hext.ledger
  rw [← List.take_append_drop (n.stateBase curH).1.toNat bs,
    Ledger.applyBlocks_append_eq_ok] at hrun
  obtain ⟨l₁', hfront', hback⟩ := hrun
  obtain rfl : l₁ = l₁' := (Prod.mk.inj (hfront.symm.trans hfront')).2
  -- the base has the balances of the chain at its height, so the rest applies to it too
  have hok := (Ledger.applyBlocks_ok_congr _ hbal).mpr (congrArg Prod.fst hback)
  obtain ⟨l, hrew, happ⟩ :=
    (h.rewound_append hfork hext.higher hpath hnew hbs).mp (Prod.ext hok rfl)
  exact ⟨l, new, _, hrew, hnew, happ⟩

/-- At the end of the path the tip is the header tip. -/
theorem tip_of_last (hlt : F < hH) (hpath : hs.PathAbove F hH hHash path) {new : List Block}
    (hnew : List.Forall₂ (hs.Usable s) path new) {s' : DB}
    (hlast : ∀ x b, path.getLast? = some x → new.getLast? = some b →
      s'.getTip = some (b.header.height, x)) : s'.getTip = some (hH, hHash) := by
  have hlt' := UInt64.lt_iff_toNat_lt.mp hlt
  have hlen := hpath.length
  obtain ⟨hlen', hget⟩ := List.forall₂_iff_get.mp hnew
  have hi : path.length - 1 < path.length := by omega
  have hi' : path.length - 1 < new.length := by omega
  have hanc := hpath.ancestor _ _ (List.getElem?_eq_getElem hi)
  rw [show F.toNat + 1 + (path.length - 1) = hH.toNat by omega] at hanc
  have hx := h.eq_hHash hanc
  obtain ⟨-, hdr, hhdr, hheight, -⟩ := hget _ hi hi'
  obtain ⟨hdr', hhdr', htip⟩ := h.headers.stored
  rw [List.get_eq_getElem, hx] at hhdr
  obtain rfl : hdr = hdr' := Option.some.inj (hhdr.symm.trans hhdr')
  rw [hlast _ _ (by rw [List.getLast?_eq_getElem?, List.getElem?_eq_getElem hi])
    (by rw [List.getLast?_eq_getElem?, ← hlen', List.getElem?_eq_getElem hi']), hx, ← htip, hheight]
  rfl

/-- A block of the path is not the tip. -/
theorem tip_ne_of_mem_path (hfork : hs.ForkAt s curH hHash F) (hpath : hs.PathAbove F hH hHash path)
    {x : String} {b : Block} (hx : x ∈ path) (huse : hs.Usable s x b) :
    s.getTip ≠ some (b.header.height, x) := by
  intro htip
  rw [h.tip] at htip
  obtain ⟨rfl, rfl⟩ := Prod.mk.inj (Option.some.inj htip)
  obtain ⟨i, hi⟩ := List.getElem?_of_mem hx
  have hanc := hpath.ancestor i _ hi
  have hheight : b.header.height.toNat = F.toNat + 1 + i := by
    obtain ⟨-, hdr, hhdr, heq, -⟩ := huse
    obtain ⟨-, hdr', hhdr', hk⟩ := hanc
    obtain rfl : hdr = hdr' := Option.some.inj (hhdr.symm.trans hhdr')
    rw [← heq]
    exact hk
  rw [← hheight] at hanc
  exact hfork.above _ (UInt64.lt_iff_toNat_lt.mpr (by omega)) (UInt64.le_refl _)
    ⟨_, hanc, h.hashByHeight_tip⟩

omit h in
/-- A call that stops before it moves the tip. -/
theorem atomic_error_iff {s₂ : DB} {msg : String} (htip : s₂.getTip = s.getTip)
    (hidx : s₂.hashByHeight = s.hashByHeight)
    (hstop : ∀ l, n.StopsWith hs s F hH hHash main l ↔ l = s₂.ledger)
    (hnot : ¬ (F = curH ∧ n.Extends hs s curH hH hHash)) :
    n.Atomic hs s ((.error (.error msg) : Res Unit), s₂) ↔
      (∃ l, n.StopsWith hs s F hH hHash main l ∧ l.view = s.ledger.view) ∨
        (F = curH ∧ n.Extends hs s curH hH hHash) := by
  rw [or_iff_left hnot]
  simp only [hstop]
  constructor
  · intro hun
    exact ⟨_, rfl, hun.ledger⟩
  · rintro ⟨l, rfl, hview⟩
    exact ⟨htip, hidx, hview⟩

/-- If the header chain extends the tip, the loop ends without error. -/
theorem followPath_of_extends {s₁ : DB} (hfork : hs.ForkAt s curH hHash F)
    (hpath : hs.PathAbove F hH hHash path) (hrew : n.rewound main F = (.ok (), s₁.ledger))
    (hsame : s.SameBlocks s₁) (hext : F = curH ∧ n.Extends hs s curH hH hHash) :
    (n.followPath hs s₁ path).1 = .ok () := by
  obtain ⟨rfl, hext⟩ := hext
  obtain ⟨l, new, l', hrew', hnew, happ⟩ := h.applies_of_extends hfork hext hpath
  rw [hrew] at hrew'
  obtain rfl := (Prod.mk.inj hrew').2
  rw [← HeaderIndex.Usable.sameBlocks hsame] at hnew
  obtain ⟨s', hs', -⟩ := followPath_of_usable (h.key_of_sameBlocks hsame) hnew happ
  rw [hs']

/-- An error after the tip has moved: the tip is a block of the path, not the one from before. -/
theorem not_atomic_of_moved {s₁ s₂ : DB} {x : String} {b : Block} {rest : List String}
    (hfork : hs.ForkAt s curH hHash F) (hpath : hs.PathAbove F hH hHash (x :: rest))
    (huse : hs.Usable s x b) (hsame : s.SameBlocks s₂)
    (htip : s₂.getTip = some (b.header.height, x))
    (heq : n.followPath hs s₁ (x :: rest) = n.followPath hs s₂ rest)
    (hok : (n.followPath hs s₁ (x :: rest)).1 ≠ .ok ()) :
    ¬ n.Atomic hs s (n.followPath hs s₁ (x :: rest)) := by
  intro hatomic
  have hmoved : ∃ y ∈ x :: rest, ∃ c, hs.Usable s y c ∧
      (n.followPath hs s₁ (x :: rest)).2.getTip = some (c.header.height, y) := by
    rw [heq]
    rcases tip_followPath hs (h.key_of_sameBlocks hsame) rest with hstay | ⟨y, hy, c, hc, htip₂⟩
    · exact ⟨x, List.mem_cons_self, b, huse, hstay.trans htip⟩
    · rw [HeaderIndex.Usable.sameBlocks hsame] at hc
      exact ⟨y, List.mem_cons_of_mem _ hy, c, hc, htip₂⟩
  obtain ⟨y, hy, c, hc, htip₂⟩ := hmoved
  apply h.tip_ne_of_mem_path hfork hpath hy hc
  rw [← htip₂]
  generalize n.followPath hs s₁ (x :: rest) = out at hatomic hok
  match out with
  | (.ok (), t) => exact absurd rfl hok
  | (.error (.error msg), t) => exact hatomic.tip.symm
  | (.error (.panic msg), t) => exact hatomic.elim

/-- Once the tip has moved, only the whole header chain is all or nothing. -/
theorem atomic_iff_of_moved {s₁ s₂ : DB} {x : String} {b : Block} {rest : List String}
    (hfork : hs.ForkAt s curH hHash F) (hlt : F < hH)
    (hcap : DB.makesliceFails (hH - F).toInt64 = false)
    (hpath : hs.PathAbove F hH hHash (x :: rest)) (hrew : n.rewound main F = (.ok (), s₁.ledger))
    (hsame : s.SameBlocks s₁) (huse : hs.Usable s x b) (hsame₂ : s.SameBlocks s₂)
    (htip : s₂.getTip = some (b.header.height, x))
    (heq : n.followPath hs s₁ (x :: rest) = n.followPath hs s₂ rest) :
    n.Atomic hs s (n.followPath hs s₁ (x :: rest)) ↔ F = curH ∧ n.Extends hs s curH hH hHash := by
  have hkey := h.key_of_sameBlocks hsame
  by_cases hok : (n.followPath hs s₁ (x :: rest)).1 = .ok ()
  · -- the loop has come to the header tip
    obtain ⟨new, hnew, happ⟩ := exists_usable_of_followPath hkey hok
    obtain ⟨t, hrun, hledger, hsame', hlast⟩ := followPath_of_usable hkey hnew (Prod.ext happ rfl)
    rw [HeaderIndex.Usable.sameBlocks hsame] at hnew
    rw [hrun]
    refine h.completed_iff hfork hlt hcap hpath hnew hrew ?_ (hsame.trans hsame') ?_
    · exact Prod.ext happ hledger.symm
    · exact h.tip_of_last hlt hpath hnew hlast
  · exact iff_of_false (h.not_atomic_of_moved hfork hpath huse hsame₂ htip heq hok)
      fun hext => hok (h.followPath_of_extends hfork hpath hrew hsame hext)

/-- The loop over the header chain does all or nothing exactly if it stops at its first block with
the ledger from before, or if the header chain extends the tip. -/
theorem atomic_followPath_iff (hfork : hs.ForkAt s curH hHash F) (hlt : F < hH)
    (hcap : DB.makesliceFails (hH - F).toInt64 = false) (hpath : hs.PathAbove F hH hHash path)
    {s₁ : DB} (hrew : n.rewound main F = (.ok (), s₁.ledger)) (hsame : s.SameBlocks s₁)
    (htip : s₁.getTip = s.getTip) :
    n.Atomic hs s (n.followPath hs s₁ path) ↔
      (∃ l, n.StopsWith hs s F hH hHash main l ∧ l.view = s.ledger.view) ∨
        (F = curH ∧ n.Extends hs s curH hH hHash) := by
  have hkey := h.key_of_sameBlocks hsame
  have hlt' := UInt64.lt_iff_toNat_lt.mp hlt
  have hlen := hpath.length
  obtain ⟨x, rest, rfl⟩ : ∃ x rest, path = x :: rest :=
    List.exists_cons_of_ne_nil (by rintro rfl; simp at hlen; omega)
  have hx : hs.AncestorAt hHash (F.toNat + 1) x := hpath.ancestor 0 x rfl
  have hruns := h.followPath_of_extends hfork hpath hrew hsame
  rcases followPath_cons hs hkey x rest with
    ⟨msg, hnot, heq⟩ | ⟨b, s', huse, hsame', htip', ⟨msg, hfail, heq⟩ | ⟨hone, heq⟩⟩
  · -- the first block is not there
    rw [HeaderIndex.Usable.sameBlocks hsame] at hnot
    rw [heq] at hruns ⊢
    refine atomic_error_iff htip hsame.hashByHeight (fun l => ?_) fun hext => by cases hruns hext
    rw [h.stopsWith_iff_of_ok hrew hlt hcap hx]
    simp [hnot]
  · -- the first block does not apply
    rw [HeaderIndex.Usable.sameBlocks hsame] at huse
    rw [heq] at hruns ⊢
    refine atomic_error_iff (htip'.trans htip) (hsame.trans hsame').hashByHeight (fun l => ?_)
      fun hext => by cases hruns hext
    rw [h.stopsWith_iff_of_usable hrew hlt hcap hx huse, hfail]
    simp [eq_comm]
  · -- the tip has moved to the first block
    rw [HeaderIndex.Usable.sameBlocks hsame] at huse
    have hnostop : ¬ ∃ l, n.StopsWith hs s F hH hHash main l ∧ l.view = s.ledger.view := by
      rintro ⟨l, hl, -⟩
      obtain ⟨e, hfail⟩ := (h.stopsWith_iff_of_usable hrew hlt hcap hx huse).mp hl
      rw [hone] at hfail
      cases hfail
    rw [or_iff_right hnostop]
    exact h.atomic_iff_of_moved hfork hlt hcap hpath hrew hsame huse
      ((hsame.trans hsame').putTip _ _) (DB.getTip_putTip _ _ _) heq

omit h in
/-- After a replay without error, a call can only stop early at a block that it has a path to. -/
theorem lt_of_stopsWith {l l' : Ledger} (hrew : n.rewound main F = (.ok (), l))
    (hstop : n.StopsWith hs s F hH hHash main l') :
    F < hH ∧ DB.makesliceFails (hH - F).toInt64 = false := by
  rcases hstop with ⟨hrew'⟩ | ⟨-, hlt, hcap, -⟩ | ⟨-, hlt, hcap, -⟩
  · rw [hrew] at hrew'
    cases hrew'
  · exact ⟨hlt, hcap⟩
  · exact ⟨hlt, hcap⟩

/-- The second half of a reorganisation from the fork, when finality does not stop it. -/
theorem atomic_moveTo_iff (hne : curHash ≠ hHash) (hfork : hs.ForkAt s curH hHash F)
    (hfin : ∀ finH, s.finalizedHeight = some finH → ¬ F < finH) :
    n.Atomic hs s (n.moveTo hs s F hH hHash) ↔
      (∃ l, n.StopsWith hs s F hH hHash main l ∧ l.view = s.ledger.view) ∨
        (F = curH ∧ n.Extends hs s curH hH hHash) := by
  have hfits := h.fork_fits hne hfork
  obtain ⟨hrew, hsame, htip⟩ := applyStateUpTo_eq (n := n) h.indexed hfork.le hfits
  have hsafe : (n.rewound main F).1.NoPanic := by
    rw [rewound, Ledger.applyBlocks_eq_applyTxs]
    exact (Ledger.ran_applyTxs _ _).noPanic
  rw [moveTo, rebuildStateToHeight_eq hfin]
  generalize n.applyStateUpTo s F = p at hrew hsame htip
  obtain ⟨r, s₁⟩ := p
  dsimp only at hrew hsame htip
  match r with
  | .error (.panic msg) =>
      rw [← hrew] at hsafe
      exact absurd rfl (hsafe msg)
  | .error (.error msg) =>
      -- the replay of the main chain fails, so the header chain does not extend the tip
      refine atomic_error_iff htip hsame.hashByHeight
        (fun l => stopsWith_iff_of_error hrew.symm) ?_
      rintro ⟨rfl, hext⟩
      have hspec := HeaderIndex.headerPathFromTo_spec h.headers.linked h.headers.stored
        hext.higher
      rw [hext.cap, if_neg Bool.false_ne_true] at hspec
      obtain ⟨path, -, hpath⟩ := hspec
      obtain ⟨l, -, -, hok, -⟩ := h.applies_of_extends hfork hext hpath
      rw [← hrew] at hok
      cases hok
  | .ok () =>
      dsimp only
      rcases UInt64.lt_or_eq_of_le (hfork.le_tip h.headers.linked h.headers.stored) with hlt | rfl
      · have hspec := HeaderIndex.headerPathFromTo_spec h.headers.linked h.headers.stored hlt
        split at hspec
        next hcap =>
          -- no slice for the path
          obtain ⟨msg, hpanic⟩ := hspec
          rw [hpanic]
          refine iff_of_false id ?_
          rintro (⟨l, hstop, -⟩ | ⟨rfl, hext⟩)
          · exact Bool.false_ne_true ((lt_of_stopsWith hrew.symm hstop).2.symm.trans hcap)
          · exact Bool.false_ne_true (hext.cap.symm.trans hcap)
        next hcap =>
          obtain ⟨path, heq, hpath⟩ := hspec
          rw [heq]
          exact h.atomic_followPath_iff hfork hlt (Bool.eq_false_of_not_eq_true hcap) hpath
            hrew.symm hsame htip
      · -- the header tip is on the main chain: the call ends with the old tip
        have hsucc : F + 1 ≠ 0 := fun h0 => by
          have hzero := congrArg UInt64.toNat h0
          rw [toNat_succ_of_lt hfits] at hzero
          exact Nat.succ_ne_zero _ hzero
        rw [HeaderIndex.headerPathFromTo_tip hsucc]
        refine iff_of_false (fun hdone => ?_) ?_
        · have hdone : n.Completed hs s s₁ := hdone
          have htips := hdone.tip
          rw [htip, h.tip, h.headers.tip] at htips
          exact hne (Prod.mk.inj (Option.some.inj htips)).2
        · rintro (⟨l, hstop, -⟩ | ⟨rfl, hext⟩)
          · exact UInt64.lt_irrefl _ (lt_of_stopsWith hrew.symm hstop).1
          · exact UInt64.lt_irrefl _ hext.higher

end Move

/-! ### The checks before the move -/

section Checks

variable (h : n.ReorgSetting dom hs s curH curHash hH hHash main)

include h

omit h in
/-- When finality stops the call. -/
theorem finalityConflict_iff {finH : UInt64} (hfin : s.finalizedHeight = some finH) :
    s.FinalityConflict hHash ↔ finH ≠ 0 ∧ ∃ x y, s.hashByHeight finH = some x ∧
      s.AncestorAt hHash finH.toNat y ∧ y ≠ x := by
  constructor
  · rintro ⟨finH', x, y, hfin', hpos, hrest⟩
    obtain rfl : finH = finH' := Option.some.inj (hfin.symm.trans hfin')
    exact ⟨hpos, x, y, hrest⟩
  · rintro ⟨hpos, x, y, hrest⟩
    exact ⟨finH, x, y, hfin, hpos, hrest⟩

/-- The finality check fails exactly on a conflict. -/
theorem enforceFinalized_cases :
    (n.enforceFinalizedOnCandidate s hHash = .ok () ∧ ¬ s.FinalityConflict hHash) ∨
      (n.enforceFinalizedOnCandidate s hHash = .error (.error "violates_finalized") ∧
        s.FinalityConflict hHash) := by
  unfold enforceFinalizedOnCandidate
  split
  next hnone =>
    refine .inl ⟨rfl, ?_⟩
    rintro ⟨finH, x, y, hfin, -⟩
    simp [hnone] at hfin
  next finH hfin =>
    rw [finalityConflict_iff hfin]
    split
    next hzero => exact .inl ⟨rfl, fun hc => hc.1 hzero⟩
    next hpos =>
      split
      next hnone =>
        -- an entry of the index has its block, so there is no entry at the finalized height
        refine .inl ⟨rfl, ?_⟩
        rintro ⟨-, x, y, hx, -⟩
        obtain ⟨b, hb, -⟩ := h.tree.index _ _ hx
        rw [DB.getBlockByHeight_eq_some_iff.mpr ⟨hx, hb⟩] at hnone
        cases hnone
      next x mainB hmain =>
        obtain ⟨hx, hb⟩ := DB.getBlockByHeight_eq_some_iff.mp hmain
        rw [← (h.tree.key x mainB hb).1]
        split
        next hnone =>
          -- a candidate without an ancestor at that height passes the check
          refine .inl ⟨rfl, ?_⟩
          rintro ⟨-, -, y, -, hy, -⟩
          rw [(getAncestorHashAtHeight_eq_some_iff h.tree).mpr hy] at hnone
          cases hnone
        next y hy =>
          have hy := (getAncestorHashAtHeight_eq_some_iff h.tree).mp hy
          split
          next hyx => exact .inr ⟨rfl, hpos, x, y, hx, hy, hyx⟩
          next hyx =>
            refine .inl ⟨rfl, ?_⟩
            rintro ⟨-, x', y', hx', hy', hne⟩
            obtain rfl : x = x' := Option.some.inj (hx.symm.trans hx')
            exact hyx (by rwa [Ancestry.ancestorAt_unique h.tree.linked hy hy'])

omit h in
/-- Over heights that the index has, the loop ends if its counter is above the tip after them. -/
theorem oldBranchWalk_eq {count : ℕ} {k : UInt64}
    (hfound : ∀ i < count, ∃ e, s.getBlockByHeight (k + UInt64.ofNat i) = some e) (txs : List Tx) :
    ∃ txs', oldBranchWalk s curH count k txs =
      if k + UInt64.ofNat count ≤ curH then .error (.panic "endless loop") else .ok txs' := by
  induction count generalizing k txs with
  | zero => exact ⟨txs, by simp [oldBranchWalk]⟩
  | succ count ih =>
      have hnext : ∀ i, k + UInt64.ofNat (i + 1) = k + 1 + UInt64.ofNat i := fun i => by
        rw [Nat.add_comm, UInt64.ofNat_add, UInt64.add_assoc]
        rfl
      obtain ⟨e, he⟩ := hfound 0 (Nat.succ_pos count)
      have he : s.getBlockByHeight k = some e := by simpa using he
      rw [oldBranchWalk, he, hnext]
      refine ih (fun i hi => ?_) _
      rw [← hnext]
      exact hfound (i + 1) (by omega)

/-- The collection of the old transactions ends unless it has to count up to the largest height. -/
theorem oldBranchTxs_cases (hle : F ≤ curH) :
    if F < curH → curH.toNat + 1 < 2 ^ 64 then ∃ txs, oldBranchTxs s curH F = .ok txs
    else ∃ msg, oldBranchTxs s curH F = .error (.panic msg) := by
  unfold oldBranchTxs
  have hle' := UInt64.le_iff_toNat_le.mp hle
  have hlarge := curH.toNat_lt
  by_cases hlt : F < curH
  · have hend : F + 1 + UInt64.ofNat (curH.toNat - F.toNat) = curH + 1 := by
      rw [UInt64.ofNat_sub hle', UInt64.ofNat_toNat, UInt64.ofNat_toNat]
      grind
    have hfound : ∀ i < curH.toNat - F.toNat,
        ∃ e, s.getBlockByHeight (F + 1 + UInt64.ofNat i) = some e :=
      fun i hi => h.indexed.exists_entry (by omega)
    obtain ⟨txs, hwalk⟩ : ∃ txs, oldBranchWalk s curH _ (F + 1) [] = _ :=
      oldBranchWalk_eq hfound []
    rw [if_pos hlt, hwalk, hend]
    by_cases hfit : curH.toNat + 1 < 2 ^ 64
    · have hsucc : (curH + 1).toNat = curH.toNat + 1 := toNat_succ_of_lt hfit
      rw [if_pos fun _ => hfit, if_neg (UInt64.not_le.mpr (UInt64.lt_iff_toNat_lt.mpr (by omega)))]
      exact ⟨txs, rfl⟩
    · -- the counter wraps around to zero
      have hsucc : (curH + 1).toNat = 0 := by
        rw [toNat_succ]
        omega
      rw [if_neg fun hf => hfit (hf hlt), if_pos (UInt64.le_iff_toNat_le.mpr (by omega))]
      exact ⟨_, rfl⟩
  · rw [if_neg hlt, if_pos fun hc => absurd hc hlt]
    exact ⟨[], rfl⟩

omit h in
/-- The cases of `ReorgSafe` past the first checks, at the fork. -/
theorem reorgSafe_iff (hempty : hHash ≠ "") (hne : curHash ≠ hHash)
    (hconf : ¬ s.FinalityConflict hHash) (hfork : hs.ForkAt s curH hHash F) :
    n.ReorgSafe hs s curH curHash hH hHash main ↔ (F < curH → curH.toNat + 1 < 2 ^ 64) ∧
      ((∃ finH, s.finalizedHeight = some finH ∧ F < finH) ∨
        (∃ l, n.StopsWith hs s F hH hHash main l ∧ l.view = s.ledger.view) ∨
          (F = curH ∧ n.Extends hs s curH hH hHash)) := by
  constructor
  · intro hsafe
    cases hsafe with
    | noHeaderTip h0 => exact absurd h0 hempty
    | atHeaderTip heq => exact absurd (Prod.mk.inj heq).2 hne
    | conflict _ hc => exact absurd hc hconf
    | belowFinalized _ hfork' hend hfin hlt =>
        obtain rfl := hfork.unique hfork'
        exact ⟨hend, .inl ⟨_, hfin, hlt⟩⟩
    | stops _ hfork' hend hstop hview =>
        obtain rfl := hfork.unique hfork'
        exact ⟨hend, .inr (.inl ⟨_, hstop, hview⟩)⟩
    | onTip _ hfork' hext =>
        obtain rfl := hfork.unique hfork'
        exact ⟨fun hlt => absurd hlt (UInt64.lt_irrefl _), .inr (.inr ⟨rfl, hext⟩)⟩
  · rintro ⟨hend, ⟨finH, hfin, hlt⟩ | ⟨l, hstop, hview⟩ | ⟨rfl, hext⟩⟩
    · exact .belowFinalized hne hfork hend hfin hlt
    · exact .stops hne hfork hend hstop hview
    · exact .onTip hne hfork hext

/-- If the tip has the hash of the header tip, the call leaves everything as it is. -/
theorem completed_self_iff (hempty : hHash ≠ "") (hsame : curHash = hHash) :
    n.Completed hs s s ↔ n.ReorgSafe hs s curH curHash hH hHash main := by
  constructor
  · intro hdone
    refine .atHeaderTip ?_ hdone.ledger
    exact Option.some.inj (h.tip.symm.trans (hdone.tip.trans h.headers.tip))
  · intro hsafe
    have hboth : (curH, curHash) = (hH, hHash) ∧ n.LedgerAgrees s := by
      cases hsafe with
      | noHeaderTip h0 => exact absurd h0 hempty
      | atHeaderTip heq hledger => exact ⟨heq, hledger⟩
      | conflict hne => exact absurd hsame hne
      | belowFinalized hne => exact absurd hsame hne
      | stops hne => exact absurd hsame hne
      | onTip hne => exact absurd hsame hne
    exact ⟨by rw [h.tip, h.headers.tip, hboth.1], h.index, hboth.2, fun _ _ _ _ _ hx => hx⟩

end Checks

end ReorgSetting

/-- The transactions that are handed on do not matter. -/
theorem atomic_match_iff {n : Node} {hs : HeaderIndex} {s : DB} (txs : List Tx)
    (p : Res Unit × DB) :
    n.Atomic hs s (match p with
      | (.error e, s') => (.error e, s')
      | (.ok _, s') => ((.ok txs : Res (List Tx)), s')) ↔ n.Atomic hs s p := by
  match p with
  | (.ok _, _) => exact Iff.rfl
  | (.error (.error _), _) => exact Iff.rfl
  | (.error (.panic _), _) => exact Iff.rfl

/-- A reorganisation does all or nothing exactly in the cases of `ReorgSafe`. -/
theorem reorgAtomic_iff (n : Node) (dom : n.HashDomain) (hs : HeaderIndex) (s : DB)
    {curH hH : UInt64} {curHash hHash : String} {main : List Block}
    (h : n.ReorgSetting dom hs s curH curHash hH hHash main) :
    n.ReorgAtomic hs s ↔ n.ReorgSafe hs s curH curHash hH hHash main := by
  have hcur := h.curHash_ne_empty
  unfold ReorgAtomic reorgToBestHeaderChain
  simp only [h.tip, h.headers.tip, Option.getD_some]
  -- the checks in the order of the code: each answers before anything is written
  by_cases hempty : hHash = ""
  · rw [if_pos hempty]
    exact iff_of_true ⟨rfl, rfl, rfl⟩ (.noHeaderTip hempty)
  rw [if_neg hempty]
  by_cases hne : curHash = hHash
  · rw [if_pos ⟨hcur, hne⟩]
    exact h.completed_self_iff hempty hne
  rw [if_neg fun hc => hne hc.2]
  rcases h.enforceFinalized_cases with ⟨hpass, hconf⟩ | ⟨hstop, hconf⟩
  swap
  · rw [hstop]
    exact iff_of_true ⟨rfl, rfl, rfl⟩ (.conflict hne hconf)
  rw [hpass]
  obtain ⟨hdr, hstored, -⟩ := h.headers.stored
  obtain ⟨F, x, hwalk, hfork⟩ :
      ∃ F x, n.findForkPoint hs s curH curHash hHash = .ok (F, x) ∧ hs.ForkAt s curH hHash F :=
    findForkPoint_spec (h.tree.namesBlocks curH) h.headers.linked hstored hcur
  rw [hwalk]
  dsimp only
  have hold := h.oldBranchTxs_cases hfork.le
  split at hold
  next hend =>
    obtain ⟨txs, htxs⟩ := hold
    rw [htxs]
    rw [ReorgSetting.reorgSafe_iff hempty hne hconf hfork, and_iff_right hend]
    refine (atomic_match_iff txs _).trans ?_
    -- a fork below the finalized height is the last check before the ledger is replaced
    by_cases hbelow : ∃ finH, s.finalizedHeight = some finH ∧ F < finH
    · obtain ⟨finH, hfin, hlt⟩ := hbelow
      rw [ReorgSetting.moveTo_of_lt_finalized hfin hlt]
      exact iff_of_true ⟨rfl, rfl, rfl⟩ (.inl ⟨finH, hfin, hlt⟩)
    · rw [or_iff_right hbelow]
      exact h.atomic_moveTo_iff hne hfork fun finH hfin hlt => hbelow ⟨finH, hfin, hlt⟩
  next hend =>
    -- collecting the old transactions does not end
    obtain ⟨msg, hpanic⟩ := hold
    rw [hpanic, ReorgSetting.reorgSafe_iff hempty hne hconf hfork]
    exact iff_of_false id fun hsafe => hend hsafe.1

end Node

namespace Sample

/-- The headers of some blocks, with one of them as the header tip. -/
def headersOf (bs : List Block) (tip : Block) : HeaderIndex where
  header x := (bs.find? fun b => node.hashHex b.header = x).map Block.header
  tip := some (tip.header.height, node.hashHex tip.header)

/-- The headers are linked if the parents of the blocks are among them. -/
theorem tipAt_headersOf {bs : List Block} {tip : Block}
    (hparent : ∀ b ∈ bs, b.height ≠ 0 → ∃ p ∈ bs,
      (headersOf bs tip).header b.prevHex = some p.header ∧ b.height = p.height + 1)
    (htip : (headersOf bs tip).header (node.hashHex tip.header) = some tip.header) :
    (headersOf bs tip).TipAt tip.header.height (node.hashHex tip.header) := by
  refine ⟨fun x hdr hx hpos => ?_, rfl, _, htip, rfl⟩
  obtain ⟨b, hb, rfl⟩ := Option.map_eq_some_iff.mp hx
  obtain ⟨p, -, hp, hheight⟩ := hparent b (List.mem_of_find?_eq_some hb) hpos
  exact ⟨p.header, hp, hheight⟩

/-- A node that has switched from an empty block to one with a transaction of alice. -/
def switchedDB : DB := node.submit lightDB (0, busy₁)

/-- The same node, stopped after it has stored a second block and before it has moved its tip. -/
def stoppedDB : DB := node.stored switchedDB busy₂

/-- A block that no node has seen. -/
def absent₁ : Block := child node.genesisBlock 5 0x20010000 []

/-- Alice's block is heavier than the tip and replaces it. -/
theorem read_switched :
    (lightDB.getTipWork < Node.cumWork lightDB busy₁ ∧
      (node.stored lightDB busy₁).candidatePath (node.hashHex busy₁.header) busy₁.header.height =
        .ok (0, [node.genesisHash, node.hashHex busy₁.header])) ∧
    switchedDB.getTip = some (1, node.hashHex busy₁.header) ∧
      switchedDB.blockByHash (node.hashHex busy₁.header) = some busy₁ ∧
      node.preStore switchedDB busy₂ = .ok true ∧ switchedDB.ledger.getNonce alice = 1 := by
  decide +kernel

theorem blockTree_unswitched : node.BlockTree collisionFree_blocks.domain lightDB :=
  (Node.blockTree_genesisDB _ ∅).submit known_blocks.1

theorem blockTree_switched : node.BlockTree collisionFree_blocks.domain switchedDB :=
  blockTree_unswitched.submit known_blocks.2.1

theorem indexIsMainChain_switched : switchedDB.IndexIsMainChain := by
  have hanchored : lightDB.Anchored :=
    (Node.blockTree_genesisDB collisionFree_blocks.domain ∅).anchored_submit known_blocks.1
      (Node.anchored_genesisDB ∅)
  apply (blockTree_unswitched.indexIsMainChain_submit_iff hanchored known_blocks.2.1
    indexIsMainChain_light).mpr
  intro tipH tipHash _ _ _ _
  obtain ⟨⟨hwork, hpath⟩, -⟩ := read_switched
  exact ⟨hwork, _, hpath⟩

/-- The main chain of the node is alice's block. -/
theorem rootPath_switched : switchedDB.RootPath (node.hashHex busy₁.header) [busy₁] := by
  have hprev : busy₁.prevHex = node.genesisHash := rfl
  obtain ⟨-, -, hbusy, -⟩ := read_switched
  have hroot : switchedDB.RootPath busy₁.prevHex [] := by
    rw [hprev]
    exact .root blockTree_switched.genesis rfl
  exact .snoc hbusy (by decide) hroot

/-- A reorganisation of this node to a header above genesis. -/
theorem reorgSetting_switched {b : Block} (hparent : b.prevHex = node.genesisHash)
    (hheight : b.height = 1)
    (hhash : node.genesisHash ≠ node.hashHex b.header) :
    node.ReorgSetting collisionFree_blocks.domain (headersOf [node.genesisBlock, b] b) switchedDB 1
      (node.hashHex busy₁.header) b.header.height (node.hashHex b.header) [busy₁] := by
  obtain ⟨-, htip, -⟩ := read_switched
  refine ⟨blockTree_switched, indexIsMainChain_switched, htip, rootPath_switched,
    tipAt_headersOf ?_ ?_⟩
  · intro c hc hpos
    have hgenesis : node.genesisBlock.height = 0 := rfl
    rcases List.mem_pair.mp hc with rfl | rfl
    · exact absurd hgenesis hpos
    · refine ⟨node.genesisBlock, List.mem_cons_self, ?_, by rw [hheight, hgenesis]⟩
      rw [hparent]
      simp [headersOf, Node.genesisHash]
  · have hfalse : decide (node.hashHex node.genesisBlock.header = node.hashHex b.header) = false :=
      decide_eq_false hhash
    simp [headersOf, List.find?_cons, hfalse]

/-- The reorganisation to a stored block beside the main chain, and the one to a block that is not
stored. The hashes are distinct. -/
theorem read_reorgs :
    (node.genesisHash ≠ node.hashHex fork₁.header ∧ node.genesisHash ≠ node.hashHex absent₁.header ∧
      node.hashHex busy₁.header ≠ node.hashHex fork₁.header ∧
      node.hashHex busy₁.header ≠ fork₁.prevHex) ∧
    ((node.reorgToBestHeaderChain (headersOf [node.genesisBlock, fork₁] fork₁) switchedDB).1 =
        .ok [transfer alice 1 []] ∧
      (node.reorgToBestHeaderChain (headersOf [node.genesisBlock, fork₁] fork₁)
        switchedDB).2.getTip = some (1, node.hashHex fork₁.header) ∧
      (node.reorgToBestHeaderChain (headersOf [node.genesisBlock, fork₁] fork₁)
        switchedDB).2.hashByHeight 1 = some (node.hashHex busy₁.header) ∧
      (node.reorgToBestHeaderChain (headersOf [node.genesisBlock, fork₁] fork₁)
        switchedDB).2.blockByHash (node.hashHex fork₁.header) = some fork₁ ∧
      (node.reorgToBestHeaderChain (headersOf [node.genesisBlock, fork₁] fork₁)
        switchedDB).2.blockByHash fork₁.prevHex = some node.genesisBlock) ∧
    ((node.reorgToBestHeaderChain (headersOf [node.genesisBlock, absent₁] absent₁) switchedDB).1 =
        .error (.error ("missing_block_" ++ node.hashHex absent₁.header)) ∧
      (node.reorgToBestHeaderChain (headersOf [node.genesisBlock, absent₁] absent₁)
        switchedDB).2.ledger.getNonce alice = 0) := by
  decide +kernel

/-- The headers of the chain that the stopped node has stored. -/
def busyHeaders : HeaderIndex := headersOf [node.genesisBlock, busy₁, busy₂] busy₂

/-- The stopped node has its second block in the store and in the index, not at the tip. -/
theorem read_stopped :
    stoppedDB.getTip = some (1, node.hashHex busy₁.header) ∧
      stoppedDB.hashByHeight 1 = some (node.hashHex busy₁.header) ∧
      stoppedDB.hashByHeight 2 = some (node.hashHex busy₂.header) ∧
      stoppedDB.blockByHash (node.hashHex busy₁.header) = some busy₁ ∧
      stoppedDB.blockByHash (node.hashHex busy₂.header) = some busy₂ ∧
      ((Ledger.ofAllocations node.genesis.allocations).applyBlocks [busy₁, busy₂]).1 = .ok () := by
  decide +kernel

/-- Its header index has the headers of the three blocks, each with its parent. -/
theorem read_busyHeaders :
    (busyHeaders.header (node.hashHex busy₁.header) = some busy₁.header ∧
      busyHeaders.header (node.hashHex busy₂.header) = some busy₂.header) ∧
    (∀ b ∈ [node.genesisBlock, busy₁, busy₂], b.height ≠ 0 →
      ∃ p ∈ [node.genesisBlock, busy₁, busy₂],
        busyHeaders.header b.prevHex = some p.header ∧ b.height = p.height + 1) ∧
    node.hashHex busy₁.header ≠ node.hashHex busy₂.header := by
  decide +kernel

theorem reorgSetting_stopped :
    node.ReorgSetting collisionFree_blocks.domain busyHeaders stoppedDB 1
      (node.hashHex busy₁.header) 2 (node.hashHex busy₂.header) [busy₁] := by
  obtain ⟨-, htip', -, hpre, -⟩ := read_switched
  obtain ⟨htip, -, -, hone, -⟩ := read_stopped
  obtain ⟨⟨-, hhdr₂⟩, hparents, -⟩ := read_busyHeaders
  have hstorable := node.storable_of_preStore hpre
  have htree := blockTree_switched.stored hstorable known_blocks.2.2
  refine ⟨htree, ?_, htip, ?_, tipAt_headersOf hparents hhdr₂⟩
  · apply (blockTree_switched.indexIsMainChain_stored_iff hstorable known_blocks.2.2
      indexIsMainChain_switched).mpr
    -- the second block is above the tip
    intro tipH tipHash h hle
    rw [htip'] at h
    cases h
    exact absurd hle (by decide)
  · have hprev : busy₁.prevHex = node.genesisHash := rfl
    have hroot : stoppedDB.RootPath busy₁.prevHex [] := by
      rw [hprev]
      exact .root htree.genesis rfl
    exact .snoc hone (by decide) hroot

end Sample

namespace Node

open Sample

/-- A node that stopped before it moved its tip to a stored block catches up with the header tip. -/
theorem reorgAtomic_stopped :
    node.ReorgSetting collisionFree_blocks.domain busyHeaders stoppedDB 1
        (node.hashHex busy₁.header) 2 (node.hashHex busy₂.header) [busy₁] ∧
      node.ReorgAtomic busyHeaders stoppedDB := by
  have h := reorgSetting_stopped
  obtain ⟨-, hidx₁, hidx₂, hone, htwo, hok⟩ := read_stopped
  obtain ⟨⟨hhdr₁, hhdr₂⟩, -, hne⟩ := read_busyHeaders
  refine ⟨h, ?_⟩
  rw [reorgAtomic_iff node collisionFree_blocks.domain busyHeaders stoppedDB h]
  have hself : busyHeaders.AncestorAt (node.hashHex busy₁.header) busy₁.header.height.toNat
      (node.hashHex busy₁.header) := Ancestry.ancestorAt_self hhdr₁
  have hanc : busyHeaders.AncestorAt (node.hashHex busy₂.header) 1 (node.hashHex busy₁.header) := by
    have hprev : busy₂.header.prevHash.toHex = node.hashHex busy₁.header := rfl
    refine Ancestry.AncestorAt.of_parent hhdr₂ (by decide) ?_
    show busyHeaders.AncestorAt busy₂.header.prevHash.toHex 1 _
    rw [hprev]
    exact hself
  -- the only header above the tip is the header tip
  have habove : ∀ {k x}, 1 < k → busyHeaders.AncestorAt (node.hashHex busy₂.header) k x →
      k = 2 ∧ x = node.hashHex busy₂.header := by
    intro k x hk hx
    have hle : k ≤ 2 := h.le_of_ancestorAt hx
    obtain rfl : k = 2 := by omega
    exact ⟨rfl, h.eq_hHash hx⟩
  refine .onTip hne ⟨by decide, fun _ => ⟨_, hanc, hidx₁⟩, ?_⟩
    ⟨by decide, by decide, ?_, ?_, ?_⟩
  · intro k hk hk'
    exact absurd hk (UInt64.not_lt.mpr hk')
  · intro k x hk hx
    obtain ⟨-, rfl⟩ := habove hk hx
    exact ⟨busy₂, htwo, busy₂.header, hhdr₂, rfl, rfl, rfl, rfl, rfl⟩
  · intro k x hk hx
    obtain ⟨hk, rfl⟩ := habove (UInt64.lt_iff_toNat_lt.mp hk) hx
    obtain rfl : k = 2 := UInt64.toNat.inj hk
    exact hidx₂
  · have hprev : busy₂.prevHex = node.hashHex busy₁.header := rfl
    have hroot : stoppedDB.RootPath busy₂.prevHex [busy₁] := by
      rw [hprev]
      exact h.main
    exact ⟨[busy₁, busy₂], _, .snoc htwo (by decide) hroot, Prod.ext hok rfl, _, rfl, rfl,
      fun _ _ => rfl⟩

/-- Two reorganisations of the node that is at alice's block. To a stored block of the same height
the call returns without error, and the index at the tip's height still names alice's block. To a
block that is not stored it returns an error, and the nonce of alice is zero again. -/
theorem not_reorgAtomic_switched :
    (node.ReorgSetting collisionFree_blocks.domain (headersOf [node.genesisBlock, fork₁] fork₁)
        switchedDB 1 (node.hashHex busy₁.header) 1 (node.hashHex fork₁.header) [busy₁] ∧
      ¬ node.ReorgAtomic (headersOf [node.genesisBlock, fork₁] fork₁) switchedDB) ∧
    node.ReorgSetting collisionFree_blocks.domain (headersOf [node.genesisBlock, absent₁] absent₁)
        switchedDB 1 (node.hashHex busy₁.header) 1 (node.hashHex absent₁.header) [busy₁] ∧
      ¬ node.ReorgAtomic (headersOf [node.genesisBlock, absent₁] absent₁) switchedDB := by
  obtain ⟨⟨hforkHash, habsent, hne, hneGenesis⟩, ⟨hok, htip, hidx, hfork, hgenesis⟩, herr, hzero⟩ :=
    read_reorgs
  obtain ⟨-, -, -, -, hone⟩ := read_switched
  refine ⟨⟨reorgSetting_switched rfl rfl hforkHash, not_reorgAtomic_of_ok hok fun hdone => ?_⟩,
    reorgSetting_switched rfl rfl habsent, not_reorgAtomic_of_error herr fun hun => ?_⟩
  · obtain ⟨a, ha, hanc, -⟩ := hdone.index _ _ htip 1 (by decide)
    rw [hidx] at ha
    have ha := Option.some.inj ha
    rw [← ha] at hanc
    -- alice's block is neither the tip nor genesis
    rcases hanc.eq_or_parent hfork with heq | ⟨-, hanc⟩
    · exact hne heq
    · rcases hanc.eq_or_parent hgenesis with heq | ⟨hpos, -⟩
      · exact hneGenesis heq
      · exact hpos rfl
  · have halice := congrFun (congrArg Sim.nonce hun.ledger) alice
    rw [Ledger.view_nonce, Ledger.view_nonce, hzero, hone] at halice
    exact absurd halice (by decide)

end Node

end ReserveOS
