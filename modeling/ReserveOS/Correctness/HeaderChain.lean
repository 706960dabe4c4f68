import ReserveOS.Correctness.HeightIndex
import ReserveOS.Node.Reorg

/-!
# Walks along stored headers and blocks

The three walks of `ReorgToBestHeaderChain`, over a store in which every parent is one height below
its child. None of them runs out of rounds there: `getAncestorHashAtHeight_eq_some_iff` is about the
walk over stored blocks, `findForkPoint_spec` about the walk to the fork (`ForkAt`), and
`headerPathFromTo_spec` about the path between two heights.
-/

namespace ReserveOS

namespace HeaderIndex

/-- `a` is the hash of the ancestor at height `k` in the header store. -/
abbrev AncestorAt (hs : HeaderIndex) (c : String) (k : ℕ) (a : String) : Prop :=
  Ancestry.AncestorAt hs.header (fun hdr => hdr.prevHash.toHex) (fun hdr => hdr.height.toNat) c k a

/-- The parent of every header above height zero is stored, one height below. -/
abbrev Linked (hs : HeaderIndex) : Prop :=
  Ancestry.Linked hs.header (fun hdr => hdr.prevHash.toHex) fun hdr => hdr.height.toNat

theorem Linked.parent {hs : HeaderIndex} (hlink : hs.Linked) {c : String} {hdr : BlockHeader}
    (hc : hs.header c = some hdr) (hpos : hdr.height.toNat ≠ 0) :
    ∃ p, hs.header hdr.prevHash.toHex = some p ∧ hdr.height.toNat = p.height.toNat + 1 :=
  hlink c hdr hc hpos

/-- The headers are linked, and the header tip is one of them. -/
structure TipAt (hs : HeaderIndex) (hH : UInt64) (hHash : String) : Prop where
  linked : hs.Linked
  tip : hs.tip = some (hH, hHash)
  stored : ∃ hdr, hs.header hHash = some hdr ∧ hdr.height = hH

/-- The height index names the ancestor of the header `c` at height `k`. -/
def Shares (hs : HeaderIndex) (s : DB) (c : String) (k : UInt64) : Prop :=
  ∃ x, hs.AncestorAt c k.toNat x ∧ s.hashByHeight k = some x

/-- Up to `curH`, the chain of the header `c` and the height index share nothing above height `F`,
and at `F` either they do or it is zero. -/
structure ForkAt (hs : HeaderIndex) (s : DB) (curH : UInt64) (c : String) (F : UInt64) : Prop where
  le : F ≤ curH
  shared : F ≠ 0 → hs.Shares s c F
  above : ∀ k, F < k → k ≤ curH → ¬ hs.Shares s c k

/-- There is one fork. -/
theorem ForkAt.unique {hs : HeaderIndex} {s : DB} {curH : UInt64} {c : String} {F F' : UInt64}
    (h : hs.ForkAt s curH c F) (h' : hs.ForkAt s curH c F') : F = F' := by
  -- the higher of two forks would be shared above the lower one
  have hlt : ∀ {G G' : UInt64}, hs.ForkAt s curH c G → hs.ForkAt s curH c G' → ¬ G < G' := by
    intro G G' hG hG' hlt
    have hpos : G' ≠ 0 := by
      rintro rfl
      exact UInt64.not_lt_zero hlt
    exact hG.above G' hlt hG'.le (hG'.shared hpos)
  exact UInt64.le_antisymm (UInt64.not_lt.mp (hlt h' h)) (UInt64.not_lt.mp (hlt h h'))

end HeaderIndex

namespace Node

variable {n : Node} {dom : n.HashDomain} {s : DB} {hs : HeaderIndex}

/-! ### Stored blocks -/

/-- The walk from a stored block finds its ancestor at the height, if there is one. -/
theorem ancestorWalk_eq_some_iff (h : n.BlockTree dom s) {k : UInt64} {fuel : ℕ} {c a : String}
    {b : Block} (hb : s.blockByHash c = some b) (hfuel : b.height < fuel) :
    n.ancestorWalk s k fuel c = some a ↔ s.AncestorAt c k.toNat a := by
  induction fuel generalizing c b with
  | zero => omega
  | succ fuel ih =>
      rw [ancestorWalk, hb]
      dsimp only
      have hself : s.AncestorAt c b.height c := Ancestry.ancestorAt_self hb
      rcases Nat.lt_trichotomy b.height k.toNat with hlt | heq | hgt
      · -- the walk is below the height already
        have hne : b.header.height ≠ k := fun hk => by
          rw [Block.height, hk] at hlt
          omega
        rw [if_neg hne, if_pos (UInt64.lt_iff_toNat_lt.mpr hlt)]
        refine iff_of_false (by simp) fun hanc => ?_
        have := hanc.le_height h.linked hb
        omega
      · -- the walk is at the height, and returns the hash it is at
        rw [if_pos (UInt64.toNat.inj heq), ← (h.key c b hb).1]
        constructor
        · intro ha
          rw [← Option.some.inj ha, ← heq]
          exact hself
        · intro hanc
          rw [← heq] at hanc
          rw [Ancestry.ancestorAt_unique h.linked hself hanc]
      · -- the walk goes on at the parent, which has the same ancestors at the height
        have hpos : b.height ≠ 0 := by omega
        have hne : b.header.height ≠ k := fun hk => by
          rw [Block.height, hk] at hgt
          omega
        have hnlt : ¬ b.header.height < k := fun hlt => by
          have := UInt64.lt_iff_toNat_lt.mp hlt
          rw [Block.height] at hgt
          omega
        have hzero : b.header.height ≠ 0 := fun h0 => hpos (by rw [Block.height, h0]; rfl)
        rw [if_neg hne, if_neg hnlt, if_neg hzero]
        obtain ⟨p, hp, hstep⟩ := h.linked c b hb hpos
        rw [ih hp (by omega)]
        exact ⟨fun hanc => hanc.of_parent hb hpos, fun hanc => hanc.to_parent hb hgt⟩

/-- `GetAncestorHashAtHeight` finds the ancestor at the height, if there is one. -/
theorem getAncestorHashAtHeight_eq_some_iff (h : n.BlockTree dom s) {k : UInt64} {c a : String} :
    n.getAncestorHashAtHeight s c k = some a ↔ s.AncestorAt c k.toNat a := by
  unfold getAncestorHashAtHeight
  cases hb : s.blockByHash c with
  | some b => exact ancestorWalk_eq_some_iff h hb (Nat.lt_succ_self _)
  | none =>
      refine iff_of_false (by simp [ancestorWalk, hb]) ?_
      -- a key with an ancestor is stored
      rintro ⟨hanc, -⟩
      cases hanc with
      | refl hc => simp [hb] at hc
      | step hc => simp [hb] at hc

/-! ### The fork -/

variable (n) in
/-- Up to the height, the index names stored blocks by their own hashes. -/
def NamesBlocks (s : DB) (curH : UInt64) : Prop :=
  ∀ k ≤ curH, ∀ x, s.hashByHeight k = some x →
    ∃ b, s.blockByHash x = some b ∧ n.hashHex b.header = x

theorem BlockTree.namesBlocks (h : n.BlockTree dom s) (curH : UInt64) : n.NamesBlocks s curH := by
  intro k _ x hx
  obtain ⟨b, hb, -⟩ := h.index k x hx
  exact ⟨b, hb, (h.key x b hb).1.symm⟩

/-- A stored block of the index at a height is the one with the given hash. -/
theorem NamesBlocks.any_getBlockByHeight_iff {curH : UInt64} (h : n.NamesBlocks s curH) {k : UInt64}
    (hk : k ≤ curH) {x : String} :
    (s.getBlockByHeight k).any (fun e => n.hashHex e.2.header = x) = true ↔
      s.hashByHeight k = some x := by
  rw [Option.any_eq_true]
  constructor
  · rintro ⟨⟨y, b⟩, hyb, hx⟩
    obtain ⟨hy, hb⟩ := DB.getBlockByHeight_eq_some_iff.mp hyb
    obtain ⟨b', hb', hkey⟩ := h k hk y hy
    obtain rfl : b' = b := Option.some.inj (hb'.symm.trans hb)
    rw [hy, ← hkey]
    exact congrArg some (of_decide_eq_true hx)
  · intro hx
    obtain ⟨b, hb, hkey⟩ := h k hk x hx
    exact ⟨(x, b), DB.getBlockByHeight_eq_some_iff.mpr ⟨hx, hb⟩, decide_eq_true hkey⟩

/-- The walk from a stored header ends at the fork. -/
theorem forkWalk_spec {curH : UInt64} (h : n.NamesBlocks s curH) (hlink : hs.Linked) {fuel : ℕ}
    {c : String} {hdr : BlockHeader} (hc : hs.header c = some hdr)
    (hfuel : hdr.height.toNat < fuel) :
    ∃ F x, n.forkWalk hs s curH fuel c = .ok (F, x) ∧ hs.ForkAt s curH c F := by
  induction fuel generalizing c hdr with
  | zero => omega
  | succ fuel ih =>
      rw [forkWalk, hc]
      dsimp only
      have hself : hs.AncestorAt c hdr.height.toNat c := Ancestry.ancestorAt_self hc
      have hle : ∀ {k : UInt64}, hs.Shares s c k → k ≤ hdr.height := by
        rintro k ⟨x, hanc, -⟩
        exact UInt64.le_iff_toNat_le.mpr (hanc.le_height hlink hc)
      by_cases hzero : hdr.height = 0
      · refine ⟨0, "", by rw [if_pos hzero], UInt64.zero_le, fun h0 => absurd rfl h0, ?_⟩
        intro k hk _ hshare
        have := hle hshare
        rw [hzero] at this
        exact UInt64.not_lt.mpr this hk
      rw [if_neg hzero]
      by_cases hmatch : hdr.height ≤ curH ∧ s.hashByHeight hdr.height = some c
      · refine ⟨hdr.height, c, ?_, hmatch.1, fun _ => ⟨c, hself, hmatch.2⟩, ?_⟩
        · rw [if_pos ⟨hmatch.1, (h.any_getBlockByHeight_iff hmatch.1).mpr hmatch.2⟩]
        · intro k hk _ hshare
          exact UInt64.not_lt.mpr (hle hshare) hk
      · rw [if_neg fun hm => hmatch ⟨hm.1, (h.any_getBlockByHeight_iff hm.1).mp hm.2⟩]
        have hpos : hdr.height.toNat ≠ 0 := fun h0 => hzero (UInt64.toNat.inj h0)
        obtain ⟨p, hp, hstep⟩ := hlink.parent hc hpos
        obtain ⟨F, x, hwalk, hfork⟩ := ih hp (by omega)
        refine ⟨F, x, hwalk, hfork.le, fun h0 => ?_, ?_⟩
        · obtain ⟨y, hanc, hidx⟩ := hfork.shared h0
          exact ⟨y, hanc.of_parent hc hpos, hidx⟩
        · rintro k hk hkcur ⟨y, hanc, hidx⟩
          -- at its own height the header was compared already, below it is one of the parent
          rcases Nat.lt_or_eq_of_le (hanc.le_height hlink hc) with hlt | heq
          · exact hfork.above k hk hkcur ⟨y, hanc.to_parent hc hlt, hidx⟩
          · obtain rfl := UInt64.toNat.inj heq
            rw [Ancestry.ancestorAt_unique hlink hanc hself] at hidx
            exact hmatch ⟨hkcur, hidx⟩

/-- `findForkPoint` finds the fork. -/
theorem findForkPoint_spec {curH : UInt64} (h : n.NamesBlocks s curH) (hlink : hs.Linked)
    {curHash hHash : String} {hdr : BlockHeader} (hstored : hs.header hHash = some hdr)
    (hne : curHash ≠ "") :
    ∃ F x, n.findForkPoint hs s curH curHash hHash = .ok (F, x) ∧ hs.ForkAt s curH hHash F := by
  unfold findForkPoint
  rw [if_neg hne]
  apply forkWalk_spec h hlink hstored
  simp [HeaderIndex.depth, hstored]

end Node

namespace HeaderIndex

variable {hs : HeaderIndex} {s : DB} {curH hH F : UInt64} {hHash : String}

/-- The fork is not above the header tip. -/
theorem ForkAt.le_tip (hfork : hs.ForkAt s curH hHash F) (hlink : hs.Linked)
    (htip : ∃ hdr, hs.header hHash = some hdr ∧ hdr.height = hH) : F ≤ hH := by
  by_cases hzero : F = 0
  · rw [hzero]
    exact UInt64.zero_le
  · obtain ⟨x, hanc, -⟩ := hfork.shared hzero
    obtain ⟨hdr, hstored, rfl⟩ := htip
    exact UInt64.le_iff_toNat_le.mpr (hanc.le_height hlink hstored)

/-! ### The path above the fork -/

/-- The walk collects the ancestors from height `fromH` on in front of what it has. -/
theorem pathWalk_spec (hlink : hs.Linked) {fromH toH : UInt64} {fuel : ℕ} {c : String}
    {hdr : BlockHeader} (hc : hs.header c = some hdr) (hfuel : hdr.height.toNat < fuel)
    (hfrom : fromH ≤ hdr.height) (hto : hdr.height ≤ toH) (seq : List String) :
    ∃ path, hs.pathWalk fromH toH fuel c seq = .ok (path ++ seq) ∧
      path.length + fromH.toNat = hdr.height.toNat + 1 ∧
      ∀ i x, path[i]? = some x → hs.AncestorAt c (fromH.toNat + i) x := by
  induction fuel generalizing c hdr seq with
  | zero => omega
  | succ fuel ih =>
      have hself : hs.AncestorAt c hdr.height.toNat c := Ancestry.ancestorAt_self hc
      simp only [pathWalk, hc, if_neg (UInt64.not_lt.mpr hfrom), if_pos hto]
      by_cases heq : hdr.height = fromH
      · refine ⟨[c], by rw [if_pos heq]; rfl, by rw [heq]; exact Nat.add_comm _ _, fun i x hx => ?_⟩
        cases i with
        | zero =>
            obtain rfl : c = x := Option.some.inj hx
            rwa [heq] at hself
        | succ i => simp at hx
      · -- the walk puts its hash in front and goes on at the parent
        rw [if_neg heq]
        have hlt : fromH.toNat < hdr.height.toNat := by
          have := UInt64.le_iff_toNat_le.mp hfrom
          have : fromH.toNat ≠ hdr.height.toNat := fun h => heq (UInt64.toNat.inj h.symm)
          omega
        obtain ⟨p, hp, hstep⟩ := hlink.parent hc (by omega)
        obtain ⟨path, hwalk, hlen, hpath⟩ := ih hp (by omega)
          (UInt64.le_iff_toNat_le.mpr (by omega))
          (UInt64.le_trans (UInt64.le_iff_toNat_le.mpr (by omega)) hto) (c :: seq)
        refine ⟨path ++ [c], by rw [hwalk]; simp, by simp; omega, fun i x hx => ?_⟩
        rcases Nat.lt_trichotomy i path.length with hi | hi | hi
        · rw [List.getElem?_append_left hi] at hx
          exact (hpath i x hx).of_parent hc (by omega)
        · -- the last hash is the start of the walk
          rw [hi, List.getElem?_concat_length] at hx
          obtain rfl := Option.some.inj hx
          rwa [show fromH.toNat + i = hdr.height.toNat by omega]
        · rw [List.getElem?_eq_none (by simp; omega)] at hx
          cases hx

/-- The hashes of the header chain above height `F`, in height order. -/
structure PathAbove (hs : HeaderIndex) (F hH : UInt64) (hHash : String) (path : List String) :
    Prop where
  length : F.toNat + path.length = hH.toNat
  ancestor : ∀ i x, path[i]? = some x → hs.AncestorAt hHash (F.toNat + 1 + i) x

/-- `headerPathFromTo` above a height below the tip: the path, if the slice for it can be made. -/
theorem headerPathFromTo_spec (hlink : hs.Linked)
    (htip : ∃ hdr, hs.header hHash = some hdr ∧ hdr.height = hH) (hlt : F < hH) :
    if DB.makesliceFails (hH - F).toInt64 then
      ∃ msg, hs.headerPathFromTo (F + 1) hH hHash = .error (.panic msg)
    else
      ∃ path, hs.headerPathFromTo (F + 1) hH hHash = .ok path ∧ hs.PathAbove F hH hHash path := by
  obtain ⟨hdr, hstored, rfl⟩ := htip
  have hlt' := UInt64.lt_iff_toNat_lt.mp hlt
  have hlarge := hdr.height.toNat_lt
  have hfrom : (F + 1).toNat = F.toNat + 1 := toNat_succ_of_lt (by omega)
  have hle : F + 1 ≤ hdr.height := UInt64.le_iff_toNat_le.mpr (by omega)
  have hcap : hdr.height - (F + 1) + 1 = hdr.height - F := by grind
  unfold headerPathFromTo
  rw [if_neg (UInt64.not_lt.mpr hle), hcap]
  split
  · exact ⟨_, rfl⟩
  · have hfuel : hdr.height.toNat < hs.depth hHash := by simp [depth, hstored]
    obtain ⟨path, hwalk, hlen, hpath⟩ :=
      pathWalk_spec hlink hstored hfuel hle (UInt64.le_refl _) []
    rw [List.append_nil] at hwalk
    refine ⟨path, hwalk, by omega, fun i x hx => ?_⟩
    rw [← hfrom]
    exact hpath i x hx

/-- There is nothing above the tip. -/
theorem headerPathFromTo_tip (hlt : hH + 1 ≠ 0) :
    hs.headerPathFromTo (hH + 1) hH hHash = .ok [] := by
  unfold headerPathFromTo
  rw [if_pos (by grind)]

end HeaderIndex

end ReserveOS
