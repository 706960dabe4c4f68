import Mathlib.Data.Nat.Find
import ReserveOS.Correctness.HeightIndex
import ReserveOS.Node.Locator

/-!
# What a block locator finds

A node that is asked for a common ancestor answers with the first entry of the locator that it has
stored, on whatever branch, and a locator of 32 entries does not reach genesis from above height
4194312. `locatesCommon_iff` says that the answer is the highest common block of the locator exactly
when some block of the locator is on both main chains and no higher one is stored at the other node.
-/

namespace ReserveOS

/-! ### The heights of a locator -/

/-- How far below the tip the entry `i` of a locator is. -/
def locatorOffset (i : ℕ) : ℕ := if i ≤ 10 then i else 8 + 2 ^ (i - 9)

/-- The distance between the entries `i` and `i + 1`, as the loop has it at entry `i`. -/
def locatorStep (i : ℕ) : ℕ := if i ≤ 10 then 1 else 2 ^ (i - 10)

theorem locatorStep_succ (i : ℕ) :
    locatorStep (i + 1) = if 10 < i + 1 then locatorStep i * 2 else locatorStep i := by
  unfold locatorStep
  rcases lt_trichotomy i 10 with h | rfl | h
  · rw [if_pos (by omega), if_neg (by omega), if_pos (by omega)]
  · rfl
  · have he : i + 1 - 10 = (i - 10) + 1 := by omega
    rw [if_neg (by omega), if_pos (by omega), if_neg (by omega), he, pow_succ]

/-- The offsets of a locator grow by its steps. -/
theorem locatorOffset_succ (i : ℕ) :
    locatorOffset (i + 1) = locatorOffset i + locatorStep (i + 1) := by
  unfold locatorOffset locatorStep
  rcases lt_trichotomy i 10 with h | rfl | h
  · simp [show i + 1 ≤ 10 by omega, show i ≤ 10 by omega]
  · rfl
  · obtain ⟨j, rfl⟩ : ∃ j, i = 11 + j := ⟨i - 11, by omega⟩
    have h₁ : 11 + j + 1 - 9 = (11 + j - 9) + 1 := by omega
    have h₂ : 11 + j + 1 - 10 = 11 + j - 9 := by omega
    simp only [show ¬ 11 + j + 1 ≤ 10 by omega, show ¬ 11 + j ≤ 10 by omega, if_false, h₁, h₂,
      pow_succ]
    omega

theorem locatorStep_pos (i : ℕ) : 0 < locatorStep i := by
  unfold locatorStep
  split
  · exact Nat.one_pos
  · exact Nat.two_pow_pos _

theorem strictMono_locatorOffset : StrictMono locatorOffset := by
  apply strictMono_nat_of_lt_succ
  intro i
  rw [locatorOffset_succ]
  exact Nat.lt_add_of_pos_right (locatorStep_pos (i + 1))

/-- A locator of 32 entries from the tip has an entry of height `k`: it is at the distance of the
entry `i`, and no entry before it is genesis. -/
def IsLocatorHeight (tip k : ℕ) : Prop :=
  ∃ i < 32, (∀ j < i, locatorOffset j < tip) ∧ k = tip - locatorOffset i

/-- The heights from the entry `i` on, for so many entries. -/
def locatorHeights (tip : ℕ) : ℕ → ℕ → List ℕ
  | 0, _ => []
  | room + 1, i =>
      (tip - locatorOffset i) ::
        if tip ≤ locatorOffset i then [] else locatorHeights tip room (i + 1)

/-- The heights of a locator: the tip less the offsets, until one of them reaches genesis. -/
theorem mem_locatorHeights {tip room i k : ℕ} :
    k ∈ locatorHeights tip room i ↔
      ∃ j, i ≤ j ∧ j < i + room ∧ (∀ l, i ≤ l → l < j → locatorOffset l < tip) ∧
        k = tip - locatorOffset j := by
  induction room generalizing i with
  | zero =>
      simp only [locatorHeights, List.not_mem_nil, false_iff]
      rintro ⟨j, h₁, h₂, -⟩
      omega
  | succ room ih =>
      rw [locatorHeights, List.mem_cons]
      constructor
      · -- the entry is the first one, or the list has gone on to a lower height
        rintro (rfl | hk)
        · exact ⟨i, le_refl i, by omega, fun l h₁ h₂ => by omega, rfl⟩
        · split at hk
          · cases hk
          next hlt =>
            obtain ⟨j, h₁, h₂, hall, rfl⟩ := ih.mp hk
            refine ⟨j, by omega, by omega, fun l h₃ h₄ => ?_, rfl⟩
            rcases Nat.lt_or_ge i l with hl | hl
            · exact hall l hl h₄
            · rw [show l = i by omega]
              omega
      · rintro ⟨j, h₁, h₂, hall, rfl⟩
        rcases Nat.eq_or_lt_of_le h₁ with rfl | hlt
        · exact Or.inl rfl
        · right
          have hi := hall i (le_refl i) hlt
          rw [if_neg (by omega)]
          exact ih.mpr ⟨j, hlt, by omega, fun l h₃ h₄ => hall l (by omega) h₄, rfl⟩

theorem isLocatorHeight_iff {tip k : ℕ} : IsLocatorHeight tip k ↔ k ∈ locatorHeights tip 32 0 := by
  rw [mem_locatorHeights]
  simp [IsLocatorHeight]

/-- The heights of a locator decrease. -/
theorem pairwise_locatorHeights (tip room i : ℕ) :
    (locatorHeights tip room i).Pairwise (· > ·) := by
  induction room generalizing i with
  | zero => exact List.Pairwise.nil
  | succ room ih =>
      rw [locatorHeights]
      split
      · exact List.pairwise_singleton _ _
      next hlt =>
        refine List.pairwise_cons.mpr ⟨fun k hk => ?_, ih (i + 1)⟩
        obtain ⟨j, h₁, -, hall, rfl⟩ := mem_locatorHeights.mp hk
        -- the offsets grow, so a later entry is lower
        have hmono : locatorOffset i < locatorOffset j := strictMono_locatorOffset h₁
        omega

/-- From a tip that is not too high, a locator reaches genesis. -/
theorem isLocatorHeight_zero {tip : ℕ} (h : tip ≤ 4194312) : IsLocatorHeight tip 0 := by
  have hex : ∃ i, tip ≤ locatorOffset i := ⟨31, h⟩
  refine ⟨Nat.find hex, Nat.lt_succ_of_le (Nat.find_min' hex h), fun j hj => ?_, ?_⟩
  · exact Nat.lt_of_not_le (Nat.find_min hex hj)
  · exact (Nat.sub_eq_zero_of_le (Nat.find_spec hex)).symm

/-! ### The loop of `BuildBlockLocator` -/

namespace DB

variable {s : DB} {tip : ℕ}

/-- The hash that the index has at a height. -/
def hashAt (s : DB) (k : ℕ) : String := (s.hashByHeight (UInt64.ofNat k)).getD ""

/-- The step to the next height stops at genesis. -/
theorem toNat_clampedSub (h step : UInt64) :
    (if h < step then 0 else h - step).toNat = h.toNat - step.toNat := by
  split
  next hlt =>
    rw [UInt64.lt_iff_toNat_lt] at hlt
    have h0 : (0 : UInt64).toNat = 0 := rfl
    omega
  next hge =>
    rw [UInt64.not_lt] at hge
    exact UInt64.toNat_sub_of_le _ _ hge

/-- The distances of 32 entries do not overflow. -/
theorem toNat_doubled {step : UInt64} {i : ℕ} (hi : i < 32) (hstep : step.toNat = locatorStep i) :
    (if 10 < i + 1 then step * 2 else step).toNat = locatorStep (i + 1) := by
  rw [locatorStep_succ, ← hstep]
  split
  next =>
    have hbound : locatorStep i ≤ 2 ^ 22 := by
      unfold locatorStep
      split
      · exact Nat.one_le_two_pow
      · exact Nat.pow_le_pow_right (by omega) (by omega)
    have htwo : (2 : UInt64).toNat = 2 := rfl
    rw [UInt64.toNat_mul, htwo]
    omega
  next => rfl

/-- Over a complete index the loop lists the hashes at the heights of the locator. -/
theorem locatorLoop_eq
    (hidx : ∀ k : UInt64, k.toNat ≤ tip → ∃ x b, s.getBlockByHeight k = some (x, b))
    (room : ℕ) (loc : List String) (step h : UInt64) (hroom : loc.length + room ≤ 32)
    (hstep : step.toNat = locatorStep loc.length)
    (hh : h.toNat = tip - locatorOffset loc.length) :
    s.locatorLoop room loc step h = loc ++ (locatorHeights tip room loc.length).map s.hashAt := by
  -- the invariant: step and height are those that the number of listed hashes determines
  induction room generalizing loc step h with
  | zero => simp [locatorLoop, locatorHeights]
  | succ room ih =>
      obtain ⟨x, b, hx⟩ := hidx h (by omega)
      have hat : s.hashAt (tip - locatorOffset loc.length) = x := by
        obtain ⟨hentry, -⟩ := getBlockByHeight_eq_some_iff.mp hx
        rw [← hh, hashAt, UInt64.ofNat_toNat, hentry]
        rfl
      rw [locatorLoop, hx, locatorHeights, List.map_cons, hat]
      dsimp only
      by_cases hzero : h = 0
      · rw [if_pos hzero]
        have hend : tip ≤ locatorOffset loc.length := by
          rw [hzero] at hh
          have h0 : (0 : UInt64).toNat = 0 := rfl
          omega
        simp [hend]
      · rw [if_neg hzero]
        have hpos : ¬ tip ≤ locatorOffset loc.length := by
          intro hle
          apply hzero
          apply UInt64.toNat.inj
          rw [hh, Nat.sub_eq_zero_of_le hle]
          rfl
        have hlen : (loc ++ [x]).length = loc.length + 1 := by simp
        have hnext := toNat_doubled (by omega) hstep
        rw [if_neg hpos, ih _ _ _ (by omega) (by rw [hlen, hnext]) ?_, hlen, List.append_assoc]
        · rfl
        · rw [hlen, toNat_clampedSub, hnext, hh, locatorOffset_succ, Nat.sub_sub]

/-- A locator with a stored entry is answered. -/
theorem exists_findFirstKnown {x : String} {locator : List String} (hx : x ∈ locator) {b : Block}
    (hb : s.blockByHash x = some b) : ∃ p, s.findFirstKnown locator = some p := by
  induction locator with
  | nil => cases hx
  | cons hh locator ih =>
      rw [findFirstKnown]
      cases hhh : s.blockByHash hh with
      | some b' => exact ⟨_, rfl⟩
      | none =>
          rcases List.mem_cons.mp hx with rfl | hx
          · rw [hhh] at hb
            cases hb
          · exact ih hx

/-- `FindFirstKnown` of a list that is mapped from decreasing heights. -/
theorem findFirstKnown_map_eq_some_iff {f : ℕ → String} {ks : List ℕ} (hks : ks.Pairwise (· > ·))
    {x : String} {h : UInt64} :
    s.findFirstKnown (ks.map f) = some (x, h) ↔
      ∃ k ∈ ks, f k = x ∧ (∃ b, s.blockByHash x = some b ∧ b.header.height = h) ∧
        ∀ k' ∈ ks, k < k' → s.blockByHash (f k') = none := by
  induction ks with
  | nil => simp [findFirstKnown]
  | cons a ks ih =>
      obtain ⟨hbelow, hks⟩ := List.pairwise_cons.mp hks
      rw [List.map_cons, findFirstKnown]
      cases ha : s.blockByHash (f a) with
      | some b =>
          -- the first entry is known
          dsimp only
          constructor
          · intro heq
            cases heq
            refine ⟨a, List.mem_cons_self, rfl, ⟨b, ha, rfl⟩, fun k' hk' hlt => ?_⟩
            rcases List.mem_cons.mp hk' with rfl | hk'
            · omega
            · have := hbelow k' hk'
              omega
          · rintro ⟨k, hk, rfl, ⟨b', hb', rfl⟩, hnone⟩
            rcases List.mem_cons.mp hk with rfl | hk
            · rw [ha] at hb'
              cases hb'
              rfl
            · rw [hnone a List.mem_cons_self (hbelow k hk)] at ha
              cases ha
      | none =>
          dsimp only
          rw [ih hks]
          constructor
          · rintro ⟨k, hk, hx, hb, hnone⟩
            refine ⟨k, List.mem_cons_of_mem _ hk, hx, hb, fun k' hk' hlt => ?_⟩
            rcases List.mem_cons.mp hk' with rfl | hk'
            · exact ha
            · exact hnone k' hk' hlt
          · rintro ⟨k, hk, rfl, ⟨b, hb, hheight⟩, hnone⟩
            rcases List.mem_cons.mp hk with rfl | hk
            · rw [ha] at hb
              cases hb
            · exact ⟨k, hk, rfl, ⟨b, hb, hheight⟩,
                fun k' hk' hlt => hnone k' (List.mem_cons_of_mem _ hk') hlt⟩

end DB

/-! ### Two nodes -/

namespace DB

/-- The answer to the locator is a block of both main chains, and the highest entry of the locator
that is on the main chain of the node that answers. -/
def LocatesCommon (s t : DB) : Prop :=
  ∃ x k, t.chainLocate ⟨"POST", some (s.buildBlockLocator 32)⟩ = ⟨200, some (x, k)⟩ ∧
    s.OnMainChain k x ∧ t.OnMainChain k x ∧
      ∀ x' ∈ s.buildBlockLocator 32, ∀ k', t.OnMainChain k' x' → k' ≤ k

/-- Among the heights of a locator from the tip of `s` there is one at which both main chains have
the same block, and no block of `s` at a higher one is stored in `t`. -/
def SharesLocatorBlock (s t : DB) : Prop :=
  ∀ tipH tipHash, s.getTip = some (tipH, tipHash) →
    ∃ k x, IsLocatorHeight tipH.toNat k.toNat ∧ s.OnMainChain k x ∧ t.OnMainChain k x ∧
      ∀ k' x', k < k' → IsLocatorHeight tipH.toNat k'.toNat → s.OnMainChain k' x' →
        t.blockByHash x' = none

end DB

namespace Node

variable {n : Node} {dom : n.HashDomain} {s t : DB} {tipH : UInt64} {tipHash : String}

/-- On a complete index, the hash at a height is the block of the main chain. -/
theorem onMainChain_iff_hashAt (htree : n.BlockTree dom s) (hidx : s.IndexIsMainChain)
    (htip : s.getTip = some (tipH, tipHash)) {k : UInt64} (hk : k ≤ tipH) {x : String} :
    s.OnMainChain k x ↔ s.hashAt k.toNat = x := by
  obtain ⟨a, ha, hanc⟩ := hidx tipH tipHash htip k hk
  have hat : s.hashAt k.toNat = a := by
    rw [DB.hashAt, UInt64.ofNat_toNat, ha]
    rfl
  constructor
  · rintro ⟨tipH', tipHash', htip', -, hanc'⟩
    rw [htip] at htip'
    cases htip'
    rw [hat]
    exact Ancestry.ancestorAt_unique htree.linked hanc hanc'
  · rintro rfl
    exact ⟨tipH, tipHash, htip, hk, hat ▸ hanc⟩

/-- A block of one main chain has its height wherever it is stored. -/
theorem height_of_onMainChain (hs : n.BlockTree dom s) (ht : n.BlockTree dom t) {k : UInt64}
    {x : String} (hon : s.OnMainChain k x) {b : Block} (hb : t.blockByHash x = some b) :
    b.header.height = k := by
  obtain ⟨_, _, -, -, -, y, hy, hheight⟩ := hon
  obtain ⟨hykey, hyknown⟩ := hs.key x y hy
  obtain ⟨hbkey, hbknown⟩ := ht.key x b hb
  have hhead := dom.injective _ _ hbknown hyknown (hbkey.symm.trans hykey)
  rw [hhead]
  exact UInt64.toNat.inj hheight

/-- Genesis is on every main chain. -/
theorem onMainChain_genesis (hs : n.BlockTree dom s) : s.OnMainChain 0 n.genesisHash := by
  obtain ⟨tip, htip, hstored⟩ := hs.tip
  obtain ⟨a, hanc⟩ := Ancestry.exists_ancestorAt hs.linked hstored (Nat.zero_le tip.height)
  have hon := (hs.onMainChain_iff htip hstored (k := 0)).mpr hanc
  obtain ⟨-, b, hb, hzero⟩ := hanc
  rwa [hs.root a b hb hzero] at hon

/-- At the height of the tip the main chain has the tip. -/
theorem eq_tip_of_onMainChain (hs : n.BlockTree dom s) (htip : s.getTip = some (tipH, tipHash))
    {x : String} (hon : s.OnMainChain tipH x) : x = tipHash := by
  obtain ⟨tip, htip', hstored⟩ := hs.tip
  rw [htip] at htip'
  cases htip'
  have hself : s.AncestorAt (n.hashHex tip.header) tip.header.height.toNat (n.hashHex tip.header) :=
    Ancestry.ancestorAt_self hstored
  exact Ancestry.ancestorAt_unique hs.linked ((hs.onMainChain_iff htip hstored).mp hon) hself

/-- What is on the main chain is stored. -/
theorem stored_of_onMainChain {k : UInt64} {x : String} (hon : s.OnMainChain k x) :
    ∃ b, s.blockByHash x = some b := by
  obtain ⟨_, _, -, -, -, b, hb, -⟩ := hon
  exact ⟨b, hb⟩

/-- The locator of a node with a complete index. -/
theorem buildBlockLocator_eq (hidx : s.IndexIsMainChain)
    (htip : s.getTip = some (tipH, tipHash)) :
    s.buildBlockLocator 32 = (locatorHeights tipH.toNat 32 0).map s.hashAt := by
  have hread : ∀ k : UInt64, k.toNat ≤ tipH.toNat → ∃ x b, s.getBlockByHeight k = some (x, b) := by
    intro k hk
    obtain ⟨a, ha, -, b, hb, -⟩ := hidx tipH tipHash htip k (UInt64.le_iff_toNat_le.mpr hk)
    exact ⟨a, b, DB.getBlockByHeight_eq_some_iff.mpr ⟨ha, hb⟩⟩
  have hloop := DB.locatorLoop_eq hread 32 [] 1 tipH (by simp) rfl rfl
  have hne : s.locatorLoop 32 [] 1 tipH ≠ [] := by
    rw [hloop]
    simp [locatorHeights]
  rw [DB.buildBlockLocator, htip]
  exact (if_neg fun h => hne h.1).trans hloop

/-- A height of a locator is not above the tip. -/
theorem exists_locatorHeight {m : ℕ} (h : m ∈ locatorHeights tipH.toNat 32 0) :
    ∃ k : UInt64, k.toNat = m ∧ k ≤ tipH := by
  obtain ⟨i, -, -, rfl⟩ := isLocatorHeight_iff.mpr h
  have hlt := tipH.toNat_lt
  have hk : (UInt64.ofNat (tipH.toNat - locatorOffset i)).toNat = tipH.toNat - locatorOffset i :=
    UInt64.toNat_ofNat_of_lt' (Nat.lt_of_le_of_lt (Nat.sub_le _ _) hlt)
  exact ⟨_, hk, UInt64.le_iff_toNat_le.mpr (by omega)⟩

/-- The answer to a locator in terms of the two main chains. -/
theorem findFirstKnown_buildBlockLocator_iff (hs : n.BlockTree dom s) (hidx : s.IndexIsMainChain)
    (htip : s.getTip = some (tipH, tipHash)) {x : String} {h : UInt64} :
    t.findFirstKnown (s.buildBlockLocator 32) = some (x, h) ↔
      ∃ k, IsLocatorHeight tipH.toNat k.toNat ∧ s.OnMainChain k x ∧
        (∃ b, t.blockByHash x = some b ∧ b.header.height = h) ∧
          ∀ k' x', k < k' → IsLocatorHeight tipH.toNat k'.toNat → s.OnMainChain k' x' →
            t.blockByHash x' = none := by
  rw [buildBlockLocator_eq hidx htip,
    DB.findFirstKnown_map_eq_some_iff (pairwise_locatorHeights _ _ _)]
  constructor
  · rintro ⟨m, hm, hx, hb, hnone⟩
    obtain ⟨k, rfl, hk⟩ := exists_locatorHeight hm
    refine ⟨k, isLocatorHeight_iff.mpr hm, (onMainChain_iff_hashAt hs hidx htip hk).mpr hx, hb, ?_⟩
    intro k' x' hlt hk' hon
    have hk' := isLocatorHeight_iff.mp hk'
    obtain ⟨k'', heq, hle⟩ := exists_locatorHeight hk'
    cases UInt64.toNat.inj heq
    rw [← (onMainChain_iff_hashAt hs hidx htip hle).mp hon]
    exact hnone _ hk' (UInt64.lt_iff_toNat_lt.mp hlt)
  · -- the list of heights is that of the locator, so each of its heights is on the main chain
    rintro ⟨k, hk, hon, hb, hnone⟩
    have hmem := isLocatorHeight_iff.mp hk
    obtain ⟨k₁, heq, hle⟩ := exists_locatorHeight hmem
    cases UInt64.toNat.inj heq
    refine ⟨_, hmem, (onMainChain_iff_hashAt hs hidx htip hle).mp hon, hb, fun m hm hlt => ?_⟩
    obtain ⟨k', rfl, hle'⟩ := exists_locatorHeight hm
    exact hnone k' _ (UInt64.lt_iff_toNat_lt.mpr hlt) (isLocatorHeight_iff.mpr hm)
      ((onMainChain_iff_hashAt hs hidx htip hle').mpr rfl)

/-- Every entry of a locator is on the main chain of its node, at a height of the locator. -/
theorem onMainChain_of_mem_locator (hs : n.BlockTree dom s) (hidx : s.IndexIsMainChain)
    (htip : s.getTip = some (tipH, tipHash)) {x : String} (hx : x ∈ s.buildBlockLocator 32) :
    ∃ k, IsLocatorHeight tipH.toNat k.toNat ∧ s.OnMainChain k x := by
  rw [buildBlockLocator_eq hidx htip] at hx
  obtain ⟨m, hm, rfl⟩ := List.mem_map.mp hx
  obtain ⟨k, rfl, hk⟩ := exists_locatorHeight hm
  exact ⟨k, isLocatorHeight_iff.mpr hm, (onMainChain_iff_hashAt hs hidx htip hk).mpr rfl⟩

/-- Between any two nodes of one network, the first with a complete height index, a locator of 32
entries finds the highest of its blocks that is on the main chain of the other node, and that block
is on both, exactly when the nodes share a block at a height of the locator and the other node has
stored none above it. -/
theorem locatesCommon_iff (n : Node) (dom : n.HashDomain) (s t : DB) (hs : n.BlockTree dom s)
    (ht : n.BlockTree dom t) (hidx : s.IndexIsMainChain) :
    s.LocatesCommon t ↔ s.SharesLocatorBlock t := by
  obtain ⟨tip, htip, -⟩ := hs.tip
  constructor
  · rintro ⟨x, k, hfound, hson, hton, -⟩ tipH tipHash htip'
    rw [htip] at htip'
    cases htip'
    have hfound : t.findFirstKnown (s.buildBlockLocator 32) = some (x, k) := by
      simpa [DB.chainLocate] using hfound
    obtain ⟨k₁, hk₁, hon₁, -, hnone⟩ :=
      (findFirstKnown_buildBlockLocator_iff hs hidx htip).mp hfound
    -- the block has one height
    obtain ⟨b, hb⟩ := stored_of_onMainChain hson
    have hk : k₁ = k :=
      (height_of_onMainChain hs hs hon₁ hb).symm.trans (height_of_onMainChain hs hs hson hb)
    rw [hk] at hk₁ hnone
    exact ⟨k, x, hk₁, hson, hton, hnone⟩
  · intro hshare
    obtain ⟨k, x, hk, hson, hton, hnone⟩ := hshare _ _ htip
    obtain ⟨b, hb⟩ := stored_of_onMainChain hton
    have hfound := (findFirstKnown_buildBlockLocator_iff hs hidx htip).mpr
      ⟨k, hk, hson, ⟨b, hb, height_of_onMainChain hs ht hson hb⟩, hnone⟩
    refine ⟨x, k, by simp [DB.chainLocate, hfound], hson, hton, fun x' hx' k' hon' => ?_⟩
    obtain ⟨j, hj, hjon⟩ := onMainChain_of_mem_locator hs hidx htip hx'
    obtain ⟨b', hb'⟩ := stored_of_onMainChain hon'
    have hjk : j = k' :=
      (height_of_onMainChain hs ht hjon hb').symm.trans (height_of_onMainChain ht ht hon' hb')
    subst hjk
    apply UInt64.not_lt.mp
    intro hlt
    rw [hnone j x' hlt hj hjon] at hb'
    cases hb'

/-- Where the tip is not too high and the other node has stored no block of this main chain beside
its own, there is such a block. -/
theorem sharesLocatorBlock_of_low (hs : n.BlockTree dom s) (ht : n.BlockTree dom t)
    (hidx : s.IndexIsMainChain)
    (hlow : ∀ tipH tipHash, s.getTip = some (tipH, tipHash) → tipH.toNat ≤ 4194312)
    (hown : ∀ k x b, s.OnMainChain k x → t.blockByHash x = some b → t.OnMainChain k x) :
    s.SharesLocatorBlock t := by
  intro tipH tipHash htip
  -- genesis is in the locator, and the other node has it
  have hmem : n.genesisHash ∈ s.buildBlockLocator 32 := by
    rw [buildBlockLocator_eq hidx htip]
    refine List.mem_map.mpr ⟨0, isLocatorHeight_iff.mp (isLocatorHeight_zero (hlow _ _ htip)), ?_⟩
    exact (onMainChain_iff_hashAt hs hidx htip UInt64.zero_le).mp (onMainChain_genesis hs)
  obtain ⟨⟨x, h⟩, hfound⟩ := DB.exists_findFirstKnown hmem ht.genesis
  obtain ⟨k, hk, hon, ⟨b, hb, -⟩, hnone⟩ :=
    (findFirstKnown_buildBlockLocator_iff hs hidx htip).mp hfound
  exact ⟨k, x, hk, hon, hown k x b hon hb, hnone⟩

end Node

namespace Sample

/-- A node that has received the light block of height one only. -/
def lightDB : DB := node.submit (node.genesisDB ∅) (0, fork₁)

/-- A node that has switched from that block to a heavier one. -/
def heavyDB : DB := node.submit lightDB (0, main₁)

theorem collisionFree_heavy : node.CollisionFree [fork₁, main₁] :=
  collisionFree_blocks.of_subset rfl rfl (by simp)

theorem blockTree_light : node.BlockTree collisionFree_heavy.domain lightDB :=
  (Node.blockTree_genesisDB _ ∅).submit (collisionFree_heavy.known (by simp))

theorem blockTree_heavy : node.BlockTree collisionFree_heavy.domain heavyDB :=
  blockTree_light.submit (collisionFree_heavy.known (by simp))

theorem indexIsMainChain_light : lightDB.IndexIsMainChain :=
  ((Node.blockTree_genesisDB collisionFree_heavy.domain ∅).indexIsMainChain_submit_iff
    (Node.anchored_genesisDB ∅) (collisionFree_heavy.known (by simp))
    (Node.indexIsMainChain_genesisDB ∅)).mpr keepsIndex_heavier.1

theorem indexIsMainChain_heavy : heavyDB.IndexIsMainChain := by
  have hanchored : lightDB.Anchored :=
    (Node.blockTree_genesisDB collisionFree_heavy.domain ∅).anchored_submit
      (collisionFree_heavy.known (by simp)) (Node.anchored_genesisDB ∅)
  exact (blockTree_light.indexIsMainChain_submit_iff hanchored
    (collisionFree_heavy.known (by simp)) indexIsMainChain_light).mpr keepsIndex_heavier.2.1

/-- The two nodes have tips of height one, on different blocks, and the first has not stored that
of the second. The second answers the first with the first one's tip. -/
theorem read_light_heavy :
    lightDB.getTip = some (1, node.hashHex fork₁.header) ∧
      heavyDB.getTip = some (1, node.hashHex main₁.header) ∧
      lightDB.blockByHash (node.hashHex main₁.header) = none ∧
      node.hashHex main₁.header ≠ node.hashHex fork₁.header ∧
      heavyDB.chainLocate ⟨"POST", some (lightDB.buildBlockLocator 32)⟩ =
        ⟨200, some (node.hashHex fork₁.header, 1)⟩ := by
  decide +kernel

end Sample

namespace Node

open Sample

/-- The node on the heavier branch asks the one that has not seen it: they agree on genesis. -/
theorem locatesCommon_heavy :
    (node.BlockTree collisionFree_heavy.domain heavyDB ∧
      node.BlockTree collisionFree_heavy.domain lightDB ∧ heavyDB.IndexIsMainChain) ∧
      heavyDB.LocatesCommon lightDB := by
  refine ⟨⟨blockTree_heavy, blockTree_light, indexIsMainChain_heavy⟩, ?_⟩
  apply (locatesCommon_iff node collisionFree_heavy.domain heavyDB lightDB blockTree_heavy
    blockTree_light indexIsMainChain_heavy).mpr
  obtain ⟨-, htipH, hnone, -⟩ := read_light_heavy
  apply sharesLocatorBlock_of_low blockTree_heavy blockTree_light indexIsMainChain_heavy
  · intro tipH tipHash h
    rw [htipH] at h
    cases h
    decide
  · intro k x b hon hb
    have hk : k.toNat ≤ 1 := by
      obtain ⟨_, _, htip, hle, -⟩ := id hon
      rw [htipH] at htip
      cases htip
      exact UInt64.le_iff_toNat_le.mp hle
    rcases Nat.le_one_iff_eq_zero_or_eq_one.mp hk with hzero | hone
    · cases UInt64.toNat.inj (b := 0) hzero
      obtain ⟨_, _, -, -, -, y, hy, hheight⟩ := hon
      rw [blockTree_heavy.root x y hy hheight]
      exact onMainChain_genesis blockTree_light
    · -- the block of height one has not been seen
      cases UInt64.toNat.inj (b := 1) hone
      rw [eq_tip_of_onMainChain blockTree_heavy htipH hon, hnone] at hb
      cases hb

/-- The node on the lighter branch asks the other one, which answers with a block that it has
abandoned. -/
theorem not_locatesCommon_light :
    (node.BlockTree collisionFree_heavy.domain lightDB ∧
      node.BlockTree collisionFree_heavy.domain heavyDB ∧ lightDB.IndexIsMainChain ∧
      heavyDB.IndexIsMainChain) ∧
      heavyDB.chainLocate ⟨"POST", some (lightDB.buildBlockLocator 32)⟩ =
        ⟨200, some (node.hashHex fork₁.header, 1)⟩ ∧
      ¬ heavyDB.OnMainChain 1 (node.hashHex fork₁.header) ∧ ¬ lightDB.LocatesCommon heavyDB := by
  obtain ⟨-, htipH, -, hne, hanswer⟩ := read_light_heavy
  have hoff : ¬ heavyDB.OnMainChain 1 (node.hashHex fork₁.header) := fun hon =>
    hne (eq_tip_of_onMainChain blockTree_heavy htipH hon).symm
  refine ⟨⟨blockTree_light, blockTree_heavy, indexIsMainChain_light, indexIsMainChain_heavy⟩,
    hanswer, hoff, ?_⟩
  rintro ⟨x, k, hx, -, hon, -⟩
  rw [hanswer] at hx
  obtain ⟨hhash, hheight⟩ := Prod.mk.inj (Option.some.inj (LocateResponse.mk.inj hx).2)
  rw [← hhash, ← hheight] at hon
  exact hoff hon

end Node

end ReserveOS
