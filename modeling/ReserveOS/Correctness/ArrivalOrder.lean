import ReserveOS.Correctness.Bodies
import ReserveOS.Correctness.Exits
import ReserveOS.Correctness.Work

/-!
# The order in which blocks arrive

Two nodes that receive the same blocks, parents before children, should end on equally heavy tips.
They need not: a block on the tip is checked against the stored ledger and may be refused, while the
same block off the tip is stored and switched to without that check. Nothing else depends on the
order (`sameWeight_of_stateAccepted`).
-/

namespace ReserveOS

namespace DB

/-- With genesis as the anchor, the walk of a switch succeeds and ends at genesis. -/
theorem walkBack_zero {n : Node} {dom : n.HashDomain} {s : DB} (h : n.BlockTree dom s) (k : ℕ)
    {x : String} {b : Block} (hb : s.blockByHash x = some b) (hk : b.height = k)
    (acc : List String) : ∃ path, s.walkBack 0 k x acc = .ok (n.genesisHash :: path) := by
  induction k generalizing x b acc with
  | zero =>
      rw [h.root x b hb hk, walkBack, if_pos rfl]
      exact ⟨acc, rfl⟩
  | succ k ih =>
      obtain ⟨p, hp, hheight⟩ := h.linked x b hb (by omega)
      obtain ⟨path, hpath⟩ := ih hp (by omega) (x :: acc)
      refine ⟨path, ?_⟩
      -- neither the stop at the anchor nor the check below it applies at a positive height
      have hzero : (0 : UInt64).toNat = 0 := rfl
      rw [walkBack, if_neg (by omega), hb]
      dsimp only
      rw [if_neg (by omega)]
      exact hpath

/-- With genesis as the anchor, a switch to a stored block is only refused by the allocation. -/
theorem exists_candidatePath {n : Node} {dom : n.HashDomain} {s : DB} (h : n.BlockTree dom s)
    (hfin : s.finalized = some (0, n.genesisHash)) {x : String} {b : Block}
    (hb : s.blockByHash x = some b) (hcap : makesliceFails (pathCap 0 b.header.height) = false) :
    ∃ p, s.candidatePath x b.header.height = .ok p := by
  obtain ⟨path, hpath⟩ := walkBack_zero h b.header.height.toNat hb rfl []
  exact ⟨(0, n.genesisHash :: path), candidatePath_eq_ok_iff.mpr
    ⟨n.genesisHash, switchAnchor_of_finalized hfin, hcap, hpath, rfl⟩⟩

/-- No stored block has more work than the tip. -/
def TipHeaviest (s : DB) : Prop :=
  ∀ x b w, s.blockByHash x = some b → s.work x = some w → w ≤ s.getTipWork

end DB

namespace Node

variable (n : Node)

/-- The block passes every check of `SubmitBlock` that reads no database, and is above genesis. -/
def Eligible (b : Block) : Prop :=
  b.header.chainID = n.genesis.chainID ∧ n.BodyChecked b ∧
    meetsTarget (b.header.hash n.prim.sha256) b.header.bits = true ∧ b.header.height ≠ 0

/-- A block that is eligible and whose parent is stored passes the state checks that apply to it,
and a switch to it can be carried out. -/
def StateAccepted (s : DB) (c : Int64 × Block) : Prop :=
  n.Eligible c.2 → n.checkParent s c.2 = .ok () → n.validateBlockStateOnMainParent s c.2 = .ok () ∧
    (extendsTip s c.2 = true → n.validateBlockStateTip s.ledger c.2 = .ok ()) ∧
    (extendsTip s c.2 = false → s.getTipWork < cumWork s c.2 →
      DB.makesliceFails (DB.pathCap 0 c.2.header.height) = false)

/-- No block of the list is the parent of an earlier one. -/
def ParentsFirst (bs : List Block) : Prop :=
  bs.Pairwise fun b c => n.hashHex c.header ≠ b.prevHex

instance (bs : List Block) : Decidable (n.ParentsFirst bs) :=
  @List.instDecidablePairwise Block (fun b c => n.hashHex c.header ≠ b.prevHex)
    (fun _ _ => instDecidableNot) bs

variable {n} {dom : n.HashDomain} {s t : DB} {b : Block} {c : Int64 × Block}

/-- What `SubmitBlock` checks before its first write, in three parts. -/
theorem preStore_eq_true_iff : n.preStore s b = .ok true ↔
    n.Eligible b ∧ n.validateBlockStateOnMainParent s b = .ok () ∧ n.checkParent s b = .ok () := by
  unfold preStore Eligible BodyChecked
  by_cases hchain : b.header.chainID = n.genesis.chainID
  · rw [if_neg (not_not.mpr hchain)]
    simp only [Res.bind_eq_ok]
    constructor
    · -- the checks in the order in which they are made
      rintro ⟨⟨⟩, hlim, ⟨⟩, hmain, ⟨⟩, hbasic, h⟩
      obtain ⟨hpow, h⟩ := Res.ite_error_eq_ok.mp h
      split at h
      · cases h
      next hheight =>
        obtain ⟨⟨⟩, hparent, -⟩ := Res.bind_eq_ok.mp h
        exact ⟨⟨hchain, ⟨hlim, hbasic⟩, not_not.mp hpow, hheight⟩, hmain, hparent⟩
    · rintro ⟨⟨-, ⟨hlim, hbasic⟩, hpow, hheight⟩, hmain, hparent⟩
      refine ⟨(), hlim, (), hmain, (), hbasic, ?_⟩
      rw [if_neg (not_not.mpr hpow), if_neg hheight, hparent]
      rfl
  · rw [if_pos hchain]
    simp [hchain]

/-- Without a required difficulty, the parent rules say that the parent is stored one below. -/
theorem checkParent_eq_ok_iff (hnext : ∀ f g h, n.prim.nextWorkRequired f g h = none) :
    n.checkParent s b = .ok () ↔
      ∃ p, s.blockByHash b.prevHex = some p ∧ p.header.height + 1 = b.header.height := by
  have hbits : n.checkBits s b = .ok () := by
    rw [checkBits, hnext]
  unfold checkParent
  rw [hbits]
  cases hp : s.blockByHash b.prevHex with
  | none => simp
  | some p =>
      by_cases hheight : p.header.height + 1 = b.header.height
      · simp [hheight]
      · simp [hheight]

/-! ### One step -/

/-- What holds in every state of a run with finality disabled and all state checks passed. -/
structure Converging (dom : n.HashDomain) (P : Block → Prop) (s : DB) : Prop where
  tree : n.BlockTree dom s
  table : n.WorkTable dom s
  finalized : s.finalized = some (0, n.genesisHash)
  heaviest : s.TipHeaviest
  only : n.StoresOnly P s

/-- Storing a block whose work the new tip work reaches keeps the tip the heaviest. -/
theorem tipHeaviest_of_stored (h : s.TipHeaviest)
    (hblk : t.blockByHash = (n.stored s b).blockByHash) (hwork : t.work = (n.stored s b).work)
    (hcum : cumWork s b ≤ t.getTipWork) (htip : s.getTipWork ≤ t.getTipWork) : t.TipHeaviest := by
  intro x d w hx hw
  rw [hblk, blockByHash_stored] at hx
  rw [hwork] at hw
  split at hx
  next heq =>
    rw [heq, work_stored_self] at hw
    rw [← Option.some.inj hw]
    exact hcum
  next hne =>
    -- another block: its entry is as it was
    rw [work_stored, Function.update_of_ne hne] at hw
    exact UInt64.le_trans (h x d w hx hw) htip

theorem finalized_advanceTip (hfin : n.finalityEnabled = false) (now : Int64) (s : DB) (b : Block)
    (cum : UInt64) : n.advanceTip now s b cum = n.moveTip s b cum := by
  rw [advanceTip, hfin]
  rfl

/-- Without finality, `SubmitBlock` finalizes nothing. -/
theorem finalized_submitBlock (hfin : n.finalityEnabled = false) (now : Int64) (s : DB)
    (b : Block) :
    (n.submitBlock now s b).2.finalized = s.finalized := by
  have hout := n.submitBlock_outcome now s b
  generalize n.submitBlock now s b = res at hout
  have hstored : (n.stored s b).finalized = s.finalized := (sameFinality_stored s b).finalized
  cases hout with
  | rejected e hpre => rfl
  | ignored hpre => rfl
  | invalidTip e hpre hext hval => exact hstored
  | extended hpre hext hval =>
      rw [finalized_advanceTip hfin]
      exact (sameFinality_moveTip (n.stored s b) b (cumWork s b)).finalized.trans hstored
  | forkStored r hpre hext hkeep hres => exact hstored
  | switched finH path hpre hext hwork hpath =>
      obtain ⟨-, -, -, hsame⟩ := sameTables_rebuild (n := n) ((n.stored s b).switchTo finH path
        (n.hashHex b.header) b.header.height) (cumWork s b)
      exact (hsame.finalized.trans (sameFinality_switchTo ..).finalized).trans hstored

/-- A block that passes the state checks at its turn keeps the tip the heaviest. -/
theorem Converging.heaviest_submitBlock {P : Block → Prop} (h : n.Converging dom P s)
    (hb : dom.known c.2.header) (hok : n.StateAccepted s c) :
    (n.submit s c).TipHeaviest := by
  obtain ⟨now, b⟩ := c
  have hmono : s.getTipWork ≤ (n.submitBlock now s b).2.getTipWork :=
    h.table.tipWork_le_submitBlock now
  show (n.submitBlock now s b).2.TipHeaviest
  have hout := n.submitBlock_outcome now s b
  generalize n.submitBlock now s b = res at hout hmono
  cases hout with
  | rejected e hpre => exact h.heaviest
  | ignored hpre => exact h.heaviest
  | invalidTip e hpre hext hval =>
      -- excluded: the tip check passes
      obtain ⟨hel, -, hpar⟩ := preStore_eq_true_iff.mp hpre
      have hok' := (hok hel hpar).2.1 hext
      rw [hval] at hok'
      cases hok'
  | extended hpre hext hval =>
      have hsame := n.sameChain_advanceTip now (n.stored s b) b (cumWork s b)
      have hblk : (n.advanceTip now (n.stored s b) b (cumWork s b)).blockByHash =
          (n.stored s b).blockByHash := hsame.blockByHash
      have hwork : (n.advanceTip now (n.stored s b) b (cumWork s b)).work = (n.stored s b).work :=
        hsame.work
      refine tipHeaviest_of_stored h.heaviest hblk hwork ?_ hmono
      rw [DB.getTipWork, hsame.tipWork]
      exact UInt64.le_refl _
  | forkStored r hpre hext hkeep hres =>
      show (n.stored s b).TipHeaviest
      refine tipHeaviest_of_stored h.heaviest rfl rfl ?_ hmono
      -- a heavier block would have been switched to
      apply UInt64.not_lt.mp
      intro hwork
      obtain ⟨hel, -, hpar⟩ := preStore_eq_true_iff.mp hpre
      have hst := h.tree.stored (storable_of_preStore n hpre) hb
      have hfin : (n.stored s b).finalized = some (0, n.genesisHash) :=
        (sameFinality_stored s b).finalized.trans h.finalized
      obtain ⟨p, hp⟩ := DB.exists_candidatePath hst hfin blockByHash_stored_self
        ((hok hel hpar).2.2 hext hwork)
      obtain ⟨e, he⟩ := hkeep hwork
      rw [hp] at he
      cases he
  | switched finH path hpre hext hwork hpath =>
      obtain ⟨hblk, -, -, -⟩ := sameTables_rebuild (n := n) ((n.stored s b).switchTo finH path
        (n.hashHex b.header) b.header.height) (cumWork s b)
      exact tipHeaviest_of_stored h.heaviest (hblk.trans (DB.blockByHash_switchTo ..))
        ((work_rebuild _ _).trans (work_switchTo ..)) (UInt64.le_refl _) hmono

/-- An accepted call keeps the invariant. -/
theorem Converging.submit {P : Block → Prop} (h : n.Converging dom P s)
    (hfin : n.finalityEnabled = false) (hb : dom.known c.2.header)
    (hP : n.preStore s c.2 = .ok true → P c.2) (hok : n.StateAccepted s c) :
    n.Converging dom P (n.submit s c) where
  tree := h.tree.submit hb
  table := h.table.submitBlock h.tree hb c.1
  finalized := (finalized_submitBlock hfin c.1 s c.2).trans h.finalized
  heaviest := h.heaviest_submitBlock hb hok
  only := h.only.submitBlock hP c.1

/-- The invariant holds at the start. -/
theorem converging_genesisDB {P : Block → Prop} (registry : Table RegValidator) :
    n.Converging dom P (n.genesisDB registry) where
  tree := blockTree_genesisDB dom registry
  table := workTable_genesisDB registry
  finalized := rfl
  heaviest := by
    intro x b w hx hw
    -- the only entry is the one of genesis, and it is the tip work
    have hgen : x = n.genesisHash := by
      rw [blockByHash_genesisDB, Function.update_apply] at hx
      split at hx
      next heq => exact heq
      next => cases hx
    have htable : n.WorkTable dom (n.genesisDB registry) := workTable_genesisDB registry
    rw [hgen, htable.genesis] at hw
    rw [← Option.some.inj hw]
    exact UInt64.le_refl _
  only := storesOnly_genesisDB registry

/-! ### Whole runs -/

/-- A run writes under a hash only what it was given under that hash. -/
theorem blockByHash_foldl_submit {x : String} (calls : List (Int64 × Block)) (s : DB)
    (hx : ∀ c ∈ calls, n.hashHex c.2.header ≠ x) :
    (calls.foldl n.submit s).blockByHash x = s.blockByHash x := by
  induction calls generalizing s with
  | nil => rfl
  | cons c calls ih =>
      rw [List.foldl_cons, ih _ fun c' h' => hx c' (List.mem_cons_of_mem _ h')]
      rcases n.blockByHash_submitBlock c.1 s c.2 with ⟨-, hsame⟩ | ⟨-, hblk⟩
      · rw [submit, hsame]
      · rw [submit, hblk, blockByHash_stored, if_neg (hx c List.mem_cons_self).symm]

/-- A run never forgets a block. -/
theorem isSome_foldl_submit {x : String} (calls : List (Int64 × Block)) (s : DB)
    (hx : (s.blockByHash x).isSome = true) :
    ((calls.foldl n.submit s).blockByHash x).isSome = true := by
  induction calls generalizing s with
  | nil => exact hx
  | cons c calls ih =>
      apply ih
      rcases n.blockByHash_submitBlock c.1 s c.2 with ⟨-, hsame⟩ | ⟨-, hblk⟩
      · rw [submit, hsame]
        exact hx
      · rw [submit, hblk, blockByHash_stored]
        split
        · rfl
        · exact hx

section Run

variable (registry : Table RegValidator) {calls : List (Int64 × Block)}
  (hfin : n.finalityEnabled = false) (hknown : ∀ c ∈ calls, dom.known c.2.header)
  (hok : Run.Admitted n.submit n.StateAccepted (n.genesisDB registry) calls)

include hfin hknown hok

/-- The invariant holds in every state of the run; what is stored was submitted and is eligible. -/
theorem converging_states : ∀ t ∈ Run.states n.submit (n.genesisDB registry) calls,
    n.Converging dom (fun b => b ∈ calls.map Prod.snd ∧ n.Eligible b) t := by
  refine Run.invariant (E := fun c => c ∈ calls) (fun s c hs hc hsok => ?_) (fun c hc => hc)
    (converging_genesisDB registry) hok
  exact hs.submit hfin (hknown c hc)
    (fun hpre => ⟨List.mem_map_of_mem hc, (preStore_eq_true_iff.mp hpre).1⟩) hsok

theorem converging_run : n.Converging dom (fun b => b ∈ calls.map Prod.snd ∧ n.Eligible b)
    (calls.foldl n.submit (n.genesisDB registry)) :=
  converging_states registry hfin hknown hok _ (Run.foldl_mem_states n.submit _ calls)

/-- With parents first, every eligible block whose parent ends up stored ends up stored. -/
theorem stored_of_parent_stored (hnext : ∀ f g h, n.prim.nextWorkRequired f g h = none)
    (hfirst : n.ParentsFirst (calls.map Prod.snd)) (hb : b ∈ calls.map Prod.snd)
    (hel : n.Eligible b) {p : Block}
    (hp : (calls.foldl n.submit (n.genesisDB registry)).blockByHash b.prevHex = some p)
    (hheight : p.header.height + 1 = b.header.height) :
    ∃ b', (calls.foldl n.submit (n.genesisDB registry)).blockByHash (n.hashHex b.header) = some b' ∧
      b'.header = b.header := by
  have hend := converging_run registry hfin hknown hok
  obtain ⟨c, hc, rfl⟩ := List.mem_map.mp hb
  obtain ⟨pre, post, hsplit⟩ := List.append_of_mem hc
  -- neither the block itself nor a later one is its parent
  have hlater : ∀ c' ∈ c :: post, n.hashHex c'.2.header ≠ c.2.prevHex := by
    intro c' hc'
    rcases List.mem_cons.mp hc' with rfl | hc'
    · intro hself
      rw [← hself] at hp
      rw [hend.tree.header_eq (hknown _ hc) hp] at hheight
      exact absurd hheight (by simp)
    · rw [ParentsFirst, hsplit, List.map_append, List.map_cons] at hfirst
      have htail := (List.pairwise_append.mp hfirst).2.1
      exact (List.pairwise_cons.mp htail).1 c'.2 (List.mem_map_of_mem hc')
  -- so the parent was there at the block's turn, and the block was stored
  have hrun : calls.foldl n.submit (n.genesisDB registry) =
      (c :: post).foldl n.submit (pre.foldl n.submit (n.genesisDB registry)) := by
    rw [hsplit, List.foldl_append]
  rw [hrun, blockByHash_foldl_submit _ _ hlater] at hp
  rw [hsplit] at hok
  obtain ⟨hturn, -⟩ := hok.right
  have hpar := (checkParent_eq_ok_iff hnext).mpr ⟨p, hp, hheight⟩
  have hpre : n.preStore (pre.foldl n.submit (n.genesisDB registry)) c.2 = .ok true :=
    preStore_eq_true_iff.mpr ⟨hel, (hturn hel hpar).1, hpar⟩
  have hsome : (((c :: post).foldl n.submit (pre.foldl n.submit (n.genesisDB registry))).blockByHash
      (n.hashHex c.2.header)).isSome = true := by
    rw [List.foldl_cons]
    apply isSome_foldl_submit
    rcases n.blockByHash_submitBlock c.1 (pre.foldl n.submit (n.genesisDB registry)) c.2 with
      ⟨hne, -⟩ | ⟨-, hblk⟩
    · exact absurd hpre hne
    · rw [submit, hblk, blockByHash_stored_self]
      rfl
  rw [← hrun] at hsome
  obtain ⟨b', hb'⟩ := Option.isSome_iff_exists.mp hsome
  exact ⟨b', hb', hend.tree.header_eq (hknown _ hc) hb'⟩

end Run

section TwoRuns

variable (registry : Table RegValidator) {calls calls' : List (Int64 × Block)}
  (hfin : n.finalityEnabled = false)
  (hnext : ∀ f g h, n.prim.nextWorkRequired f g h = none)
  (hknown : ∀ c ∈ calls, dom.known c.2.header) (hknown' : ∀ c ∈ calls', dom.known c.2.header)
  (hsub : ∀ b, b ∈ calls.map Prod.snd → b ∈ calls'.map Prod.snd)
  (hfirst' : n.ParentsFirst (calls'.map Prod.snd))
  (hok : Run.Admitted n.submit n.StateAccepted (n.genesisDB registry) calls)
  (hok' : Run.Admitted n.submit n.StateAccepted (n.genesisDB registry) calls')

include hfin hnext hknown hknown' hsub hfirst' hok hok'

/-- Whatever one node stores, the other stores under the same header and with the same work. -/
theorem stored_of_stored (k : ℕ) {x : String} {b : Block}
    (hb : (calls.foldl n.submit (n.genesisDB registry)).blockByHash x = some b)
    (hk : b.height = k) :
    ∃ b', (calls'.foldl n.submit (n.genesisDB registry)).blockByHash x = some b' ∧
      b'.header = b.header ∧ (calls'.foldl n.submit (n.genesisDB registry)).work x =
        (calls.foldl n.submit (n.genesisDB registry)).work x := by
  have hend := converging_run registry hfin hknown hok
  have hend' := converging_run registry hfin hknown' hok'
  -- induction on the height: the parent is stored at the other node too
  induction k generalizing x b with
  | zero =>
      obtain rfl := hend.tree.root x b hb hk
      rw [hend.tree.genesis] at hb
      cases hb
      exact ⟨_, hend'.tree.genesis, rfl, hend'.table.genesis.trans hend.table.genesis.symm⟩
  | succ k ih =>
      obtain ⟨p, hp, hheight⟩ := hend.tree.linked x b hb (by omega)
      obtain ⟨p', hp', hheader, hpwork⟩ := ih hp (by omega)
      obtain ⟨rfl, hkn⟩ := hend.tree.key x b hb
      have hzero : b.header.height ≠ 0 := fun h0 => by
        have h0' : b.height = 0 := congrArg UInt64.toNat h0
        omega
      have hne := n.ne_genesis_of_height_ne_zero hzero
      -- only genesis is stored without having been delivered
      obtain ⟨hmem, hel⟩ : b ∈ calls.map Prod.snd ∧ n.Eligible b := by
        rcases hend.only _ b hb with rfl | h
        · exact absurd rfl hne
        · exact h
      have hsucc : p'.header.height + 1 = b.header.height := by
        rw [hheader]
        apply UInt64.toNat.inj
        have hlt := b.header.height.toNat_lt
        have hh : b.header.height.toNat = p.header.height.toNat + 1 := hheight
        rw [toNat_succ_of_lt (by omega), hh]
      obtain ⟨b', hb', hhead⟩ := stored_of_parent_stored registry hfin hknown' hok' hnext hfirst'
        (hsub b hmem) hel hp' hsucc
      refine ⟨b', hb', hhead, ?_⟩
      -- both entries are computed from the parent's
      obtain ⟨w, hw⟩ := hend.table.stored _ _ hb
      obtain ⟨w', hw'⟩ := hend'.table.stored _ _ hb'
      obtain ⟨q, hq, rfl⟩ := hend.table.entry b.header w hkn hne hw
      obtain ⟨q', hq', rfl⟩ := hend'.table.entry b.header w' hkn hne hw'
      have hqq : q' = q := Option.some.inj ((hq'.symm.trans hpwork).trans hq)
      rw [hw, hw', hqq]

/-- The tip of one node has no more work than the tip of the other. -/
theorem tipWork_le_of_stored :
    (calls.foldl n.submit (n.genesisDB registry)).getTipWork ≤
      (calls'.foldl n.submit (n.genesisDB registry)).getTipWork := by
  have hend := converging_run registry hfin hknown hok
  have hend' := converging_run registry hfin hknown' hok'
  obtain ⟨t, htip, ht⟩ := hend.tree.tip
  obtain ⟨w, hw, htw⟩ := hend.table.exists_tipWork hend.tree htip
  obtain ⟨t', ht', -, hwork⟩ := stored_of_stored registry hfin hnext hknown hknown' hsub hfirst' hok
    hok' t.height ht rfl
  have hle := hend'.heaviest _ t' w ht' (hwork.trans hw)
  rw [DB.getTipWork, htw]
  exact hle

end TwoRuns

/-- With finality disabled and no required difficulty, two nodes that receive the same blocks in two
orders, parents before children, end on tips of equal work, and on the same tip if only one stored
block has that work, as long as each block that passes the checks of its own contents passes the
state checks at its turn. -/
theorem sameWeight_of_stateAccepted (n : Node) (registry : Table RegValidator)
    (calls calls' : List (Int64 × Block)) (hfin : n.finalityEnabled = false)
    (hnext : ∀ f g h, n.prim.nextWorkRequired f g h = none)
    (hcf : n.CollisionFree (calls.map Prod.snd))
    (hsame : ∀ b, b ∈ calls.map Prod.snd ↔ b ∈ calls'.map Prod.snd)
    (hfirst : n.ParentsFirst (calls.map Prod.snd)) (hfirst' : n.ParentsFirst (calls'.map Prod.snd))
    (hok : Run.Admitted n.submit n.StateAccepted (n.genesisDB registry) calls)
    (hok' : Run.Admitted n.submit n.StateAccepted (n.genesisDB registry) calls') :
    let s := calls.foldl n.submit (n.genesisDB registry)
    let s' := calls'.foldl n.submit (n.genesisDB registry)
    ∃ k x k' x' w, s.getTip = some (k, x) ∧ s'.getTip = some (k', x') ∧
      s.work x = some w ∧ s'.work x' = some w ∧
      ((∀ y b, s.blockByHash y = some b → s.work y = some w → y = x) → (k', x') = (k, x)) := by
  intro s s'
  have hknown : ∀ c ∈ calls, hcf.domain.known c.2.header := fun c hc =>
    hcf.known (List.mem_map_of_mem hc)
  have hknown' : ∀ c ∈ calls', hcf.domain.known c.2.header := fun c hc =>
    hcf.known ((hsame c.2).mpr (List.mem_map_of_mem hc))
  have hend := converging_run registry hfin hknown hok
  have hend' := converging_run registry hfin hknown' hok'
  obtain ⟨t, htip, ht⟩ := hend.tree.tip
  obtain ⟨t', htip', ht'⟩ := hend'.tree.tip
  obtain ⟨w, hw, htw⟩ := hend.table.exists_tipWork hend.tree htip
  obtain ⟨w', hw', htw'⟩ := hend'.table.exists_tipWork hend'.tree htip'
  -- each tip is as heavy as the other
  have hle :=
    tipWork_le_of_stored registry hfin hnext hknown hknown' (fun b => (hsame b).mp) hfirst'
    hok hok'
  have hge :=
    tipWork_le_of_stored registry hfin hnext hknown' hknown (fun b => (hsame b).mpr) hfirst
    hok' hok
  have hww : w' = w := by
    rw [DB.getTipWork, DB.getTipWork, htw, htw'] at hle hge
    exact UInt64.le_antisymm hge hle
  subst hww
  refine ⟨_, _, _, _, w', htip, htip', hw, hw', fun honly => ?_⟩
  -- the other node's tip is stored here too, with the greatest work
  obtain ⟨d, hd, hhead, hdwork⟩ := stored_of_stored registry hfin hnext hknown' hknown
    (fun b => (hsame b).mpr) hfirst hok' hok t'.height ht' rfl
  have hx : n.hashHex t'.header = n.hashHex t.header := honly _ d hd (hdwork.trans hw')
  rw [hx] at ht'
  have hheader : t'.header = t.header :=
    hend'.tree.header_eq (hend.tree.key _ _ ht).2 ht'
  rw [hheader]

open Sample

/-- A heavy and a light block of height one, in both orders. -/
theorem sameWeight_of_stateAccepted_heavier :
    let s := [((0 : Int64), main₁), (0, fork₁)].foldl node.submit
      (node.genesisDB ∅)
    let s' := [((0 : Int64), fork₁), (0, main₁)].foldl node.submit
      (node.genesisDB ∅)
    ∃ k x k' x' w, s.getTip = some (k, x) ∧ s'.getTip = some (k', x') ∧
      s.work x = some w ∧ s'.work x' = some w ∧
      ((∀ y b, s.blockByHash y = some b → s.work y = some w → y = x) → (k', x') = (k, x)) := by
  refine sameWeight_of_stateAccepted node ∅ _ _ rfl (fun _ _ _ => rfl) (by decide +kernel)
    (fun b => ?_) (by decide +kernel) (by decide +kernel) ⟨?_, ?_, trivial⟩ ⟨?_, ?_, trivial⟩
  · simp only [List.map_cons, List.map_nil, List.mem_cons, List.not_mem_nil, or_false]
    exact or_comm
  all_goals
    intro _ _
    exact ⟨by decide +kernel, fun _ => by decide +kernel, fun _ _ => by decide +kernel⟩

/-- A heavy block with a wrong nonce and a light block: the node that receives the heavy block first
refuses it and ends on the light one, the other one switches to the heavy block. -/
theorem not_sameWeight_skipping :
    node.finalityEnabled = false ∧ (∀ f g h, node.prim.nextWorkRequired f g h = none) ∧
      node.CollisionFree [skipping, fork₁] ∧
      node.ParentsFirst [skipping, fork₁] ∧
      node.ParentsFirst [fork₁, skipping] ∧
      ([((0 : Int64), skipping), (0, fork₁)].foldl node.submit
        (node.genesisDB ∅)).tipWork ≠
      ([((0 : Int64), fork₁), (0, skipping)].foldl node.submit
        (node.genesisDB ∅)).tipWork := by
  refine ⟨rfl, fun _ _ _ => rfl, ?_⟩
  decide +kernel

end Node

end ReserveOS
