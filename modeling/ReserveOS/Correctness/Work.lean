import ReserveOS.Correctness.Anchor
import ReserveOS.Node.Sync

/-!
# Cumulative work

Work entries are written by `SubmitBlock` and by the header scoring of `syncOnce`, each from the
entry of the parent as it stands. `WorkTable` is the invariant of the table: every entry belongs to
a header and is the saturating sum of its parent's entry and the header's own work. So a later write
never changes an entry (`WorkTable.work_keep`), and the entry of a stored block is the work of its
path from genesis (`WorkTable.work_eq`).

The genesis entry must not be scored again. Its parent hash is zero, and the assumption is that no
header of the run hashes to zero.
-/

namespace ReserveOS

/-! ### Saturating sums -/

/-- The greatest `uint64`. -/
def maxWork : ℕ := 2 ^ 64 - 1

/-- Work is added with saturation. -/
theorem toNat_cumulative (p a : UInt64) :
    (cumulative p a).toNat = min maxWork (p.toNat + a.toNat) := by
  have hp := p.toNat_lt
  have ha := a.toNat_lt
  have hmax : (0xffffffffffffffff : UInt64).toNat = maxWork := rfl
  unfold cumulative maxWork at *
  split
  next hlt =>
    -- the sum wrapped, so it is at least `2 ^ 64`
    rw [UInt64.lt_iff_toNat_lt, UInt64.toNat_add] at hlt
    rw [hmax]
    omega
  next hge =>
    rw [UInt64.lt_iff_toNat_lt, UInt64.toNat_add] at hge
    rw [UInt64.toNat_add]
    omega

/-- Accumulating work never lowers it. -/
theorem le_cumulative (p a : UInt64) : p ≤ cumulative p a := by
  have hp := p.toNat_lt
  rw [UInt64.le_iff_toNat_le, toNat_cumulative]
  unfold maxWork
  omega

/-- The work of a list of blocks, without saturation. -/
def totalWork (bs : List Block) : ℕ := (bs.map fun b => (work64 b.header.bits).toNat).sum

theorem totalWork_append (bs bs' : List Block) :
    totalWork (bs ++ bs') = totalWork bs + totalWork bs' := by
  simp [totalWork]

/-- The work of a list of blocks as the code stores it. -/
def satWork (bs : List Block) : UInt64 := UInt64.ofNat (min maxWork (totalWork bs))

theorem toNat_satWork (bs : List Block) : (satWork bs).toNat = min maxWork (totalWork bs) := by
  unfold satWork maxWork
  rw [UInt64.toNat_ofNat']
  omega

/-- Saturation commutes with adding one more block. -/
theorem cumulative_satWork (bs : List Block) (b : Block) :
    cumulative (satWork bs) (work64 b.header.bits) = satWork (bs ++ [b]) := by
  apply UInt64.toNat.inj
  have hone : totalWork [b] = (work64 b.header.bits).toNat := by simp [totalWork]
  rw [toNat_cumulative, toNat_satWork, toNat_satWork, totalWork_append, hone]
  omega

theorem satWork_singleton (b : Block) : satWork [b] = work64 b.header.bits := by
  apply UInt64.toNat.inj
  have hlt := (work64 b.header.bits).toNat_lt
  rw [toNat_satWork]
  simp only [totalWork, List.map_cons, List.map_nil, List.sum_cons, List.sum_nil, maxWork]
  omega

namespace Node

variable (n : Node)

/-- No header of the domain hashes to the parent hash of genesis. -/
def HashDomain.NoZero {n : Node} (dom : n.HashDomain) : Prop :=
  ∀ hd, dom.known hd → n.hashHex hd ≠ n.genesisBlock.prevHex

/-- The invariant of the work table and of the tip work. -/
structure WorkTable (dom : n.HashDomain) (s : DB) : Prop where
  key : ∀ x w, s.work x = some w → ∃ hd, dom.known hd ∧ x = n.hashHex hd
  genesis : s.work n.genesisHash = some (work64 n.genesisBlock.header.bits)
  entry : ∀ hd w, dom.known hd → hd ≠ n.genesisBlock.header → s.work (n.hashHex hd) = some w →
    ∃ p, s.work hd.prevHash.toHex = some p ∧ w = cumulative p (work64 hd.bits)
  stored : ∀ x b, s.blockByHash x = some b → ∃ w, s.work x = some w
  tip : ∀ h x, s.getTip = some (h, x) → s.tipWork = s.work x

variable {n} {dom : n.HashDomain} {s t : DB} {hd : BlockHeader} {p : UInt64}

/-- A header with a parent entry is not the genesis header. -/
theorem WorkTable.ne_genesis (h : n.WorkTable dom s) (hz : dom.NoZero)
    (hp : s.work hd.prevHash.toHex = some p) : hd ≠ n.genesisBlock.header := by
  rintro rfl
  obtain ⟨hd', hknown, hkey⟩ := h.key _ _ hp
  exact hz hd' hknown hkey.symm

/-- Writing the entry of a header above its parent's entry changes no entry that is there. -/
theorem WorkTable.work_keep (h : n.WorkTable dom s) (hgen : hd ≠ n.genesisBlock.header)
    (hknown : dom.known hd) (hp : s.work hd.prevHash.toHex = some p) {x : String} {w : UInt64}
    (hx : s.work x = some w) :
    Function.update s.work (n.hashHex hd) (some (cumulative p (work64 hd.bits))) x = some w := by
  rw [Function.update_apply]
  split
  next heq =>
    -- the old entry was computed from the same parent entry
    subst heq
    obtain ⟨p', hp', rfl⟩ := h.entry hd w hknown hgen hx
    rw [hp] at hp'
    rw [Option.some.inj hp']
  next => exact hx

/-- One entry is written, with or without its block; the tip stays. -/
theorem WorkTable.record (h : n.WorkTable dom s) (hgen : hd ≠ n.genesisBlock.header)
    (hknown : dom.known hd) (hp : s.work hd.prevHash.toHex = some p)
    (hwork : t.work = Function.update s.work (n.hashHex hd) (some (cumulative p (work64 hd.bits))))
    (hblk : ∀ x b, t.blockByHash x = some b → x = n.hashHex hd ∨ ∃ b', s.blockByHash x = some b')
    (htip : t.getTip = s.getTip) (htw : t.tipWork = s.tipWork)
    (htipWork : ∀ k x, s.getTip = some (k, x) → ∃ w, s.work x = some w) : n.WorkTable dom t where
  key := by
    intro x w hx
    rw [hwork, Function.update_apply] at hx
    split at hx
    next heq => exact ⟨hd, hknown, heq⟩
    next => exact h.key x w hx
  genesis := by
    rw [hwork]
    exact h.work_keep hgen hknown hp h.genesis
  entry := by
    intro hd' w hknown' hne hx
    rw [hwork, Function.update_apply] at hx
    rw [hwork]
    split at hx
    next heq =>
      -- by injectivity this is the header whose entry is written
      obtain rfl : hd' = hd := dom.injective _ _ hknown' hknown heq
      exact ⟨p, h.work_keep hgen hknown hp hp, (Option.some.inj hx).symm⟩
    next =>
      obtain ⟨p', hp', hw⟩ := h.entry hd' w hknown' hne hx
      exact ⟨p', h.work_keep hgen hknown hp hp', hw⟩
  stored := by
    intro x b hb
    rw [hwork]
    rcases hblk x b hb with rfl | ⟨b', hb'⟩
    · exact ⟨_, Function.update_self _ _ _⟩
    · obtain ⟨w, hw⟩ := h.stored x b' hb'
      exact ⟨w, h.work_keep hgen hknown hp hw⟩
  tip := by
    intro k x hx
    rw [htip] at hx
    obtain ⟨w, hw⟩ := htipWork k x hx
    rw [htw, h.tip k x hx, hw, hwork]
    exact (h.work_keep hgen hknown hp hw).symm

/-- The tip moves to a hash together with the tip work. -/
theorem WorkTable.moveTo (h : n.WorkTable dom s) (hwork : t.work = s.work)
    (hblk : t.blockByHash = s.blockByHash) {k : UInt64} {x : String} (htip : t.getTip = some (k, x))
    (htw : t.tipWork = s.work x) : n.WorkTable dom t where
  key := by
    rw [hwork]
    exact h.key
  genesis := by
    rw [hwork]
    exact h.genesis
  entry := by
    rw [hwork]
    exact h.entry
  stored := by
    rw [hwork, hblk]
    exact h.stored
  tip := by
    intro k' x' htip'
    rw [htip] at htip'
    cases htip'
    rw [htw, hwork]

/-- In a tree with a work table the tip has a work entry, and it is the tip work. -/
theorem WorkTable.exists_tipWork (h : n.WorkTable dom s) (htree : n.BlockTree dom s) {k : UInt64}
    {x : String} (htip : s.getTip = some (k, x)) : ∃ w, s.work x = some w ∧ s.tipWork = some w := by
  obtain ⟨b, htip', hb⟩ := htree.tip
  rw [htip] at htip'
  cases htip'
  obtain ⟨w, hw⟩ := h.stored _ _ hb
  exact ⟨w, hw, (h.tip _ _ htip).trans hw⟩

/-- Where each entry is accumulated on the entry of the parent, the entry of a stored block is the
saturated work of its path from genesis. -/
theorem eq_satWork_of_entry
    (hkey : ∀ x b, s.blockByHash x = some b → x = n.hashHex b.header ∧ dom.known b.header)
    (hroot : ∀ x b, s.blockByHash x = some b → b.height = 0 → x = n.genesisHash)
    (hgen : s.work n.genesisHash = some (work64 n.genesisBlock.header.bits))
    (hentry : ∀ hd w, dom.known hd → hd ≠ n.genesisBlock.header → s.work (n.hashHex hd) = some w →
        ∃ p, s.work hd.prevHash.toHex = some p ∧ w = cumulative p (work64 hd.bits))
    {x : String} {path : List Block} (hpath : s.RootPath x path) {w : UInt64}
    (hw : s.work x = some w) : w = satWork (n.genesisBlock :: path) := by
  induction hpath generalizing w with
  | root ha h0 =>
      rw [hroot _ _ ha h0, hgen] at hw
      rw [← Option.some.inj hw, satWork_singleton]
  | @snoc a b path ha hpos _ ih =>
      -- the block is not genesis, so its entry comes from its parent's
      obtain ⟨rfl, hknown⟩ := hkey _ _ ha
      have hne : b.header ≠ n.genesisBlock.header :=
        n.ne_genesis_of_height_ne_zero fun h0 => hpos (congrArg UInt64.toNat h0)
      obtain ⟨p, hp, rfl⟩ := hentry b.header w hknown hne hw
      rw [ih hp, cumulative_satWork, List.cons_append]

/-- The entry of a stored block is the saturated work of its path from genesis. -/
theorem WorkTable.work_eq (h : n.WorkTable dom s) (htree : n.BlockTree dom s) {x : String}
    {path : List Block} (hpath : s.RootPath x path) :
    s.work x = some (satWork (n.genesisBlock :: path)) := by
  obtain ⟨b, hb⟩ : ∃ b, s.blockByHash x = some b := by
    cases hpath with
    | root ha _ => exact ⟨_, ha⟩
    | snoc ha _ _ => exact ⟨_, ha⟩
  obtain ⟨w, hw⟩ := h.stored x b hb
  rw [hw, eq_satWork_of_entry htree.key htree.root h.genesis h.entry hpath hw]

/-! ### The steps of a run -/

section Steps

variable {b : Block}

theorem work_stored : (n.stored s b).work =
    Function.update s.work (n.hashHex b.header) (some (cumWork s b)) := rfl

/-- The work that `SubmitBlock` computes for a block with a stored parent is the sum with the
parent's entry: the default of zero is never used. -/
theorem WorkTable.parent_work (h : n.WorkTable dom s) (hs : n.Storable s b) :
    ∃ p, s.work b.header.prevHash.toHex = some p ∧
      cumWork s b = cumulative p (work64 b.header.bits) := by
  obtain ⟨par, hpar, -⟩ := hs.parent
  obtain ⟨p, hp⟩ := h.stored _ _ hpar
  refine ⟨p, hp, ?_⟩
  rw [cumWork, DB.getWork, hp, Option.getD_some]

/-- The write of `SubmitBlock` keeps the table. -/
theorem WorkTable.storeBlock (h : n.WorkTable dom s) (htree : n.BlockTree dom s)
    (hs : n.Storable s b) (hb : dom.known b.header) : n.WorkTable dom (n.stored s b) := by
  obtain ⟨p, hp, hcum⟩ := h.parent_work hs
  -- a block of height zero is not stored
  have hgen := n.ne_genesis_of_height_ne_zero hs.height_ne_zero
  refine h.record hgen hb hp ?_ (fun x c hc => ?_) rfl rfl (fun k x hx => ?_)
  · rw [work_stored, hcum]
  · rw [blockByHash_stored] at hc
    split at hc
    next heq => exact Or.inl heq
    next => exact Or.inr ⟨c, hc⟩
  · obtain ⟨w, hw, -⟩ := h.exists_tipWork htree hx
    exact ⟨w, hw⟩

theorem work_switchTo (s : DB) (finH : UInt64) (path : List String) (x : String) (h : UInt64) :
    (s.switchTo finH path x h).work = s.work := by
  rw [DB.switchTo, DB.rewriteIndex_eq]
  rfl

/-- The entry of a block that has just been stored. -/
theorem work_stored_self : (n.stored s b).work (n.hashHex b.header) = some (cumWork s b) := by
  rw [work_stored, Function.update_self]

/-- The work table and the tip work after a switch. -/
theorem work_rebuild (s : DB) (w : UInt64) :
    ((n.rebuildStateFromFinalized s).2.putTipWork w).work = s.work := by
  rw [rebuildStateFromFinalized_eq]
  rfl

/-- `SubmitBlock` keeps the work table. -/
theorem WorkTable.submitBlock (h : n.WorkTable dom s) (htree : n.BlockTree dom s)
    (hb : dom.known b.header) (now : Int64) : n.WorkTable dom (n.submitBlock now s b).2 := by
  have hout := n.submitBlock_outcome now s b
  generalize n.submitBlock now s b = res at hout
  cases hout with
  | rejected e hpre => exact h
  | ignored hpre => exact h
  | invalidTip e hpre hext hval => exact h.storeBlock htree (storable_of_preStore n hpre) hb
  | extended hpre hext hval =>
      have hst := h.storeBlock htree (storable_of_preStore n hpre) hb
      have hsame := n.sameChain_advanceTip now (n.stored s b) b (cumWork s b)
      refine hst.moveTo hsame.work hsame.blockByHash hsame.getTip ?_
      rw [work_stored_self]
      exact hsame.tipWork
  | forkStored r hpre hext hkeep hres =>
      exact h.storeBlock htree (storable_of_preStore n hpre) hb
  | switched finH path hpre hext hwork hpath =>
      have hst := h.storeBlock htree (storable_of_preStore n hpre) hb
      obtain ⟨hblk, -, htip, -⟩ := sameTables_rebuild (n := n) ((n.stored s b).switchTo finH path
        (n.hashHex b.header) b.header.height) (cumWork s b)
      refine hst.moveTo ((work_rebuild _ _).trans (work_switchTo ..))
        (hblk.trans (DB.blockByHash_switchTo ..)) (htip.trans (DB.getTip_switchTo ..)) ?_
      rw [work_stored_self]
      rfl

/-- `SubmitBlock` never lowers the tip work. -/
theorem WorkTable.tipWork_le_submitBlock (h : n.WorkTable dom s) (now : Int64) :
    s.getTipWork ≤ (n.submitBlock now s b).2.getTipWork := by
  have hout := n.submitBlock_outcome now s b
  generalize n.submitBlock now s b = res at hout
  cases hout with
  | rejected e hpre => exact UInt64.le_refl _
  | ignored hpre => exact UInt64.le_refl _
  | invalidTip e hpre hext hval => exact UInt64.le_refl _
  | extended hpre hext hval =>
      -- the parent is the tip, so the new work is accumulated on the tip work
      obtain ⟨tipH, tipHash, htip, hprev, -⟩ := extendsTip_iff.mp hext
      obtain ⟨p, hp, hcum⟩ := h.parent_work (storable_of_preStore n hpre)
      have hsame := n.sameChain_advanceTip now (n.stored s b) b (cumWork s b)
      have hafter : (n.advanceTip now (n.stored s b) b (cumWork s b)).getTipWork = cumWork s b := by
        rw [DB.getTipWork, hsame.tipWork]
        rfl
      have hbefore : s.getTipWork = p := by
        rw [DB.getTipWork, h.tip tipH tipHash htip, ← hprev]
        show (s.work b.header.prevHash.toHex).getD 0 = p
        rw [hp, Option.getD_some]
      rw [hafter, hbefore, hcum]
      exact le_cumulative p _
  | forkStored r hpre hext hkeep hres => exact UInt64.le_refl _
  | switched finH path hpre hext hwork hpath => exact UInt64.le_of_lt hwork

/-- Scoring a header keeps the work table. -/
theorem WorkTable.scoreHeader (h : n.WorkTable dom s) (htree : n.BlockTree dom s) (hz : dom.NoZero)
    (hk : dom.known hd) (hp : s.work hd.prevHash.toHex = some p) :
    n.WorkTable dom (n.scoreHeader s hd p) := by
  refine h.record (h.ne_genesis hz hp) hk hp rfl (fun x c hc => Or.inr ⟨c, hc⟩) rfl rfl
    (fun k x hx => ?_)
  obtain ⟨w, hw, -⟩ := h.exists_tipWork htree hx
  exact ⟨w, hw⟩

/-- The table of a new node has the genesis entry only. -/
theorem workTable_genesisDB (registry : Table RegValidator) :
    n.WorkTable dom (n.genesisDB registry) := by
  have hwork : (n.genesisDB registry).work = Function.update (fun _ => none) n.genesisHash
        (some (work64 n.genesisBlock.header.bits)) := rfl
  have hentry : ∀ x w, (n.genesisDB registry).work x = some w → x = n.genesisHash := by
    intro x w hx
    rw [hwork, Function.update_apply] at hx
    split at hx
    next heq => exact heq
    next => cases hx
  refine ⟨fun x w hx => ⟨_, dom.genesis_known, hentry x w hx⟩, ?_, ?_, ?_, ?_⟩
  · rw [hwork, Function.update_self]
  · intro hd w hknown hne hx
    exact absurd (dom.injective _ _ hknown dom.genesis_known (hentry _ w hx)) hne
  · intro x b hb
    rw [blockByHash_genesisDB, Function.update_apply] at hb
    split at hb
    next heq => exact ⟨_, by rw [heq, hwork, Function.update_self]⟩
    next => cases hb
  · intro k x htip
    obtain ⟨-, rfl⟩ : (0 : UInt64) = k ∧ n.genesisHash = x := Prod.mk.inj (Option.some.inj htip)
    rw [hwork, Function.update_self]
    rfl

/-- One write of a synchronisation round keeps the tree and the work table, and never lowers the tip
work. -/
theorem WorkTable.syncStep (hz : dom.NoZero) (hstep : n.SyncStep dom.known s t)
    (h : n.BlockTree dom s ∧ n.WorkTable dom s) :
    (n.BlockTree dom t ∧ n.WorkTable dom t) ∧ s.getTipWork ≤ t.getTipWork := by
  cases hstep with
  | score hdr hk w hw =>
      have htree : n.BlockTree dom (n.scoreHeader s hdr w) := h.1.congr rfl rfl rfl
      exact ⟨⟨htree, h.2.scoreHeader h.1 hz hk hw⟩, UInt64.le_refl _⟩
  | submit now b hk =>
      exact ⟨⟨blockTree_submitBlock h.1 hk now, h.2.submitBlock h.1 hk now⟩,
        h.2.tipWork_le_submitBlock now⟩

end Steps

end Node

/-! ### Runs -/

/-- What changes the chain: a submitted block, or a synchronisation round. -/
inductive ChainEvent where
  | submitBlock (now : Int64) (b : Block)
  | syncOnce (r : SyncReplies)

namespace ChainEvent

/-- The headers that an event brings. -/
def headers : ChainEvent → List BlockHeader
  | submitBlock _ b => [b.header]
  | syncOnce r => r.headers

/-- The event brings headers of `known` only, and a `reorgFromPeer` in it works with such. -/
def Known (n : Node) (known : BlockHeader → Prop) (e : ChainEvent) : Prop :=
  (∀ hd ∈ e.headers, known hd) ∧ ∀ r, e = syncOnce r → r.ReorgKnown n known

end ChainEvent

namespace Node

variable (n : Node)

/-- The node's reaction to an event of the chain. -/
def chainStep (s : DB) : ChainEvent → DB
  | .submitBlock now b => (n.submitBlock now s b).2
  | .syncOnce r => (n.syncOnce s r).2

variable {n} {dom : n.HashDomain}

theorem syncSteps_chainStep {known : BlockHeader → Prop} {e : ChainEvent} (he : e.Known n known)
    (s : DB) : n.SyncSteps known s (n.chainStep s e) := by
  cases e with
  | submitBlock now b => exact .single (.submit now b (he.1 b.header List.mem_cons_self))
  | syncOnce r => exact syncSteps_syncOnce he.1 (he.2 r rfl) s

/-- An event keeps the tree and the work table, and never lowers the tip work. -/
theorem workTable_chainStep (hz : dom.NoZero) {s : DB} {e : ChainEvent}
    (he : e.Known n dom.known) (h : n.BlockTree dom s ∧ n.WorkTable dom s) :
    (n.BlockTree dom (n.chainStep s e) ∧ n.WorkTable dom (n.chainStep s e)) ∧
      s.getTipWork ≤ (n.chainStep s e).getTipWork := by
  refine Run.closure_invariant (I := fun t => (n.BlockTree dom t ∧ n.WorkTable dom t) ∧
    s.getTipWork ≤ t.getTipWork) (fun u v hstep hu => ?_) (syncSteps_chainStep he s)
    ⟨h, UInt64.le_refl _⟩
  obtain ⟨hv, hle⟩ := WorkTable.syncStep hz hstep hu.1
  exact ⟨hv, UInt64.le_trans hu.2 hle⟩

/-- In every state of every run of submitted blocks and synchronisation rounds, whatever chain of
steps `reorgFromPeer` makes in them, the work entry of a stored block is the saturated work of its
path from genesis, the tip work is the entry of the tip, and it never decreases along the run. -/
theorem work_bookkeeping (n : Node) (dom : n.HashDomain) (hz : dom.NoZero)
    (registry : Table RegValidator) (es : List ChainEvent)
    (hk : ∀ e ∈ es, e.Known n dom.known) :
    (∀ t ∈ Run.states n.chainStep (n.genesisDB registry) es,
      (∀ x b, t.blockByHash x = some b → ∃ path, t.RootPath x path ∧
        t.work x = some (UInt64.ofNat (min (2 ^ 64 - 1) (totalWork (n.genesisBlock :: path))))) ∧
      ∃ k x w, t.getTip = some (k, x) ∧ t.work x = some w ∧ t.tipWork = some w) ∧
    (Run.states n.chainStep (n.genesisDB registry) es).Pairwise fun s t =>
      s.getTipWork ≤ t.getTipWork := by
  have hinit : n.BlockTree dom (n.genesisDB registry) ∧ n.WorkTable dom (n.genesisDB registry) :=
    ⟨blockTree_genesisDB dom registry, workTable_genesisDB registry⟩
  constructor
  · intro t ht
    -- the work of a path needs the tree, so the two invariants go together
    obtain ⟨htree, htable⟩ := Run.invariant
      (I := fun s => n.BlockTree dom s ∧ n.WorkTable dom s)
      (E := fun e : ChainEvent => e.Known n dom.known)
      (fun s e hs he _ => (workTable_chainStep hz he hs).1) hk hinit
      (Run.admitted_of_forall _ fun _ _ _ => trivial) t ht
    constructor
    · intro x b hb
      obtain ⟨path, hpath⟩ := Ancestry.exists_rootPath htree.linked hb
      exact ⟨path, hpath, htable.work_eq htree hpath⟩
    · obtain ⟨b, htip, -⟩ := htree.tip
      obtain ⟨w, hw, htw⟩ := htable.exists_tipWork htree htip
      exact ⟨_, _, w, htip, hw, htw⟩
  · exact (Run.pairwise_states (I := fun s => n.BlockTree dom s ∧ n.WorkTable dom s)
      (R := fun s t => s.getTipWork ≤ t.getTipWork)
      (fun s e hs he => (workTable_chainStep hz he hs).1)
      (fun s e hs he => (workTable_chainStep hz he hs).2) (fun _ => UInt64.le_refl _)
      (fun _ _ _ => UInt64.le_trans) hk hinit).1

end Node

namespace Sample

/-- A peer that sends the header and the block of height one. -/
def replies : SyncReplies where
  chainInfo := [("peer", .ok ⟨"sample", 1, "tip"⟩)]
  tipHeaders := .ok [main₁.header]
  anchorHash := .error "timeout"
  located := .error "timeout"
  forkHeaders := .error "timeout"
  blocks := [.ok (0, main₁)]
  reorgFromPeer s := (false, s)

theorem collisionFree_main : node.CollisionFree [main₁, main₂] :=
  collisionFree_blocks.of_subset rfl rfl (by simp)

end Sample

namespace Node

open Sample

/-- A round that scores and submits a block, then a block on top of it. -/
theorem work_bookkeeping_main :
    (∀ t ∈ Run.states node.chainStep (node.genesisDB ∅)
        [.syncOnce replies, .submitBlock 0 main₂],
      (∀ x b, t.blockByHash x = some b → ∃ path, t.RootPath x path ∧ t.work x =
        some (UInt64.ofNat (min (2 ^ 64 - 1) (totalWork (node.genesisBlock :: path))))) ∧
      ∃ k x w, t.getTip = some (k, x) ∧ t.work x = some w ∧ t.tipWork = some w) ∧
    (Run.states node.chainStep (node.genesisDB ∅)
      [.syncOnce replies, .submitBlock 0 main₂]).Pairwise fun s t =>
        s.getTipWork ≤ t.getTipWork := by
  refine work_bookkeeping node collisionFree_main.domain ?_ ∅ _ ?_
  · rintro _ ⟨b, hb, rfl⟩
    have hne : ∀ b ∈ node.genesisBlock :: [main₁, main₂],
        node.hashHex b.header ≠ node.genesisBlock.prevHex := by decide +kernel
    exact hne b hb
  · have hmem : ∀ e ∈ [ChainEvent.syncOnce replies, .submitBlock 0 main₂],
        ∀ hd ∈ e.headers, hd ∈ [main₁.header, main₂.header] := by
      intro e he hd hhd
      simp only [List.mem_cons, List.not_mem_nil, or_false] at he ⊢
      rcases he with rfl | rfl
      · left
        simpa [ChainEvent.headers, SyncReplies.headers, replies, Except.toOption] using hhd
      · right
        simpa [ChainEvent.headers] using hhd
    refine fun e he => ⟨fun hd hhd => ?_, fun r hr => ?_⟩
    · have hblock : hd ∈ [main₁, main₂].map Block.header := hmem e he hd hhd
      obtain ⟨b, hb, rfl⟩ := List.mem_map.mp hblock
      exact collisionFree_main.known hb
    · obtain rfl : replies = r := by simpa [hr, eq_comm] using he
      exact fun s => .refl

end Node

end ReserveOS
