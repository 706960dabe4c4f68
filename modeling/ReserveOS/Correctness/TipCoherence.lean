import ReserveOS.Correctness.Exits
import ReserveOS.Correctness.FinalizedAnchor
import ReserveOS.Correctness.Race

/-!
# Two `SubmitBlock` calls at once

The tip is three keys: height, hash and work. `SubmitBlock` writes them one after another and holds
no lock, so two calls that both move the tip can leave the height and hash of one block with the
work of another. `tipCoherent_of_oneTipWriter` says that this is all that can go wrong with the tip,
under every schedule of the single accesses.

A second hazard concerns the entry itself: a call may read the work of a parent that the other call
has stored and not yet scored; the entry is then computed from zero.
-/

namespace ReserveOS

open Concurrent (Prog)
open Concurrent.Prog

namespace Call

/-- The rule for a program that goes on unless there is an error. -/
theorem triple_andThen {α β : Type} {me : Bool} {R G : DB × Trace Access → DB × Trace Access → Prop}
    [Std.Refl R] {A I : DB × Trace Access → Prop} {B : Res α → DB × Trace Access → Prop}
    {p : Call (Res α)} {f : α → Call (Res β)} (hp : Triple me R G A p B) (hI : Stable R I)
    (herr : ∀ e m, B (.error e) m → I m) (hf : ∀ a, Triple me R G (B (.ok a)) (f a) fun _ => I) :
    Triple me R G A (andThen p f) fun _ => I := by
  refine hp.bind fun res => ?_
  cases res with
  | error e => exact triple_pure hI (herr e)
  | ok a => exact hf a

end Call

namespace Node

variable (n : Node)

/-! ### After `PutWork` -/

/-- The accesses of a call after `PutWork`: quiet ones, and writes of the tip with the values of the
block. -/
inductive TipAccess (b : Block) (cum : UInt64) : Access → (DB → DB) → Prop
  | quiet {tag : Access} {act : DB → DB} (h : Quiet tag act) : TipAccess b cum tag act
  | height : TipAccess b cum (.put .tipHeight) fun s =>
      { s with tipHeight := some b.header.height }
  | blockID : TipAccess b cum (.put .tipBlockID) fun s =>
      { s with tipBlockID := some (n.hashHex b.header) }
  | work : TipAccess b cum (.put .tipWork) fun s => s.putTipWork cum

variable {n} {b : Block} {cum : UInt64}

theorem tipAccess_of_quiet {α : Type} {p : Call α} (hp : EveryAccess Quiet p) :
    EveryAccess (n.TipAccess b cum) p :=
  hp.mono fun _ _ h => .quiet h

theorem tipAccess_putTip :
    EveryAccess (n.TipAccess b cum) (Call.putTip b.header.height (n.hashHex b.header)) := by
  refine EveryAccess.bind ?_ fun _ => ?_
  · exact everyAccess_write .height
  · exact everyAccess_write .blockID

/-- Extending the tip: quiet accesses, and writes of the tip for the block. -/
theorem tipAccess_extendTipCall (now : Int64) :
    EveryAccess (n.TipAccess b cum) (n.extendTipCall now b cum) := by
  apply Call.everyAccess_andThen (tipAccess_of_quiet (n.quiet_validateBlockStateTipCall b))
  intro _
  refine tipAccess_putTip.bind fun _ => ?_
  refine EveryAccess.bind (everyAccess_write .work) fun _ => tipAccess_of_quiet ?_
  refine (Call.quiet_putHashByHeightOverwrite _ _).bind fun _ => ?_
  split
  · exact (Call.quiet_putCheckpoint _ _).bind fun _ =>
      (n.quiet_processCheckpointVotesCall _ _).bind fun _ => everyAccess_pure _
  · exact everyAccess_pure _

/-- So does a chain switch. -/
theorem tipAccess_trySwitchMainChainCall :
    EveryAccess (n.TipAccess b cum)
      (n.trySwitchMainChainCall (n.hashHex b.header) b.header.height) := by
  apply Call.everyAccess_andThen (tipAccess_of_quiet quiet_switchAnchorCall)
  intro fin
  split
  · exact everyAccess_pure _
  apply Call.everyAccess_andThen (tipAccess_of_quiet (quiet_walkBackCall _ _ _ _))
  intro path
  split
  · exact everyAccess_pure _
  refine (tipAccess_of_quiet (quiet_rewriteIndexCall _ _)).bind fun _ => ?_
  refine tipAccess_putTip.bind fun _ => ?_
  exact (tipAccess_of_quiet n.quiet_rebuildStateFromFinalizedCall).bind fun _ => everyAccess_pure _

/-- The fork choice writes the tip for the block only. -/
theorem tipAccess_selectForkCall :
    EveryAccess (n.TipAccess b cum) (n.selectForkCall b cum) := by
  refine (tipAccess_of_quiet (Call.quiet_get _ _)).bind fun curWork => ?_
  split
  · refine tipAccess_trySwitchMainChainCall.bind fun res => ?_
    split
    · exact EveryAccess.bind (everyAccess_write .work) fun _ => everyAccess_pure _
    · exact everyAccess_pure _
    · exact everyAccess_pure _
  · exact everyAccess_pure _

namespace Race

variable (r : n.Race) (c : Bool)

/-! ### The assertions of a call -/

/-- Until `PutWork` a call has not written the tip work. -/
structure Begun (m : DB × Trace Access) : Prop where
  inv : r.Inv m
  fresh : (c, .put .tipWork) ∉ m.2

/-- After the parent rules. -/
structure Checked (m : DB × Trace Access) : Prop extends r.Begun c m where
  parent : r.ParentStored c m.1

/-- After `PutBlock`. -/
structure Placed (m : DB × Trace Access) : Prop extends r.Checked c m where
  stored : ∃ b, m.1.blockByHash (r.hash c) = some b

/-- After `GetWork` of the parent. -/
structure Weighed (p : UInt64) (m : DB × Trace Access) : Prop extends r.Placed c m where
  work : r.ParentWork c p m

/-- After `PutWork`. -/
structure Scored (w : UInt64) (m : DB × Trace Access) : Prop where
  inv : r.Inv m
  stored : ∃ b, m.1.blockByHash (r.hash c) = some b
  entry : m.1.work (r.hash c) = some w
  same : r.hash true = r.hash false → w = r.value

variable {r c}

theorem stable_inv : Stable (r.Env c) r.Inv := fun _ _ h hR => (hR h).inv

theorem stable_begun : Stable (r.Env c) (r.Begun c) := fun _ _ h hR =>
  ⟨(hR h.inv).inv, fun hmem => h.fresh ((hR h.inv).fresh hmem)⟩

theorem stable_checked : Stable (r.Env c) (r.Checked c) := by
  intro m m' h hR
  refine ⟨stable_begun m m' h.toBegun hR, ?_⟩
  obtain ⟨p, hp, hheight⟩ := h.parent
  obtain ⟨p', hp', hhead⟩ := (hR h.inv).headers _ p hp
  exact ⟨p', hp', by rw [hhead, hheight]⟩

theorem stable_placed : Stable (r.Env c) (r.Placed c) := by
  intro m m' h hR
  refine ⟨stable_checked m m' h.toChecked hR, ?_⟩
  obtain ⟨b, hb⟩ := h.stored
  obtain ⟨b', hb', -⟩ := (hR h.inv).headers _ b hb
  exact ⟨b', hb'⟩

theorem stable_weighed (p : UInt64) : Stable (r.Env c) (r.Weighed c p) := by
  intro m m' h hR
  refine ⟨stable_placed m m' h.toPlaced hR, h.work.start, h.work.same, fun hno => ?_⟩
  -- without a read of an unscored parent the entry of the parent stays
  obtain ⟨hno', hkeep⟩ := (hR h.inv).entries hno
  exact hkeep _ p (h.work.current hno')

theorem stable_scored (w : UInt64) : Stable (r.Env c) (r.Scored c w) := by
  intro m m' h hR
  have hm := hR h.inv
  obtain ⟨b, hb⟩ := h.stored
  obtain ⟨b', hb', -⟩ := hm.headers _ b hb
  exact ⟨hm.inv, ⟨b', hb'⟩, hm.own w h.same h.entry, h.same⟩

/-- Quiet accesses keep every stable assertion. -/
theorem triple_quiet {α : Type} {p : Call α} (hp : EveryAccess Quiet p)
    {A : DB × Trace Access → Prop} (hA : Stable (r.Env c) A) :
    Triple c (r.Env c) (r.Env (!c)) A p fun _ => A := by
  refine triple_of_everyAccess hp hA fun tag act m hq hm => ?_
  exact ⟨env_quiet c (!c) hq.1 (hq.2 m.1), hA m _ hm (env_quiet c c hq.1 (hq.2 m.1))⟩

/-! ### The call -/

section Calls

variable {nextWork : UInt64 → Call (Option UInt32)} (hnext : ∀ h, EveryAccess Quiet (nextWork h))

include hnext in
/-- The checks on the parent write nothing, and leave behind that the parent is stored one height
below. Blocks are never deleted, so the other call does not undo this. -/
theorem triple_checkParentCall :
    Triple c (r.Env c) (r.Env (!c)) (r.Begun c) (checkParentCall nextWork (r.block c))
      fun res m => r.Begun c m ∧ (res = .ok () → r.Checked c m) := by
  -- an error leaves the assertion as it is
  have herr : ∀ e, Triple c (r.Env c) (r.Env (!c)) (r.Begun c) (pure (.error e) : Call (Res Unit))
      fun res m => r.Begun c m ∧ (res = .ok () → r.Checked c m) := by
    intro e
    refine triple_pure (fun m m' h hR => ⟨stable_begun m m' h.1 hR, fun h' => ?_⟩)
      (fun m h => ⟨h, fun h' => ?_⟩)
    all_goals cases h'
  have hok : Triple c (r.Env c) (r.Env (!c)) (r.Checked c) (pure (.ok ()) : Call (Res Unit))
      fun res m => r.Begun c m ∧ (res = .ok () → r.Checked c m) := by
    refine triple_pure (fun m m' h hR => ?_) (fun m h => ⟨h.toBegun, fun _ => h⟩)
    exact ⟨stable_begun m m' h.1 hR, fun _ => stable_checked m m' (h.2 rfl) hR⟩
  have hread : Triple c (r.Env c) (r.Env (!c)) (r.Begun c) (Call.getBlockByHash (r.block c).prevHex)
      fun res m => r.Begun c m ∧ ∀ p, res = some p →
        p.header.height + 1 = (r.block c).header.height → r.Checked c m := by
    refine triple_read stable_begun (fun res m m' h hR => ?_) (fun m h => ?_)
    · exact ⟨stable_begun m m' h.1 hR, fun p hp hs => stable_checked m m' (h.2 p hp hs) hR⟩
    · have hq : r.Begun c (m.1, (c, .get (.block (r.block c).prevHex)) :: m.2) :=
        stable_begun m _ h (env_quiet c c rfl (.refl m.1))
      exact ⟨env_quiet c (!c) rfl (.refl m.1), hq, fun p hp hs => ⟨hq, p, hp, hs⟩⟩
  -- the parent that was read stays stored, whatever the other call does
  refine hread.bind fun res => ?_
  cases res with
  | none => exact (herr _).weaken (fun _ h => h.1) (fun _ _ h => h)
  | some p =>
      dsimp only
      split
      next => exact (herr _).weaken (fun _ h => h.1) (fun _ _ h => h)
      next hheight =>
        have hquiet := triple_quiet (hnext (r.block c).header.height)
          (stable_checked (r := r) (c := c))
        refine Triple.bind (hquiet.weaken (fun m h => h.2 p rfl (not_not.mp hheight))
          (fun _ _ h => h)) fun expected => ?_
        cases expected with
        | none => exact hok
        | some bits =>
            dsimp only
            split
            · exact (herr _).weaken (fun _ h => h.toBegun) (fun _ _ h => h)
            · exact hok

/-- Storing the checked block. -/
theorem triple_putBlock (hne : (r.block c).header.height ≠ 0) :
    Triple c (r.Env c) (r.Env (!c)) (r.Checked c)
      (Call.putBlock (r.hash c) (r.block c).header.height (r.block c)) fun _ => r.Placed c := by
  refine triple_write stable_checked stable_placed fun m h => ?_
  refine ⟨env_putBlock hne h.parent, ⟨⟨h.inv.putBlock hne h.parent, ?_⟩, ?_⟩, ?_⟩
  · simpa using h.fresh
  · obtain ⟨p, hp, hheight⟩ := h.parent
    obtain ⟨p', hp', hhead⟩ := h.inv.blocks.keep_header (c := c) hp
    exact ⟨p', hp', by rw [hhead, hheight]⟩
  · exact ⟨r.block c, Function.update_self _ _ _⟩

theorem triple_getWork :
    Triple c (r.Env c) (r.Env (!c)) (r.Placed c) (Call.getWork (r.block c).prevHex)
      fun p => r.Weighed c p := by
  refine triple_read stable_placed stable_weighed fun m h => ?_
  refine ⟨env_quiet c (!c) rfl (.refl m.1), ?_, h.inv.parentWork h.parent⟩
  exact stable_placed m _ h (env_quiet c c rfl (.refl m.1))

/-- Writing its work entry. -/
theorem triple_putWork (hne : (r.block c).header.height ≠ 0) (p : UInt64) :
    Triple c (r.Env c) (r.Env (!c)) (r.Weighed c p)
      (Call.putWork (r.hash c) (cumulative p (work64 (r.block c).header.bits)))
      fun _ => r.Scored c (cumulative p (work64 (r.block c).header.bits)) := by
  refine triple_write (stable_weighed p) (stable_scored _) fun m h => ?_
  have hprev := h.inv.blocks.prevHex_ne h.parent
  refine ⟨env_putWork hne h.work hprev h.fresh, h.inv.putWork hne h.work hprev h.fresh, h.stored,
    Function.update_self _ _ _, h.work.same⟩

/-- After `PutWork` a call keeps the invariant. -/
theorem triple_tipAccess {α : Type} {p : Call α} {w : UInt64}
    (hp : EveryAccess (n.TipAccess (r.block c) w) p) :
    Triple c (r.Env c) (r.Env (!c)) (r.Scored c w) p fun _ => r.Scored c w := by
  refine triple_of_everyAccess hp (stable_scored w) fun tag act m htag h => ?_
  cases htag with
  | quiet hq =>
      exact ⟨env_quiet c (!c) hq.1 (hq.2 m.1),
        stable_scored w m _ h (env_quiet c c hq.1 (hq.2 m.1))⟩
  | height => exact ⟨env_putTipHeight, h.inv.putTipHeight, h.stored, h.entry, h.same⟩
  | blockID =>
      exact ⟨env_putTipBlockID h.stored, h.inv.putTipBlockID h.stored, h.stored, h.entry, h.same⟩
  | work => exact ⟨env_putTipWork h.entry, h.inv.putTipWork h.entry, h.stored, h.entry, h.same⟩

/-- Storing a checked block and moving the tip to it keeps the invariant. -/
theorem triple_storeBlockCall (hne : (r.block c).header.height ≠ 0) (now : Int64) :
    Triple c (r.Env c) (r.Env (!c)) (r.Checked c) (n.storeBlockCall now (r.block c))
      fun _ => r.Inv := by
  refine (triple_putBlock hne).bind fun _ => ?_
  have hheader : EveryAccess Quiet (Call.putHeader (r.hash c) (r.block c).header) :=
    Call.quiet_put rfl fun _ => ⟨rfl, rfl, rfl, rfl, rfl⟩
  refine (triple_quiet hheader stable_placed).bind fun _ => ?_
  refine triple_getWork.bind fun p => ?_
  refine (triple_putWork hne p).bind fun _ => ?_
  refine (triple_tipAccess (tipAccess_of_quiet Call.quiet_getTip)).bind fun tip => ?_
  -- both ways on write tip keys of this block only
  have hend : ∀ {q : Call (Res Unit)}, EveryAccess (n.TipAccess (r.block c)
      (cumulative p (work64 (r.block c).header.bits))) q → Triple c (r.Env c) (r.Env (!c))
      (r.Scored c (cumulative p (work64 (r.block c).header.bits))) q fun _ => r.Inv :=
    fun hq => (triple_tipAccess hq).weaken (fun _ h => h) (fun _ _ h => h.inv)
  split
  · split
    · exact hend (tipAccess_extendTipCall now)
    · exact hend tipAccess_selectForkCall
  · exact hend tipAccess_selectForkCall

include hnext in
/-- Whatever the other call does, a call keeps the invariant and what the other one relies on. -/
theorem triple_submitBlockCall (now : Int64) :
    Triple c (r.Env c) (r.Env (!c)) (r.Begun c) (n.submitBlockCall nextWork now (r.block c))
      fun _ => r.Inv := by
  have hexit : ∀ res, Triple c (r.Env c) (r.Env (!c)) (r.Begun c) (pure res : Call (Res Unit))
      fun _ => r.Inv := fun res => triple_pure stable_inv fun _ h => h.inv
  -- up to `PutBlock` the call only reads, and may leave at any check
  unfold submitBlockCall
  split
  · exact hexit _
  split
  · exact hexit _
  refine Call.triple_andThen
    (triple_quiet (n.quiet_validateBlockStateOnMainParentCall _) stable_begun)
    stable_inv (fun _ _ h => h.inv) fun _ => ?_
  split
  · exact hexit _
  split
  · exact hexit _
  split
  · exact hexit _
  next hne =>
    refine Call.triple_andThen (triple_checkParentCall hnext) stable_inv (fun _ _ h => h.1.inv)
      fun _ => ?_
    exact (triple_storeBlockCall hne now).weaken (fun _ h => h.2 rfl) (fun _ _ h => h)

end Calls

/-! ### The outcome -/

/-- Before the first access. -/
theorem inv_start : r.Inv (r.start, []) where
  blocks := ⟨r.tree.key, r.tree.root, r.tree.linked, fun _ b hb => ⟨b, hb⟩,
    fun _ b hb => Or.inl ⟨b, hb⟩⟩
  entries := by
    refine ⟨fun _ _ => rfl, fun _ _ hw => hw, fun _ hne w hw => ?_, fun _ _ h => absurd h (by simp),
      fun _ => r.table.entry⟩
    obtain ⟨p, hp, rfl⟩ := r.table.entry _ w (r.known true) (n.ne_genesis_of_height_ne_zero hne) hw
    have hp' : r.start.work (r.block true).prevHex = some p := hp
    rw [value, DB.getWork, hp', Option.getD_some]
  tip := by
    refine ⟨rfl, rfl, fun c hc => ?_, fun _ => rfl, fun c hc => ?_⟩
    all_goals cases hc

/-- A block of the start is still there, with its header. -/
theorem Inv.keeps_start {m : DB × Trace Access} (h : r.Inv m) {x : String} {b : Block}
    (hb : r.start.blockByHash x = some b) :
    ∃ b', m.1.blockByHash x = some b' ∧ b'.header = b.header := by
  obtain ⟨b', hb'⟩ := h.blocks.kept x b hb
  obtain ⟨hkey, hknown⟩ := r.tree.key x b hb
  obtain ⟨hkey', hknown'⟩ := h.blocks.key x b' hb'
  exact ⟨b', hb', r.dom.injective _ _ hknown' hknown (hkey'.symm.trans hkey)⟩

/-- One writer of the three tip keys leaves a coherent tip. -/
theorem Inv.tipCoherent {m : DB × Trace Access} (h : r.Inv m) (hone : OneTipWriter m.2) :
    m.1.TipCoherent := by
  obtain ⟨hheight, hid⟩ := hone
  have hh := h.tip.height
  have hx := h.tip.blockID
  rw [hheight, hid] at hh
  rw [hid] at hx
  cases hlast : lastWriter .tipWork m.2 with
  | none =>
      -- the tip is the one of the start
      rw [hlast] at hh hx
      obtain ⟨b, htip, hb⟩ := r.tree.tip
      obtain ⟨w, hw, htw⟩ := r.table.exists_tipWork r.tree htip
      obtain ⟨b', hb', hhead⟩ := h.keeps_start hb
      obtain ⟨hk, hk'⟩ := DB.getTip_eq_some_iff.mp htip
      refine ⟨_, _, b', w, DB.getTip_eq_some_iff.mpr ⟨hh.trans hk, hx.trans hk'⟩, hb', ?_,
        h.entries.kept _ w hw, (h.tip.work hlast).trans htw⟩
      rw [hhead]
  | some c =>
      -- the tip is the block of `c`
      rw [hlast] at hh hx
      obtain ⟨b, hb⟩ := h.tip.stored c (hid.trans hlast)
      obtain ⟨w, htw, hw⟩ := h.tip.entry c hlast
      obtain ⟨hkey, hknown⟩ := h.blocks.key _ b hb
      refine ⟨_, _, b, w, DB.getTip_eq_some_iff.mpr ⟨hh, hx⟩, hb, ?_, hw, htw⟩
      rw [r.dom.injective _ _ (r.known c) hknown hkey]

/-- Without a read of an unscored parent the work entry of a block is the work of its path. -/
theorem Inv.eq_satWork {m : DB × Trace Access} (h : r.Inv m) (hno : ¬ ReadsUnscored r.start m.2)
    {x : String} {path : List Block} (hpath : m.1.RootPath x path) {w : UInt64}
    (hw : m.1.work x = some w) : w = satWork (n.genesisBlock :: path) :=
  eq_satWork_of_entry h.blocks.key h.blocks.root (h.entries.kept _ _ r.table.genesis)
    (h.entries.entry hno) hpath hw

end Race

/-- Finality code keeps the work table. -/
theorem WorkTable.sameChain {dom : n.HashDomain} {s t : DB} (h : n.WorkTable dom s)
    (hs : s.SameChain t) : n.WorkTable dom t where
  key := by
    rw [hs.work]
    exact h.key
  genesis := by
    rw [hs.work]
    exact h.genesis
  entry := by
    rw [hs.work]
    exact h.entry
  stored := by
    rw [hs.work, hs.blockByHash]
    exact h.stored
  tip := by
    rw [hs.work, hs.tipWork, hs.getTip]
    exact h.tip

/-- The tree and the work table after any list of events. -/
theorem tables_reached {dom : n.HashDomain} (registry : Table RegValidator) {es : List Event}
    (hes : ∀ e ∈ es, ∀ b, e.block? = some b → dom.known b.header) :
    n.BlockTree dom (n.reached registry es) ∧ n.WorkTable dom (n.reached registry es) := by
  refine Run.invariant (I := fun s => n.BlockTree dom s ∧ n.WorkTable dom s)
    (E := fun e => ∀ b, e.block? = some b → dom.known b.header) (fun s e hs he _ => ?_) hes
    ⟨blockTree_genesisDB dom registry, workTable_genesisDB registry⟩
    (Run.admitted_of_forall _ fun _ _ _ => trivial) _ (Run.foldl_mem_states n.step _ es)
  refine ⟨blockTree_step hs.1 he, ?_⟩
  cases hb : e.block? with
  | none => exact hs.2.sameChain (sameChain_step hb)
  | some b =>
      cases e with
      | submitBlock now b' => exact hs.2.submitBlock hs.1 (he b' rfl) now
      | submitVote ord now req => cases hb
      | ingestVote now vr => cases hb
      | tick now => cases hb
      | checkpoint now cp => cases hb

/-- In every reachable state, two `SubmitBlock` calls leave a coherent tip under every schedule of
their accesses after which the three tip keys were last written by one call, or by neither. The tip
work is then the work entry of the tip. If in addition no call has read the work of a block that the
other one had stored and not yet scored, it is the work of the path from genesis to the tip. -/
theorem tipCoherent_of_oneTipWriter (n : Node) (nextWork : UInt64 → Call (Option UInt32))
    (hnext : ∀ h, EveryAccess Quiet (nextWork h)) (registry : Table RegValidator)
    (es : List Event) (b₁ b₂ : Block) (now₁ now₂ : Int64)
    (hcf : n.CollisionFree (es.filterMap Event.block? ++ [b₁, b₂])) (sched : List Bool)
    (res : (Res Unit × Res Unit) × DB × Trace Access)
    (hrun : Prog.exec sched (n.submitBlockCall nextWork now₁ b₁)
      (n.submitBlockCall nextWork now₂ b₂) (n.reached registry es, []) = some res)
    (hone : OneTipWriter res.2.2) :
    res.2.1.TipCoherent ∧ (¬ ReadsUnscored (n.reached registry es) res.2.2 →
      ∃ k x path, res.2.1.getTip = some (k, x) ∧ res.2.1.RootPath x path ∧
        res.2.1.tipWork = some (satWork (n.genesisBlock :: path))) := by
  have hevents : ∀ e ∈ es, ∀ b, e.block? = some b → hcf.domain.known b.header := by
    intro e he b hb
    exact hcf.known (List.mem_append_left _ (List.mem_filterMap.mpr ⟨e, he, hb⟩))
  obtain ⟨htree, htable⟩ := tables_reached registry hevents
  -- the two calls from the reached state, as a race
  let r : n.Race :=
    { dom := hcf.domain
      start := n.reached registry es
      tree := htree
      table := htable
      block := fun c => if c then b₁ else b₂
      known := by
        intro c
        apply hcf.known (List.mem_append_right _ _)
        cases c <;> simp }
  have hbegun : ∀ c, r.Begun c (r.start, []) := fun c => ⟨Race.inv_start, by simp⟩
  have hinv : r.Inv res.2 :=
    (Triple.exec (fun _ _ h => h) (fun _ _ h => h)
      (Race.triple_submitBlockCall (r := r) (c := true) hnext now₁)
      (Race.triple_submitBlockCall (r := r) (c := false) hnext now₂)
      (hbegun true) (hbegun false) hrun).1
  have htip := hinv.tipCoherent hone
  refine ⟨htip, fun hno => ?_⟩
  obtain ⟨k, x, b, w, hget, hb, -, hw, htw⟩ := htip
  -- without the bad read every work entry is that of a path
  obtain ⟨path, hpath⟩ := Ancestry.exists_rootPath hinv.blocks.linked hb
  exact ⟨k, x, path, hget, hpath, by rw [htw, hinv.eq_satWork hno hpath hw]⟩

end Node

namespace Sample

/-- No difficulty is required. -/
def anyBits (_ : UInt64) : Call (Option UInt32) := pure none

/-- Two blocks on genesis, submitted at once to a new node. -/
def race (sched : List Bool) : Option ((Res Unit × Res Unit) × DB × Trace Access) :=
  Prog.exec sched (node.submitBlockCall anyBits 0 main₁) (node.submitBlockCall anyBits 0 fork₁)
    (node.reached ∅ [], [])

/-- Both calls see genesis as the tip; then the first one moves the tip, then the second one. -/
def inTurn : List Bool :=
  List.replicate 7 true ++ List.replicate 7 false ++ List.replicate 4 true ++ List.replicate 4 false

/-- Both calls see genesis as the tip; the second one moves the tip between the first one's `PutTip`
and `PutTipWork`. -/
def torn : List Bool :=
  List.replicate 7 true ++ List.replicate 7 false ++ List.replicate 2 true ++
    List.replicate 3 false ++ List.replicate 2 true ++ [false]

theorem race_inTurn : (race inTurn).any fun res => OneTipWriter res.2.2 := by
  decide +kernel

theorem race_torn : ((race torn).map fun res => (res.2.1.tipBlockID, res.2.1.tipWork,
    res.2.1.work (node.hashHex fork₁.header))) = some (some (node.hashHex fork₁.header),
      some (cumulative (work64 node.genesisBlock.header.bits) (work64 main₁.header.bits)),
      some (cumulative (work64 node.genesisBlock.header.bits) (work64 fork₁.header.bits))) := by
  decide +kernel

end Sample

namespace Node

open Sample

/-- Two calls that move the tip in turn leave a coherent tip. -/
theorem tipCoherent_inTurn :
    ∃ res, race inTurn = some res ∧ OneTipWriter res.2.2 ∧ res.2.1.TipCoherent := by
  obtain ⟨res, hrun, hone⟩ := (Option.any_eq_true _ _).mp race_inTurn
  have hone : OneTipWriter res.2.2 := of_decide_eq_true hone
  exact ⟨res, hrun, hone, (tipCoherent_of_oneTipWriter node anyBits
    (fun _ => everyAccess_pure _) ∅ [] main₁ fork₁ 0 0
    (collisionFree_blocks.of_subset rfl rfl (by simp))
    inTurn res hrun hone).1⟩

/-- Two calls that move the tip at once can leave the hash of one block and the work of the other.
-/
theorem not_tipCoherent_torn :
    ∃ res, race torn = some res ∧ ¬ res.2.1.TipCoherent := by
  obtain ⟨res, hrun, hread⟩ := Option.map_eq_some_iff.mp race_torn
  refine ⟨res, hrun, ?_⟩
  obtain ⟨hid, htw, hwork⟩ : _ ∧ _ ∧ _ := by simpa only [Prod.mk.injEq] using hread
  rintro ⟨k, x, b, w, htip, -, -, hw, hw'⟩
  -- the tip is the second block, its entry is not the tip work
  obtain ⟨-, hx⟩ := DB.getTip_eq_some_iff.mp htip
  have hx : node.hashHex fork₁.header = x := Option.some.inj (hid.symm.trans hx)
  rw [← hx, hwork] at hw
  rw [htw, ← hw] at hw'
  exact absurd hw' (by decide)

end Node

end ReserveOS
