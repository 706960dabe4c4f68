import ReserveOS.Correctness.Quiet
import ReserveOS.Correctness.Work

/-!
# What two `SubmitBlock` calls keep

Two calls work on one database access by access. `Race.Inv` holds after every access of either call:
the stored blocks form a tree, the work entries change only at the two blocks, and each tip key has
the value of the call that wrote it last. `Race.Moved` is what one call relies on while the other
one moves, and `Race.Env` says that an access keeps to it.

Three accesses need an argument: `PutBlock`; `GetWork`, which may find the parent stored by the
other call and not yet scored (`ReadsUnscored`); and `PutWork`, which may overwrite the other's
entry.
-/

namespace ReserveOS

open Concurrent (Prog)
open Concurrent.Prog

/-! ### What a trace says -/

/-- The call that last wrote a key. -/
def lastWriter (k : Key) (tr : Trace Access) : Option Bool :=
  (tr.find? fun e => e.2 = .put k).map Prod.fst

theorem lastWriter_cons (k : Key) (c : Bool) (tag : Access) (tr : Trace Access) :
    lastWriter k ((c, tag) :: tr) = if tag = .put k then some c else lastWriter k tr := by
  unfold lastWriter
  rw [List.find?_cons]
  by_cases h : tag = .put k <;> simp [h]

theorem mem_of_lastWriter {k : Key} {c : Bool} {tr : Trace Access}
    (h : lastWriter k tr = some c) : (c, .put k) ∈ tr := by
  unfold lastWriter at h
  obtain ⟨e, he, rfl⟩ := Option.map_eq_some_iff.mp h
  have hput : e.2 = .put k := by simpa using List.find?_some he
  rw [← hput]
  exact List.mem_of_find?_eq_some he

/-- The three keys of the tip were last written by the same call, or by neither. -/
def OneTipWriter (tr : Trace Access) : Prop :=
  lastWriter .tipHeight tr = lastWriter .tipBlockID tr ∧
    lastWriter .tipBlockID tr = lastWriter .tipWork tr

instance (tr : Trace Access) : Decidable (OneTipWriter tr) :=
  inferInstanceAs (Decidable (_ ∧ _))

/-- A call has read the work of a block that the other call had stored and not yet scored. -/
def ReadsUnscored (start : DB) (tr : Trace Access) : Prop :=
  ∃ post c x pre, tr = post ++ (c, .get (.work x)) :: pre ∧ start.work x = none ∧
    (!c, .put (.block x)) ∈ pre ∧ (!c, .put (.work x)) ∉ pre

theorem ReadsUnscored.cons {start : DB} {tr : Trace Access} (h : ReadsUnscored start tr)
    (e : Bool × Access) : ReadsUnscored start (e :: tr) := by
  obtain ⟨post, c, x, pre, rfl, hx, hput, hno⟩ := h
  exact ⟨e :: post, c, x, pre, rfl, hx, hput, hno⟩

namespace DB

/-- The tip names a stored block of its height, and the tip work is the work entry of that block. -/
def TipCoherent (s : DB) : Prop :=
  ∃ k x b w, s.getTip = some (k, x) ∧ s.blockByHash x = some b ∧ b.header.height = k ∧
    s.work x = some w ∧ s.tipWork = some w

end DB

namespace Node

/-- Two blocks that are submitted at once, to a database that satisfies the invariants of the tree
and of the work table. -/
structure Race (n : Node) where
  dom : n.HashDomain
  start : DB
  tree : n.BlockTree dom start
  table : n.WorkTable dom start
  block : Bool → Block
  known : ∀ c, dom.known (block c).header

namespace Race

variable {n : Node} (r : n.Race)

/-- The hash under which a call stores its block. -/
def hash (c : Bool) : String := n.hashHex (r.block c).header

/-- The work that both calls compute if they submit the same block. -/
def value : UInt64 :=
  cumulative (r.start.getWork (r.block true).prevHex) (work64 (r.block true).header.bits)

/-- The stored blocks form a tree that only grows, by the blocks of the two calls. -/
structure Blocks (s : DB) (tr : Trace Access) : Prop where
  key : ∀ x b, s.blockByHash x = some b → x = n.hashHex b.header ∧ r.dom.known b.header
  root : ∀ x b, s.blockByHash x = some b → b.height = 0 → x = n.genesisHash
  linked : Ancestry.Linked s.blockByHash Block.prevHex Block.height
  kept : ∀ x b, r.start.blockByHash x = some b → ∃ b', s.blockByHash x = some b'
  added : ∀ x b, s.blockByHash x = some b → (∃ b', r.start.blockByHash x = some b') ∨
    ∃ c, x = r.hash c ∧ (c, .put (.block x)) ∈ tr

/-- The work entries change at the two blocks only, and never if they were there at the start. -/
structure Entries (s : DB) (tr : Trace Access) : Prop where
  elsewhere : ∀ x, (∀ c, x ≠ r.hash c) → s.work x = r.start.work x
  kept : ∀ x w, r.start.work x = some w → s.work x = some w
  sameBlock : r.hash true = r.hash false → (r.block true).header.height ≠ 0 →
    ∀ w, s.work (r.hash true) = some w → w = r.value
  scored : ∀ c x, (c, .put (.work x)) ∈ tr → ∃ w, s.work x = some w
  entry : ¬ ReadsUnscored r.start tr → ∀ hd w, r.dom.known hd → hd ≠ n.genesisBlock.header →
    s.work (n.hashHex hd) = some w →
      ∃ p, s.work hd.prevHash.toHex = some p ∧ w = cumulative p (work64 hd.bits)

/-- Each tip key has the value of the call that wrote it last. -/
structure TipKeys (s : DB) (tr : Trace Access) : Prop where
  height : s.tipHeight = (lastWriter .tipHeight tr).elim r.start.tipHeight
    fun c => some (r.block c).header.height
  blockID : s.tipBlockID = (lastWriter .tipBlockID tr).elim r.start.tipBlockID
    fun c => some (r.hash c)
  stored : ∀ c, lastWriter .tipBlockID tr = some c → ∃ b, s.blockByHash (r.hash c) = some b
  work : lastWriter .tipWork tr = none → s.tipWork = r.start.tipWork
  entry : ∀ c, lastWriter .tipWork tr = some c →
    ∃ w, s.tipWork = some w ∧ s.work (r.hash c) = some w

/-- What holds after every access of either call. -/
structure Inv (m : DB × Trace Access) : Prop where
  blocks : r.Blocks m.1 m.2
  entries : r.Entries m.1 m.2
  tip : r.TipKeys m.1 m.2

/-- What the call `c` can rely on from one memory to a later one, as long as it does not move the
tip itself. -/
structure Moved (c : Bool) (m m' : DB × Trace Access) : Prop where
  inv : r.Inv m'
  headers : ∀ x b, m.1.blockByHash x = some b →
    ∃ b', m'.1.blockByHash x = some b' ∧ b'.header = b.header
  own : ∀ w, (r.hash true = r.hash false → w = r.value) → m.1.work (r.hash c) = some w →
    m'.1.work (r.hash c) = some w
  entries : ¬ ReadsUnscored r.start m'.2 →
    ¬ ReadsUnscored r.start m.2 ∧ ∀ x w, m.1.work x = some w → m'.1.work x = some w
  fresh : (c, .put .tipWork) ∈ m'.2 → (c, .put .tipWork) ∈ m.2

/-- The interference of the other call, as `c` sees it. -/
def Env (c : Bool) (m m' : DB × Trace Access) : Prop := r.Inv m → r.Moved c m m'

instance (c : Bool) : Std.Refl (r.Env c) where
  refl _ h := ⟨h, fun _ b hb => ⟨b, hb, rfl⟩, fun _ _ hw => hw, fun hno => ⟨hno, fun _ _ hw => hw⟩,
    fun hmem => hmem⟩

instance (c : Bool) : IsTrans _ (r.Env c) where
  trans m m' m'' h₁ h₂ h := by
    have hm := h₁ h
    have hm' := h₂ hm.inv
    refine ⟨hm'.inv, ?_, ?_, ?_, fun hmem => hm.fresh (hm'.fresh hmem)⟩
    · intro x b hb
      obtain ⟨b', hb', hhead⟩ := hm.headers x b hb
      obtain ⟨b'', hb'', hhead'⟩ := hm'.headers x b' hb'
      exact ⟨b'', hb'', hhead'.trans hhead⟩
    · intro w hv hw
      exact hm'.own w hv (hm.own w hv hw)
    · intro hno
      obtain ⟨hno', hkeep'⟩ := hm'.entries hno
      obtain ⟨hno'', hkeep⟩ := hm.entries hno'
      exact ⟨hno'', fun x w hw => hkeep' x w (hkeep x w hw)⟩

variable {r} {c : Bool} {s s' : DB} {tr : Trace Access} {tag : Access}

/-! ### Accesses that leave a part alone -/

theorem not_readsUnscored_of_cons {start : DB} {e : Bool × Access}
    (h : ¬ ReadsUnscored start (e :: tr)) : ¬ ReadsUnscored start tr :=
  fun h' => h (h'.cons e)

/-- An access that writes no block keeps the tree. -/
theorem Blocks.cons {e : Bool × Access} (h : r.Blocks s tr)
    (hs : s'.blockByHash = s.blockByHash) : r.Blocks s' (e :: tr) where
  key := by
    rw [hs]
    exact h.key
  root := by
    rw [hs]
    exact h.root
  linked := by
    rw [hs]
    exact h.linked
  kept := by
    rw [hs]
    exact h.kept
  added := by
    rw [hs]
    intro x b hb
    refine (h.added x b hb).imp_right ?_
    rintro ⟨d, hx, hmem⟩
    exact ⟨d, hx, List.mem_cons_of_mem _ hmem⟩

/-- An access that writes no work entry keeps the entries. -/
theorem Entries.cons (h : r.Entries s tr) (hs : s'.work = s.work)
    (htag : ∀ x, tag ≠ .put (.work x)) : r.Entries s' ((c, tag) :: tr) where
  elsewhere := by
    rw [hs]
    exact h.elsewhere
  kept := by
    rw [hs]
    exact h.kept
  sameBlock := by
    rw [hs]
    exact h.sameBlock
  scored := by
    rw [hs]
    intro d x hmem
    rcases List.mem_cons.mp hmem with heq | hmem
    · cases heq
      exact absurd rfl (htag x)
    · exact h.scored d x hmem
  entry := by
    rw [hs]
    exact fun hno => h.entry (not_readsUnscored_of_cons hno)

/-- An access that writes no tip key, and loses no block and no entry of the tip. -/
theorem TipKeys.cons (h : r.TipKeys s tr) (hheight : s'.tipHeight = s.tipHeight)
    (hid : s'.tipBlockID = s.tipBlockID) (hwork : s'.tipWork = s.tipWork)
    (hblk : ∀ x b, s.blockByHash x = some b → ∃ b', s'.blockByHash x = some b')
    (hentry : ∀ d w, lastWriter .tipWork tr = some d → s.work (r.hash d) = some w →
      s'.work (r.hash d) = some w)
    (htag : tag ≠ .put .tipHeight ∧ tag ≠ .put .tipBlockID ∧ tag ≠ .put .tipWork) :
    r.TipKeys s' ((c, tag) :: tr) where
  height := by
    rw [hheight, lastWriter_cons, if_neg htag.1]
    exact h.height
  blockID := by
    rw [hid, lastWriter_cons, if_neg htag.2.1]
    exact h.blockID
  stored := by
    intro d hd
    rw [lastWriter_cons, if_neg htag.2.1] at hd
    obtain ⟨b, hb⟩ := h.stored d hd
    exact hblk _ b hb
  work := by
    rw [hwork, lastWriter_cons, if_neg htag.2.2]
    exact h.work
  entry := by
    intro d hd
    rw [lastWriter_cons, if_neg htag.2.2] at hd
    obtain ⟨w, htip, hw⟩ := h.entry d hd
    exact ⟨w, hwork.trans htip, hentry d w hd hw⟩

variable {m : DB × Trace Access}

/-- A quiet access keeps the invariant. -/
theorem Inv.quiet (h : r.Inv m) (htag : tag.quiet = true) (hs : m.1.SameCore s) :
    r.Inv (s, (c, tag) :: m.2) where
  blocks := h.blocks.cons hs.blockByHash
  entries := h.entries.cons hs.work (by rintro x rfl; cases htag)
  tip := by
    refine h.tip.cons hs.tipHeight hs.tipBlockID hs.tipWork ?_ ?_ ?_
    · rw [hs.blockByHash]
      exact fun x b hb => ⟨b, hb⟩
    · rw [hs.work]
      exact fun d w _ hw => hw
    · refine ⟨?_, ?_, ?_⟩
      all_goals
        rintro rfl
        cases htag

/-- An access of one call is not in the trace of the other. -/
theorem mem_of_mem_cons_other (hmem : (!c, .put .tipWork) ∈ (c, tag) :: tr) :
    (!c, .put .tipWork) ∈ tr := by
  simpa using hmem

/-- An access that leaves blocks and entries alone and keeps the invariant keeps to what a call `d`
relies on, unless it is the write of the tip work by `d` itself. -/
theorem env_of_inv {d : Bool} (hinv : r.Inv m → r.Inv (s, (c, tag) :: m.2))
    (hblk : s.blockByHash = m.1.blockByHash) (hwork : s.work = m.1.work)
    (hd : (d, .put .tipWork) ≠ (c, tag)) : r.Env d m (s, (c, tag) :: m.2) := by
  intro h
  refine ⟨hinv h, ?_, ?_, ?_, ?_⟩
  · rw [hblk]
    exact fun x b hb => ⟨b, hb, rfl⟩
  · rw [hwork]
    exact fun w _ hw => hw
  · rw [hwork]
    exact fun hno => ⟨not_readsUnscored_of_cons hno, fun x w hw => hw⟩
  · exact fun hmem => (List.mem_cons.mp hmem).resolve_left hd

/-- A quiet access of either call keeps to what a call relies on. -/
theorem env_quiet (c d : Bool) (htag : tag.quiet = true) (hs : m.1.SameCore s) :
    r.Env d m (s, (c, tag) :: m.2) := by
  refine env_of_inv (fun h => h.quiet htag hs) hs.blockByHash hs.work ?_
  intro heq
  cases heq
  cases htag

/-! ### `PutBlock` -/

variable (r c) in
/-- The parent of the block of `c` is stored, one height below. -/
def ParentStored (s : DB) : Prop :=
  ∃ p, s.blockByHash (r.block c).prevHex = some p ∧ p.header.height + 1 = (r.block c).header.height

/-- A block is not its own parent. -/
theorem Blocks.prevHex_ne (h : r.Blocks s tr) (hp : r.ParentStored c s) :
    (r.block c).prevHex ≠ r.hash c := by
  obtain ⟨p, hp, hheight⟩ := hp
  intro heq
  obtain ⟨hkey, hknown⟩ := h.key _ p hp
  have hhead : p.header = (r.block c).header :=
    r.dom.injective _ _ hknown (r.known c) (hkey.symm.trans heq)
  rw [hhead] at hheight
  exact absurd hheight (by simp)

/-- `PutBlock` keeps the header of every stored block. -/
theorem Blocks.keep_header (h : r.Blocks s tr) {x : String} {b : Block}
    (hb : s.blockByHash x = some b) :
    ∃ b', Function.update s.blockByHash (r.hash c) (some (r.block c)) x = some b' ∧
      b'.header = b.header := by
  rw [Function.update_apply]
  split
  next heq =>
    obtain ⟨hkey, hknown⟩ := h.key x b hb
    refine ⟨r.block c, rfl, r.dom.injective _ _ (r.known c) hknown ?_⟩
    exact heq.symm.trans hkey
  next => exact ⟨b, hb, rfl⟩

/-- `PutBlock` keeps the tree: the new block stands above a stored parent, and a block that it
overwrites has the same header. -/
theorem Blocks.putBlock (h : r.Blocks s tr) (hne : (r.block c).header.height ≠ 0)
    (hp : r.ParentStored c s) :
    r.Blocks (s.putBlock (r.hash c) (r.block c).header.height (r.block c))
      ((c, .put (.block (r.hash c))) :: tr) where
  key := by
    intro x b hb
    rw [DB.blockByHash_putBlock, Function.update_apply] at hb
    split at hb
    next heq =>
      cases hb
      exact ⟨heq, r.known c⟩
    next => exact h.key x b hb
  root := by
    intro x b hb h0
    rw [DB.blockByHash_putBlock, Function.update_apply] at hb
    split at hb
    next =>
      cases hb
      -- the new block is above height zero
      have h0' : (r.block c).header.height.toNat = (0 : UInt64).toNat := h0
      exact absurd (UInt64.toNat.inj h0') hne
    next => exact h.root x b hb h0
  linked := by
    intro x b hb hpos
    rw [DB.blockByHash_putBlock, Function.update_apply] at hb
    -- the parent was stored before, and its height is kept
    obtain ⟨p, hpar, hstep⟩ : ∃ p, s.blockByHash b.prevHex = some p ∧ b.height = p.height + 1 := by
      split at hb
      next =>
        cases hb
        obtain ⟨p, hpar, hsucc⟩ := hp
        exact ⟨p, hpar, height_eq_succ hne hsucc⟩
      next => exact h.linked x b hb hpos
    obtain ⟨p', hp', hhead⟩ := h.keep_header (c := c) hpar
    refine ⟨p', hp', ?_⟩
    rw [hstep, Block.height, Block.height, hhead]
  kept := by
    intro x b hb
    obtain ⟨b', hb'⟩ := h.kept x b hb
    obtain ⟨b'', hb'', -⟩ := h.keep_header (c := c) hb'
    exact ⟨b'', hb''⟩
  added := by
    intro x b hb
    rw [DB.blockByHash_putBlock, Function.update_apply] at hb
    split at hb
    next heq =>
      subst heq
      exact Or.inr ⟨c, rfl, List.mem_cons_self⟩
    next =>
      refine (h.added x b hb).imp_right ?_
      rintro ⟨d, hx, hmem⟩
      exact ⟨d, hx, List.mem_cons_of_mem _ hmem⟩

/-- `PutBlock` keeps the invariant. -/
theorem Inv.putBlock (h : r.Inv m) (hne : (r.block c).header.height ≠ 0)
    (hp : r.ParentStored c m.1) :
    r.Inv (m.1.putBlock (r.hash c) (r.block c).header.height (r.block c),
      (c, .put (.block (r.hash c))) :: m.2) where
  blocks := h.blocks.putBlock hne hp
  entries := h.entries.cons rfl (by simp)
  tip := by
    refine h.tip.cons rfl rfl rfl (fun x b hb => ?_) (fun _ _ _ hw => hw) (by simp)
    obtain ⟨b', hb', -⟩ := h.blocks.keep_header (c := c) hb
    exact ⟨b', hb'⟩

theorem env_putBlock (hne : (r.block c).header.height ≠ 0) (hp : r.ParentStored c m.1) :
    r.Env (!c) m (m.1.putBlock (r.hash c) (r.block c).header.height (r.block c),
      (c, .put (.block (r.hash c))) :: m.2) :=
  fun h => ⟨h.putBlock hne hp, fun _ _ hb => h.blocks.keep_header hb, fun _ _ hw => hw,
    fun hno => ⟨not_readsUnscored_of_cons hno, fun _ _ hw => hw⟩, mem_of_mem_cons_other⟩

/-! ### `GetWork` of the parent and `PutWork` -/

/-- What a call knows about the parent work `p` it has read. -/
structure ParentWork (r : n.Race) (c : Bool) (p : UInt64) (m : DB × Trace Access) : Prop where
  start : ∀ p₀, r.start.work (r.block c).prevHex = some p₀ → p = p₀
  same : r.hash true = r.hash false → cumulative p (work64 (r.block c).header.bits) = r.value
  current : ¬ ReadsUnscored r.start m.2 → m.1.work (r.block c).prevHex = some p

theorem hash_eq_of_hash_eq (hsame : r.hash true = r.hash false) (c : Bool) :
    r.hash c = r.hash true := by
  cases c with
  | true => rfl
  | false => exact hsame.symm

/-- If both calls submit the same hash, they submit the same header. -/
theorem header_eq_of_hash_eq (hsame : r.hash true = r.hash false) (c : Bool) :
    (r.block c).header = (r.block true).header :=
  r.dom.injective _ _ (r.known c) (r.known true) (hash_eq_of_hash_eq hsame c)

/-- The parent has an entry, unless the other call has stored it and not yet scored it. -/
theorem Inv.exists_parent_entry (h : r.Inv m) (hp : r.ParentStored c m.1)
    (hno : ¬ ReadsUnscored r.start ((c, .get (.work (r.block c).prevHex)) :: m.2)) :
    ∃ w, m.1.work (r.block c).prevHex = some w := by
  have hprev := h.blocks.prevHex_ne hp
  obtain ⟨p, hpar, -⟩ := hp
  rcases h.blocks.added _ p hpar with ⟨p', hp'⟩ | ⟨d, hd, hmem⟩
  · -- a block of the start has an entry, which no call removes
    obtain ⟨w, hw⟩ := r.table.stored _ _ hp'
    exact ⟨w, h.entries.kept _ w hw⟩
  · -- the parent is the block of the other call
    have hother : d = !c := by
      have hdc : d ≠ c := fun hdc => hprev (hdc ▸ hd)
      revert hdc
      cases d <;> cases c <;> simp
    cases hstart : r.start.work (r.block c).prevHex with
    | some w => exact ⟨w, h.entries.kept _ w hstart⟩
    | none =>
        apply h.entries.scored (!c)
        by_contra hunscored
        refine hno ⟨[], c, _, m.2, rfl, hstart, ?_, hunscored⟩
        rw [← hother]
        exact hmem

/-- What `GetWork` of the parent finds. -/
theorem Inv.parentWork (h : r.Inv m) (hp : r.ParentStored c m.1) :
    r.ParentWork c (m.1.getWork (r.block c).prevHex)
      (m.1, (c, .get (.work (r.block c).prevHex)) :: m.2) where
  start := by
    intro p₀ hp₀
    rw [DB.getWork, h.entries.kept _ p₀ hp₀, Option.getD_some]
  same := by
    intro hsame
    -- the entry of the parent is written by neither call
    have hout : ∀ d, (r.block c).prevHex ≠ r.hash d := by
      intro d
      rw [hash_eq_of_hash_eq hsame d, ← hash_eq_of_hash_eq hsame c]
      exact h.blocks.prevHex_ne hp
    have hprev : (r.block true).prevHex = (r.block c).prevHex := by
      rw [Block.prevHex, Block.prevHex, header_eq_of_hash_eq hsame c]
    rw [value, hprev, DB.getWork, DB.getWork, h.entries.elsewhere _ hout,
      header_eq_of_hash_eq hsame c]
  current := by
    intro hno
    obtain ⟨w, hw⟩ := h.exists_parent_entry hp hno
    show m.1.work (r.block c).prevHex = some (m.1.getWork (r.block c).prevHex)
    rw [DB.getWork, hw, Option.getD_some]

section PutWork

variable (hne : (r.block c).header.height ≠ 0) {p : UInt64} (hp : r.ParentWork c p m)

include hne hp

/-- Without a read of an unscored parent, a call writes the entry that is there, if there is one. -/
theorem Inv.work_eq (h : r.Inv m) (hno : ¬ ReadsUnscored r.start m.2) {w : UInt64}
    (hw : m.1.work (r.hash c) = some w) : w = cumulative p (work64 (r.block c).header.bits) := by
  obtain ⟨q, hq, rfl⟩ := h.entries.entry hno _ w (r.known c) (n.ne_genesis_of_height_ne_zero hne) hw
  have hqp : q = p := Option.some.inj (hq.symm.trans (hp.current hno))
  rw [hqp]

/-- Without a read of an unscored parent, `PutWork` changes no entry that is there. -/
theorem Inv.work_keep (h : r.Inv m) (hno : ¬ ReadsUnscored r.start m.2) {x : String} {w : UInt64}
    (hw : m.1.work x = some w) : Function.update m.1.work (r.hash c)
      (some (cumulative p (work64 (r.block c).header.bits))) x = some w := by
  rw [Function.update_apply]
  split
  next heq =>
    rw [heq] at hw
    rw [h.work_eq hne hp hno hw]
  next => exact hw

/-- `PutWork` keeps an entry that the other call has written for the same block. -/
theorem work_keep_of_value {d : Bool} (hdc : d ≠ c) {w : UInt64}
    (hv : r.hash true = r.hash false → w = r.value) (hw : m.1.work (r.hash d) = some w) :
    Function.update m.1.work (r.hash c)
      (some (cumulative p (work64 (r.block c).header.bits))) (r.hash d) = some w := by
  rw [Function.update_apply]
  split
  next heq =>
    have hsame : r.hash true = r.hash false := by
      revert heq hdc
      cases d <;> cases c <;> simp [eq_comm]
    rw [hp.same hsame, hv hsame]
  next => exact hw

/-- `PutWork` keeps the work entries. An entry that it overwrites was computed from the same parent
entry, and if no unscored parent has been read, so is the entry that it writes. -/
theorem Entries.putWork (h : r.Inv m) (hprev : (r.block c).prevHex ≠ r.hash c) :
    r.Entries (m.1.putWork (r.hash c) (cumulative p (work64 (r.block c).header.bits)))
      ((c, .put (.work (r.hash c))) :: m.2) where
  elsewhere := by
    intro x hx
    exact (Function.update_of_ne (hx c) _ _).trans (h.entries.elsewhere x hx)
  kept := by
    intro x w hw
    rw [DB.work_putWork, Function.update_apply]
    split
    next heq =>
      -- the entry of the start was computed from the same parent entry
      subst heq
      obtain ⟨p₀, hp₀, rfl⟩ := r.table.entry _ w (r.known c) (n.ne_genesis_of_height_ne_zero hne) hw
      rw [hp.start p₀ hp₀]
    next => exact h.entries.kept x w hw
  sameBlock := by
    intro hsame _ w hw
    rw [DB.work_putWork, hash_eq_of_hash_eq hsame c, Function.update_self] at hw
    rw [← Option.some.inj hw]
    exact hp.same hsame
  scored := by
    intro d x hmem
    rw [DB.work_putWork, Function.update_apply]
    split
    next => exact ⟨_, rfl⟩
    next hx =>
      rcases List.mem_cons.mp hmem with heq | hmem
      · cases heq
        exact absurd rfl hx
      · exact h.entries.scored d x hmem
  entry := by
    intro hno hd w hknown hgen hw
    have hno' := not_readsUnscored_of_cons hno
    rw [DB.work_putWork, Function.update_apply] at hw
    split at hw
    next heq =>
      -- the entry that is written, above the parent entry that was read
      obtain rfl : hd = (r.block c).header := r.dom.injective _ _ hknown (r.known c) heq
      refine ⟨p, ?_, (Option.some.inj hw).symm⟩
      exact (Function.update_of_ne hprev _ _).trans (hp.current hno')
    next =>
      -- another header: its entry and its parent's are as they were
      obtain ⟨q, hq, hwq⟩ := h.entries.entry hno' hd w hknown hgen hw
      exact ⟨q, h.work_keep hne hp hno' hq, hwq⟩

/-- `PutWork` keeps the invariant, if the call has not yet written the tip work. -/
theorem Inv.putWork (h : r.Inv m) (hprev : (r.block c).prevHex ≠ r.hash c)
    (hfresh : (c, .put .tipWork) ∉ m.2) :
    r.Inv (m.1.putWork (r.hash c) (cumulative p (work64 (r.block c).header.bits)),
      (c, .put (.work (r.hash c))) :: m.2) where
  blocks := h.blocks.cons rfl
  entries := Entries.putWork hne hp h hprev
  tip := by
    refine h.tip.cons rfl rfl rfl (fun x b hb => ⟨b, hb⟩) (fun d w hd hw => ?_) (by simp)
    -- the tip work is not this call's, so it is the other one's
    have hdc : d ≠ c := fun hdc => hfresh (hdc ▸ mem_of_lastWriter hd)
    refine work_keep_of_value hne hp hdc (fun hsame => ?_) hw
    rw [hash_eq_of_hash_eq hsame d] at hw
    rw [header_eq_of_hash_eq hsame c] at hne
    exact h.entries.sameBlock hsame hne w hw

/-- The other call can rely on what `PutWork` does. -/
theorem env_putWork (hprev : (r.block c).prevHex ≠ r.hash c) (hfresh : (c, .put .tipWork) ∉ m.2) :
    r.Env (!c) m (m.1.putWork (r.hash c) (cumulative p (work64 (r.block c).header.bits)),
      (c, .put (.work (r.hash c))) :: m.2) := by
  intro h
  refine ⟨h.putWork hne hp hprev hfresh, fun x b hb => ⟨b, hb, rfl⟩, fun w hv hw => ?_,
    fun hno => ⟨not_readsUnscored_of_cons hno, fun x w hw => ?_⟩, mem_of_mem_cons_other⟩
  · exact work_keep_of_value hne hp (by cases c <;> simp) hv hw
  · exact h.work_keep hne hp (not_readsUnscored_of_cons hno) hw

end PutWork

/-! ### The writes of the tip -/

/-- The write of the tip height. -/
theorem Inv.putTipHeight (h : r.Inv m) :
    r.Inv ({ m.1 with tipHeight := some (r.block c).header.height },
      (c, .put .tipHeight) :: m.2) where
  blocks := h.blocks.cons rfl
  entries := h.entries.cons rfl (by simp)
  tip := by
    refine ⟨?_, ?_, ?_, ?_, ?_⟩
    · rw [lastWriter_cons, if_pos rfl]
      rfl
    · rw [lastWriter_cons, if_neg (by simp)]
      exact h.tip.blockID
    · rw [lastWriter_cons, if_neg (by simp)]
      exact h.tip.stored
    · rw [lastWriter_cons, if_neg (by simp)]
      exact h.tip.work
    · rw [lastWriter_cons, if_neg (by simp)]
      exact h.tip.entry

theorem env_putTipHeight : r.Env (!c) m
    ({ m.1 with tipHeight := some (r.block c).header.height }, (c, .put .tipHeight) :: m.2) :=
  env_of_inv Inv.putTipHeight rfl rfl (by simp)

/-- The write of the tip hash. -/
theorem Inv.putTipBlockID (h : r.Inv m) (hb : ∃ b, m.1.blockByHash (r.hash c) = some b) :
    r.Inv ({ m.1 with tipBlockID := some (r.hash c) }, (c, .put .tipBlockID) :: m.2) where
  blocks := h.blocks.cons rfl
  entries := h.entries.cons rfl (by simp)
  tip := by
    refine ⟨?_, ?_, fun d hd => ?_, ?_, ?_⟩
    · rw [lastWriter_cons, if_neg (by simp)]
      exact h.tip.height
    · rw [lastWriter_cons, if_pos rfl]
      rfl
    · rw [lastWriter_cons, if_pos rfl] at hd
      cases hd
      exact hb
    · rw [lastWriter_cons, if_neg (by simp)]
      exact h.tip.work
    · rw [lastWriter_cons, if_neg (by simp)]
      exact h.tip.entry

theorem env_putTipBlockID (hb : ∃ b, m.1.blockByHash (r.hash c) = some b) : r.Env (!c) m
    ({ m.1 with tipBlockID := some (r.hash c) }, (c, .put .tipBlockID) :: m.2) :=
  env_of_inv (fun h => h.putTipBlockID hb) rfl rfl (by simp)

/-- The write of the tip work. -/
theorem Inv.putTipWork (h : r.Inv m) {w : UInt64} (hw : m.1.work (r.hash c) = some w) :
    r.Inv (m.1.putTipWork w, (c, .put .tipWork) :: m.2) where
  blocks := h.blocks.cons rfl
  entries := h.entries.cons rfl (by simp)
  tip := by
    refine ⟨?_, ?_, ?_, fun hnone => ?_, fun d hd => ?_⟩
    · rw [lastWriter_cons, if_neg (by simp)]
      exact h.tip.height
    · rw [lastWriter_cons, if_neg (by simp)]
      exact h.tip.blockID
    · rw [lastWriter_cons, if_neg (by simp)]
      exact h.tip.stored
    · rw [lastWriter_cons, if_pos rfl] at hnone
      cases hnone
    · rw [lastWriter_cons, if_pos rfl] at hd
      cases hd
      exact ⟨w, rfl, hw⟩

theorem env_putTipWork {w : UInt64} (hw : m.1.work (r.hash c) = some w) :
    r.Env (!c) m (m.1.putTipWork w, (c, .put .tipWork) :: m.2) :=
  env_of_inv (fun h => h.putTipWork hw) rfl rfl (by cases c <;> simp)

end Race

end Node

end ReserveOS
