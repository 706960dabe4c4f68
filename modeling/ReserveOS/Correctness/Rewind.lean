import ReserveOS.Correctness.Exits
import ReserveOS.Correctness.HeaderChain
import ReserveOS.Correctness.Rebuild
import ReserveOS.Correctness.Snapshot

/-!
# Going back to the fork, and following the header chain

The two halves of a reorganisation, each reduced to `Ledger.applyBlocks`. On a complete height
index, `ApplyStateUpTo` applies to its base the blocks of the main chain between the base and the
target, and writes no table of the chain (`applyStateUpTo_eq`). One round of the loop over the
header chain stops at a block that is missing, is not the one of the header or does not apply, or
applies the block and moves the tip to it (`followPath_cons`).
-/

namespace ReserveOS

/-- The hash of a header is not the empty text. -/
theorem Node.hashHex_ne_empty (n : Node) (hd : BlockHeader) : n.hashHex hd ≠ "" := by
  intro h
  have hlen : (n.hashHex hd).toList.length = 64 := by
    simp [Node.hashHex, Hash.toHex]
  rw [h] at hlen
  simp at hlen

/-- Applying transactions ends with an error at worst. -/
theorem Ledger.Ran.noPanic {l : Ledger} {cs : List BalanceCall} {r : Res Unit × Ledger}
    (h : Ledger.Ran l cs r) : r.1.NoPanic := by
  induction h with
  | done => exact Res.noPanic_ok ()
  | setNonce _ _ _ ih => exact ih
  | accepted _ _ ih => exact ih
  | @refused l c cs e h =>
      unfold Ledger.addBalance at h
      split at h
      · cases h
        exact Res.noPanic_error _
      · cases h

namespace DB

/-- The block table and the height index are the same. -/
structure SameBlocks (s s' : DB) : Prop where
  blockByHash : s'.blockByHash = s.blockByHash
  hashByHeight : s'.hashByHeight = s.hashByHeight

theorem SameBlocks.trans {s t u : DB} (h₁ : s.SameBlocks t) (h₂ : t.SameBlocks u) :
    s.SameBlocks u :=
  ⟨h₂.blockByHash.trans h₁.blockByHash, h₂.hashByHeight.trans h₁.hashByHeight⟩

/-- A new tip leaves the blocks and the index. -/
theorem SameBlocks.putTip {s s' : DB} (h : s.SameBlocks s') (k : UInt64) (x : String) :
    s.SameBlocks (s'.putTip k x) :=
  ⟨h.1, h.2⟩

theorem SameBlocks.ancestorAt_iff {s s' : DB} (h : s.SameBlocks s') {c a : String} {k : ℕ} :
    s'.AncestorAt c k a ↔ s.AncestorAt c k a := by
  rw [DB.AncestorAt, DB.AncestorAt, h.blockByHash]

theorem SameBlocks.rootPath_iff {s s' : DB} (h : s.SameBlocks s') {c : String} {bs : List Block} :
    s'.RootPath c bs ↔ s.RootPath c bs := by
  rw [DB.RootPath, DB.RootPath, h.blockByHash]

/-- The blocks of the index up to a lower height. -/
theorem IndexedBlocks.take {s : DB} {upto k : UInt64} {bs : List Block}
    (h : s.IndexedBlocks upto bs) (hk : k ≤ upto) : s.IndexedBlocks k (bs.take k.toNat) := by
  refine ⟨?_, fun i b hb => h.block i b ?_, h.root⟩
  · have := UInt64.le_iff_toNat_le.mp hk
    rw [List.length_take, h.length]
    omega
  · rw [List.getElem?_take] at hb
    split at hb
    · exact hb
    · cases hb

/-- The index has an entry at every height above `base`. -/
theorem IndexedBlocks.exists_entry {s : DB} {upto base : UInt64} {bs : List Block}
    (h : s.IndexedBlocks upto bs) {i : ℕ} (hi : base.toNat + i < upto.toNat) :
    ∃ e, s.getBlockByHeight (base + 1 + UInt64.ofNat i) = some e := by
  rw [← h.length] at hi
  obtain ⟨x, hx⟩ := h.block _ _ (List.getElem?_eq_getElem hi)
  have hheight : base + 1 + UInt64.ofNat i = UInt64.ofNat (base.toNat + i + 1) := by
    rw [UInt64.ofNat_add, UInt64.ofNat_add, UInt64.ofNat_toNat]
    grind
  rw [hheight]
  exact ⟨_, hx⟩

end DB

/-! ### Going back -/

/-- The entries of a map under a key prefix. -/
theorem KV.getElem?_foldl_rawEntries {V : Type} (pref : List UInt8) (m : Table V)
    (enc : V → List UInt8) (db : KV) (id : String) :
    ((Represents.rawEntries m).foldl (fun db e => db.insert (pref ++ e.1) (enc e.2))
      db)[pref ++ stringBytes id]? = (m[id]?.map enc).or db[pref ++ stringBytes id]? := by
  have hinj : Function.Injective fun id : String => pref ++ stringBytes id :=
    fun id id' h => stringBytes_injective (List.append_cancel_left h)
  rw [Represents.rawEntries, List.foldl_map]
  exact SortedMap.getElem?_foldl_insert_entries (List.Perm.refl _) hinj enc db id

/-- `WipeStatePrefixes` and `ImportStateMaps` on the bytes give the ledger with the entries of the
snapshot. -/
theorem KV.Represents.imported (db : KV) (ss : Snapshot) :
    (db.wipeStatePrefixes.importStateMaps (rawEntries ss.balances)
      (rawEntries ss.nonces)).Represents ss.imported := by
  have hwiped := KV.Represents.resetState db
  rw [wipeStatePrefixes_eq, importStateMaps]
  constructor
  · intro id
    have hnone : db.resetState[balPrefix ++ stringBytes id]? = none := hwiped.bal id
    -- the nonces are written outside of the balances
    rw [keyBal, getElem?_foldl_put_of_outside _ _ (not_noncePrefix_bal _),
      getElem?_foldl_rawEntries balPrefix ss.balances fun v => putUint64 v.toUInt64, hnone,
      Option.or_none]
    rfl
  · intro id
    have hnone : db.resetState[noncePrefix ++ stringBytes id]? = none := hwiped.nonce id
    rw [keyNonce, getElem?_foldl_rawEntries noncePrefix ss.nonces putUint64,
      getElem?_foldl_put_of_outside (fun v : Int64 => putUint64 v.toUInt64) _
        (not_balPrefix_nonce _), hnone, Option.or_none]
    rfl

namespace Node

variable {n : Node} {dom : n.HashDomain} {s : DB} {hs : HeaderIndex} {main : List Block}

/-- The chosen snapshot is not above the target. -/
theorem height_le_of_bestSnapshot {target : UInt64} :
    ∀ ss, n.bestSnapshot target = some ss → ss.height ≤ target := by
  unfold bestSnapshot
  refine List.foldlRecOn _ _
    (motive := fun best => ∀ ss : Snapshot, best = some ss → ss.height ≤ target) ?_ ?_
  · simp
  · intro best hbest p _ ss hss
    split at hss
    next => exact hbest ss hss
    next ss' _ =>
      split at hss
      next hle =>
        obtain rfl := Option.some.inj hss
        exact hle.1
      next => exact hbest ss hss

/-- The base of a target is not above it. -/
theorem stateBase_le (target : UInt64) : (n.stateBase target).1 ≤ target := by
  unfold stateBase
  split
  next ss hss => exact height_le_of_bestSnapshot ss hss
  next => exact UInt64.zero_le

/-- The replay loop finds every block and ends before its counter wraps around. -/
theorem replayTo_eq {target : UInt64} {count : ℕ} {h : UInt64} {s : DB}
    (hfound : ∀ i < count, ∃ e, s.getBlockByHeight (h + UInt64.ofNat i) = some e)
    (hend : target < h + UInt64.ofNat count) :
    n.replayTo target count h s = n.replayMainChain count h s := by
  induction count generalizing h s with
  | zero =>
      have hlt : ¬ h ≤ target := by simpa using UInt64.not_le.mpr hend
      rw [replayTo, if_neg hlt, replayMainChain]
  | succ count ih =>
      obtain ⟨e, he⟩ := hfound 0 (Nat.succ_pos count)
      have he : s.getBlockByHeight h = some e := by simpa using he
      have hsame := n.getBlockByHeight_applyBlockTxs s e.2
      rw [replayTo, replayMainChain, he]
      dsimp only
      generalize n.applyBlockTxs s e.2 = p at hsame
      obtain ⟨r, s₁⟩ := p
      cases r with
      | error e => rfl
      | ok u =>
          have hnext : ∀ i, h + UInt64.ofNat (i + 1) = h + 1 + UInt64.ofNat i := fun i => by
            rw [Nat.add_comm, UInt64.ofNat_add, UInt64.add_assoc]
            rfl
          refine ih (fun i hi => ?_) (by rwa [← hnext])
          rw [hsame, ← hnext]
          exact hfound (i + 1) (by omega)

variable (n) in
/-- What is left of the ledger after going back to height `F` of the main chain: the blocks above
the base are applied to it, up to the first error. -/
def rewound (main : List Block) (F : UInt64) : Res Unit × Ledger :=
  (n.stateBase F).2.applyBlocks ((main.take F.toNat).drop (n.stateBase F).1.toNat)

/-- Going back to a height of the main chain. -/
theorem applyStateUpTo_eq {curH F : UInt64} (h : s.IndexedBlocks curH main) (hle : F ≤ curH)
    (hfit : F.toNat + 1 < 2 ^ 64) :
    ((n.applyStateUpTo s F).1, (n.applyStateUpTo s F).2.ledger) = n.rewound main F ∧
      s.SameBlocks (n.applyStateUpTo s F).2 ∧ (n.applyStateUpTo s F).2.getTip = s.getTip := by
  have hbase := UInt64.le_iff_toNat_le.mp (n.stateBase_le F)
  have hstart : ((n.stateBase F).1 + 1).toNat = (n.stateBase F).1.toNat + 1 :=
    toNat_succ_of_lt (by omega)
  -- the reset of the ledger changes no index entry
  have hF : s.IndexedBlocks F (main.take F.toNat) := h.take hle
  have hF' : ({ s with ledger := (n.stateBase F).2 } : DB).IndexedBlocks F (main.take F.toNat) :=
    ⟨hF.1, hF.2, hF.3⟩
  -- every height up to `F` is indexed and the counter does not wrap: the loop is the plain replay
  have hreplay : n.applyStateUpTo s F =
      n.replayMainChain (F.toNat + 1 - ((n.stateBase F).1 + 1).toNat) ((n.stateBase F).1 + 1)
        { s with ledger := (n.stateBase F).2 } := by
    unfold applyStateUpTo
    apply replayTo_eq
    · intro i hi
      rw [hstart] at hi
      exact hF'.exists_entry (by omega)
    · rw [hstart, UInt64.lt_iff_toNat_lt, UInt64.toNat_add, hstart, UInt64.toNat_ofNat']
      omega
  have hledger := replayMainChain_indexed (n := n) hF' ((n.stateBase F).1 + 1)
  rw [hstart, Nat.add_sub_cancel] at hledger
  rw [hreplay, hstart]
  refine ⟨hledger, ?_, ?_⟩
  · rw [replayMainChain_eq]
    exact ⟨rfl, rfl⟩
  · rw [replayMainChain_eq]
    rfl

end Node

/-! ### Following the header chain -/

namespace HeaderIndex

/-- The header stored under `x` agrees with the block on the fields that are compared. -/
def Describes (hs : HeaderIndex) (x : String) (b : Block) : Prop :=
  ∃ hdr, hs.header x = some hdr ∧ hdr.height = b.header.height ∧
    hdr.prevHash = b.header.prevHash ∧ hdr.bits = b.header.bits ∧
    hdr.timeUnix = b.header.timeUnix ∧ hdr.txRoot = b.header.txRoot

/-- The block with hash `x` is stored, and the header of this hash describes it. -/
def Usable (hs : HeaderIndex) (s : DB) (x : String) (b : Block) : Prop :=
  s.blockByHash x = some b ∧ hs.Describes x b

theorem Usable.sameBlocks {hs : HeaderIndex} {s s' : DB} (h : s.SameBlocks s') :
    hs.Usable s' = hs.Usable s := by
  ext x b
  rw [Usable, Usable, h.blockByHash]

theorem Usable.unique {hs : HeaderIndex} {s : DB} {x : String} {b b' : Block}
    (h : hs.Usable s x b) (h' : hs.Usable s x b') : b = b' :=
  Option.some.inj (h.1.symm.trans h'.1)

end HeaderIndex

namespace Node

variable {n : Node} {s : DB} {hs : HeaderIndex} {x : String} {path : List String}

variable (hs) in
/-- `BlockMatchesStoredHeader` compares the block with the header of its hash. -/
theorem blockMatchesStoredHeader_cases (b : Block) :
    (n.blockMatchesStoredHeader hs b = .ok () ∧ hs.Describes (n.hashHex b.header) b) ∨
      ∃ msg, n.blockMatchesStoredHeader hs b = .error (.error msg) ∧
        ¬ hs.Describes (n.hashHex b.header) b := by
  unfold blockMatchesStoredHeader HeaderIndex.Describes
  cases hs.header (n.hashHex b.header) with
  | none => simp
  | some hdr => grind

/-- What `applyBlockTxs` leaves, without a panic. -/
theorem applyBlockTxs_cases (s : DB) (b : Block) :
    ∃ s', s.SameBlocks s' ∧ s'.getTip = s.getTip ∧
      ((∃ msg, n.applyBlockTxs s b = (.error (.error msg), s') ∧
          s.ledger.applyTxs b.txs = (.error (.error msg), s'.ledger)) ∨
        (n.applyBlockTxs s b = (.ok (), s') ∧ s.ledger.applyTxs b.txs = (.ok (), s'.ledger))) := by
  have hledger := n.ledger_applyBlockTxs s b
  have heq := n.applyBlockTxs_eq s b
  have hsafe := (Ledger.ran_applyTxs s.ledger b.txs).noPanic
  rw [← hledger] at hsafe
  have hsame : s.SameBlocks (n.applyBlockTxs s b).2 := by
    rw [heq]
    exact ⟨rfl, rfl⟩
  have htip : (n.applyBlockTxs s b).2.getTip = s.getTip := by
    rw [heq]
    rfl
  refine ⟨_, hsame, htip, ?_⟩
  rw [← hledger]
  generalize n.applyBlockTxs s b = p at hsafe
  obtain ⟨r, s'⟩ := p
  match r with
  | .ok () => exact .inr ⟨rfl, rfl⟩
  | .error (.error msg) => exact .inl ⟨msg, rfl, rfl⟩
  | .error (.panic msg) => exact absurd rfl (hsafe msg)

variable (hs) in
/-- One round of the loop over the header chain. -/
theorem followPath_cons (hkey : ∀ x b, s.blockByHash x = some b → x = n.hashHex b.header)
    (x : String) (path : List String) :
    (∃ msg, (∀ b, ¬ hs.Usable s x b) ∧ n.followPath hs s (x :: path) = (.error (.error msg), s)) ∨
      ∃ b s', hs.Usable s x b ∧ s.SameBlocks s' ∧ s'.getTip = s.getTip ∧
        ((∃ msg, s.ledger.applyTxs b.txs = (.error (.error msg), s'.ledger) ∧
            n.followPath hs s (x :: path) = (.error (.error msg), s')) ∨
          (s.ledger.applyTxs b.txs = (.ok (), s'.ledger) ∧ n.followPath hs s (x :: path) =
              n.followPath hs (s'.putTip b.header.height x) path)) := by
  rw [followPath]
  cases hb : s.blockByHash x with
  | none =>
      refine .inl ⟨_, ?_, rfl⟩
      rintro b ⟨hb', -⟩
      simp [hb] at hb'
  | some b =>
      dsimp only
      -- the stored header describes the block, which is then applied, or it does not
      rcases n.blockMatchesStoredHeader_cases hs b with ⟨hok, hdesc⟩ | ⟨msg, herr, hdesc⟩
      · rw [← hkey x b hb] at hdesc
        obtain ⟨s', hsame, htip, ⟨msg, happ, hledger⟩ | ⟨happ, hledger⟩⟩ :=
          n.applyBlockTxs_cases s b
        · refine .inr ⟨b, s', ⟨hb, hdesc⟩, hsame, htip, .inl ⟨msg, hledger, ?_⟩⟩
          rw [hok, happ]
        · refine .inr ⟨b, s', ⟨hb, hdesc⟩, hsame, htip, .inr ⟨hledger, ?_⟩⟩
          rw [hok, happ]
      · rw [← hkey x b hb] at hdesc
        refine .inl ⟨msg, ?_, by rw [herr]⟩
        rintro b' ⟨hb', hdesc'⟩
        obtain rfl : b = b' := Option.some.inj (hb.symm.trans hb')
        exact hdesc hdesc'

variable (hs) in
/-- The loop only moves the tip, to blocks of the path. -/
theorem tip_followPath (hkey : ∀ x b, s.blockByHash x = some b → x = n.hashHex b.header)
    (path : List String) :
    (n.followPath hs s path).2.getTip = s.getTip ∨ ∃ x ∈ path, ∃ b, hs.Usable s x b ∧
        (n.followPath hs s path).2.getTip = some (b.header.height, x) := by
  induction path generalizing s with
  | nil => exact .inl rfl
  | cons x path ih =>
      rcases followPath_cons hs hkey x path with
        ⟨msg, -, heq⟩ | ⟨b, s', huse, hsame, htip, ⟨msg, -, heq⟩ | ⟨-, heq⟩⟩
      · rw [heq]
        exact .inl rfl
      · rw [heq]
        exact .inl htip
      · rw [heq]
        have hmoved := hsame.putTip b.header.height x
        rcases ih (s := s'.putTip b.header.height x) (by rwa [hmoved.blockByHash]) with
          hsame' | ⟨y, hy, c, hc, htip'⟩
        · exact .inr ⟨x, List.mem_cons_self, b, huse, hsame'.trans (DB.getTip_putTip _ _ _)⟩
        · rw [HeaderIndex.Usable.sameBlocks hmoved] at hc
          exact .inr ⟨y, List.mem_cons_of_mem _ hy, c, hc, htip'⟩

/-- If the loop ends without error, all blocks of the path are usable and apply. -/
theorem exists_usable_of_followPath
    (hkey : ∀ x b, s.blockByHash x = some b → x = n.hashHex b.header)
    (hok : (n.followPath hs s path).1 = .ok ()) :
    ∃ bs, List.Forall₂ (hs.Usable s) path bs ∧ (s.ledger.applyBlocks bs).1 = .ok () := by
  induction path generalizing s with
  | nil => exact ⟨[], .nil, rfl⟩
  | cons x path ih =>
      rcases followPath_cons hs hkey x path with
        ⟨msg, -, heq⟩ | ⟨b, s', huse, hsame, -, ⟨msg, -, heq⟩ | ⟨happ, heq⟩⟩
      · rw [heq] at hok
        cases hok
      · rw [heq] at hok
        cases hok
      · rw [heq] at hok
        have hmoved := hsame.putTip b.header.height x
        obtain ⟨bs, hbs, hrest⟩ := ih (by rwa [hmoved.blockByHash]) hok
        rw [HeaderIndex.Usable.sameBlocks hmoved] at hbs
        refine ⟨b :: bs, .cons huse hbs, ?_⟩
        rw [Ledger.applyBlocks, happ]
        exact hrest

/-- Along usable blocks that apply, the loop ends at the last of them. -/
theorem followPath_of_usable (hkey : ∀ x b, s.blockByHash x = some b → x = n.hashHex b.header)
    {bs : List Block} (hbs : List.Forall₂ (hs.Usable s) path bs) {l : Ledger}
    (happ : s.ledger.applyBlocks bs = (.ok (), l)) :
    ∃ s', n.followPath hs s path = (.ok (), s') ∧ s'.ledger = l ∧ s.SameBlocks s' ∧
      ∀ x b, path.getLast? = some x → bs.getLast? = some b →
        s'.getTip = some (b.header.height, x) := by
  induction path generalizing s bs with
  | nil =>
      obtain rfl := List.forall₂_nil_left_iff.mp hbs
      exact ⟨s, rfl, congrArg Prod.snd happ, ⟨rfl, rfl⟩, by simp⟩
  | cons x path ih =>
      obtain ⟨b, bs, huse, hrest, rfl⟩ := List.forall₂_cons_left_iff.mp hbs
      rw [Ledger.applyBlocks] at happ
      rcases followPath_cons hs hkey x path with
        ⟨msg, hnot, -⟩ | ⟨b', s', huse', hsame, -, hround⟩
      · exact absurd huse (hnot b)
      obtain rfl := huse.unique huse'
      rcases hround with ⟨msg, hfail, -⟩ | ⟨hone, heq⟩
      · rw [hfail] at happ
        cases happ
      · rw [hone] at happ
        have hmoved := hsame.putTip b.header.height x
        rw [← HeaderIndex.Usable.sameBlocks hmoved] at hrest
        obtain ⟨t, hrun, hledger, hsame', hlast⟩ := ih (by rwa [hmoved.blockByHash]) hrest happ
        refine ⟨t, heq.trans hrun, hledger, hmoved.trans hsame', ?_⟩
        intro y c hy hc
        cases hrest with
        | nil =>
            -- the round for `x` was the last one
            obtain rfl : x = y := by simpa using hy
            obtain rfl : b = c := by simpa using hc
            rw [followPath] at hrun
            obtain rfl := (Prod.mk.inj hrun).2
            exact DB.getTip_putTip _ _ _
        | cons _ _ =>
            rw [List.getLast?_cons_cons] at hy hc
            exact hlast y c hy hc

end Node

end ReserveOS
