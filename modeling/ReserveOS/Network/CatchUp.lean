import ReserveOS.Correctness.Extension
import ReserveOS.Node.ChainServer

/-!
# Catching up with a peer

A node whose chain the chain of a peer continues asks that peer in every round of `syncOnce`, and
any reply may be lost. `catch_up` says that the node has at any time the chain that `SubmitBlock`
makes of the peer's next blocks, as many of them as arrived, and that each round in which the
headers and a block arrive brings it on by a block or more. A round that was cut short leaves only
work entries of blocks that are still to come, which those blocks will write (`WorkAhead`).
-/

namespace ReserveOS

/-! ### Work entries written in advance -/

/-- `t` has the chain of `s`, and some work entries of `full`. -/
structure WorkAhead (full s t : DB) : Prop where
  blockByHash : t.blockByHash = s.blockByHash
  hashByHeight : t.hashByHeight = s.hashByHeight
  tipHeight : t.tipHeight = s.tipHeight
  tipBlockID : t.tipBlockID = s.tipBlockID
  tipWork : t.tipWork = s.tipWork
  ledger : t.ledger = s.ledger
  validators : t.validators = s.validators
  work : ∀ x, t.work x = s.work x ∨ t.work x = full.work x

namespace WorkAhead

variable {full s t u : DB}

theorem refl (full s : DB) : WorkAhead full s s :=
  ⟨rfl, rfl, rfl, rfl, rfl, rfl, rfl, fun _ => .inl rfl⟩

/-- Entries that are ahead stay so. -/
theorem trans (h₁ : WorkAhead full s t) (h₂ : WorkAhead full t u) : WorkAhead full s u where
  blockByHash := h₂.blockByHash.trans h₁.blockByHash
  hashByHeight := h₂.hashByHeight.trans h₁.hashByHeight
  tipHeight := h₂.tipHeight.trans h₁.tipHeight
  tipBlockID := h₂.tipBlockID.trans h₁.tipBlockID
  tipWork := h₂.tipWork.trans h₁.tipWork
  ledger := h₂.ledger.trans h₁.ledger
  validators := h₂.validators.trans h₁.validators
  work x := by
    rcases h₂.work x with h | h
    · rw [h]
      exact h₁.work x
    · exact .inr h

theorem of_sameChain (h : s.SameChain t) : WorkAhead full s t :=
  ⟨h.blockByHash, h.hashByHeight, h.tipHeight, h.tipBlockID, h.tipWork, h.ledger, h.validators,
    fun x => .inl (congrFun h.work x)⟩

/-- Nothing is ahead of the whole chain. -/
theorem sameChain (h : WorkAhead full full t) : full.SameChain t where
  blockByHash := h.blockByHash
  hashByHeight := h.hashByHeight
  work := by
    ext1 x
    exact (h.work x).elim id id
  tipHeight := h.tipHeight
  tipBlockID := h.tipBlockID
  tipWork := h.tipWork
  ledger := h.ledger
  validators := h.validators

theorem getTip (h : WorkAhead full s t) : t.getTip = s.getTip :=
  DB.getTip_congr h.tipHeight h.tipBlockID

theorem getTipWork (h : WorkAhead full s t) : t.getTipWork = s.getTipWork := by
  rw [DB.getTipWork, DB.getTipWork, h.tipWork]

theorem getBlockByHeight (h : WorkAhead full s t) : t.getBlockByHeight = s.getBlockByHeight := by
  ext1 k
  rw [DB.getBlockByHeight, DB.getBlockByHeight, h.hashByHeight, h.blockByHash]

theorem putHeader (full s : DB) (x : String) (hdr : BlockHeader) :
    WorkAhead full s (s.putHeader x hdr) :=
  ⟨rfl, rfl, rfl, rfl, rfl, rfl, rfl, fun _ => .inl rfl⟩

/-- A work entry of `full` may be written. -/
theorem putWork {x : String} {w : UInt64} (hx : full.work x = some w) :
    WorkAhead full s (s.putWork x w) := by
  refine ⟨rfl, rfl, rfl, rfl, rfl, rfl, rfl, fun y => ?_⟩
  change Function.update s.work x (some w) y = s.work y ∨
    Function.update s.work x (some w) y = full.work y
  rw [Function.update_apply]
  split
  next hy => exact .inr (hy ▸ hx.symm)
  next => exact .inl rfl

/-- An entry on which `s` and `full` agree is there for `t` too. -/
theorem work_eq (h : WorkAhead full s t) {x : String} (hx : full.work x = s.work x) :
    t.work x = s.work x := by
  rcases h.work x with h | h
  · exact h
  · rw [h, hx]

end WorkAhead

namespace Node

/-! ### Blocks that continue the chain -/

variable {n : Node} {full s t peer : DB} {b : Block} {c : Int64 × Block}
  {calls front back : List (Int64 × Block)}

variable (n) in
/-- The block of the call is new, extends the tip with more work, and is accepted. -/
structure Chainable (s : DB) (c : Int64 × Block) : Prop where
  accepted : n.preStore s c.2 = .ok true
  extends_tip : extendsTip s c.2 = true
  valid : n.validateBlockStateTip s.ledger c.2 = .ok ()
  unknown : s.blockByHash (n.hashHex c.2.header) = none
  scored : (s.work c.2.prevHex).isSome
  heavier : s.getTipWork < cumWork s c.2

namespace Chainable

theorem submitBlock (h : n.Chainable s c) (now : Int64) :
    (n.submitBlock now s c.2).1 = .ok () ∧ (n.extend s c.2).SameChain (n.submitBlock now s c.2).2 :=
  sameChain_submitBlock h.accepted h.extends_tip h.valid now

theorem submit (h : n.Chainable s c) : (n.extend s c.2).SameChain (n.submit s c) :=
  (h.submitBlock c.1).2

theorem blockByHash_submit (h : n.Chainable s c) (x : String) :
    (n.submit s c).blockByHash x =
      if x = n.hashHex c.2.header then some c.2 else s.blockByHash x := by
  rw [h.submit.blockByHash, blockByHash_extend]

theorem work_submit (h : n.Chainable s c) (x : String) :
    (n.submit s c).work x =
      if x = n.hashHex c.2.header then some (cumWork s c.2) else s.work x := by
  rw [h.submit.work, work_extend]

theorem getTip_submit (h : n.Chainable s c) :
    (n.submit s c).getTip = some (c.2.header.height, n.hashHex c.2.header) := by
  rw [h.submit.getTip, getTip_extend]

theorem getTipWork_submit (h : n.Chainable s c) : (n.submit s c).getTipWork = cumWork s c.2 := by
  rw [DB.getTipWork, h.submit.tipWork, tipWork_extend]
  rfl

theorem getBlockByHeight_submit (h : n.Chainable s c) :
    (n.submit s c).getBlockByHeight c.2.header.height = some (n.hashHex c.2.header, c.2) := by
  rw [DB.getBlockByHeight_eq_some_iff, h.submit.hashByHeight, hashByHeight_extend, if_pos rfl,
    h.blockByHash_submit, if_pos rfl]
  exact ⟨rfl, rfl⟩

theorem parent_stored (h : n.Chainable s c) : (s.blockByHash c.2.prevHex).isSome := by
  obtain ⟨p, hp, -⟩ := (storable_of_preStore n h.accepted).parent
  rw [hp]
  rfl

/-- A block that was stored before stays stored. -/
theorem isSome_blockByHash_submit (h : n.Chainable s c) {x : String}
    (hx : (s.blockByHash x).isSome) : ((n.submit s c).blockByHash x).isSome := by
  rw [h.blockByHash_submit]
  split
  · rfl
  · exact hx

/-- The block has the same effect on a database with work entries ahead. -/
theorem workAhead (h : n.Chainable s c) (ht : WorkAhead full s t)
    (hfull : full.work c.2.prevHex = s.work c.2.prevHex) (now : Int64) :
    (n.submitBlock now t c.2).1 = .ok () ∧
      WorkAhead full (n.submit s c) (n.submitBlock now t c.2).2 := by
  have hpre : n.preStore t c.2 = .ok true :=
    (preStore_congr ht.blockByHash ht.getBlockByHeight ht.getTip).trans h.accepted
  have hext : extendsTip t c.2 = true := (extendsTip_congr ht.getTip).trans h.extends_tip
  have hval : n.validateBlockStateTip t.ledger c.2 = .ok () := ht.ledger ▸ h.valid
  obtain ⟨hok, hsame⟩ := sameChain_submitBlock hpre hext hval now
  have hcum : cumWork t c.2 = cumWork s c.2 := cumWork_congr (ht.work_eq hfull)
  refine ⟨hok, ?_⟩
  have hstep : WorkAhead full (n.extend s c.2) (n.extend t c.2) := by
    refine ⟨?_, ?_, ?_, ?_, ?_, ?_, ?_, fun x => ?_⟩
    · ext1 x
      rw [blockByHash_extend, blockByHash_extend, ht.blockByHash]
    · ext1 k
      rw [hashByHeight_extend, hashByHeight_extend, ht.hashByHeight]
    · rw [tipHeight_extend, tipHeight_extend]
    · rw [tipBlockID_extend, tipBlockID_extend]
    · rw [tipWork_extend, tipWork_extend, hcum]
    · rw [ledger_extend, ledger_extend, ht.ledger]
    · rw [validators_extend, validators_extend, ht.validators]
    · rw [work_extend, work_extend, hcum]
      split
      · exact .inl rfl
      · exact ht.work x
  -- the checkpoints of the two calls leave the chain alone
  have hback : (n.submit s c).SameChain (n.extend s c.2) := by
    have hs := h.submit
    exact ⟨hs.blockByHash.symm, hs.hashByHeight.symm, hs.work.symm, hs.tipHeight.symm,
      hs.tipBlockID.symm, hs.tipWork.symm, hs.ledger.symm, hs.validators.symm⟩
  exact ((WorkAhead.of_sameChain hback).trans hstep).trans (WorkAhead.of_sameChain hsame)

end Chainable

/-- Work entries of stored blocks are not written again. -/
theorem work_foldl_submit (hrun : Run.Admitted n.submit n.Chainable s calls) {x : String}
    (hx : (s.blockByHash x).isSome) : (calls.foldl n.submit s).work x = s.work x := by
  induction calls generalizing s with
  | nil => rfl
  | cons c calls ih =>
      obtain ⟨hc, hrest⟩ := hrun
      have hne : x ≠ n.hashHex c.2.header := by
        rintro rfl
        rw [hc.unknown] at hx
        exact Bool.false_ne_true hx
      rw [List.foldl_cons, ih hrest (hc.isSome_blockByHash_submit hx), hc.work_submit, if_neg hne]

/-! ### Scoring the headers -/

/-- The headers of blocks that continue the chain are scored with the work that the blocks will
have, and come out above the tip. -/
theorem scoreHeaders_chainable (hrun : Run.Admitted n.submit n.Chainable s (front ++ back))
    (hprev : ∀ c ∈ front.head?, t.work c.2.prevHex = s.work c.2.prevHex) (w : UInt64) :
    (n.scoreHeaders t w (front.map fun c => c.2.header)).1 =
        front.map (fun c => n.hashHex c.2.header) ∧
      (front ≠ [] → s.getTipWork < (n.scoreHeaders t w (front.map fun c => c.2.header)).2.1) ∧
      WorkAhead ((front ++ back).foldl n.submit s) t
        (n.scoreHeaders t w (front.map fun c => c.2.header)).2.2 := by
  induction front generalizing s t w with
  | nil => exact ⟨rfl, fun h => absurd rfl h, WorkAhead.refl _ _⟩
  | cons c front ih =>
      rw [List.cons_append] at hrun ⊢
      obtain ⟨hc, hrest⟩ := hrun
      obtain ⟨⟨-, -, hpow, -⟩, -, -⟩ := preStore_eq_true_iff.mp hc.accepted
      obtain ⟨p, hp⟩ := Option.isSome_iff_exists.mp hc.scored
      have hcum : cumulative p (work64 c.2.header.bits) = cumWork s c.2 := by
        rw [cumWork, DB.getWork, hp]
        rfl
      have htp : t.work c.2.header.prevHash.toHex = some p :=
        (hprev c rfl).trans hp
      rw [List.map_cons, scoreHeaders, if_neg (not_not.mpr hpow), htp]
      dsimp only
      -- the entry written for this header is the one of the block
      have hentry : (n.scoreHeader t c.2.header p).work =
          Function.update t.work (n.hashHex c.2.header) (some (cumWork s c.2)) := by
        rw [← hcum]
        rfl
      have hnext : ∀ c' ∈ front.head?, (n.scoreHeader t c.2.header p).work c'.2.prevHex =
          (n.submit s c).work c'.2.prevHex := by
        intro c' hc'
        obtain ⟨rest, rfl⟩ := List.head?_eq_some_iff.mp hc'
        obtain ⟨tipH, htip, -⟩ := getTip_of_extendsTip hrest.1.extends_tip
        rw [hc.getTip_submit] at htip
        have hx : n.hashHex c.2.header = c'.2.prevHex := (Prod.mk.inj (Option.some.inj htip)).2
        rw [hentry, ← hx, Function.update_self, hc.work_submit, if_pos rfl]
      obtain ⟨hhashes, habove, hahead⟩ := ih hrest hnext (cumulative p (work64 c.2.header.bits))
      refine ⟨congrArg _ hhashes, fun _ => ?_, WorkAhead.trans ?_ hahead⟩
      · cases front with
        | nil => exact hcum ▸ hc.heavier
        | cons d rest =>
            have hgt := habove (List.cons_ne_nil d rest)
            rw [hc.getTipWork_submit] at hgt
            exact UInt64.lt_trans hc.heavier hgt
      · refine (WorkAhead.putHeader _ t _ _).trans (WorkAhead.putWork ?_)
        have hstored : ((n.submit s c).blockByHash (n.hashHex c.2.header)).isSome := by
          rw [hc.blockByHash_submit, if_pos rfl]
          rfl
        rw [List.foldl_cons, work_foldl_submit hrest hstored, hc.work_submit, if_pos rfl, hcum]

/-! ### Fetching the blocks -/

/-- Submitting the blocks that arrive brings the chain on by that many, and none is refused. -/
theorem submitFetched_chainable (hrun : Run.Admitted n.submit n.Chainable s (front ++ back))
    (ht : WorkAhead ((front ++ back).foldl n.submit s) s t)
    {replies : List (Except String (Int64 × Block))}
    (hreplies : ∀ (i : ℕ) now b, replies[i]? = some (.ok (now, b)) →
      (front.map Prod.snd)[i]? = some b) :
    ∃ k ≤ front.length,
      WorkAhead ((front ++ back).foldl n.submit s) ((front.take k).foldl n.submit s)
        (n.submitFetched t (front.map fun c => n.hashHex c.2.header) replies).2 ∧
      (∀ msg, (n.submitFetched t (front.map fun c => n.hashHex c.2.header) replies).1 ≠
        .refused msg) ∧
      (front ≠ [] → (replies.head?.any Except.isOk) = true → 0 < k) := by
  induction front generalizing s t replies with
  | nil => exact ⟨0, le_rfl, ht, nofun, fun h => absurd rfl h⟩
  | cons c front ih =>
      have ⟨hc, hrest⟩ := hrun
      match replies with
      | [] => exact ⟨0, Nat.zero_le _, ht, nofun, fun _ h => absurd h Bool.false_ne_true⟩
      | .error msg :: replies =>
          exact ⟨0, Nat.zero_le _, ht, nofun, fun _ h => absurd h Bool.false_ne_true⟩
      | .ok (now, b) :: replies =>
          obtain rfl : c.2 = b := Option.some.inj (hreplies 0 now b rfl)
          have hfull : ((c :: front ++ back).foldl n.submit s).work c.2.prevHex =
              s.work c.2.prevHex := work_foldl_submit hrun hc.parent_stored
          obtain ⟨hok, hstep⟩ := hc.workAhead ht hfull now
          obtain ⟨k, hk, hahead, hnot, -⟩ := ih hrest hstep
            (fun i now' b' hi => hreplies (i + 1) now' b' hi)
          rw [List.map_cons, submitFetched]
          generalize n.submitBlock now t c.2 = res at hok hahead hnot
          obtain ⟨res, t'⟩ := res
          obtain rfl : res = .ok () := hok
          exact ⟨k + 1, Nat.succ_le_succ hk, hahead, hnot, fun _ _ => Nat.succ_pos k⟩

theorem snd_syncFast (s : DB) (hashes : List String) (r : SyncReplies) :
    (n.syncFast s hashes r).2 = (n.submitFetched s hashes r.blocks).2 := by
  unfold syncFast
  split <;> simp_all

/-- `reorgFromPeer` is called for a refused block only. -/
theorem snd_syncLocated {s : DB} {hashes : List String} {r : SyncReplies}
    (h : ∀ msg, (n.submitFetched s hashes r.blocks).1 ≠ .refused msg) :
    (n.syncLocated s hashes r).2 = (n.submitFetched s hashes r.blocks).2 := by
  unfold syncLocated
  split <;> simp_all

/-! ### The peer -/

variable (n) in
/-- The chain of the peer continues the chain up to height `h` by the blocks of the calls. -/
structure Continued (peer s : DB) (h : UInt64) (calls : List (Int64 × Block)) : Prop where
  common : ∃ x p, s.getTip = some (h, x) ∧ s.getBlockByHeight h = some (x, p) ∧
    peer.blockByHash x = some p ∧ p.header.height = h
  blocks : ∀ c ∈ calls, peer.getBlockByHeight c.2.header.height = some (n.hashHex c.2.header, c.2)
  tip : peer.getTip = (calls.foldl n.submit s).getTip
  fits : h.toNat + calls.length < 2 ^ 63

namespace Continued

variable {h H : UInt64} {maxBlocks : ℤ} {r : SyncReplies}

theorem getTip (hp : n.Continued peer s h calls) : ∃ x, s.getTip = some (h, x) := by
  obtain ⟨x, -, htip, -⟩ := hp.common
  exact ⟨x, htip⟩

theorem height_eq (hp : n.Continued peer s h (c :: calls)) (hc : n.Chainable s c) :
    c.2.header.height = h + 1 := by
  obtain ⟨x, htip⟩ := hp.getTip
  obtain ⟨tipH, htip', hheight⟩ := getTip_of_extendsTip hc.extends_tip
  rw [htip] at htip'
  rw [hheight, (Prod.mk.inj (Option.some.inj htip')).1]

theorem toNat_height_succ (hp : n.Continued peer s h (c :: calls)) :
    (h + 1).toNat = h.toNat + 1 := by
  have hfits := hp.fits
  rw [List.length_cons] at hfits
  exact toNat_succ_of_lt (by omega)

/-- One block further, the peer is still ahead by the rest. -/
theorem submit (hp : n.Continued peer s h (c :: calls)) (hc : n.Chainable s c) :
    n.Continued peer (n.submit s c) (h + 1) calls := by
  have hheight := hp.height_eq hc
  have hblk := hp.blocks c List.mem_cons_self
  refine ⟨⟨n.hashHex c.2.header, c.2, ?_, ?_, ?_, hheight⟩, fun c' hc' => ?_, hp.tip, ?_⟩
  · rw [hc.getTip_submit, hheight]
  · rw [← hheight, hc.getBlockByHeight_submit]
  · exact (DB.getBlockByHeight_eq_some_iff.mp hblk).2
  · exact hp.blocks c' (List.mem_cons_of_mem _ hc')
  · have hfits := hp.fits
    rw [List.length_cons] at hfits
    rw [hp.toNat_height_succ]
    omega

/-- After some of the blocks the peer is ahead by the rest. -/
theorem drop (hp : n.Continued peer s h (front ++ back))
    (hrun : Run.Admitted n.submit n.Chainable s (front ++ back)) :
    ∃ h', n.Continued peer (front.foldl n.submit s) h' back := by
  induction front generalizing s h with
  | nil => exact ⟨h, hp⟩
  | cons c front ih =>
      obtain ⟨hc, hrest⟩ := hrun
      exact ih (hp.submit hc) hrest

/-- The height of the peer. -/
theorem peer_getTip (hp : n.Continued peer s h calls)
    (hrun : Run.Admitted n.submit n.Chainable s calls) :
    ∃ H x, peer.getTip = some (H, x) ∧ H.toNat = h.toNat + calls.length := by
  induction calls generalizing s h with
  | nil =>
      obtain ⟨x, htip⟩ := hp.getTip
      exact ⟨h, x, hp.tip.trans htip, rfl⟩
  | cons c calls ih =>
      obtain ⟨hc, hrest⟩ := hrun
      obtain ⟨H, x, htip, hH⟩ := ih (hp.submit hc) hrest
      refine ⟨H, x, htip, ?_⟩
      rw [hH, hp.toNat_height_succ, List.length_cons]
      omega

/-- The peer serves the headers of its blocks, from the next one on. -/
theorem headersFrom_eq (hp : n.Continued peer s h calls)
    (hrun : Run.Admitted n.submit n.Chainable s calls) {m : ℕ} (hm : m ≤ calls.length) :
    peer.headersFrom m (h + 1) = (calls.take m).map fun c => c.2.header := by
  induction calls generalizing s h m with
  | nil =>
      obtain rfl : m = 0 := Nat.le_zero.mp hm
      rfl
  | cons c calls ih =>
      cases m with
      | zero => rfl
      | succ m =>
          obtain ⟨hc, hrest⟩ := hrun
          have hblk := hp.blocks c List.mem_cons_self
          rw [hp.height_eq hc] at hblk
          rw [DB.headersFrom, hblk]
          dsimp only
          rw [ih (hp.submit hc) hrest (Nat.le_of_succ_le_succ hm), List.take_succ_cons,
            List.map_cons]

/-- What `fetchHeaders` gets, if it gets anything: one header or more. -/
theorem fetchHeaders_eq (hp : n.Continued peer s h calls)
    (hrun : Run.Admitted n.submit n.Chainable s calls) (hH : H.toNat = h.toNat + calls.length)
    {hdrs : List BlockHeader}
    (hok : peer.fetchHeaders (h + 1) (headerCount maxBlocks H h) = .ok hdrs) :
    ∃ front back, calls = front ++ back ∧ front ≠ [] ∧ hdrs = front.map fun c => c.2.header := by
  have hfits := hp.fits
  have hle : h ≤ H := UInt64.le_iff_toNat_le.mpr (by omega)
  have hneed : (H - h).toInt64.toInt = calls.length := by
    have hsub : (H - h).toBitVec.toNat = H.toNat - h.toNat := UInt64.toNat_sub_of_le H h hle
    change (H - h).toBitVec.toInt = _
    rw [BitVec.toInt_eq_toNat_of_lt (by omega), hsub]
    omega
  unfold DB.fetchHeaders DB.chainHeaders at hok
  dsimp only at hok
  split at hok
  next => cases hok
  next hpos =>
    have hcount : headerCount maxBlocks H h ≤ calls.length := by
      unfold headerCount
      rw [hneed]
      dsimp only
      split <;> omega
    have hm : (min (max (headerCount maxBlocks H h) 0) 2000).toNat ≤ calls.length := by omega
    refine ⟨_, _, (List.take_append_drop _ calls).symm, ?_,
      (Except.ok.inj hok).symm.trans (hp.headersFrom_eq hrun hm)⟩
    intro hnil
    have hlen := congrArg List.length hnil
    rw [List.length_take, List.length_nil] at hlen
    omega

/-- The locator goes on from the entries it has. -/
theorem exists_locatorLoop_eq (s : DB) (room : ℕ) (loc : List String) (step h : UInt64) :
    ∃ rest, s.locatorLoop room loc step h = loc ++ rest := by
  induction room generalizing loc step h with
  | zero => exact ⟨[], (List.append_nil loc).symm⟩
  | succ room ih =>
      rw [DB.locatorLoop]
      split
      next => exact ⟨[], (List.append_nil loc).symm⟩
      next x _ _ =>
        dsimp only
        split
        next => exact ⟨[x], rfl⟩
        next =>
          obtain ⟨rest, hrest⟩ := ih (loc ++ [x]) _ _
          exact ⟨x :: rest, by rw [hrest, List.append_assoc, List.singleton_append]⟩

/-- The peer has the tip, so it answers the locator with it. -/
theorem located_eq (hp : n.Continued peer s h calls) (htip : t.getTip = s.getTip)
    (hget : t.getBlockByHeight = s.getBlockByHeight) {anc : Located}
    (hok : (peer.chainLocate ⟨"POST", some (t.buildBlockLocator 32)⟩).fetched = .ok anc) :
    anc.height = h := by
  obtain ⟨x, p, htip', hidx, hblk, hheight⟩ := hp.common
  obtain ⟨rest, hloc⟩ : ∃ rest, t.buildBlockLocator 32 = x :: rest := by
    have hfirst : ∃ rest, t.locatorLoop 32 [] 1 h = x :: rest := by
      rw [DB.locatorLoop, hget, hidx]
      dsimp only
      split
      next => exact ⟨[], rfl⟩
      next => exact exists_locatorLoop_eq t 31 [x] _ _
    obtain ⟨rest, hrest⟩ := hfirst
    refine ⟨rest, ?_⟩
    have hmax : ((if (32 : ℤ) ≤ 0 then (32 : ℤ) else 32)).toNat = 32 := rfl
    rw [DB.buildBlockLocator, htip, htip']
    dsimp only
    rw [hmax, hrest, if_neg (fun hnil => List.cons_ne_nil x rest hnil.1)]
  have hanswer : (peer.chainLocate ⟨"POST", some (t.buildBlockLocator 32)⟩).fetched =
      .ok ⟨true, p.header.height⟩ := by
    rw [DB.chainLocate, if_neg (not_not.mpr rfl), hloc]
    dsimp only
    rw [DB.findFirstKnown, hblk]
    rfl
  rw [hanswer] at hok
  rw [← Except.ok.inj hok, hheight]

end Continued

/-! ### Rounds -/

variable {h : UInt64} {maxBlocks : ℤ} {r : SyncReplies} {rounds : List SyncReplies}

/-- What arrives by hash is the block that the hash is asked for. -/
theorem Continued.reply_eq (hp : n.Continued peer s h (front ++ back)) {i : ℕ} {x : String}
    (hx : (front.map fun c => n.hashHex c.2.header)[i]? = some x)
    (hok : (peer.chainBlockByHash x).fetched = .ok b) : (front.map Prod.snd)[i]? = some b := by
  rw [List.getElem?_map, Option.map_eq_some_iff] at hx
  obtain ⟨c, hc, rfl⟩ := hx
  have hmem : c ∈ front ++ back := List.mem_append_left _ (List.mem_of_getElem? hc)
  have hstored := (DB.getBlockByHeight_eq_some_iff.mp (hp.blocks c hmem)).2
  unfold DB.chainBlockByHash at hok
  split at hok
  next => cases hok
  next =>
    rw [hstored] at hok
    rw [List.getElem?_map, hc, ← Except.ok.inj hok]
    rfl

/-- The headers of the peer are scored above the tip. -/
theorem scoreHeaders_workAhead (hrun : Run.Admitted n.submit n.Chainable s (front ++ back))
    (ht : WorkAhead ((front ++ back).foldl n.submit s) s t) (hne : front ≠ []) :
    let scored := n.scoreHeaders t 0 (front.map fun c => c.2.header)
    scored.1 = front.map (fun c => n.hashHex c.2.header) ∧
      (t.getTipWork < scored.2.1 ∧ scored.1 ≠ []) ∧
      WorkAhead ((front ++ back).foldl n.submit s) s scored.2.2 := by
  have hprev : ∀ c ∈ front.head?, t.work c.2.prevHex = s.work c.2.prevHex := by
    intro c hc
    obtain ⟨rest, rfl⟩ := List.head?_eq_some_iff.mp hc
    exact ht.work_eq (work_foldl_submit hrun hrun.1.parent_stored)
  obtain ⟨hhashes, habove, hscored⟩ := scoreHeaders_chainable hrun hprev 0
  refine ⟨hhashes, ⟨ht.getTipWork ▸ habove hne, ?_⟩, ht.trans hscored⟩
  rw [hhashes]
  exact fun hnil => hne (List.map_eq_nil_iff.mp hnil)

/-- Fetching the blocks of the scored headers, on either path. -/
theorem fetch_chainable (hrun : Run.Admitted n.submit n.Chainable s (front ++ back))
    (hp : n.Continued peer s h (front ++ back))
    (ht : WorkAhead ((front ++ back).foldl n.submit s) s t) (hne : front ≠ [])
    (hreplies : ∀ (i : ℕ) now b, r.blocks[i]? = some (.ok (now, b)) →
      ∃ x, (front.map fun c => n.hashHex c.2.header)[i]? = some x ∧
        (peer.chainBlockByHash x).fetched = .ok b) :
    ∃ k ≤ (front ++ back).length,
      WorkAhead ((front ++ back).foldl n.submit s) (((front ++ back).take k).foldl n.submit s)
          (n.submitFetched t (front.map fun c => n.hashHex c.2.header) r.blocks).2 ∧
        (∀ msg, (n.submitFetched t (front.map fun c => n.hashHex c.2.header) r.blocks).1 ≠
          .refused msg) ∧
        (r.blocks.head?.any Except.isOk = true → 0 < k) := by
  obtain ⟨k, hk, hahead, hnot, hfirst⟩ := submitFetched_chainable hrun ht
    (fun i now b hi => by
      obtain ⟨x, hx, hb⟩ := hreplies i now b hi
      exact hp.reply_eq hx hb)
  refine ⟨k, ?_, ?_, hnot, hfirst hne⟩
  · rw [List.length_append]
    omega
  · rwa [List.take_append_of_le_length hk]

variable (n) in
/-- The headers above the tip and a first block arrive. -/
def delivers (r : SyncReplies) : Bool :=
  (bestPeer n.genesis.chainID r.chainInfo).1 ≠ "" && r.tipHeaders.isOk &&
    r.blocks.head?.any Except.isOk

/-- A round that finds the best peer ahead scores its headers first. -/
theorem syncOnce_of_behind {x : String} (hbest : (bestPeer n.genesis.chainID r.chainInfo).1 ≠ "")
    (htip : t.getTip = some (h, x))
    (hlt : ¬ (bestPeer n.genesis.chainID r.chainInfo).2.1 ≤ h) :
    n.syncOnce t r =
      if t.getTipWork < (n.afterTipHeaders t r).2.1 ∧ (n.afterTipHeaders t r).1 ≠ [] then
        n.syncFast (n.afterTipHeaders t r).2.2 (n.afterTipHeaders t r).1 r
      else if (bestPeer n.genesis.chainID r.chainInfo).2.2 = "" then
        (.ok (), (n.afterTipHeaders t r).2.2)
      else n.syncFromAncestor (n.afterTipHeaders t r).2.2 t.getTipWork r := by
  rw [syncOnce]
  dsimp only
  rw [if_neg hbest, htip]
  dsimp only
  rw [if_neg hlt]
  rfl

/-- The locator path writes nothing unless the ancestor and headers above it arrive. -/
theorem syncFromAncestor_cases (t : DB) (w : UInt64) (r : SyncReplies) :
    (n.syncFromAncestor t w r).2 = t ∨ ∃ anc hdrs, r.located = .ok anc ∧ r.forkHeaders = .ok hdrs ∧
        (n.syncFromAncestor t w r).2 =
          if (n.scoreHeaders t 0 hdrs).2.1 ≤ w then (n.scoreHeaders t 0 hdrs).2.2
          else (n.syncLocated (n.scoreHeaders t 0 hdrs).2.2 (n.scoreHeaders t 0 hdrs).1 r).2 := by
  unfold syncFromAncestor
  split
  next => exact .inl rfl
  split
  next => exact .inl rfl
  split
  next => exact .inl rfl
  split
  next => exact .inl rfl
  next anc hanc =>
    split
    next => exact .inl rfl
    split
    next => exact .inl rfl
    split
    next => exact .inl rfl
    next hdrs hhdrs =>
      split
      next => exact .inl rfl
      next =>
        refine .inr ⟨anc, hdrs, hanc, hhdrs, ?_⟩
        dsimp only
        split
        next => rfl
        next => rfl

/-- A round brings the chain on by some of the peer's blocks. -/
theorem syncOnce_chainable (hrun : Run.Admitted n.submit n.Chainable s calls)
    (hp : n.Continued peer s h calls) (ht : WorkAhead (calls.foldl n.submit s) s t)
    (hr : n.PeerAnswers maxBlocks peer t r) :
    ∃ k ≤ calls.length,
      WorkAhead (calls.foldl n.submit s) ((calls.take k).foldl n.submit s) (n.syncOnce t r).2 ∧
        (calls ≠ [] → n.delivers r = true → 0 < k) := by
  obtain ⟨x, htip⟩ := hp.getTip
  have htip' : t.getTip = some (h, x) := ht.getTip.trans htip
  by_cases hbest : (bestPeer n.genesis.chainID r.chainInfo).1 = ""
  · have hidle : n.syncOnce t r = (.ok (), t) := by
      rw [syncOnce]
      exact if_pos hbest
    exact ⟨0, Nat.zero_le _, by rwa [hidle], fun _ hd => by simp [delivers, hbest] at hd⟩
  -- the peer answers, and is ahead by the blocks of the calls
  obtain ⟨H, y, hpeer, hH⟩ := hp.peer_getTip hrun
  have hheight : (bestPeer n.genesis.chainID r.chainInfo).2 = (H, y) := by
    rw [hr.best.resolve_left hbest] at hpeer
    exact Option.some.inj hpeer
  by_cases hle : H ≤ h
  · have hidle : n.syncOnce t r = (.ok (), t) := by
      rw [syncOnce]
      dsimp only
      rw [if_neg hbest, htip']
      dsimp only
      rw [hheight, if_pos hle]
    refine ⟨0, Nat.zero_le _, by rwa [hidle], fun hne _ => absurd hne ?_⟩
    have hle := UInt64.le_iff_toNat_le.mp hle
    rw [not_not, ← List.length_eq_zero_iff]
    omega
  have hround := syncOnce_of_behind hbest htip' (by rwa [hheight])
  have hblocks := hr.blocks
  unfold requested at hblocks
  cases hreply : r.tipHeaders with
  | ok hdrs =>
      have hhdrs := hr.tipHeaders hdrs h x hreply htip'
      rw [hheight] at hhdrs
      obtain ⟨front, back, rfl, hne, rfl⟩ := hp.fetchHeaders_eq hrun hH hhdrs
      have hscores :
          n.afterTipHeaders t r = n.scoreHeaders t 0 (front.map fun c => c.2.header) := by
        rw [afterTipHeaders, hreply]
        rfl
      obtain ⟨hhashes, habove, hscored⟩ := scoreHeaders_workAhead hrun ht hne
      rw [hscores, if_pos habove, hhashes] at hblocks hround
      rw [hround, snd_syncFast]
      obtain ⟨k, hk, hahead, -, hfirst⟩ := fetch_chainable hrun hp hscored hne hblocks
      refine ⟨k, hk, hahead, fun _ hd => hfirst ?_⟩
      exact (Bool.and_eq_true_iff.mp hd).2
  | error msg =>
      -- nothing is scored, so the fast path ends and the locator path is taken
      have hdeliver : n.delivers r = false := by
        simp [delivers, hreply, Except.isOk, Except.toBool]
      have hscores : n.afterTipHeaders t r = ([], 0, t) := by
        rw [afterTipHeaders, hreply]
        rfl
      have hlocated := hr.located
      rw [hscores] at hlocated
      rw [hscores, if_neg (fun hcond => hcond.2 rfl)] at hblocks hround
      suffices h : ∃ k ≤ calls.length, WorkAhead (calls.foldl n.submit s)
          ((calls.take k).foldl n.submit s) (n.syncOnce t r).2 by
        obtain ⟨k, hk, hahead⟩ := h
        exact ⟨k, hk, hahead, fun _ hd => absurd (hdeliver.symm.trans hd) Bool.false_ne_true⟩
      have hsame : ∃ k ≤ calls.length, WorkAhead (calls.foldl n.submit s)
          ((calls.take k).foldl n.submit s) t := ⟨0, Nat.zero_le _, ht⟩
      rw [hround]
      split
      next => exact hsame
      next =>
        rcases n.syncFromAncestor_cases t t.getTipWork r with hnone | ⟨anc, hdrs, hanc, hfork, hres⟩
        · rwa [hnone]
        · have hhdrs := hr.forkHeaders hdrs anc hfork hanc
          rw [hheight, hp.located_eq ht.getTip ht.getBlockByHeight (hlocated anc hanc)] at hhdrs
          obtain ⟨front, back, rfl, hne, rfl⟩ := hp.fetchHeaders_eq hrun hH hhdrs
          obtain ⟨hhashes, habove, hscored⟩ := scoreHeaders_workAhead hrun ht hne
          rw [hfork] at hblocks
          dsimp only [Except.toOption, Option.getD_some] at hblocks
          rw [hhashes] at hblocks
          rw [if_neg (UInt64.not_le.mpr habove.1), hhashes] at hres
          obtain ⟨k, hk, hahead, hnot, -⟩ := fetch_chainable hrun hp hscored hne hblocks
          rw [hres, snd_syncLocated hnot]
          exact ⟨k, hk, hahead⟩

variable (n) in
/-- One round, as a step of the database. -/
def syncRound (s : DB) (r : SyncReplies) : DB := (n.syncOnce s r).2

/-- Rounds bring the chain on by at least as many blocks as there are rounds that deliver. -/
theorem workAhead_rounds (hrun : Run.Admitted n.submit n.Chainable s calls)
    (hp : n.Continued peer s h calls) (ht : WorkAhead (calls.foldl n.submit s) s t)
    (hanswers : Run.Admitted n.syncRound (n.PeerAnswers maxBlocks peer) t rounds) :
    ∃ k ≤ calls.length, min calls.length (rounds.countP n.delivers) ≤ k ∧
      WorkAhead (calls.foldl n.submit s) ((calls.take k).foldl n.submit s)
        (rounds.foldl n.syncRound t) := by
  induction rounds generalizing s t h calls with
  | nil => exact ⟨0, Nat.zero_le _, by simp, ht⟩
  | cons r rounds ih =>
      obtain ⟨hr, hrest⟩ := hanswers
      obtain ⟨k, hk, hahead, hpos⟩ := syncOnce_chainable hrun hp ht hr
      -- the round is over, and the rest of the calls is left for the other rounds
      have hsplit := List.take_append_drop k calls
      have hfull : (calls.drop k).foldl n.submit ((calls.take k).foldl n.submit s) =
          calls.foldl n.submit s := by
        rw [← List.foldl_append, hsplit]
      rw [← hsplit] at hp hrun
      obtain ⟨h', hp'⟩ := hp.drop hrun
      rw [← hfull] at hahead ⊢
      obtain ⟨k', hk', hmin, hahead'⟩ := ih hrun.right hp' hahead hrest
      rw [List.length_drop] at hk' hmin
      refine ⟨k + k', by omega, ?_, ?_⟩
      · rw [List.countP_cons]
        rcases calls.eq_nil_or_concat' with rfl | ⟨cs, c, rfl⟩
        · simp
        · have hne : cs ++ [c] ≠ [] := by simp
          cases hd : n.delivers r with
          | false =>
              rw [if_neg Bool.false_ne_true]
              omega
          | true =>
              have hk₀ := hpos hne hd
              rw [if_pos rfl]
              omega
      · rwa [List.take_add, List.foldl_append]

/-- Whatever replies are lost, a node that synchronises with a peer has the chain that submitting
the peer's next blocks directly makes, for as many of them as arrived, and it is at the tip of the
peer after as many delivering rounds as there are blocks. -/
theorem catch_up (hrun : Run.Admitted n.submit n.Chainable s calls)
    (hp : n.Continued peer s h calls)
    (hanswers : Run.Admitted n.syncRound (n.PeerAnswers maxBlocks peer) s rounds) :
    ∃ k ≤ calls.length, min calls.length (rounds.countP n.delivers) ≤ k ∧
      WorkAhead (calls.foldl n.submit s) ((calls.take k).foldl n.submit s)
        (rounds.foldl n.syncRound s) ∧
      (calls.length ≤ rounds.countP n.delivers →
        (calls.foldl n.submit s).SameChain (rounds.foldl n.syncRound s) ∧
          (rounds.foldl n.syncRound s).getTip = peer.getTip) := by
  obtain ⟨k, hk, hmin, hahead⟩ := workAhead_rounds hrun hp (WorkAhead.refl _ s) hanswers
  refine ⟨k, hk, hmin, hahead, fun henough => ?_⟩
  obtain rfl : k = calls.length := by omega
  rw [List.take_length] at hahead
  have hsame := hahead.sameChain
  exact ⟨hsame, hsame.getTip.trans hp.tip.symm⟩

end Node

/-! ### Two rounds -/

namespace Sample

/-- The node. -/
def behind : DB := node.genesisDB ∅

/-- The peer, with the two blocks of the main chain. -/
def ahead : DB := [((0 : Int64), main₁), (0, main₂)].foldl node.submit behind

/-- What the configured peers say of their chains. -/
def infos : List (String × Except String ChainInfo) :=
  [("down", .error "timeout"), ("peer", (ahead.chainInfo "sample").fetched)]

theorem infos_read : bestPeer node.genesis.chainID infos = ("peer", 2, node.hashHex main₂.header) ∧
    ahead.getTip = some (2, node.hashHex main₂.header) := by
  decide +kernel

/-- A round in which the headers and one block arrive. -/
def heard (hdrs : List BlockHeader) (b : Block) : SyncReplies where
  chainInfo := infos
  tipHeaders := .ok hdrs
  anchorHash := .error "timeout"
  located := .error "timeout"
  forkHeaders := .error "timeout"
  blocks := [.ok (0, b)]
  reorgFromPeer s := (false, s)

/-- The replies of the peer that is ahead are those of an honest one. -/
theorem peerAnswers_heard {s : DB} {hdrs : List BlockHeader} {b : Block} {h : UInt64}
    (hread : s.getTip.map Prod.fst = some h ∧
      ahead.fetchHeaders (h + 1) (headerCount 50 2 h) = .ok hdrs ∧
      (node.requested s (heard hdrs b)).head? = some (node.hashHex b.header) ∧
      (ahead.chainBlockByHash (node.hashHex b.header)).fetched = .ok b) :
    node.PeerAnswers 50 ahead s (heard hdrs b) where
  best := .inr (infos_read.2.trans (congrArg (fun p => some p.2) infos_read.1).symm)
  tipHeaders hdrs' localH tip hok htip' := by
    obtain ⟨htip, hhdrs, -⟩ := hread
    rw [htip', Option.map_some] at htip
    obtain rfl := Option.some.inj htip
    obtain rfl := Except.ok.inj hok
    have hinfos : (heard hdrs b).chainInfo = infos := rfl
    rw [hinfos, infos_read.1]
    exact hhdrs
  located _ hok := by cases hok
  forkHeaders _ _ hok := by cases hok
  blocks i now b' hi := by
    cases i with
    | succ i => simp [heard] at hi
    | zero =>
        obtain ⟨-, rfl⟩ : 0 = now ∧ b = b' := by simpa [heard] using hi
        exact ⟨_, List.head?_eq_getElem? ▸ hread.2.2.1, hread.2.2.2⟩

end Sample

namespace Node

instance (n : Node) (s : DB) (c : Int64 × Block) : Decidable (n.Chainable s c) :=
  decidable_of_iff
    ((n.preStore s c.2 = .ok true ∧ extendsTip s c.2 = true ∧
      n.validateBlockStateTip s.ledger c.2 = .ok ()) ∧
      s.blockByHash (n.hashHex c.2.header) = none ∧ (s.work c.2.prevHex).isSome ∧
      s.getTipWork < cumWork s c.2)
    ⟨fun ⟨⟨h₁, h₂, h₃⟩, h₄, h₅, h₆⟩ => ⟨h₁, h₂, h₃, h₄, h₅, h₆⟩,
      fun h => ⟨⟨h.1, h.2, h.3⟩, h.4, h.5, h.6⟩⟩

open Sample

/-- The second block of the first round is lost, and arrives in the second. -/
theorem catch_up_two :
    ([heard [main₁.header, main₂.header] main₁, heard [main₂.header] main₂].foldl node.syncRound
      behind).getTip = ahead.getTip := by
  have hrun : Run.Admitted node.submit node.Chainable behind
      [(0, main₁), (0, main₂)] := ⟨by decide +kernel, by decide +kernel, trivial⟩
  have hcont : node.Continued ahead behind 0
      [(0, main₁), (0, main₂)] :=
    ⟨⟨node.genesisHash, node.genesisBlock, by decide +kernel⟩, by decide +kernel, rfl, by decide⟩
  have hanswers : Run.Admitted node.syncRound (node.PeerAnswers 50 ahead)
      behind [heard [main₁.header, main₂.header] main₁, heard [main₂.header] main₂] :=
    ⟨peerAnswers_heard (h := 0) (by decide +kernel),
      peerAnswers_heard (h := 1) (by decide +kernel), trivial⟩
  obtain ⟨k, -, -, -, hdone⟩ := catch_up hrun hcont hanswers
  exact (hdone (by decide +kernel)).2

end Node

end ReserveOS
