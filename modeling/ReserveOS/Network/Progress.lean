import ReserveOS.Network.Thresholds
import ReserveOS.Node.VotePull

/-!
# Progress of finality

What a node of the network records as finalized has two thirds of the weight behind it
(`Node.VoteBook`). This is the converse, for the gossip of votes: once nodes with two thirds of the
weight have signed a checkpoint, a node that pulls their votes records it (`pull_finalizes`),
whatever votes it has by then and whatever else its peers send, as long as nobody forges.

The registry is empty here. With registered validators `tryFinalizeHeight` asks for more than two
thirds (`Node.addedTotals`).
-/

namespace ReserveOS

open Quorum

theorem DB.votesGrow_withVote (s : DB) (vr : VoteRecord) : s.VotesGrow (s.withVote vr) := by
  rw [withVote]
  split
  · exact .of_eq rfl
  next hnew => exact votesGrow_putVote (Bool.eq_false_iff.mpr hnew)

theorem DB.hasVote_withVote (s : DB) (vr : VoteRecord) :
    (s.withVote vr).hasVote vr.height vr.pubkeyHex = true := by
  rw [withVote]
  split
  next hold => exact hold
  next => rw [hasVote, getElem?_putVote, if_pos ⟨rfl, rfl⟩, Option.isSome_some]

namespace Node

variable {n : Node} {s t : DB} {vr : VoteRecord} {now : Int64} {h : UInt64} {x : String}

/-! ### Valid votes -/

variable (n) in
/-- The public key of the node verifies what it signs. -/
def OwnKey : Prop :=
  ∀ priv h x, parsePriv n.localPrivHex = some priv → n.prim.checkVote n.localPubHex
    (n.prim.signVote priv n.genesis.chainID h x) n.genesis.chainID h x = true

variable (n) in
/-- Every stored vote is for its height and for the chain of the node, and verifies. -/
def VotesValid (s : DB) : Prop :=
  ∀ (h : UInt64) (pub : String) (vr : VoteRecord), (s.votes h)[pub]? = some vr →
    vr.height = h ∧ vr.chainID = n.genesis.chainID ∧
      n.prim.checkVote vr.pubkeyHex vr.sigHex n.genesis.chainID h vr.blockHash = true

/-- A vote that verifies may be stored. -/
theorem VotesValid.putVote (hs : n.VotesValid s) (hchain : vr.chainID = n.genesis.chainID)
    (hsig : n.prim.checkVote vr.pubkeyHex vr.sigHex n.genesis.chainID vr.height vr.blockHash =
      true) : n.VotesValid (s.putVote vr) := by
  intro h pub vr' hget
  rw [DB.getElem?_putVote] at hget
  split at hget
  next hkey =>
    obtain rfl := hkey.1
    obtain rfl := Option.some.inj hget
    exact ⟨rfl, hchain, hsig⟩
  next => exact hs h pub vr' hget

/-- A node stores valid votes only. -/
theorem VotesValid.step (hkey : n.OwnKey) (hs : n.VotesValid s) (e : Event) :
    n.VotesValid (n.step s e) := by
  obtain ⟨s₁, hsame, hfin⟩ := n.finSteps_event s e
  refine Run.closure_invariant (I := n.VotesValid) (fun u v hstep hu => ?_) hfin ?_
  · cases hstep with
    | sign now priv h x _ hpriv _ =>
        have hvalid : n.VotesValid (u.putVote (n.localVote now priv h x)) :=
          hu.putVote rfl (hkey priv h x hpriv)
        exact hvalid
    | record vr _ hchain _ hsig _ => exact hu.putVote hchain (hchain ▸ hsig)
    | finalize => exact hu
    | finalizeWeighted => exact hu
  · intro h pub vr hget
    rw [hsame.votes] at hget
    exact hs h pub vr hget

/-! ### Ingesting votes -/

theorem votes_tryFinalizeHeight : (n.tryFinalizeHeight now s h x).votes = s.votes := by
  rw [tryFinalizeHeight]
  split <;> rfl

variable (n now s vr) in
/-- A vote from a peer is dropped, or it is stored and counted. -/
theorem ingestVote_cases : n.ingestVote now s vr = s ∨
    n.ingestVote now s vr = n.tryFinalizeHeight now (s.withVote vr) vr.height vr.blockHash := by
  unfold ingestVote
  split
  · exact .inl rfl
  · split
    · exact .inl rfl
    · split
      · exact .inl rfl
      · split
        · exact .inl rfl
        · split
          · exact .inl rfl
          · exact .inr rfl

/-- A valid vote of a configured validator is ingested when the registry is empty. -/
theorem ingestVote_of_valid (hon : n.finalityEnabled = true) (hreg : s.listValidators 5000 = [])
    (hval : n.isValidator vr.pubkeyHex = true) (hchain : vr.chainID = n.genesis.chainID)
    (hsig : n.prim.checkVote vr.pubkeyHex vr.sigHex n.genesis.chainID vr.height vr.blockHash =
      true) :
    n.ingestVote now s vr = n.tryFinalizeHeight now (s.withVote vr) vr.height vr.blockHash := by
  have hne : vr.pubkeyHex ≠ "" := by
    intro hempty
    rw [hempty] at hsig
    exact Bool.false_ne_true hsig
  have hregistered : n.isRegistered s vr.pubkeyHex = true := by
    rw [isRegistered, hreg]
    exact hval
  unfold ingestVote
  rw [hchain, if_neg (not_not.mpr hon), if_neg (not_not.mpr rfl),
    if_neg (not_or.mpr ⟨not_not.mpr hregistered, hne⟩), if_neg (not_not.mpr hsig),
    if_neg (not_not.mpr hval)]
  rfl

variable (n now s vr) in
/-- No vote and no record is lost. -/
theorem ingestVote_grows : s.VotesGrow (n.ingestVote now s vr) ∧
    s.finalizedLog ⊆ (n.ingestVote now s vr).finalizedLog := by
  constructor
  · intro k pub vr' hget
    rcases n.ingestVote_cases s vr now with heq | heq
    · rwa [heq]
    · rw [heq, votes_tryFinalizeHeight]
      exact s.votesGrow_withVote vr k pub vr' hget
  · rcases n.records_ingestVote now s vr with ⟨-, hlog⟩ | ⟨h, x, -, -, hlog⟩
    · rw [hlog]
      exact List.Subset.refl _
    · rw [hlog]
      exact List.subset_cons_self ..

/-- The last of the votes that make up a quorum `E` records the pair. `P` are the votes that count,
and `I` is kept by every vote that is ingested. -/
theorem mem_finalizedLog_foldl_ingestVote {votes : List VoteRecord} {I : DB → Prop}
    {E : Set String} {P : VoteRecord → Prop}
    (hI : ∀ s, I s → ∀ vr ∈ votes, I (n.ingestVote now s vr))
    (hone : ∀ s, I s → ∀ k ∈ E, s.hasVote h k = true → k ∈ s.voters h x)
    (hquorum : ∀ s, I s → E ⊆ s.voters h x → n.quorumReached s h x = true)
    (hgood : ∀ s, I s → ∀ vr, P vr → vr.height = h ∧ vr.pubkeyHex ∈ E ∧
      n.ingestVote now s vr = n.tryFinalizeHeight now (s.withVote vr) h x)
    (hs : I s) (hall : ∀ k ∈ E, k ∈ s.voters h x ∨ ∃ vr ∈ votes, P vr ∧ vr.pubkeyHex = k)
    (hsome : ∃ vr ∈ votes, P vr) :
    (h, x) ∈ (votes.foldl (n.ingestVote now) s).finalizedLog := by
  induction votes generalizing s with
  | nil =>
      obtain ⟨vr, hvr, -⟩ := hsome
      cases hvr
  | cons vr votes ih =>
      have hs' : I (n.ingestVote now s vr) := hI s hs vr List.mem_cons_self
      have hold : s.voters h x ⊆ (n.ingestVote now s vr).voters h x :=
        (n.ingestVote_grows s vr now).1.voters_subset h x
      have hnew : P vr → vr.pubkeyHex ∈ (n.ingestVote now s vr).voters h x := by
        intro hvr
        obtain ⟨hheight, hE, heq⟩ := hgood s hs vr hvr
        refine hone _ hs' _ hE ?_
        rw [heq, DB.hasVote, votes_tryFinalizeHeight, ← hheight]
        exact s.hasVote_withVote vr
      rw [List.foldl_cons]
      by_cases hrest : ∃ vr ∈ votes, P vr
      · refine ih (fun s hs vr' hvr' => hI s hs vr' (List.mem_cons_of_mem _ hvr')) hs'
          (fun k hk => ?_) hrest
        rcases hall k hk with hk | ⟨vr', hmem, hvr', rfl⟩
        · exact .inl (hold hk)
        · rcases List.mem_cons.mp hmem with rfl | hmem
          · exact .inl (hnew hvr')
          · exact .inr ⟨vr', hmem, hvr', rfl⟩
      · -- the vote is the last one that counts, so the quorum is complete with it
        have hlast : ∀ vr' ∈ vr :: votes, P vr' → vr' = vr := by
          intro vr' hmem hvr'
          rcases List.mem_cons.mp hmem with rfl | hmem
          · rfl
          · exact absurd ⟨vr', hmem, hvr'⟩ hrest
        obtain ⟨vr', hmem, hvr'⟩ := hsome
        obtain rfl := hlast vr' hmem hvr'
        have hq : n.quorumReached (n.ingestVote now s vr') h x = true := by
          refine hquorum _ hs' fun k hk => ?_
          rcases hall k hk with hk | ⟨vr, hmem, hvr, rfl⟩
          · exact hold hk
          · rw [hlast vr hmem hvr]
            exact hnew hvr'
        obtain ⟨-, -, heq⟩ := hgood s hs vr' hvr'
        have hvals : (n.tryFinalizeHeight now (s.withVote vr') h x).validators =
            (s.withVote vr').validators := by
          rw [tryFinalizeHeight]
          split <;> rfl
        rw [heq, quorumReached_congr votes_tryFinalizeHeight hvals] at hq
        have hrecorded : (h, x) ∈ (n.ingestVote now s vr').finalizedLog := by
          rw [heq, tryFinalizeHeight, if_pos hq]
          exact List.mem_cons_self
        have hkeeps : ∀ (votes : List VoteRecord) (s : DB),
            s.finalizedLog ⊆ (votes.foldl (n.ingestVote now) s).finalizedLog := by
          intro votes
          induction votes with
          | nil => exact fun _ => List.Subset.refl _
          | cons vr votes ih =>
              exact fun s => List.Subset.trans (n.ingestVote_grows s vr now).2 (ih _)
        exact hkeeps votes _ hrecorded

end Node

/-! ### The network -/

namespace Network

variable {ι : Type} {net : Network ι} {t : ι → DB} {h : UInt64} {x : String}

variable (net) in
/-- The invariant of the network, with valid votes. -/
structure Sound (t : ι → DB) : Prop where
  inv : net.Invariant t
  valid : ∀ i, (net.node i).VotesValid (t i)

namespace Sound

/-- All votes under the key of a node are for what the node has signed. -/
theorem mem_voters (hs : net.Sound t) (ht : net.Trusted net.electors) {i j : ι}
    (hi : net.pub i ∈ net.electors.map Prod.fst) (hsigned : (h, x) ∈ (t i).signLog)
    (hvote : (t j).hasVote h (net.pub i) = true) : net.pub i ∈ (t j).voters h x := by
  obtain ⟨vr, hget⟩ := Option.isSome_iff_exists.mp hvote
  have hhonest : net.pub i ∉ net.faulty := fun hnone => hnone i rfl
  obtain ⟨m, hm, hlog⟩ := hs.inv.exists_signer ⟨vr, hget, rfl⟩ hhonest
  obtain rfl : i = m := ht.keys i m hi hm.symm
  exact ⟨vr, hget, (hs.inv.book i).signLog_unique hlog hsigned⟩

/-- Votes with two thirds of the weight are a quorum when the registry is empty. -/
theorem quorumReached (hs : net.Sound t) (ht : net.Trusted net.electors)
    (hreg : net.registry = ∅) (hpos : 0 < total net.electors) {K : Set String}
    (hK : 2 * total net.electors ≤ 3 * weight net.electors K) {j : ι}
    (hvoters : ∀ e ∈ net.electors, e.1 ∈ K → e.1 ∈ (t j).voters h x) :
    (net.node j).quorumReached (t j) h x = true := by
  have hlisted : (t j).listValidators 5000 = [] := by
    rw [DB.listValidators, hs.inv.registry j, hreg]
    rfl
  have helectors := electors_eq (i := j) (hs.inv.registry j)
  have hkeyed := (hs.inv.book j).keyed h
  have hpos' : ∀ e ∈ net.electors, 0 ≤ e.2 := fun e he => (ht.pos e he).le
  have hsigned : (net.node j).signedTotal (t j) h x =
      weight net.electors ((net.node j).signers (t j) h x) := by
    rw [Node.signedTotal_eq hkeyed.nodup, helectors]
  have hle : weight net.electors K ≤ (net.node j).signedTotal (t j) h x := by
    rw [hsigned]
    refine weight_le_weight hpos' fun e he heK => ?_
    obtain ⟨vr, hget, rfl⟩ := hvoters e he heK
    obtain ⟨-, hchain, hsig⟩ := hs.valid j h e.1 vr hget
    exact ⟨vr, DB.mem_listVotesForHeight.mpr ⟨_, hget⟩, ⟨rfl, hchain, hsig⟩, hkeyed _ _ hget⟩
  have hmax : (net.node j).signedTotal (t j) h x ≤ total net.electors := by
    rw [hsigned]
    exact weight_le_total hpos' _
  -- without a registry the weight of the electorate is counted once
  have hadded : (net.node j).addedTotals (t j) h x = 1 := by
    have hne : (net.node j).addedTotals (t j) h x ≠ 0 := by
      intro hzero
      have hnone := Node.signedTotal_eq_zero hzero
      omega
    have hmin : (net.node j).addedTotals (t j) h x ≤ 1 := by
      rw [Node.addedTotals, if_neg (not_not.mpr hlisted)]
      exact min_le_left _ _
    omega
  have hweight : (net.node j).addedWeight (t j) h x = total net.electors := by
    rw [Node.addedWeight, hadded, helectors, Nat.cast_one, one_mul]
  have hsmall : 3 * total net.electors < 2 ^ 63 := by
    have hsmall := ht.small
    rwa [roundsOf, listed, hreg, if_neg (by simp), one_mul] at hsmall
  have hnum : (net.node j).thresholdNum.toInt = 2 := by
    rw [net.num_eq]
    rfl
  have hden : (net.node j).thresholdDen.toInt = 3 := by
    rw [net.den_eq]
    rfl
  rw [Node.quorumReached_iff, Node.Passes, hweight, hnum, hden]
  · exact ⟨hpos, by omega⟩
  · refine ⟨?_, ?_, ?_⟩
    · rw [hweight]
      constructor <;> omega
    · rw [hweight, hnum]
      constructor <;> omega
    · rw [hden]
      constructor <;> omega

variable [DecidableEq ι]

theorem step (hs : net.Sound t) (ht : net.Trusted net.electors)
    (hkeys : ∀ i, (net.node i).OwnKey) {e : ι × Event} (he : net.Admits t e) :
    net.Sound (net.step t e) :=
  ⟨hs.inv.step ht he, net.forall_step e hs.valid ((hs.valid e.1).step (hkeys e.1) e.2)⟩

/-- The invariant holds in every state of a run. -/
theorem states (ht : net.Trusted net.electors) (hkeys : ∀ i, (net.node i).OwnKey)
    {es : List (ι × Event)} (hrun : Run.Admitted net.step net.Admits net.init es) :
    ∀ t ∈ Run.states net.step net.init es, net.Sound t := by
  refine Run.invariant (E := fun _ => True) (fun _ _ hs _ he => hs.step ht hkeys he)
    (fun _ _ => trivial) ⟨.init ht, fun i h pub vr hget => ?_⟩ hrun
  have hempty : ((net.init i).votes h)[pub]? = none := by
    change (∅ : Table VoteRecord)[pub]? = none
    simp
  rw [hempty] at hget
  cases hget

end Sound

variable (net) in
/-- A valid vote for a pair by an elector of a set. -/
structure Counts (K : Set String) (h : UInt64) (x : String) (vr : VoteRecord) : Prop where
  height : vr.height = h
  hash : vr.blockHash = x
  voter : vr.pubkeyHex ∈ K ∧ vr.pubkeyHex ∈ net.electors.map Prod.fst
  chain : vr.chainID = net.genesis.chainID
  sig : net.prim.checkVote vr.pubkeyHex vr.sigHex net.genesis.chainID h x = true

section Pull

variable [DecidableEq ι] {v : ι} {s : DB} {vr : VoteRecord} {now : Int64}

variable (net t v) in
/-- The node is alone ahead of a state of the network, which no signature is lost from. -/
structure SoundAt (s : DB) : Prop where
  sound : net.Sound (Function.update t v s)
  signLog : ∀ i, (t i).signLog ⊆ (Function.update t v s i).signLog

/-- A pulled vote arrives as an event that the network may bring about. -/
theorem SoundAt.ingestVote (hs : net.SoundAt t v s) (ht : net.Trusted net.electors)
    (hkeys : ∀ i, (net.node i).OwnKey)
    (hgenuine : net.prim.checkVote vr.pubkeyHex vr.sigHex vr.chainID vr.height vr.blockHash =
      true → net.Genuine t vr.height vr.pubkeyHex vr.blockHash) :
    net.SoundAt t v ((net.node v).ingestVote now s vr) := by
  have hnext : net.step (Function.update t v s) (v, .ingestVote now vr) =
      Function.update t v ((net.node v).ingestVote now s vr) := by
    rw [Network.step, Function.update_self, Function.update_idem]
    rfl
  have hadmits : net.Admits (Function.update t v s) (v, .ingestVote now vr) := by
    refine ⟨fun vr' heq hsig hnode => ?_, fun _ _ heq => Event.noConfusion heq⟩
    obtain rfl : vr = vr' := Option.some.inj heq
    obtain ⟨i, hi, hlog⟩ := hgenuine hsig hnode
    exact ⟨i, hi, hs.signLog i hlog⟩
  have hgrow := Invariant.signLog_subset net (Function.update t v s) (v, .ingestVote now vr)
  rw [hnext] at hgrow
  exact ⟨hnext ▸ hs.sound.step ht hkeys hadmits,
    fun i => List.Subset.trans (hs.signLog i) (hgrow i)⟩

/-- A vote that counts is ingested when the registry is empty. -/
theorem SoundAt.ingestVote_of_counts (hs : net.SoundAt t v s) (hreg : net.registry = ∅)
    (hon : (net.node v).finalityEnabled = true) {K : Set String} (hvr : net.Counts K h x vr) :
    (net.node v).ingestVote now s vr = (net.node v).tryFinalizeHeight now (s.withVote vr) h x := by
  obtain ⟨rfl, rfl, hE, hchain, hsig⟩ := hvr
  refine Node.ingestVote_of_valid hon ?_ ?_ ?_ ?_
  · have hvals := hs.sound.inv.registry v
    rw [Function.update_self] at hvals
    rw [DB.listValidators, hvals, hreg]
    rfl
  · -- without a registry the electors are the configured validators
    obtain ⟨e, he, hpub⟩ := List.mem_map.mp hE.2
    rw [electors, electorsOf, listed, hreg, if_neg (by simp)] at he
    obtain ⟨val, hval, rfl⟩ := List.mem_map.mp he
    rw [Node.isValidator, net.validators_eq]
    exact List.any_eq_true.mpr ⟨val, hval, decide_eq_true hpub⟩
  · rw [net.genesis_eq, hchain]
  · rw [net.genesis_eq, net.prim_eq, hsig]

end Pull

/-- The own vote of a node for what it has signed counts. -/
theorem Sound.exists_counts (hs : net.Sound t) {i : ι} {e : String × ℤ} (he : e ∈ net.electors)
    {K : Set String} (heK : e.1 ∈ K) (hi : net.pub i = e.1) (hsigned : (h, x) ∈ (t i).signLog) :
    ∃ vr ∈ (t i).listVotesForHeight h, net.Counts K h x vr ∧ vr.pubkeyHex = e.1 := by
  obtain ⟨vr, hget, hx⟩ := (hs.inv.book i).signed h x hsigned
  obtain ⟨hheight, hchain, hsig⟩ := hs.valid i h _ vr hget
  have hpub : vr.pubkeyHex = e.1 := ((hs.inv.book i).keyed h _ vr hget).trans hi
  rw [net.genesis_eq] at hchain hsig
  rw [net.prim_eq, hx] at hsig
  exact ⟨vr, DB.mem_listVotesForHeight.mpr ⟨_, hget⟩,
    ⟨hheight, hx, hpub ▸ ⟨heK, List.mem_map_of_mem he⟩, hchain, hsig⟩, hpub⟩

/-- Nodes with two thirds of the configured weight have signed a recent checkpoint. A node that
pulls votes records it if each of these nodes answers, whatever the other answers are and whatever
happened before. -/
theorem pull_finalizes [DecidableEq ι] (net : Network ι) (ht : net.Trusted net.electors)
    (hreg : net.registry = ∅) (hkeys : ∀ i, (net.node i).OwnKey) (es : List (ι × Event))
    (hrun : Run.Admitted net.step net.Admits net.init es) (t : ι → DB)
    (hstate : t ∈ Run.states net.step net.init es) (v : ι)
    (hon : (net.node v).finalityEnabled = true) (tip : UInt64 × String)
    (htip : (t v).getTip = some tip) (h : UInt64) (x : String)
    (hrecent : (net.node v).Recent tip.1 h) (K : Set String) (hpos : 0 < total net.electors)
    (hK : 2 * total net.electors ≤ 3 * weight net.electors K) (now : Int64) (peers : List String)
    (replies : String → UInt64 → Option (List VoteRecord))
    (hunforged : ∀ p k votes, replies p k = some votes → ∀ vr ∈ votes,
      net.prim.checkVote vr.pubkeyHex vr.sigHex vr.chainID vr.height vr.blockHash = true →
      net.Genuine t vr.height vr.pubkeyHex vr.blockHash)
    (hanswers : ∀ e ∈ net.electors, e.1 ∈ K → ∃ i, net.pub i = e.1 ∧ (h, x) ∈ (t i).signLog ∧
      ∃ p ∈ peers, ∃ votes, replies p h = some votes ∧ (t i).listVotesForHeight h ⊆ votes) :
    (h, x) ∈ ((net.node v).pullVotesFromPeers now peers replies (t v)).finalizedLog := by
  have hsound := Sound.states ht hkeys hrun t hstate
  -- the own vote of each signer is among the votes that are pulled
  have hpulled : ∀ e ∈ net.electors, e.1 ∈ K → ∃ vr ∈ (net.node v).pulledVotes peers replies tip.1,
      net.Counts K h x vr ∧ vr.pubkeyHex = e.1 := by
    intro e he heK
    obtain ⟨i, hi, hsigned, p, hp, votes, hreply, hsub⟩ := hanswers e he heK
    obtain ⟨vr, hvr, hcounts⟩ := hsound.exists_counts he heK hi hsigned
    refine ⟨vr, Node.mem_pulledVotes.mpr ⟨h, hrecent.mem_pullHeights, ?_⟩, hcounts⟩
    exact ⟨p, hp, votes, hreply, hsub hvr⟩
  rw [Node.pullVotesFromPeers, htip]
  refine Node.mem_finalizedLog_foldl_ingestVote (I := net.SoundAt t v)
    (E := {k | k ∈ K ∧ k ∈ net.electors.map Prod.fst}) (P := net.Counts K h x) ?_ ?_ ?_ ?_ ?_ ?_ ?_
  · intro s hs vr hvr
    obtain ⟨k, -, p, -, votes, hreply, hvr⟩ := Node.mem_pulledVotes.mp hvr
    exact hs.ingestVote ht hkeys (hunforged p k votes hreply vr hvr)
  · rintro s hs k ⟨hkK, hk⟩ hvote
    obtain ⟨e, he, rfl⟩ := List.mem_map.mp hk
    obtain ⟨i, hi, hsigned, -⟩ := hanswers e he hkK
    rw [← hi] at hk hvote ⊢
    have hvoters := hs.sound.mem_voters ht (j := v) hk (hs.signLog i hsigned)
    rw [Function.update_self] at hvoters
    exact hvoters hvote
  · intro s hs hsub
    have hq := hs.sound.quorumReached ht hreg hpos hK (j := v) (h := h) (x := x)
    rw [Function.update_self] at hq
    exact hq fun e he heK => hsub ⟨heK, List.mem_map_of_mem he⟩
  · exact fun s hs vr hvr => ⟨hvr.height, hvr.voter, hs.ingestVote_of_counts hreg hon hvr⟩
  · rw [← Function.update_eq_self v t] at hsound
    exact ⟨hsound, fun i => by rw [Function.update_eq_self]; exact List.Subset.refl _⟩
  · rintro k ⟨hkK, hk⟩
    obtain ⟨e, he, rfl⟩ := List.mem_map.mp hk
    exact .inr (hpulled e he hkK)
  · by_contra hnone
    have hempty : weight net.electors K ≤ weight net.electors ∅ := by
      refine weight_le_weight (fun e he => (ht.pos e he).le) fun e he heK => ?_
      obtain ⟨vr, hvr, hcounts, -⟩ := hpulled e he heK
      exact hnone ⟨vr, hvr, hcounts⟩
    rw [weight_empty] at hempty
    omega

namespace Invariant

/-- The votes that a node lists are not forged. -/
theorem genuine_of_listed (hinv : net.Invariant t) {i : ι} {vr : VoteRecord}
    (hvr : vr ∈ (t i).listVotesForHeight h) : net.Genuine t h vr.pubkeyHex vr.blockHash := by
  obtain ⟨pub, hget⟩ := DB.mem_listVotesForHeight.mp hvr
  rw [(hinv.book i).keyed h pub vr hget]
  rcases (hinv.book i).genuine h pub vr hget with ⟨rfl, hlog⟩ | hgenuine
  · exact fun _ => ⟨i, rfl, hlog⟩
  · exact hgenuine

end Invariant

end Network

namespace Sample

/-- Each node signs with its own key. -/
theorem ownKey_council (i : Fin 3) : ((council "").node i).OwnKey := by
  intro priv h x hpriv
  -- a signature of 64 zero bytes verifies under every key
  have hverify : ∀ key, (parsePub key).isSome = true →
      prim.checkVote key (hexEncode (List.replicate 64 0)) node.genesis.chainID h x = true := by
    intro key hkey
    obtain ⟨pub, hpub⟩ := Option.isSome_iff_exists.mp hkey
    obtain ⟨sig, hsig⟩ : ∃ sig, hexDecodeLen 64 (hexEncode (List.replicate 64 0)) = some sig :=
      Option.isSome_iff_exists.mp (by decide +kernel)
    rw [Primitives.checkVote, hpub]
    change prim.verifyVote pub _ _ h x = true
    rw [Primitives.verifyVote, hsig]
    rfl
  obtain rfl | rfl | rfl : i = 0 ∨ i = 1 ∨ i = 2 := by omega
  · exact hverify alice (by decide +kernel)
  · exact hverify bob (by decide +kernel)
  · have hnone : parsePriv ((council "").node 2).localPrivHex = none := by decide +kernel
    rw [hnone] at hpriv
    cases hpriv

/-- What the nodes know after the first block. -/
theorem firstBlock_tip :
    (((Network.relay firstBlock []).foldl (council "").step (council "").init) 2).getTip =
      some (1, hash₁) := by
  decide +kernel

end Sample

open Sample

/-- The third node pulls the votes of alice and bob, who have four fifths of the weight, and records
the block. Carol's peer, who is asked first, does not answer. -/
theorem Network.pull_finalizes_council :
    let t := (relay firstBlock []).foldl (council "").step (council "").init
    (1, hash₁) ∈ (((council "").node 2).pullVotesFromPeers 0
      ["http://carol", "http://alice", "http://bob"]
      (fun p h => if p = "http://carol" then none else
        some ((t (if p = "http://alice" then 0 else 1)).listVotesForHeight h))
      (t 2)).finalizedLog := by
  intro t
  have hrun : Run.Admitted (council "").step (council "").Admits
      (council "").init (relay firstBlock []) := admitted_relay nofun
  have hsound := Sound.states trusted_council ownKey_council hrun t
    (Run.foldl_mem_states ..)
  refine pull_finalizes (council "") trusted_council rfl ownKey_council _ hrun
    t (Run.foldl_mem_states ..) 2 rfl (1, hash₁) firstBlock_tip 1 hash₁
    ⟨by decide, 1, rfl, le_rfl, by decide⟩ {alice, bob} (by decide) ?_ 0 _ _
    (fun p k votes hvotes vr hvr _ => ?_) (fun e he heK => ?_)
  · rw [electors_council, weight_cons, weight_cons, weight_cons, weight_nil,
      if_pos (Set.mem_insert ..), if_pos (Set.mem_insert_of_mem _ (Set.mem_singleton _))]
    split <;> decide
  · split at hvotes
    · cases hvotes
    · obtain rfl := Option.some.inj hvotes
      obtain ⟨pub, hget⟩ := DB.mem_listVotesForHeight.mp hvr
      rw [(hsound.valid _ k pub vr hget).1]
      exact hsound.inv.genuine_of_listed hvr
  · rcases heK with halice | hbob
    · exact ⟨0, halice.symm, firstBlock_read 0 (by decide), "http://alice", by simp, _, rfl,
        List.Subset.refl _⟩
    · exact ⟨1, hbob.symm, firstBlock_read 1 (by decide), "http://bob", by simp, _, rfl,
        List.Subset.refl _⟩

end ReserveOS
