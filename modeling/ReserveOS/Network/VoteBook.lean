import ReserveOS.Correctness.BlockTree
import ReserveOS.Network.Tally

/-!
# A node's votes over time

What a node keeps true of its votes, whatever happens to it (`VoteBook`): every vote is stored under
its voter's key and is never replaced, so the node signs at most one hash per height; and every pair
that either finalization routine ever recorded is supported by two thirds of the electorate. The
invariant is checked on the four writes of the finality code.
-/

namespace ReserveOS

open Quorum

namespace DB

/-- Votes that are stored stay. -/
def VotesGrow (s t : DB) : Prop :=
  ∀ (h : UInt64) (pub : String) (vr : VoteRecord),
    (s.votes h)[pub]? = some vr → (t.votes h)[pub]? = some vr

theorem VotesGrow.of_eq {s t : DB} (h : t.votes = s.votes) : s.VotesGrow t := by
  intro k pub vr hget
  rwa [h]

theorem VotesGrow.voters_subset {s t : DB} (hst : s.VotesGrow t) (h : UInt64) (x : String) :
    s.voters h x ⊆ t.voters h x := by
  rintro pub ⟨vr, hget, hx⟩
  exact ⟨vr, hst h pub vr hget, hx⟩

theorem getElem?_eq_none_of_hasVote {s : DB} {h : UInt64} {pub : String}
    (hnew : s.hasVote h pub = false) : (s.votes h)[pub]? = none := by
  unfold hasVote at hnew
  exact Option.not_isSome_iff_eq_none.mp (Bool.eq_false_iff.mp hnew)

/-- A vote that is new replaces none. -/
theorem votesGrow_putVote {s : DB} {v : VoteRecord}
    (hnew : s.hasVote v.height v.pubkeyHex = false) : s.VotesGrow (s.putVote v) := by
  intro h pub vr hget
  rw [getElem?_putVote, if_neg]
  · exact hget
  · rintro ⟨rfl, rfl⟩
    rw [getElem?_eq_none_of_hasVote hnew] at hget
    cases hget

end DB

namespace Node

variable {n : Node} {s t : DB}

/-- The electorate only depends on the registry. -/
theorem electors_congr (h : t.validators = s.validators) : n.electors t = n.electors s := by
  unfold electors DB.listValidators
  rw [h]

/-- Only the registry matters. -/
theorem SmallElectorate.congr (hs : n.SmallElectorate s) (h : t.validators = s.validators) :
    n.SmallElectorate t := by
  have hrounds : n.rounds t = n.rounds s := by
    unfold rounds DB.listValidators
    rw [h]
  refine ⟨?_, hs.num, hs.den, ?_⟩
  · rw [electors_congr h]
    exact hs.pos
  · rw [electors_congr h, hrounds]
    exact hs.small

/-- Support survives as long as votes stay and the registry does not change. -/
theorem Supported.mono {h : UInt64} {x : String} (hs : n.Supported s h x)
    (hpos : ∀ e ∈ n.electors s, 0 ≤ e.2) (hvals : t.validators = s.validators)
    (hgrow : s.VotesGrow t) : n.Supported t h x := by
  obtain ⟨htot, hle⟩ := hs
  unfold Supported
  rw [electors_congr hvals]
  refine ⟨htot, hle.trans ?_⟩
  have hweight := weight_le_weight hpos fun e _ he => hgrow.voters_subset h x he
  omega

variable (n) in
/-- What a node keeps true of its votes. `G` tells which votes of other voters are genuine. -/
structure VoteBook (G : UInt64 → String → String → Prop) (s : DB) : Prop where
  electorate : n.SmallElectorate s
  keyed : ∀ h, s.VotesKeyed h
  voter : ∀ (h : UInt64) (pub : String) (vr : VoteRecord), (s.votes h)[pub]? = some vr →
    n.isValidator pub = true ∨ pub = n.localPubHex
  genuine : ∀ (h : UInt64) (pub : String) (vr : VoteRecord), (s.votes h)[pub]? = some vr →
    (pub = n.localPubHex ∧ (h, vr.blockHash) ∈ s.signLog) ∨ G h pub vr.blockHash
  signed : ∀ h x, (h, x) ∈ s.signLog →
    ∃ vr, (s.votes h)[n.localPubHex]? = some vr ∧ vr.blockHash = x
  finalized : ∀ h x, (h, x) ∈ s.finalizedLog → (h = 0 ∧ x = n.genesisHash) ∨ n.Supported s h x
  weighted : ∀ h x, (h, x) ∈ s.weightedLog → n.Supported s h x
  last : ∀ h x, s.finalized = some (h, x) → (h, x) ∈ s.finalizedLog

namespace VoteBook

variable {G G' : UInt64 → String → String → Prop}

/-- A node signs at most one hash per height. -/
theorem signLog_unique (hb : n.VoteBook G s) {h : UInt64} {x y : String}
    (hx : (h, x) ∈ s.signLog) (hy : (h, y) ∈ s.signLog) : x = y := by
  obtain ⟨vr, hget, rfl⟩ := hb.signed h x hx
  obtain ⟨vr', hget', rfl⟩ := hb.signed h y hy
  rw [hget] at hget'
  cases hget'
  rfl

theorem mono (hb : n.VoteBook G s) (hG : ∀ h pub x, G h pub x → G' h pub x) :
    n.VoteBook G' s :=
  { hb with genuine := fun h pub vr hget => (hb.genuine h pub vr hget).imp_right (hG h pub _) }

theorem nonneg (hb : n.VoteBook G s) : ∀ e ∈ n.electors s, 0 ≤ e.2 :=
  fun e he => (hb.electorate.pos e he).le

/-- Support of everything that was recorded survives while votes only grow. -/
theorem recorded_mono (hb : n.VoteBook G s) (hvals : t.validators = s.validators)
    (hgrow : s.VotesGrow t) {h : UInt64} {x : String} :
    ((h, x) ∈ s.finalizedLog → (h = 0 ∧ x = n.genesisHash) ∨ n.Supported t h x) ∧
      ((h, x) ∈ s.weightedLog → n.Supported t h x) := by
  constructor
  · intro hmem
    exact (hb.finalized h x hmem).imp_right fun hsup => hsup.mono hb.nonneg hvals hgrow
  · intro hmem
    exact (hb.weighted h x hmem).mono hb.nonneg hvals hgrow

/-- The book reads the finality tables only. -/
theorem congr (hb : n.VoteBook G s) (hst : s.SameFinality t) : n.VoteBook G t := by
  have hrec := fun {h x} => hb.recorded_mono hst.validators (.of_eq hst.votes) (h := h) (x := x)
  refine ⟨hb.electorate.congr hst.validators, fun h pub vr => ?_, ?_, ?_, ?_, ?_, ?_, ?_⟩
  · rw [hst.votes]
    exact hb.keyed h pub vr
  · rw [hst.votes]
    exact hb.voter
  · rw [hst.votes, hst.signLog]
    exact hb.genuine
  · rw [hst.votes, hst.signLog]
    exact hb.signed
  · rw [hst.finalizedLog]
    exact fun h x => hrec.1
  · rw [hst.weightedLog]
    exact fun h x => hrec.2
  · rw [hst.finalized, hst.finalizedLog]
    exact hb.last

/-- Storing a new vote keeps the book, whether the node signed it or received it. -/
theorem addVote (hb : n.VoteBook G s) {v : VoteRecord}
    (hnew : s.hasVote v.height v.pubkeyHex = false)
    (hvoter : n.isValidator v.pubkeyHex = true ∨ v.pubkeyHex = n.localPubHex)
    {log : List (UInt64 × String)} (hlog : s.signLog ⊆ log)
    (hold : ∀ h x, (h, x) ∈ log →
      (h, x) ∈ s.signLog ∨ (h = v.height ∧ x = v.blockHash ∧ v.pubkeyHex = n.localPubHex))
    (hgen : (v.pubkeyHex = n.localPubHex ∧ (v.height, v.blockHash) ∈ log) ∨
      G v.height v.pubkeyHex v.blockHash) :
    n.VoteBook G { s.putVote v with signLog := log } := by
  have hgrow : s.VotesGrow (s.putVote v) := DB.votesGrow_putVote hnew
  have hrec := fun {h x} => hb.recorded_mono (t := { s.putVote v with signLog := log }) rfl hgrow
    (h := h) (x := x)
  have hread := s.getElem?_putVote v
  -- an entry is the new vote, or it was there before
  have hcases : ∀ (h : UInt64) (pub : String) (vr : VoteRecord),
      ((s.putVote v).votes h)[pub]? = some vr →
      (v.height = h ∧ v.pubkeyHex = pub ∧ v = vr) ∨ (s.votes h)[pub]? = some vr := by
    intro h pub vr hget
    rw [hread] at hget
    split at hget
    next hv => exact Or.inl ⟨hv.1, hv.2, Option.some.inj hget⟩
    next => exact Or.inr hget
  refine ⟨hb.electorate.congr rfl, fun h pub vr hget => ?_, fun h pub vr hget => ?_,
    fun h pub vr hget => ?_, fun h x hmem => ?_, fun h x => hrec.1, fun h x => hrec.2, hb.last⟩
  · rcases hcases h pub vr hget with ⟨-, rfl, rfl⟩ | hget
    · rfl
    · exact hb.keyed h pub vr hget
  · rcases hcases h pub vr hget with ⟨-, rfl, rfl⟩ | hget
    · exact hvoter
    · exact hb.voter h pub vr hget
  · rcases hcases h pub vr hget with ⟨rfl, rfl, rfl⟩ | hget
    · exact hgen
    · exact (hb.genuine h pub vr hget).imp_left fun hown => ⟨hown.1, hlog hown.2⟩
  · rcases hold h x hmem with hmem | ⟨rfl, rfl, hpub⟩
    · obtain ⟨vr, hget, hx⟩ := hb.signed h x hmem
      exact ⟨vr, hgrow h _ vr hget, hx⟩
    · refine ⟨v, ?_, rfl⟩
      change ((s.putVote v).votes v.height)[n.localPubHex]? = some v
      rw [hread, if_pos ⟨rfl, hpub⟩]

/-- Every write of the finality code keeps the book. -/
theorem finStep (hb : n.VoteBook G s) {signs target : UInt64 → String → Prop}
    {delivered : VoteRecord → Prop}
    (hG : ∀ vr, delivered vr →
      n.prim.checkVote vr.pubkeyHex vr.sigHex vr.chainID vr.height vr.blockHash = true →
      G vr.height vr.pubkeyHex vr.blockHash)
    (hstep : n.FinStep signs target delivered s t) : n.VoteBook G t := by
  cases hstep with
  | sign now priv h x hs hpriv hnew =>
      -- the node's own vote: it is signed now, so it is genuine
      refine hb.addVote (v := n.localVote now priv h x) hnew (Or.inr rfl)
        (fun p hp => List.mem_cons_of_mem _ hp) (fun k y hmem => ?_)
        (Or.inl ⟨rfl, List.mem_cons_self⟩)
      rcases List.mem_cons.mp hmem with heq | hmem
      · cases heq
        exact Or.inr ⟨rfl, rfl, rfl⟩
      · exact Or.inl hmem
  | record vr hd hchain hval hsig hnew =>
      -- a received vote: its signature verifies, so it is genuine by assumption
      exact hb.addVote hnew (Or.inl hval) (List.Subset.refl _) (fun k y hmem => Or.inl hmem)
        (Or.inr (hG vr hd hsig))
  | finalize now h x ht hq =>
      have hsup : n.Supported s h x :=
        supported_of_quorumReached hb.electorate (hb.keyed h) (hb.voter h) hq
      refine ⟨hb.electorate.congr rfl, hb.keyed, hb.voter, hb.genuine, hb.signed,
        fun k y hmem => ?_, hb.weighted, fun k y hlast => ?_⟩
      · rcases List.mem_cons.mp hmem with heq | hmem
        · cases heq
          exact Or.inr hsup
        · exact hb.finalized k y hmem
      · cases Option.some.inj hlast
        exact List.mem_cons_self
  | finalizeWeighted ord h x hw hlt =>
      have hsup : n.Supported s h x :=
        supported_of_weightedWinner hb.electorate (hb.keyed h) hw
      refine ⟨hb.electorate.congr rfl, hb.keyed, hb.voter, hb.genuine, hb.signed, hb.finalized,
        fun k y hmem => ?_, hb.last⟩
      rcases List.mem_cons.mp hmem with heq | hmem
      · cases heq
        exact hsup
      · exact hb.weighted k y hmem

end VoteBook

/-! ### Events -/

/-- No event changes the registry. -/
theorem validators_step (n : Node) (s : DB) (e : Event) :
    (n.step s e).validators = s.validators := by
  obtain ⟨s₁, hsame, hfin⟩ := n.finSteps_event s e
  rw [hfin.sameChain.validators, hsame.validators]

/-- What an event adds to the signed votes. -/
theorem signLog_step (n : Node) (s : DB) (e : Event) :
    s.signLog ⊆ (n.step s e).signLog ∧
      ∀ h x, (h, x) ∈ (n.step s e).signLog → (h, x) ∈ s.signLog ∨ n.Signs s e h x := by
  obtain ⟨s₁, hsame, hfin⟩ := n.finSteps_event s e
  refine Run.closure_invariant (I := fun u => s.signLog ⊆ u.signLog ∧
    ∀ h x, (h, x) ∈ u.signLog → (h, x) ∈ s.signLog ∨ n.Signs s e h x)
    (fun u v hstep hu => ?_) hfin ?_
  · obtain ⟨hsub, hnew⟩ := hu
    cases hstep with
    | sign now priv h x hs hpriv _ =>
        refine ⟨fun p hp => List.mem_cons_of_mem _ (hsub hp), fun k y hmem => ?_⟩
        rcases List.mem_cons.mp hmem with heq | hmem
        · cases heq
          exact Or.inr hs
        · exact hnew k y hmem
    | record => exact ⟨hsub, hnew⟩
    | finalize => exact ⟨hsub, hnew⟩
    | finalizeWeighted => exact ⟨hsub, hnew⟩
  · rw [hsame.signLog]
    exact ⟨List.Subset.refl _, fun h x hmem => Or.inl hmem⟩

/-- Every event keeps the book, if the vote it delivers is genuine. -/
theorem VoteBook.step {G : UInt64 → String → String → Prop} (hb : n.VoteBook G s) {e : Event}
    (hG : ∀ vr, e.vote? = some vr →
      n.prim.checkVote vr.pubkeyHex vr.sigHex vr.chainID vr.height vr.blockHash = true →
      G vr.height vr.pubkeyHex vr.blockHash) : n.VoteBook G (n.step s e) := by
  obtain ⟨s₁, hsame, hfin⟩ := n.finSteps_event s e
  exact Run.closure_invariant (fun u v hstep hu => hu.finStep hG hstep) hfin (hb.congr hsame)

end Node

end ReserveOS
