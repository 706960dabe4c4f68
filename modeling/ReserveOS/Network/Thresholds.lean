import ReserveOS.General.WrapAround
import ReserveOS.Network.Agreement
import Mathlib.Data.List.Induction
import Mathlib.Data.List.Nodup
import Mathlib.Data.Int.LeastGreatest

/-!
# The exact rules of the two finalization routines

When each routine finalizes, in terms of the stored votes and the weights of the validators.

* `tryFinalizeHeight` compares the weight of the signers with the threshold times the listed weight,
  which with a registry it counts once for every stored vote for the hash (`quorumReached_iff`).
* `TryFinalizeHeight` finalizes the one hash that two thirds of the live weight voted for, in
  whatever order Go iterates the tally (`weightedWinner_eq_some_iff`).

Both read at most 5000 entries of the registry. Sums and products are `int64`, and a wrapped
comparison finalizes without a quorum; `quorum_arithmetic_exact_iff` says when it is still right.
-/

namespace ReserveOS

open Quorum WrapAround

/-- The range of `int64`. -/
def InInt64 (v : ℤ) : Prop := -2 ^ 63 ≤ v ∧ v < 2 ^ 63

instance (v : ℤ) : Decidable (InInt64 v) := inferInstanceAs (Decidable (_ ∧ _))

theorem InInt64.toInt_ofInt {v : ℤ} (h : InInt64 v) : (Int64.ofInt v).toInt = v :=
  Int64.toInt_ofInt_of_le h.1 h.2

namespace DB

/-- At most one stored vote of the height has a given public key. -/
def OneVoteEach (s : DB) (h : UInt64) : Prop :=
  ((s.listVotesForHeight h).map VoteRecord.pubkeyHex).Nodup

/-- All entries of the registry. -/
def registry (s : DB) : List RegValidator := s.validators.toList.map Prod.snd

theorem listValidators_eq_take (s : DB) : s.listValidators 5000 = s.registry.take 5000 := by
  unfold listValidators registry
  rw [if_neg (by omega)]

/-- The whole registry is listed if it is small. -/
theorem listValidators_eq_registry {s : DB} (h : s.registry.length ≤ 5000) :
    s.listValidators 5000 = s.registry := by
  rw [listValidators_eq_take, List.take_of_length_le h]

/-- Votes with different keys: the weights of the voters that `p` picks add up to the weight of the
set of their keys. -/
theorem OneVoteEach.sum_weight {s : DB} {h : UInt64} (hs : s.OneVoteEach h)
    (ws : List (String × ℤ)) (p : VoteRecord → Bool) :
    (((s.listVotesForHeight h).filter p).map fun vr => weight ws {vr.pubkeyHex}).sum =
      weight ws {pub | ∃ vr ∈ s.listVotesForHeight h, p vr = true ∧ vr.pubkeyHex = pub} := by
  have hnodup : (((s.listVotesForHeight h).filter p).map VoteRecord.pubkeyHex).Nodup :=
    hs.sublist (List.filter_sublist.map _)
  have hset : {pub | pub ∈ ((s.listVotesForHeight h).filter p).map VoteRecord.pubkeyHex} =
      {pub | ∃ vr ∈ s.listVotesForHeight h, p vr = true ∧ vr.pubkeyHex = pub} := by
    ext pub
    simp [and_assoc]
  rw [← hset, ← sum_weight_singleton ws hnodup, List.map_map]
  rfl

end DB

/-! ### `tryFinalizeHeight` -/

namespace Node

variable (n : Node)

/-- The keys with a stored vote for the hash and the chain whose signature verifies. -/
def signers (s : DB) (h : UInt64) (x : String) : Set String :=
  {pub | ∃ vr ∈ s.listVotesForHeight h, (vr.blockHash = x ∧ vr.chainID = n.genesis.chainID ∧
    n.prim.checkVote vr.pubkeyHex vr.sigHex n.genesis.chainID h x = true) ∧ vr.pubkeyHex = pub}

/-- The validators of a node: the whole registry, or the configured validators if it is empty. -/
def allElectors (s : DB) : List (String × ℤ) := electorsOf n.validators s.registry

/-- A signed weight reaches the threshold of a positive total. -/
def Passes (W S : ℤ) : Prop := 0 < W ∧ W * n.thresholdNum.toInt ≤ S * n.thresholdDen.toInt

/-- The signed weight that `tryFinalizeHeight` adds up, vote by vote. -/
noncomputable def signedTotal (s : DB) (h : UInt64) (x : String) : ℤ :=
  ((n.matching s h x).map (n.signedWeight (n.electors s) h x)).sum

/-- The total that `tryFinalizeHeight` adds up: with a registry the listed weight once for every
stored vote for the hash and the chain. -/
def addedWeight (s : DB) (h : UInt64) (x : String) : ℤ :=
  n.addedTotals s h x * total (n.electors s)

/-- The sums and products of `tryFinalizeHeight` are in the range of `int64`. -/
structure NoOverflow (s : DB) (h : UInt64) (x : String) : Prop where
  total : InInt64 (n.addedWeight s h x)
  needed : InInt64 (n.addedWeight s h x * n.thresholdNum.toInt)
  signed : InInt64 (n.signedTotal s h x * n.thresholdDen.toInt)

variable {n} {s : DB} {h : UInt64} {x : String}

instance (W S : ℤ) : Decidable (n.Passes W S) := inferInstanceAs (Decidable (_ ∧ _))

/-- With one vote for each key, the signed weight is the weight of the signers. -/
theorem signedTotal_eq (hs : s.OneVoteEach h) :
    n.signedTotal s h x = weight (n.electors s) (n.signers s h x) := by
  have hsum : ∀ votes : List VoteRecord, (votes.map (n.signedWeight (n.electors s) h x)).sum =
      ((votes.filter fun vr => n.prim.checkVote vr.pubkeyHex vr.sigHex n.genesis.chainID h x).map
        fun vr => weight (n.electors s) {vr.pubkeyHex}).sum := by
    intro votes
    induction votes with
    | nil => rfl
    | cons vr votes ih =>
        rw [List.map_cons, List.sum_cons, ih, List.filter_cons, signedWeight]
        split
        · rw [List.map_cons, List.sum_cons]
        · rw [zero_add]
  rw [signedTotal, hsum, matching, List.filter_filter, hs.sum_weight, signers]
  congr 1
  ext pub
  simp [and_assoc, and_comm, and_left_comm]

/-- Without a counted vote nothing is signed. -/
theorem signedTotal_eq_zero (hzero : n.addedTotals s h x = 0) : n.signedTotal s h x = 0 := by
  have hnone : n.matching s h x = [] := by
    unfold addedTotals at hzero
    split at hzero
    · exact List.length_eq_zero_iff.mp hzero
    · exact List.length_eq_zero_iff.mp (by omega)
  rw [signedTotal, hnone, List.map_nil, List.sum_nil]

/-- `tryFinalizeHeight` compares the sums of its loop. -/
theorem quorumReached_iff (hfit : n.NoOverflow s h x) :
    n.quorumReached s h x = true ↔ n.Passes (n.addedWeight s h x) (n.signedTotal s h x) := by
  obtain ⟨htotal, hneeded, hsigned⟩ := hfit
  unfold quorumReached reachedThreshold Passes
  rw [tallyVotes_eq, ← signedTotal, ← addedWeight]
  generalize n.signedTotal s h x = S at *
  generalize n.addedWeight s h x = W at *
  -- the comparisons of the code are those of the integers
  have hpos : (0 : Int64) < Int64.ofInt W ↔ 0 < W := by
    rw [weight_pos_iff, htotal.toInt_ofInt]
  have hle : Int64.ofInt W * n.thresholdNum ≤ Int64.ofInt S * n.thresholdDen ↔
      W * n.thresholdNum.toInt ≤ S * n.thresholdDen.toInt := by
    rw [← Int64.ofInt_toInt n.thresholdNum, ← Int64.ofInt_toInt n.thresholdDen, ← Int64.ofInt_mul,
      ← Int64.ofInt_mul, Int64.le_iff_toInt_le, Int64.ofInt_toInt, Int64.ofInt_toInt,
      hneeded.toInt_ofInt, hsigned.toInt_ofInt]
  have hne : (0 : Int64) < Int64.ofInt W → Int64.ofInt W ≠ 0 := by
    rintro hlt heq
    rw [heq] at hlt
    exact Int64.lt_irrefl hlt
  simp only [Bool.and_eq_true, decide_eq_true_eq, hle]
  constructor
  · rintro ⟨-, hW, hthreshold⟩
    exact ⟨hpos.mp hW, hthreshold⟩
  · rintro ⟨hW, hthreshold⟩
    exact ⟨hne (hpos.mpr hW), hpos.mpr hW, hthreshold⟩

variable (n) in
/-- The call records the pair as finalized. -/
def Records (now : Int64) (s : DB) (h : UInt64) (x : String) : Prop :=
  n.tryFinalizeHeight now s h x = (s.putFinalized h x).putCheckpoint h ⟨h, x, now⟩

/-- The pair is recorded exactly if the quorum is reached. -/
theorem records_iff (now : Int64) : n.Records now s h x ↔ n.quorumReached s h x = true := by
  unfold Records tryFinalizeHeight
  split
  next hq => exact iff_of_true rfl hq
  next hq =>
    -- a record makes the history longer
    refine iff_of_false (fun heq => ?_) hq
    have hlog := congrArg (fun t => t.finalizedLog.length) heq
    simp [DB.putFinalized, DB.putCheckpoint] at hlog

variable (n) in
/-- The rule of an exact quorum: the pair is recorded exactly if its signers have the threshold of
the weight of all validators. -/
def ExactQuorum (now : Int64) (s : DB) (h : UInt64) (x : String) : Prop :=
  n.Records now s h x ↔
    n.Passes (total (n.allElectors s)) (weight (n.allElectors s) (n.signers s h x))

theorem allElectors_eq_electors (hsmall : s.registry.length ≤ 5000) :
    n.allElectors s = n.electors s := by
  rw [allElectors, electors, DB.listValidators_eq_registry hsmall]

/-- A signed weight that reaches the threshold of a total counted often reaches the threshold of the
total. -/
theorem Passes.of_added (hnum : 0 < n.thresholdNum) {k : ℕ} {W S : ℤ} (hp : n.Passes (k * W) S) :
    n.Passes W S := by
  obtain ⟨hkW, hthreshold⟩ := hp
  have hnum' : 0 < n.thresholdNum.toInt := weight_pos_iff.mp hnum
  have hW : 0 < W := pos_of_mul_pos_right hkW (Int.natCast_nonneg k)
  have hk : (1 : ℤ) ≤ k := by
    have hk' := pos_of_mul_pos_left hkW hW.le
    omega
  refine ⟨hW, le_trans ?_ hthreshold⟩
  have hle : W ≤ k * W := le_mul_of_one_le_left hW.le hk
  gcongr

/-- `tryFinalizeHeight` follows the rule exactly if the sums of its loop pass the threshold when
the weights do. If the whole registry is listed, and no key has two votes, the one thing that goes
wrong is that the signers have the threshold of the weight, but not of the weight counted once for
every stored vote. -/
theorem exactQuorum_iff (n : Node) (now : Int64) (s : DB) (h : UInt64) (x : String)
    (hnum : 0 < n.thresholdNum) (hfit : n.NoOverflow s h x) :
    (n.ExactQuorum now s h x ↔
      (n.Passes (total (n.allElectors s)) (weight (n.allElectors s) (n.signers s h x)) ↔
        n.Passes (n.addedWeight s h x) (n.signedTotal s h x))) ∧
    (s.registry.length ≤ 5000 → s.OneVoteEach h → (n.ExactQuorum now s h x ↔
      ¬ (n.Passes (total (n.allElectors s)) (weight (n.allElectors s) (n.signers s h x)) ∧
        weight (n.allElectors s) (n.signers s h x) * n.thresholdDen.toInt <
          n.addedTotals s h x * total (n.allElectors s) * n.thresholdNum.toInt))) := by
  have hrule : n.ExactQuorum now s h x ↔
      (n.Passes (total (n.allElectors s)) (weight (n.allElectors s) (n.signers s h x)) ↔
        n.Passes (n.addedWeight s h x) (n.signedTotal s h x)) := by
    rw [ExactQuorum, records_iff, quorumReached_iff hfit]
    exact iff_comm
  refine ⟨hrule, fun hsmall hs => ?_⟩
  have hzero := signedTotal_eq_zero (n := n) (s := s) (h := h) (x := x)
  -- with one vote each and every entry listed, the signed sum of the loop is the signers' weight
  rw [hrule, allElectors_eq_electors hsmall, addedWeight]
  rw [signedTotal_eq hs] at hzero ⊢
  constructor
  · rintro hiff ⟨hp, hlt⟩
    exact absurd (hiff.mp hp).2 (not_le.mpr hlt)
  · refine fun hnot => ⟨fun hp => ⟨?_, ?_⟩, fun hp => hp.of_added hnum⟩
    · -- at least one vote is counted, for the signers have weight
      refine mul_pos ?_ hp.1
      rw [Int.natCast_pos, Nat.pos_iff_ne_zero]
      intro hadded
      have hthreshold := hp.2
      rw [hzero hadded, zero_mul] at hthreshold
      exact absurd hthreshold (not_le.mpr (mul_pos hp.1 (weight_pos_iff.mp hnum)))
    · by_contra hlt
      exact hnot ⟨hp, not_le.mp hlt⟩

end Node

namespace Sample

/-- Alice and bob are the only registered validators. -/
def couple (a b : Int64) : Table RegValidator :=
  Std.ExtTreeMap.ofList [(alice, member alice a), (bob, member bob b)]

theorem alice_lt_bob : alice < bob := lt_of_digit (by decide) 63 63

theorem registry_couple {s : DB} {a b : Int64} (hs : s.validators = couple a b) :
    s.registry = [member alice a, member bob b] := by
  have hlist : (couple a b).toList = [(alice, member alice a), (bob, member bob b)] :=
    Table.toList_ofList (by simpa using alice_lt_bob)
  rw [DB.registry, hs, hlist]
  rfl

theorem length_registry_couple {s : DB} {a b : Int64} (hs : s.validators = couple a b) :
    s.registry.length ≤ 5000 := by
  rw [registry_couple hs]
  exact Nat.le_add_left 2 4998

theorem allElectors_couple {s : DB} {a b : Int64} (hs : s.validators = couple a b) :
    voting.allElectors s = [(alice, a.toInt), (bob, b.toInt)] := by
  rw [Node.allElectors, registry_couple hs]
  rfl

theorem electors_couple {s : DB} {a b : Int64} (hs : s.validators = couple a b) :
    voting.electors s = [(alice, a.toInt), (bob, b.toInt)] := by
  rw [← allElectors_couple hs, Node.allElectors_eq_electors (length_registry_couple hs)]

/-- Bob votes as alice does. -/
def bobVote : VoteRecord := { vote 1 "01" with pubkeyHex := bob }

/-- Alice has two thirds of the weight, and she has voted. -/
def oneVote : DB := (DB.fresh (couple 2 1)).putVote (vote 1 "01")

/-- Both have the same weight, and both have voted for one hash. -/
def twoVotes : DB := ((DB.fresh (couple 1 1)).putVote (vote 1 "01")).putVote bobVote

theorem votes_oneVote : oneVote.listVotesForHeight 1 = [vote 1 "01"] :=
  listVotesForHeight_putVote rfl

theorem votes_twoVotes : twoVotes.listVotesForHeight 1 = [vote 1 "01", bobVote] := by
  decide +kernel

/-- Only alice has signed. -/
theorem signers_oneVote :
    alice ∈ voting.signers oneVote 1 "01" ∧ bob ∉ voting.signers oneVote 1 "01" := by
  unfold Node.signers
  rw [votes_oneVote]
  refine ⟨⟨vote 1 "01", List.mem_singleton_self _, ⟨rfl, rfl, by decide +kernel⟩, rfl⟩, ?_⟩
  rintro ⟨vr, hvr, -, hbob⟩
  obtain rfl := List.mem_singleton.mp hvr
  exact alice_lt_bob.ne hbob

/-- Both have signed. -/
theorem signers_twoVotes :
    alice ∈ voting.signers twoVotes 1 "01" ∧ bob ∈ voting.signers twoVotes 1 "01" := by
  unfold Node.signers
  rw [votes_twoVotes]
  exact ⟨⟨vote 1 "01", List.mem_cons_self, ⟨rfl, rfl, by decide +kernel⟩, rfl⟩,
    ⟨bobVote, List.mem_cons_of_mem _ (List.mem_singleton_self _), ⟨rfl, rfl, by decide +kernel⟩,
      rfl⟩⟩

theorem oneVoteEach_oneVote : oneVote.OneVoteEach 1 := by
  rw [DB.OneVoteEach, votes_oneVote]
  exact List.pairwise_singleton _ _

theorem oneVoteEach_twoVotes : twoVotes.OneVoteEach 1 := by
  rw [DB.OneVoteEach, votes_twoVotes]
  decide +kernel

/-- Alice signs with two of three. -/
theorem tally_oneVote : voting.addedTotals oneVote 1 "01" = 1 ∧
    total (voting.electors oneVote) = 3 ∧ voting.signedTotal oneVote 1 "01" = 2 := by
  have hlist := DB.listValidators_eq_registry
    (length_registry_couple (show oneVote.validators = couple 2 1 from rfl))
  refine ⟨?_, ?_, ?_⟩
  · rw [Node.addedTotals, Node.matching, votes_oneVote, hlist, registry_couple rfl]
    decide
  · rw [electors_couple rfl]
    decide
  · rw [Node.signedTotal_eq oneVoteEach_oneVote, electors_couple rfl, weight_cons, weight_cons,
      if_pos signers_oneVote.1, if_neg signers_oneVote.2]
    decide

/-- Both sign with one of two, and the two are counted twice. -/
theorem tally_twoVotes : voting.addedTotals twoVotes 1 "01" = 2 ∧
    total (voting.electors twoVotes) = 2 ∧ voting.signedTotal twoVotes 1 "01" = 2 := by
  have hlist := DB.listValidators_eq_registry
    (length_registry_couple (show twoVotes.validators = couple 1 1 from rfl))
  refine ⟨?_, ?_, ?_⟩
  · rw [Node.addedTotals, Node.matching, votes_twoVotes, hlist, registry_couple rfl]
    decide
  · rw [electors_couple rfl]
    decide
  · rw [Node.signedTotal_eq oneVoteEach_twoVotes, electors_couple rfl, weight_cons, weight_cons,
      if_pos signers_twoVotes.1, if_pos signers_twoVotes.2]
    decide

end Sample

namespace Node

open Sample

/-- A single vote of two thirds of the weight is recorded. -/
theorem exactQuorum_oneVote : voting.Records 0 oneVote 1 "01" ∧
    voting.ExactQuorum 0 oneVote 1 "01" := by
  obtain ⟨hadded, htotal, hsigned⟩ := tally_oneVote
  have hfit : voting.NoOverflow oneVote 1 "01" := by
    constructor <;> simp only [addedWeight, hadded, htotal, hsigned] <;> decide
  have hsmall := length_registry_couple (show oneVote.validators = _ from rfl)
  refine ⟨?_, ((exactQuorum_iff voting 0 _ 1 "01" (by decide) hfit).2 hsmall
    oneVoteEach_oneVote).mpr ?_⟩
  · rw [records_iff, quorumReached_iff hfit, addedWeight, hadded, htotal, hsigned]
    decide
  · -- the weight is counted once, so there is no gap between the two rules
    rintro ⟨⟨-, hle⟩, hlt⟩
    rw [hadded, Nat.cast_one, one_mul] at hlt
    exact absurd hle (not_le.mpr hlt)

/-- Both validators of a registry of two vote for one hash, and it is not finalized: the weight of
two is counted twice. -/
theorem not_exactQuorum_twoVotes : 0 < voting.thresholdNum ∧
    0 < voting.thresholdDen ∧ twoVotes.OneVoteEach 1 ∧
    voting.NoOverflow twoVotes 1 "01" ∧
    ¬ voting.ExactQuorum 0 twoVotes 1 "01" := by
  obtain ⟨hadded, htotal, hsigned⟩ := tally_twoVotes
  have hfit : voting.NoOverflow twoVotes 1 "01" := by
    constructor <;> simp only [addedWeight, hadded, htotal, hsigned] <;> decide
  have hsmall := length_registry_couple (show twoVotes.validators = _ from rfl)
  refine ⟨by decide, by decide, oneVoteEach_twoVotes, hfit, ?_⟩
  rw [ExactQuorum, records_iff, quorumReached_iff hfit, allElectors_eq_electors hsmall,
    ← signedTotal_eq oneVoteEach_twoVotes, addedWeight, hadded, htotal, hsigned]
  decide

end Node

/-! ### `TryFinalizeHeight` -/

/-- The entry counts in `TryFinalizeHeight`. -/
def RegValidator.live (v : RegValidator) : Bool := !v.slashed && 0 < v.weight

/-- The live entries with their weights. -/
def liveElectors (vals : List RegValidator) : List (String × ℤ) :=
  registryElectors (vals.filter RegValidator.live)

/-- The weight of a key, which is that of its last live entry. In the registry every key has one. -/
def liveWeight (vals : List RegValidator) (pub : String) : ℤ :=
  ((vals.filter fun v => v.live ∧ v.pubkeyHex = pub).getLast?.map fun v => v.weight.toInt).getD 0

namespace DB

/-- The stored votes of the height for the hash. -/
def votesFor (s : DB) (h : UInt64) (x : String) : List VoteRecord :=
  (s.listVotesForHeight h).filter fun vr => vr.blockHash = x

/-- The weight of the voters for the hash. -/
def votedWeight (s : DB) (vals : List RegValidator) (h : UInt64) (x : String) : ℤ :=
  ((s.votesFor h x).map fun vr => liveWeight vals vr.pubkeyHex).sum

/-- The voters for the hash have two thirds of a positive live weight. -/
def TwoThirds (s : DB) (vals : List RegValidator) (h : UInt64) (x : String) : Prop :=
  0 < total (liveElectors vals) ∧ 2 * total (liveElectors vals) ≤ 3 * s.votedWeight vals h x

end DB

theorem RegValidator.live_iff {v : RegValidator} :
    v.live = true ↔ ¬ (v.slashed = true ∨ v.weight ≤ 0) := by
  simp [live]

theorem liveElectors_pos {vals : List RegValidator} :
    ∀ v ∈ vals.filter RegValidator.live, v.slashed = false → 0 < v.weight := by
  intro v hv _
  have hlive := RegValidator.live_iff.mp (List.mem_filter.mp hv).2
  exact Int64.not_le.mp (not_or.mp hlive).2

theorem liveElectors_nonneg {vals : List RegValidator} : ∀ e ∈ liveElectors vals, 0 ≤ e.2 := by
  intro e he
  obtain ⟨v, hv, rfl⟩ := List.mem_map.mp he
  obtain ⟨hv, hslashed⟩ := List.mem_filter.mp hv
  exact (weight_pos_iff.mp (liveElectors_pos v hv (by simpa using hslashed))).le

namespace Node

/-- Entries that are not live are skipped. -/
theorem liveWeights_filter (vals : List RegValidator) :
    liveWeights vals = liveWeights (vals.filter RegValidator.live) := by
  unfold liveWeights
  rw [List.foldl_filter]
  congr 1
  funext acc v
  by_cases hlive : v.live = true
  · rw [if_pos hlive]
  · rw [if_neg hlive, if_pos (not_not.mp (mt RegValidator.live_iff.mpr hlive))]

/-- The total and the map of `TryFinalizeHeight`, in exact integers. -/
theorem liveWeights_eq (vals : List RegValidator) :
    (liveWeights vals).2 = Int64.ofInt (total (liveElectors vals)) ∧
      ∀ pub : String, ((liveWeights vals).1[pub]?.getD 0).toInt = liveWeight vals pub := by
  refine ⟨?_, fun pub => ?_⟩
  · rw [liveWeights_filter]
    exact (liveWeights_spec liveElectors_pos).1
  · induction vals using List.reverseRecOn with
    | nil => simp [liveWeights, liveWeight]
    | append_singleton vals v ih =>
        -- the last entry of a key overwrites the earlier ones
        unfold liveWeights liveWeight at ih ⊢
        rw [List.foldl_concat, List.filter_append]
        by_cases hlive : v.live = true
        · rw [if_neg (RegValidator.live_iff.mp hlive)]
          dsimp only
          rw [Table.getElem?_put]
          by_cases hpub : v.pubkeyHex = pub
          · simp [hpub, hlive]
          · simpa [hpub] using ih
        · rw [if_pos (not_not.mp (mt RegValidator.live_iff.mpr hlive))]
          simpa [hlive] using ih

theorem liveWeight_bounds (vals : List RegValidator) (pub : String) :
    0 ≤ liveWeight vals pub ∧ liveWeight vals pub ≤ weight (liveElectors vals) {pub} := by
  rw [← (liveWeights_eq vals).2, liveWeights_filter]
  exact (liveWeights_spec liveElectors_pos).2 pub

end Node

namespace DB

variable {s : DB} {h : UInt64} {x y : String} {vals : List RegValidator}

theorem votedWeight_nonneg (s : DB) (vals : List RegValidator) (h : UInt64) (x : String) :
    0 ≤ s.votedWeight vals h x := by
  refine List.sum_nonneg fun w hw => ?_
  obtain ⟨vr, -, rfl⟩ := List.mem_map.mp hw
  exact (Node.liveWeight_bounds vals vr.pubkeyHex).1

/-- The weight of the voters is at most that of their keys. -/
theorem OneVoteEach.votedWeight_le (hs : s.OneVoteEach h) (x : String) :
    s.votedWeight vals h x ≤ weight (liveElectors vals)
      {pub | ∃ vr ∈ s.listVotesForHeight h, decide (vr.blockHash = x) = true ∧
        vr.pubkeyHex = pub} := by
  rw [← hs.sum_weight]
  exact List.sum_le_sum fun vr _ => (Node.liveWeight_bounds vals vr.pubkeyHex).2

theorem OneVoteEach.votedWeight_le_total (hs : s.OneVoteEach h) (x : String) :
    s.votedWeight vals h x ≤ total (liveElectors vals) :=
  (hs.votedWeight_le x).trans (weight_le_total liveElectors_nonneg _)

/-- At most one hash has two thirds: two of them share a voter, who has one vote. -/
theorem TwoThirds.unique (hs : s.OneVoteEach h) (hx : s.TwoThirds vals h x)
    (hy : s.TwoThirds vals h y) : x = y := by
  obtain ⟨hpos, hx⟩ := hx
  have hxkeys := hx.trans (Int.mul_le_mul_of_nonneg_left (hs.votedWeight_le x) (by decide))
  have hykeys := hy.2.trans (Int.mul_le_mul_of_nonneg_left (hs.votedWeight_le y) (by decide))
  have hnone : 3 * weight (liveElectors vals) ∅ < total (liveElectors vals) := by
    rw [weight_empty]
    omega
  obtain ⟨e, -, ⟨vr, hvr, hvx, hvpub⟩, ⟨vr', hvr', hvy, hvpub'⟩, -⟩ :=
    exists_mem_inter liveElectors_nonneg hxkeys hykeys hnone
  have heq : vr = vr' := List.inj_on_of_nodup_map hs hvr hvr' (hvpub.trans hvpub'.symm)
  rw [← of_decide_eq_true hvx, heq, of_decide_eq_true hvy]

end DB

namespace Node

variable {s : DB} {h : UInt64} {x : String} {ord : MapOrder}

/-- No entry is heavier than the heaviest one. -/
theorem le_bestTally {entries : List (String × Int64)} {e : String × Int64} (he : e ∈ entries) :
    e.2 ≤ (bestTally entries).2 := by
  have hfold : ∀ best : String × Int64, best.2 ≤ (entries.foldl
        (fun (best : String × Int64) e => if best.2 < e.2 then e else best) best).2 ∧
      ∀ e ∈ entries, e.2 ≤ (entries.foldl
        (fun (best : String × Int64) e => if best.2 < e.2 then e else best) best).2 := by
    clear he
    induction entries with
    | nil => exact fun best => ⟨Int64.le_refl _, nofun⟩
    | cons d entries ih =>
        intro best
        rw [List.foldl_cons]
        -- the new best entry is at least the old one and the next entry
        obtain ⟨hbest, hrest⟩ := ih (if best.2 < d.2 then d else best)
        have hround : best.2 ≤ (if best.2 < d.2 then d else best).2 ∧
            d.2 ≤ (if best.2 < d.2 then d else best).2 := by
          split
          next hlt => exact ⟨Int64.le_of_lt hlt, Int64.le_refl _⟩
          next hge => exact ⟨Int64.le_refl _, Int64.not_lt.mp hge⟩
        refine ⟨Int64.le_trans hround.1 hbest, fun e he => ?_⟩
        rcases List.mem_cons.mp he with rfl | he
        · exact Int64.le_trans hround.2 hbest
        · exact hrest e he
  exact (hfold ("", 0)).2 e he

/-- The tallied weight of a hash. -/
theorem tallyByHash_getD (vals : List RegValidator) (s : DB) (h : UInt64) (x : String) :
    (tallyByHash (liveWeights vals).1 (s.listVotesForHeight h))[x]?.getD 0 =
      Int64.ofInt (s.votedWeight vals h x) := by
  have hmap := (liveWeights_eq vals).2
  rw [tallyByHash_eq fun pub => (hmap pub).symm ▸ (liveWeight_bounds vals pub).1]
  simp only [hmap]
  rfl

/-- The tallied weights are those of the voters. -/
theorem tally_entry {vals : List RegValidator} {w : Int64}
    (hget : (tallyByHash (liveWeights vals).1 (s.listVotesForHeight h))[x]? = some w) :
    w = Int64.ofInt (s.votedWeight vals h x) := by
  rw [← tallyByHash_getD, hget, Option.getD_some]

/-- A hash with weight is tallied. -/
theorem tally_of_votedWeight {vals : List RegValidator} (hpos : 0 < s.votedWeight vals h x)
    (hsmall : s.votedWeight vals h x < 2 ^ 63) :
    (tallyByHash (liveWeights vals).1 (s.listVotesForHeight h))[x]? =
      some (Int64.ofInt (s.votedWeight vals h x)) := by
  have hgetD := tallyByHash_getD vals s h x
  cases hget : (tallyByHash (liveWeights vals).1 (s.listVotesForHeight h))[x]? with
  | some w => rw [tally_entry hget]
  | none =>
      rw [hget, Option.getD_none] at hgetD
      have hzero := congrArg Int64.toInt hgetD
      rw [Int64.toInt_zero, Int64.toInt_ofInt_of_le (by omega) (by omega)] at hzero
      omega

theorem total_liveElectors_nonneg (vals : List RegValidator) : 0 ≤ total (liveElectors vals) := by
  rw [← weight_univ]
  exact weight_nonneg liveElectors_nonneg Set.univ

/-- The test of the total, in exact integers. -/
theorem liveWeights_pos_iff {vals : List RegValidator}
    (hsmall : total (liveElectors vals) < 2 ^ 63) :
    ¬ (liveWeights vals).2 ≤ 0 ↔ 0 < total (liveElectors vals) := by
  have hnonneg := total_liveElectors_nonneg vals
  rw [(liveWeights_eq vals).1, Int64.not_le, weight_pos_iff,
    Int64.toInt_ofInt_of_le (by omega) (by omega)]

/-- The loop over entries that carry weights `V` and leave out no positive one finds a hash of the
largest weight. -/
theorem bestTally_spec {entries : List (String × Int64)} {V : String → ℤ} (hnonneg : ∀ x, 0 ≤ V x)
    (hsmall : ∀ x, V x < 2 ^ 63) (hsound : ∀ e ∈ entries, e.2 = Int64.ofInt (V e.1))
    (hcomplete : ∀ x, 0 < V x → (x, Int64.ofInt (V x)) ∈ entries) :
    (bestTally entries).2 = Int64.ofInt (V (bestTally entries).1) ∧
      ∀ x, V x ≤ V (bestTally entries).1 := by
  have hexact : ∀ x, (Int64.ofInt (V x)).toInt = V x := by
    intro x
    have h₀ := hnonneg x
    exact Int64.toInt_ofInt_of_le (by omega) (hsmall x)
  have hle : ∀ x, 0 < V x → V x ≤ (bestTally entries).2.toInt := by
    intro x hpos
    have hbest := Int64.le_iff_toInt_le.mp (le_bestTally (hcomplete x hpos))
    rwa [hexact] at hbest
  have hweight : (bestTally entries).2 = Int64.ofInt (V (bestTally entries).1) := by
    rcases bestTally_mem entries with hinit | hentry
    · -- the initial entry is kept only if no hash has weight
      have hzero : V "" = 0 := by
        by_contra hne
        have hbest := hle "" (lt_of_le_of_ne (hnonneg "") (Ne.symm hne))
        rw [hinit, Int64.toInt_zero] at hbest
        exact hne (le_antisymm hbest (hnonneg ""))
      rw [hinit, hzero]
      rfl
    · exact hsound _ hentry
  refine ⟨hweight, fun x => ?_⟩
  rcases (hnonneg x).lt_or_eq with hpos | hzero
  · have hbest := hle x hpos
    rwa [hweight, hexact] at hbest
  · rw [← hzero]
    exact hnonneg _

/-- As long as no tallied sum wraps around, `TryFinalizeHeight` compares a hash with the most
weight, in `int64`. -/
theorem weightedWinner_best (ord : MapOrder) {vals : List RegValidator}
    (hvals : s.listValidators 5000 = vals) (hsmall : ∀ x, s.votedWeight vals h x < 2 ^ 63) :
    ∃ best, (∀ x, s.votedWeight vals h x ≤ s.votedWeight vals h best) ∧ weightedWinner ord s h =
        if vals = [] ∨ Int64.ofInt (total (liveElectors vals)) ≤ 0 then none
        else if Int64.ofInt (s.votedWeight vals h best) * 3 <
            Int64.ofInt (total (liveElectors vals)) * 2 then none
        else some best := by
  -- the entries of the tally, in whatever order
  have hmem : ∀ e : String × Int64, e ∈ ord.order
      (tallyByHash (liveWeights vals).1 (s.listVotesForHeight h)).toList ↔
      (tallyByHash (liveWeights vals).1 (s.listVotesForHeight h))[e.1]? = some e.2 := by
    intro e
    rw [(ord.perm _).mem_iff, ← Table.mem_toList_iff]
  obtain ⟨hweight, hmost⟩ := bestTally_spec (s.votedWeight_nonneg vals h) hsmall
    (fun e he => tally_entry ((hmem e).mp he))
    (fun x hpos => (hmem _).mpr (tally_of_votedWeight hpos (hsmall x)))
  refine ⟨_, hmost, ?_⟩
  unfold weightedWinner
  dsimp only
  rw [hvals, hweight, (liveWeights_eq vals).1]

/-- The decision of `TryFinalizeHeight` is the exact test of a hash with the most weight, where
`vals` are the validators. -/
def QuorumExact (ord : MapOrder) (s : DB) (vals : List RegValidator) (h : UInt64) : Prop :=
  ∃ best, (∀ x, s.votedWeight vals h x ≤ s.votedWeight vals h best) ∧ weightedWinner ord s h =
      if 2 * total (liveElectors vals) ≤ 3 * s.votedWeight vals h best then some best else none

/-- Some hash has the most weight. -/
theorem exists_most (hs : s.OneVoteEach h) (vals : List RegValidator) :
    ∃ best, ∀ x, s.votedWeight vals h x ≤ s.votedWeight vals h best := by
  have hbound : ∃ b, ∀ V, (∃ x, s.votedWeight vals h x = V) → V ≤ b := by
    refine ⟨total (liveElectors vals), ?_⟩
    rintro _ ⟨x, rfl⟩
    exact hs.votedWeight_le_total x
  obtain ⟨_, ⟨best, rfl⟩, hmost⟩ := Int.exists_greatest_of_bdd hbound ⟨_, "", rfl⟩
  exact ⟨best, fun x => hmost _ ⟨x, rfl⟩⟩

/-- The decision is exact if the heaviest hash is picked exactly if it has two thirds. -/
theorem quorumExact_iff_of_most {vals : List RegValidator} {best : String}
    (hmost : ∀ x, s.votedWeight vals h x ≤ s.votedWeight vals h best)
    (hpick : weightedWinner ord s h = none ∨ weightedWinner ord s h = some best) :
    QuorumExact ord s vals h ↔ (weightedWinner ord s h = some best ↔
      2 * total (liveElectors vals) ≤ 3 * s.votedWeight vals h best) := by
  constructor
  · rintro ⟨best', hmost', hdecision⟩
    -- the two heaviest hashes have the same weight
    rw [le_antisymm (hmost best') (hmost' best)] at hdecision
    rw [hdecision] at hpick ⊢
    split at hpick <;> simp_all
  · intro hiff
    refine ⟨best, hmost, ?_⟩
    split
    next htest => exact hiff.mpr htest
    next htest => exact hpick.resolve_right (mt hiff.mp htest)

/-- Where nothing is picked, the decision is exact if no hash has two thirds. -/
theorem quorumExact_iff_of_none {vals : List RegValidator} (hs : s.OneVoteEach h)
    (hnone : weightedWinner ord s h = none) : QuorumExact ord s vals h ↔
      ∀ x, 3 * s.votedWeight vals h x < 2 * total (liveElectors vals) := by
  obtain ⟨best, hmost⟩ := exists_most hs vals
  rw [quorumExact_iff_of_most hmost (.inl hnone), hnone]
  constructor
  · intro hiff x
    have hle := hmost x
    have htest := mt hiff.mpr nofun
    omega
  · exact fun hall => iff_of_false nofun (not_le.mpr (hall best))

/-- The comparison with two thirds is exact if both products wrap around or none does. -/
theorem two_thirds_exact_iff {W V : ℤ} (hV : 0 ≤ V) (hle : V ≤ W) (hW : W < 2 ^ 63) :
    (Int64.ofInt W * 2 ≤ Int64.ofInt V * 3 ↔ 2 * W ≤ 3 * V) ↔
      (2 * W < 2 ^ 63 ↔ 3 * V < 2 ^ 63) := by
  rw [show (2 : Int64) = Int64.ofInt 2 from rfl, show (3 : Int64) = Int64.ofInt 3 from rfl,
    ← Int64.ofInt_mul, ← Int64.ofInt_mul, Int64.le_iff_toInt_le, WrapAround.toInt_ofInt,
    WrapAround.toInt_ofInt, wrapped_once (by omega) (by omega), wrapped_once (by omega) (by omega)]
  split <;> split <;> omega

/-- As long as the total itself does not wrap around, `TryFinalizeHeight` is exact if both products
wrap around or none does. -/
theorem quorumExact_iff_of_pos (ord : MapOrder) {vals : List RegValidator}
    (hvals : s.listValidators 5000 = vals) (hs : s.OneVoteEach h)
    (hpos : 0 < total (liveElectors vals)) (hfit : total (liveElectors vals) < 2 ^ 63) :
    QuorumExact ord s vals h ↔
      (2 * total (liveElectors vals) < 2 ^ 63 ↔ ∀ x, 3 * s.votedWeight vals h x < 2 ^ 63) := by
  have hbound : ∀ x, s.votedWeight vals h x ≤ total (liveElectors vals) := hs.votedWeight_le_total
  obtain ⟨best, hmost, hdecision⟩ := weightedWinner_best ord hvals fun x => (hbound x).trans_lt hfit
  have hlist : vals ≠ [] := by
    rintro rfl
    exact lt_irrefl 0 hpos
  have hlive := (liveWeights_pos_iff hfit).mpr hpos
  rw [(liveWeights_eq vals).1] at hlive
  rw [if_neg (not_or.mpr ⟨hlist, hlive⟩)] at hdecision
  have hpick : weightedWinner ord s h = some best ↔ Int64.ofInt (total (liveElectors vals)) * 2 ≤
      Int64.ofInt (s.votedWeight vals h best) * 3 := by
    rw [hdecision, ← Int64.not_lt]
    split <;> simp [*]
  -- the heaviest hash decides for all of them
  have hall : (∀ x, 3 * s.votedWeight vals h x < 2 ^ 63) ↔
      3 * s.votedWeight vals h best < 2 ^ 63 := by
    refine ⟨fun hall => hall best, fun hlt x => ?_⟩
    have hle := hmost x
    omega
  rw [quorumExact_iff_of_most hmost (by rw [hdecision]; split <;> simp), hpick, hall]
  exact two_thirds_exact_iff (s.votedWeight_nonneg vals h best) (hbound best) hfit

/-- With one vote for each key it is enough that three times the total fits. -/
theorem quorumExact_of_oneVoteEach (ord : MapOrder) (hs : s.OneVoteEach h)
    (hsmall : total (liveElectors (s.listValidators 5000)) < 2 ^ 61)
    (hpos : 0 < total (liveElectors (s.listValidators 5000))) :
    QuorumExact ord s (s.listValidators 5000) h := by
  refine (quorumExact_iff_of_pos ord rfl hs hpos (by omega)).mpr (iff_of_true (by omega) ?_)
  intro x
  have hle : s.votedWeight (s.listValidators 5000) h x ≤ _ := hs.votedWeight_le_total x
  omega

/-- The hash that `TryFinalizeHeight` picks has two thirds of the live weight. -/
theorem twoThirds_of_weightedWinner (hs : s.OneVoteEach h)
    (hsmall : total (liveElectors (s.listValidators 5000)) < 2 ^ 61)
    (hwinner : weightedWinner ord s h = some x) : s.TwoThirds (s.listValidators 5000) h x := by
  obtain ⟨-, hlive, -⟩ := weightedWinner_eq_some hwinner
  have hpos := (liveWeights_pos_iff (by omega)).mp hlive
  obtain ⟨best, -, hdecision⟩ := quorumExact_of_oneVoteEach ord hs hsmall hpos
  rw [hdecision] at hwinner
  split at hwinner
  next htest => exact ⟨hpos, Option.some.inj hwinner ▸ htest⟩
  next => cases hwinner

/-- `TryFinalizeHeight` picks the hash that two thirds of the live weight voted for, in whatever
order it meets the entries of the tally. -/
theorem weightedWinner_eq_some_iff (hs : s.OneVoteEach h)
    (hsmall : total (liveElectors (s.listValidators 5000)) < 2 ^ 61) :
    weightedWinner ord s h = some x ↔ s.TwoThirds (s.listValidators 5000) h x := by
  refine ⟨twoThirds_of_weightedWinner hs hsmall, fun hx => ?_⟩
  obtain ⟨best, hmost, hdecision⟩ := quorumExact_of_oneVoteEach ord hs hsmall hx.1
  -- the heaviest hash has two thirds as well
  have hbest : s.TwoThirds (s.listValidators 5000) h best := by
    refine ⟨hx.1, hx.2.trans ?_⟩
    have hle := hmost x
    omega
  rw [hdecision, if_pos hbest.2, hbest.unique hs hx]

/-- What `TryFinalizeHeight` does, by the hash with two thirds. -/
theorem TryFinalizeHeight_of_twoThirds (hs : s.OneVoteEach h)
    (hsmall : total (liveElectors (s.listValidators 5000)) < 2 ^ 61)
    (hx : s.TwoThirds (s.listValidators 5000) h x) (hnew : s.finalizedHeight.getD 0 < h) :
    TryFinalizeHeight ord s h = (s.setFinalized h x).putCheckpoint h ⟨h, x, 0⟩ := by
  unfold TryFinalizeHeight
  rw [(weightedWinner_eq_some_iff hs hsmall).mpr hx]
  exact if_pos hnew

/-- Otherwise it does nothing. -/
theorem TryFinalizeHeight_of_not (hs : s.OneVoteEach h)
    (hsmall : total (liveElectors (s.listValidators 5000)) < 2 ^ 61)
    (hnone : ¬ (s.finalizedHeight.getD 0 < h ∧ ∃ x, s.TwoThirds (s.listValidators 5000) h x)) :
    TryFinalizeHeight ord s h = s := by
  unfold TryFinalizeHeight
  cases hw : weightedWinner ord s h with
  | none => rfl
  | some x =>
      exact if_neg fun hnew => hnone ⟨hnew, x, (weightedWinner_eq_some_iff hs hsmall).mp hw⟩

end Node

/-- What `TryFinalizeHeight` writes: the finalized height, the finalized hash and the
checkpoints. -/
def DB.weightedRecord (s : DB) : Option UInt64 × Option String × (UInt64 → Option Checkpoint) :=
  (s.finalizedHeight, s.finalizedHash, s.checkpoints)

namespace Node

/-- `TryFinalizeHeight` records the hash with two thirds of the live weight of `vals` if the height
is new, and nothing else. -/
def RecordsTwoThirds (ord : MapOrder) (s : DB) (vals : List RegValidator) (h : UInt64) : Prop :=
  ((TryFinalizeHeight ord s h).weightedRecord ≠ s.weightedRecord ↔
    s.finalizedHeight.getD 0 < h ∧ ∃ x, s.TwoThirds vals h x) ∧
  ∀ x, s.finalizedHeight.getD 0 < h → s.TwoThirds vals h x →
    (TryFinalizeHeight ord s h).weightedRecord =
      (some h, some x, Function.update s.checkpoints h (some ⟨h, x, 0⟩))

/-- Two lists of validators for which the record is right have two thirds for the same hashes. -/
theorem RecordsTwoThirds.iff {s : DB} {h : UInt64} {ord : MapOrder} {vals vals' : List RegValidator}
    (hr : RecordsTwoThirds ord s vals h) : RecordsTwoThirds ord s vals' h ↔
      (s.finalizedHeight.getD 0 < h → ∀ x, s.TwoThirds vals h x ↔ s.TwoThirds vals' h x) := by
  -- with a hash of one list something is recorded, so the other list has one, and it is the same
  have hpass : ∀ {vals vals' : List RegValidator}, RecordsTwoThirds ord s vals h →
      RecordsTwoThirds ord s vals' h → s.finalizedHeight.getD 0 < h → ∀ {x},
      s.TwoThirds vals h x → s.TwoThirds vals' h x := by
    intro vals vals' hr hr' hnew x hx
    obtain ⟨-, y, hy⟩ := hr'.1.mp (hr.1.mpr ⟨hnew, x, hx⟩)
    obtain ⟨-, hhash⟩ := Prod.mk.inj ((hr.2 x hnew hx).symm.trans (hr'.2 y hnew hy))
    rwa [Option.some.inj (Prod.mk.inj hhash).1]
  constructor
  · exact fun hr' hnew x => ⟨hpass hr hr' hnew, hpass hr' hr hnew⟩
  · intro hsame
    by_cases hnew : s.finalizedHeight.getD 0 < h
    · unfold RecordsTwoThirds at hr ⊢
      simpa only [hsame hnew] using hr
    · exact ⟨iff_of_false (mt (fun hne => (hr.1.mp hne).1) hnew) (mt And.left hnew),
        fun x hlt => absurd hlt hnew⟩

/-- The order in which Go iterates the tally does not matter, and `TryFinalizeHeight` changes its
record exactly if the height is above the recorded one and some hash has two thirds of the listed
live weight. That hash is unique, and it is recorded. For the live weight of the whole registry the
same holds exactly if at a new height the two weights have two thirds for the same hashes. -/
theorem TryFinalizeHeight_spec (s : DB) (h : UInt64) (hs : s.OneVoteEach h)
    (hsmall : total (liveElectors (s.listValidators 5000)) < 2 ^ 61) :
    (∀ ord ord', TryFinalizeHeight ord s h = TryFinalizeHeight ord' s h) ∧
    (∀ vals x y, s.TwoThirds vals h x → s.TwoThirds vals h y → x = y) ∧
    ∀ ord, RecordsTwoThirds ord s (s.listValidators 5000) h ∧
      (RecordsTwoThirds ord s s.registry h ↔ (s.finalizedHeight.getD 0 < h →
        ∀ x, s.TwoThirds (s.listValidators 5000) h x ↔ s.TwoThirds s.registry h x)) := by
  have hrecord : ∀ ord x, s.finalizedHeight.getD 0 < h →
      s.TwoThirds (s.listValidators 5000) h x → (TryFinalizeHeight ord s h).weightedRecord =
        (some h, some x, Function.update s.checkpoints h (some ⟨h, x, 0⟩)) := by
    intro ord x hnew hx
    rw [TryFinalizeHeight_of_twoThirds hs hsmall hx hnew]
    rfl
  have hlisted : ∀ ord, RecordsTwoThirds ord s (s.listValidators 5000) h := by
    refine fun ord => ⟨?_, hrecord ord⟩
    constructor
    · intro hne
      by_contra hnone
      rw [TryFinalizeHeight_of_not hs hsmall hnone] at hne
      exact hne rfl
    · rintro ⟨hnew, x, hx⟩ heq
      -- the recorded height is below the new one
      rw [hrecord ord x hnew hx] at heq
      have hheight : some h = s.finalizedHeight := congrArg Prod.fst heq
      rw [← hheight, Option.getD_some] at hnew
      exact UInt64.lt_irrefl h hnew
  refine ⟨fun ord ord' => ?_, fun vals x y hx hy => hx.unique hs hy,
    fun ord => ⟨hlisted ord, (hlisted ord).iff⟩⟩
  by_cases hchange : s.finalizedHeight.getD 0 < h ∧ ∃ x, s.TwoThirds (s.listValidators 5000) h x
  · obtain ⟨hnew, x, hx⟩ := hchange
    rw [TryFinalizeHeight_of_twoThirds hs hsmall hx hnew,
      TryFinalizeHeight_of_twoThirds hs hsmall hx hnew]
  · rw [TryFinalizeHeight_of_not hs hsmall hchange, TryFinalizeHeight_of_not hs hsmall hchange]

end Node

namespace Sample

theorem liveElectors_oneVote : liveElectors (oneVote.listValidators 5000) =
    [(alice, 2), (bob, 1)] := by
  have hregistry := registry_couple (show oneVote.validators = couple 2 1 from rfl)
  rw [DB.listValidators_eq_registry (length_registry_couple rfl), hregistry]
  rfl

theorem twoThirds_oneVote : oneVote.TwoThirds (oneVote.listValidators 5000) 1 "01" := by
  have hregistry := registry_couple (show oneVote.validators = couple 2 1 from rfl)
  rw [DB.TwoThirds, liveElectors_oneVote, DB.votedWeight, DB.votesFor, votes_oneVote,
    DB.listValidators_eq_registry (length_registry_couple rfl), hregistry]
  decide

/-- Alice's vote, with the registry of 5001 entries. -/
def crowdedVote : DB := (DB.fresh crowded).putVote (vote 1 "01")

theorem votes_crowdedVote : crowdedVote.listVotesForHeight 1 = [vote 1 "01"] :=
  listVotesForHeight_putVote rfl

theorem oneVoteEach_crowdedVote : crowdedVote.OneVoteEach 1 := by
  rw [DB.OneVoteEach, votes_crowdedVote]
  exact List.pairwise_singleton _ _

/-- All of them are live. -/
theorem liveElectors_roll : liveElectors roll = registryElectors roll ∧
    liveElectors listed = registryElectors listed := by
  have hroll : ∀ v ∈ roll, v.live = true := by
    simp only [roll, listed, List.mem_append, List.mem_singleton]
    rintro v ((hv | rfl) | rfl)
    · obtain ⟨k, -, rfl⟩ := List.mem_map.mp hv
      rfl
    · decide
    · decide
  have hlisted : ∀ v ∈ listed, v.live = true := fun v hv => hroll v (List.mem_append_left _ hv)
  rw [liveElectors, liveElectors, List.filter_eq_self.mpr hroll, List.filter_eq_self.mpr hlisted]
  exact ⟨rfl, rfl⟩

/-- Bob has most of the weight. -/
theorem weight_roll : total (liveElectors roll) = 114999 ∧
    weight (liveElectors roll) {alice} = 10000 := by
  have hbob : registryElectors [member bob 100000] = [(bob, 100000)] := rfl
  rw [liveElectors_roll.1, roll, registryElectors_append, total_append, weight_append,
    weight_listed.1, weight_listed.2, hbob, weight_cons,
    if_neg fun hmem => alice_lt_bob.ne (Set.mem_singleton_iff.mp hmem).symm]
  exact ⟨rfl, rfl⟩

/-- If alice's vote is the only one, the weight of a hash is hers or nothing. -/
theorem votedWeight_aliceVote {s : DB} (hs : s.listVotesForHeight 1 = [vote 1 "01"])
    (vals : List RegValidator) (x : String) :
    s.votedWeight vals 1 x = if "01" = x then liveWeight vals alice else 0 := by
  have hhash : (vote 1 "01").blockHash = "01" := rfl
  have hpub : (vote 1 "01").pubkeyHex = alice := rfl
  rw [DB.votedWeight, DB.votesFor, hs]
  by_cases hx : "01" = x
  · obtain rfl := hx
    simp [hhash, hpub]
  · simp [hhash, hx]

theorem twoThirds_listed : crowdedVote.TwoThirds listed 1 "01" := by
  have halice : liveWeight listed alice = 10000 := by
    simp [liveWeight, listed, List.filter_append, member, RegValidator.live]
  rw [DB.TwoThirds, votedWeight_aliceVote votes_crowdedVote, if_pos rfl, halice,
    liveElectors_roll.2, weight_listed.1]
  decide

theorem not_twoThirds_roll (x : String) : ¬ crowdedVote.TwoThirds roll 1 x := by
  rintro ⟨-, hthirds⟩
  have hle : crowdedVote.votedWeight roll 1 x ≤ _ := oneVoteEach_crowdedVote.votedWeight_le x
  -- only alice has voted
  have halice : weight (liveElectors roll) {pub | ∃ vr ∈ crowdedVote.listVotesForHeight 1,
      decide (vr.blockHash = x) = true ∧ vr.pubkeyHex = pub} ≤ 10000 := by
    rw [← weight_roll.2]
    refine weight_le_weight liveElectors_nonneg fun e _ he => ?_
    obtain ⟨vr, hvr, -, hpub⟩ := he
    rw [votes_crowdedVote, List.mem_singleton] at hvr
    rw [← hpub, hvr]
    exact Set.mem_singleton alice
  rw [weight_roll.1] at hthirds
  omega

end Sample

namespace Node

open Sample

/-- Alice's two thirds are recorded. -/
theorem TryFinalizeHeight_oneVote : oneVote.OneVoteEach 1 ∧
    total (liveElectors (oneVote.listValidators 5000)) < 2 ^ 61 ∧
    ∀ ord, (TryFinalizeHeight ord oneVote 1).weightedRecord =
      (some 1, some "01", Function.update (fun _ => none) 1 (some ⟨1, "01", 0⟩)) := by
  have hsmall : total (liveElectors (oneVote.listValidators 5000)) < 2 ^ 61 := by
    rw [liveElectors_oneVote]
    decide
  refine ⟨oneVoteEach_oneVote, hsmall, fun ord => ?_⟩
  exact ((TryFinalizeHeight_spec oneVote 1 oneVoteEach_oneVote hsmall).2.2 ord).1.2 "01"
    (by decide) twoThirds_oneVote

/-- With 5001 entries in the registry, the last one is not counted: alice's vote is recorded,
although no hash has two thirds of the live weight. -/
theorem not_TryFinalizeHeight_crowded : crowdedVote.OneVoteEach 1 ∧
    0 < total (liveElectors crowdedVote.registry) ∧
    total (liveElectors crowdedVote.registry) < 2 ^ 61 ∧
    ∀ ord, (TryFinalizeHeight ord crowdedVote 1).weightedRecord ≠ crowdedVote.weightedRecord ∧
      ¬ ∃ x, crowdedVote.TwoThirds crowdedVote.registry 1 x := by
  have hregistry : crowdedVote.registry = roll := map_snd_crowded
  have hlist := listValidators_crowded (show crowdedVote.validators = _ from rfl)
  rw [hregistry, weight_roll.1]
  refine ⟨oneVoteEach_crowdedVote, by decide, by decide, fun ord => ⟨?_, ?_⟩⟩
  · rw [TryFinalizeHeight_of_twoThirds oneVoteEach_crowdedVote (x := "01")]
    · exact fun heq => nomatch congrArg Prod.fst heq
    · rw [hlist, liveElectors_roll.2, weight_listed.1]
      decide
    · rw [hlist]
      exact twoThirds_listed
    · decide
  · rintro ⟨x, hx⟩
    exact not_twoThirds_roll x hx

end Node

/-! ### Wrap-around -/

/-- `ReachedThreshold` is the exact comparison of the two products. -/
def ThresholdExact (sum total num den : Int64) : Prop :=
  reachedThreshold sum total num den = true ↔ total.toInt * num.toInt ≤ sum.toInt * den.toInt

instance (sum total num den : Int64) : Decidable (ThresholdExact sum total num den) :=
  inferInstanceAs (Decidable (_ ↔ _))

/-- `ReachedThreshold` is exact if the two products wrap around equally often, or if the one that
wraps around more often also keeps more. -/
theorem thresholdExact_iff {sum total num den : Int64} (htotal : 0 < total) :
    ThresholdExact sum total num den ↔
      (wraps (total.toInt * num.toInt) = wraps (sum.toInt * den.toInt) ∨
        (wraps (total.toInt * num.toInt) < wraps (sum.toInt * den.toInt) ↔
          wrapped (total.toInt * num.toInt) ≤ wrapped (sum.toInt * den.toInt))) := by
  rw [ThresholdExact, reachedThreshold, decide_eq_true htotal, Bool.true_and, decide_eq_true_eq,
    Int64.le_iff_toInt_le, toInt_mul, toInt_mul, le_iff_wraps (total.toInt * num.toInt)]
  omega

/-- Entries that are not live may stay unlisted. -/
theorem DB.listed_of_drop {s : DB} (hdrop : ∀ v ∈ s.registry.drop 5000, v.live = false) :
    liveElectors s.registry = liveElectors (s.listValidators 5000) ∧
      s.votedWeight s.registry = s.votedWeight (s.listValidators 5000) := by
  have hfilter : ∀ p : RegValidator → Bool, (∀ v, p v = true → v.live = true) →
      s.registry.filter p = (s.listValidators 5000).filter p := by
    intro p hp
    have hnone : (s.registry.drop 5000).filter p = [] :=
      List.filter_eq_nil_iff.mpr fun v hv hpv =>
        Bool.false_ne_true ((hdrop v hv).symm.trans (hp v hpv))
    conv_lhs => rw [← List.take_append_drop 5000 s.registry]
    rw [List.filter_append, hnone, List.append_nil, listValidators_eq_take]
  have hweight : liveWeight s.registry = liveWeight (s.listValidators 5000) := by
    ext pub
    rw [liveWeight, hfilter _ fun v hv => (of_decide_eq_true hv).1, liveWeight]
  refine ⟨?_, ?_⟩
  · rw [liveElectors, hfilter _ fun v hv => hv, liveElectors]
  · ext h x
    rw [votedWeight, votedWeight, hweight]

/-- When the arithmetic of the two quorum rules is exact. `TryFinalizeHeight`, as long as the live
validators are listed and weigh less than `2 ^ 64`: for a positive weight below `2 ^ 63` twice that
weight and three times the weight of some hash both wrap around or both do not; a total that wraps
around ends the call, which is right if no hash has two thirds. `ReachedThreshold`: the two products
wrap around equally often, or the one that wraps around more often also keeps more. -/
theorem quorum_arithmetic_exact_iff (s : DB) (h : UInt64) (hs : s.OneVoteEach h)
    (hdrop : ∀ v ∈ s.registry.drop 5000, v.live = false)
    (hfit : total (liveElectors s.registry) < 2 ^ 64) :
    (∀ ord, Node.QuorumExact ord s s.registry h ↔
      (0 < total (liveElectors s.registry) ∧ total (liveElectors s.registry) < 2 ^ 63 ∧
        (2 * total (liveElectors s.registry) < 2 ^ 63 ↔
          ∀ x, 3 * s.votedWeight s.registry h x < 2 ^ 63)) ∨
      (2 ^ 63 ≤ total (liveElectors s.registry) ∧
        ∀ x, 3 * s.votedWeight s.registry h x < 2 * total (liveElectors s.registry))) ∧
    ∀ sum total num den : Int64, 0 ≤ sum → 0 < total → 0 < num → 0 < den →
      (ThresholdExact sum total num den ↔
        (wraps (total.toInt * num.toInt) = wraps (sum.toInt * den.toInt) ∨
          (wraps (total.toInt * num.toInt) < wraps (sum.toInt * den.toInt) ↔
            wrapped (total.toInt * num.toInt) ≤ wrapped (sum.toInt * den.toInt)))) := by
  refine ⟨fun ord => ?_, fun _ _ _ _ _ htotal _ _ => thresholdExact_iff htotal⟩
  obtain ⟨helectors, hvoted⟩ := DB.listed_of_drop hdrop
  rw [Node.QuorumExact, helectors, hvoted, ← Node.QuorumExact]
  rw [helectors] at hfit
  have hnonneg := Node.total_liveElectors_nonneg (s.listValidators 5000)
  by_cases hlive : 0 < total (liveElectors (s.listValidators 5000)) ∧
      total (liveElectors (s.listValidators 5000)) < 2 ^ 63
  · rw [Node.quorumExact_iff_of_pos ord rfl hs hlive.1 hlive.2]
    constructor
    · exact fun hiff => .inl ⟨hlive.1, hlive.2, hiff⟩
    · rintro (⟨-, -, hiff⟩ | ⟨hge, -⟩)
      · exact hiff
      · exact absurd hge (not_le.mpr hlive.2)
  · -- a total of zero, or one that wraps around to a negative number
    have hnone : Node.weightedWinner ord s h = none := by
      have hle : Int64.ofInt (total (liveElectors (s.listValidators 5000))) ≤ 0 := by
        rw [Int64.le_iff_toInt_le, WrapAround.toInt_ofInt, wrapped_once hnonneg (by omega),
          Int64.toInt_zero]
        split <;> omega
      unfold Node.weightedWinner
      dsimp only
      rw [(Node.liveWeights_eq _).1, if_pos (.inr hle)]
    rw [Node.quorumExact_iff_of_none hs hnone]
    constructor
    · intro hall
      have hlt := hall ""
      have hzero := s.votedWeight_nonneg (s.listValidators 5000) h ""
      exact .inr ⟨by omega, hall⟩
    · rintro (⟨hpos, hlt, -⟩ | ⟨-, hall⟩)
      · exact absurd ⟨hpos, hlt⟩ hlive
      · exact hall

namespace Sample

/-- Alice has voted, and nearly all of the weight is bob's. -/
def heavyBob : DB := (DB.fresh (couple 1 4611686018427387903)).putVote (vote 1 "01")

theorem registry_heavyBob :
    heavyBob.registry = [member alice 1, member bob 4611686018427387903] := registry_couple rfl

theorem votedWeight_oneVote (x : String) :
    oneVote.votedWeight oneVote.registry 1 x = if "01" = x then 2 else 0 := by
  have halice : liveWeight oneVote.registry alice = 2 := by
    rw [registry_couple (show oneVote.validators = couple 2 1 from rfl)]
    decide
  rw [votedWeight_aliceVote votes_oneVote, halice]

theorem votedWeight_heavyBob (x : String) :
    heavyBob.votedWeight heavyBob.registry 1 x = if "01" = x then 1 else 0 := by
  have halice : liveWeight heavyBob.registry alice = 1 := by
    rw [registry_heavyBob]
    decide
  rw [votedWeight_aliceVote (listVotesForHeight_putVote rfl), halice]

theorem total_heavyBob : total (liveElectors heavyBob.registry) = 2 ^ 62 := by
  rw [registry_heavyBob]
  decide

theorem total_oneVote : total (liveElectors oneVote.registry) = 3 := by
  rw [registry_couple (show oneVote.validators = couple 2 1 from rfl)]
  decide

/-- The product by two wraps around, and the vote of one unit in `2 ^ 62` is taken for a quorum. -/
theorem weightedWinner_heavyBob (ord : MapOrder) :
    Node.weightedWinner ord heavyBob 1 = some "01" := by
  have hlisted : heavyBob.registry.length ≤ 5000 := length_registry_couple rfl
  obtain ⟨best, hmost, hdecision⟩ := Node.weightedWinner_best ord (h := 1)
    (DB.listValidators_eq_registry hlisted) fun x => by
      rw [votedWeight_heavyBob]
      split <;> decide
  -- no other hash has weight
  have hbest : "01" = best := by
    by_contra hne
    have hle := hmost "01"
    rw [votedWeight_heavyBob, votedWeight_heavyBob, if_pos rfl, if_neg hne] at hle
    omega
  rw [hdecision, total_heavyBob, ← hbest, votedWeight_heavyBob, if_pos rfl, registry_heavyBob]
  decide

end Sample

open Sample

/-- Alice's two thirds of three are seen; and all of a weight of `2 ^ 62` passes the threshold, for
both products wrap around. -/
theorem quorum_arithmetic_exact_oneVote : total (liveElectors oneVote.registry) = 3 ∧
    (∀ x, oneVote.votedWeight oneVote.registry 1 x = if "01" = x then 2 else 0) ∧
    (∀ ord, Node.QuorumExact ord oneVote oneVote.registry 1) ∧
    ThresholdExact 4611686018427387904 4611686018427387904 2 3 := by
  have hsmall := length_registry_couple (show oneVote.validators = _ from rfl)
  have hexact := quorum_arithmetic_exact_iff oneVote 1 oneVoteEach_oneVote
    (by simp [List.drop_eq_nil_of_le hsmall]) (by rw [total_oneVote]; decide)
  refine ⟨total_oneVote, votedWeight_oneVote, fun ord => (hexact.1 ord).mpr ?_,
    (hexact.2 _ _ 2 3 (by decide) (by decide) (by decide) (by decide)).mpr (.inl (by decide))⟩
  rw [total_oneVote]
  refine .inl ⟨by decide, by decide, iff_of_true (by decide) fun x => ?_⟩
  rw [votedWeight_oneVote]
  split <;> decide

/-- One unit of weight in `2 ^ 62` finalizes a hash, and passes for two thirds. -/
theorem not_quorum_arithmetic_exact_heavyBob : (∀ v ∈ heavyBob.registry, 0 < v.weight) ∧
    (∀ ord, Node.weightedWinner ord heavyBob 1 = some "01" ∧
      ¬ Node.QuorumExact ord heavyBob heavyBob.registry 1) ∧
    ¬ ThresholdExact 1 4611686018427387904 2 3 := by
  refine ⟨?_, fun ord => ⟨weightedWinner_heavyBob ord, ?_⟩, by decide⟩
  · rw [registry_heavyBob]
    decide
  · rintro ⟨best, -, hdecision⟩
    rw [weightedWinner_heavyBob, total_heavyBob, votedWeight_heavyBob,
      if_neg (by split <;> decide)] at hdecision
    cases hdecision

end ReserveOS
