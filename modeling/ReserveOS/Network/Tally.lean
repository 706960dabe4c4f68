import ReserveOS.General.Quorum
import ReserveOS.Node.Finality
import Mathlib.Tactic.Ring

/-!
# What a tally says about the voters

The node counts votes twice over, in `tryFinalizeHeight` and in `TryFinalizeHeight`, with `int64`
sums. Where the electorate is small enough, the sums are exact, and both routines finalize a hash
only if the stored votes for it carry two thirds of the weight of the electorate
(`supported_of_quorumReached`, `supported_of_weightedWinner`).
-/

namespace ReserveOS

open Quorum

/-! ### Electorates -/

/-- The configured validators with their weights. -/
def configElectors (vs : List Validator) : List (String × ℤ) :=
  vs.map fun v => (v.pubkeyHex, v.weight.toInt)

/-- The registered validators that are not slashed, with their weights. -/
def registryElectors (vals : List RegValidator) : List (String × ℤ) :=
  (vals.filter fun v => !v.slashed).map fun v => (v.pubkeyHex, v.weight.toInt)

theorem configElectors_cons (v : Validator) (vs : List Validator) :
    configElectors (v :: vs) = (v.pubkeyHex, v.weight.toInt) :: configElectors vs := rfl

theorem registryElectors_cons (v : RegValidator) (vals : List RegValidator) :
    registryElectors (v :: vals) = if v.slashed then registryElectors vals
      else (v.pubkeyHex, v.weight.toInt) :: registryElectors vals := by
  unfold registryElectors
  cases hv : v.slashed <;> simp [hv]

theorem registryElectors_append (vals vals' : List RegValidator) :
    registryElectors (vals ++ vals') = registryElectors vals ++ registryElectors vals' := by
  simp [registryElectors]

/-- The electorate: the listed entries of the registry, or the configured validators when nothing is
listed. -/
def electorsOf (vs : List Validator) (listed : List RegValidator) : List (String × ℤ) :=
  if listed ≠ [] then registryElectors listed else configElectors vs

/-- How often the electorate's weight may be added up for one hash. -/
def roundsOf (vs : List Validator) (listed : List RegValidator) : ℤ :=
  if listed ≠ [] then vs.length + 1 else 1

/-- Adding a stored weight to an exact sum. -/
theorem ofInt_add_weight (y : ℤ) (w : Int64) : Int64.ofInt y + w = Int64.ofInt (y + w.toInt) := by
  rw [Int64.ofInt_add, Int64.ofInt_toInt]

/-- A stored weight is positive as an integer. -/
theorem weight_pos_iff {w : Int64} : 0 < w ↔ 0 < w.toInt := by
  rw [Int64.lt_iff_toInt_lt, Int64.toInt_zero]

/-- The comparison of two thirds, in exact integers. -/
theorem two_thirds_iff {W S : ℤ} (hW : 0 ≤ W) (hW' : 2 * W < 2 ^ 63) (hS : 0 ≤ S)
    (hS' : 3 * S < 2 ^ 63) : Int64.ofInt W * 2 ≤ Int64.ofInt S * 3 ↔ 2 * W ≤ 3 * S := by
  rw [show (2 : Int64) = Int64.ofInt 2 from rfl, show (3 : Int64) = Int64.ofInt 3 from rfl,
    ← Int64.ofInt_mul, ← Int64.ofInt_mul, Int64.le_iff_toInt_le,
    Int64.toInt_ofInt_of_le (by omega) (by omega), Int64.toInt_ofInt_of_le (by omega) (by omega)]
  omega

namespace DB

/-- The keys under which a vote for the hash is stored. -/
def voters (s : DB) (h : UInt64) (x : String) : Set String :=
  {pub | ∃ vr, (s.votes h)[pub]? = some vr ∧ vr.blockHash = x}

/-- Every vote is stored under its own key. -/
def VotesKeyed (s : DB) (h : UInt64) : Prop :=
  ∀ (pub : String) (vr : VoteRecord), (s.votes h)[pub]? = some vr → vr.pubkeyHex = pub

/-- The listed votes are the stored ones. -/
theorem mem_listVotesForHeight {s : DB} {h : UInt64} {vr : VoteRecord} :
    vr ∈ s.listVotesForHeight h ↔ ∃ pub : String, (s.votes h)[pub]? = some vr := by
  unfold listVotesForHeight
  constructor
  · intro hmem
    obtain ⟨⟨pub, vr'⟩, he, rfl⟩ := List.mem_map.mp hmem
    exact ⟨pub, ((s.votes h).mem_toList_iff pub vr').mp he⟩
  · rintro ⟨pub, hget⟩
    exact List.mem_map.mpr ⟨(pub, vr), ((s.votes h).mem_toList_iff pub vr).mpr hget, rfl⟩

/-- The listed votes are by different voters. -/
theorem VotesKeyed.nodup {s : DB} {h : UInt64} (hs : s.VotesKeyed h) :
    ((s.listVotesForHeight h).map VoteRecord.pubkeyHex).Nodup := by
  have heq : (s.listVotesForHeight h).map VoteRecord.pubkeyHex =
      (s.votes h).toList.map Prod.fst := by
    unfold listVotesForHeight
    rw [List.map_map]
    refine List.map_congr_left fun e he => ?_
    exact hs e.1 e.2 (((s.votes h).mem_toList_iff e.1 e.2).mp he)
  rw [heq]
  exact Table.nodup_keys_toList _

end DB

namespace Node

variable (n : Node)

/-- The electorate that a node counts. -/
def electors (s : DB) : List (String × ℤ) := electorsOf n.validators (s.listValidators 5000)

/-- How often a node may add up the electorate's weight for one hash. -/
def rounds (s : DB) : ℤ := roundsOf n.validators (s.listValidators 5000)

/-- The stored votes for the hash carry two thirds of the weight of the electorate. -/
def Supported (s : DB) (h : UInt64) (x : String) : Prop :=
  0 < total (n.electors s) ∧ 2 * total (n.electors s) ≤ 3 * weight (n.electors s) (s.voters h x)

/-! ### `tryFinalizeHeight` -/

/-- What one vote adds to the signed weight. -/
noncomputable def signedWeight (ws : List (String × ℤ)) (h : UInt64) (x : String)
    (vr : VoteRecord) : ℤ :=
  if n.prim.checkVote vr.pubkeyHex vr.sigHex n.genesis.chainID h x then weight ws {vr.pubkeyHex}
  else 0

variable {n}

theorem signedWeight_cons (e : String × ℤ) (ws : List (String × ℤ)) (h : UInt64) (x : String)
    (vr : VoteRecord) :
    n.signedWeight (e :: ws) h x vr = (if e.1 = vr.pubkeyHex ∧
        n.prim.checkVote vr.pubkeyHex vr.sigHex n.genesis.chainID h x = true then e.2 else 0) +
      n.signedWeight ws h x vr := by
  unfold signedWeight
  split
  next hok => simp [hok, weight_cons]
  next hok => simp [hok]

/-- One vote against the registry, in exact integers. -/
theorem tallyRegistry_eq (vals : List RegValidator) (h : UInt64) (x : String) (vr : VoteRecord)
    (a t : ℤ) :
    n.tallyRegistry vals h x vr (Int64.ofInt a, Int64.ofInt t) =
      (Int64.ofInt (a + n.signedWeight (registryElectors vals) h x vr),
        Int64.ofInt (t + total (registryElectors vals))) := by
  unfold tallyRegistry
  induction vals generalizing a t with
  | nil => simp [registryElectors, signedWeight, total]
  | cons v vals ih =>
      rw [List.foldl_cons, registryElectors_cons]
      -- a slashed entry counts nowhere; the others add to the total whoever voted
      by_cases hslashed : v.slashed = true
      · rw [if_pos hslashed, if_pos hslashed]
        exact ih a t
      · rw [if_neg hslashed, if_neg hslashed, total_cons, signedWeight_cons]
        dsimp only
        rw [ofInt_add_weight, ofInt_add_weight, ← add_assoc t]
        by_cases hpub : v.pubkeyHex = vr.pubkeyHex
        · by_cases hok : n.prim.checkVote vr.pubkeyHex vr.sigHex n.genesis.chainID h x = true
          · rw [if_neg (not_not.mpr hpub), hpub, if_pos hok, if_pos ⟨rfl, hok⟩, ih, ← add_assoc]
          · rw [if_neg (not_not.mpr hpub), hpub, if_neg hok, if_neg fun hc => hok hc.2, ih,
              zero_add]
        · rw [if_pos hpub, if_neg fun hc => hpub hc.1, ih, zero_add]

/-- One vote against the configured validators, in exact integers. -/
theorem tallyConfig_eq (h : UInt64) (x : String) (vr : VoteRecord) (a : ℤ) :
    n.tallyConfig h x vr (Int64.ofInt a) =
      Int64.ofInt (a + n.signedWeight (configElectors n.validators) h x vr) := by
  unfold tallyConfig
  generalize n.validators = vs
  induction vs generalizing a with
  | nil => simp [configElectors, signedWeight]
  | cons v vs ih =>
      rw [List.foldl_cons, configElectors_cons, signedWeight_cons]
      dsimp only
      by_cases hpub : v.pubkeyHex = vr.pubkeyHex
      · by_cases hok : n.prim.checkVote vr.pubkeyHex vr.sigHex n.genesis.chainID h x = true
        · rw [if_neg (not_not.mpr hpub), hpub, if_pos hok, if_pos ⟨rfl, hok⟩, ofInt_add_weight, ih,
            ← add_assoc]
        · rw [if_neg (not_not.mpr hpub), hpub, if_neg hok, if_neg fun hc => hok hc.2, ih, zero_add]
      · rw [if_pos hpub, if_neg fun hc => hpub hc.1, ih, zero_add]

/-- The configured weights are added up modulo `2 ^ 64`. -/
theorem totalWeight_eq (vs : List Validator) :
    totalWeight vs = Int64.ofInt (total (configElectors vs)) := by
  have hfold : ∀ t : ℤ, vs.foldl (fun t v => t + v.weight) (Int64.ofInt t) =
      Int64.ofInt (t + total (configElectors vs)) := by
    induction vs with
    | nil => simp [configElectors, total]
    | cons v vs ih =>
        intro t
        rw [List.foldl_cons, ofInt_add_weight, ih, configElectors_cons, total_cons, add_assoc]
  have h0 := hfold 0
  rwa [zero_add] at h0

variable (n) in
/-- The votes that `tryFinalizeHeight` counts for a hash. -/
def matching (s : DB) (h : UInt64) (x : String) : List VoteRecord :=
  (s.listVotesForHeight h).filter fun vr => vr.blockHash = x ∧ vr.chainID = n.genesis.chainID

variable (n) in
/-- How often the counting loop adds the weight of the electorate to the total. -/
def addedTotals (s : DB) (h : UInt64) (x : String) : ℕ :=
  if s.listValidators 5000 ≠ [] then (n.matching s h x).length else min 1 (n.matching s h x).length

/-- The counting loop runs over the matching votes. -/
theorem tallyVotes_eq_foldl (s : DB) (h : UInt64) (x : String) :
    n.tallyVotes s h x = (n.matching s h x).foldl (fun (acc : Int64 × Int64) vr =>
      if s.listValidators 5000 ≠ [] then n.tallyRegistry (s.listValidators 5000) h x vr acc
      else (n.tallyConfig h x vr acc.1, totalWeight n.validators)) (0, 0) := by
  unfold tallyVotes matching
  rw [List.foldl_filter]
  dsimp only
  congr 1
  funext acc vr
  by_cases hm : vr.blockHash = x ∧ vr.chainID = n.genesis.chainID
  · rw [if_neg fun hne => not_and_or.mpr hne hm, if_pos (decide_eq_true hm)]
  · rw [if_pos (not_and_or.mp hm), if_neg (by simpa using hm)]

/-- The counting loop with a registry. -/
theorem tallyRegistry_foldl (vals : List RegValidator) (h : UInt64) (x : String)
    (votes : List VoteRecord) (a t : ℤ) :
    votes.foldl (fun (acc : Int64 × Int64) vr => n.tallyRegistry vals h x vr acc)
        (Int64.ofInt a, Int64.ofInt t) =
      (Int64.ofInt (a + (votes.map (n.signedWeight (registryElectors vals) h x)).sum),
        Int64.ofInt (t + votes.length * total (registryElectors vals))) := by
  induction votes generalizing a t with
  | nil => simp
  | cons vr votes ih =>
      rw [List.foldl_cons, tallyRegistry_eq, ih, List.map_cons, List.sum_cons, List.length_cons,
        ← add_assoc]
      congr 2
      push_cast
      ring

/-- The counting loop without a registry: the total is set, not added to. -/
theorem tallyConfig_foldl (h : UInt64) (x : String) (votes : List VoteRecord) (a : ℤ) (t : Int64) :
    votes.foldl (fun (acc : Int64 × Int64) vr =>
        (n.tallyConfig h x vr acc.1, totalWeight n.validators)) (Int64.ofInt a, t) =
      (Int64.ofInt (a + (votes.map (n.signedWeight (configElectors n.validators) h x)).sum),
        if votes = [] then t else totalWeight n.validators) := by
  induction votes generalizing a t with
  | nil => simp
  | cons vr votes ih =>
      rw [List.foldl_cons, tallyConfig_eq, ih, List.map_cons, List.sum_cons, ← add_assoc, ite_self,
        if_neg (List.cons_ne_nil _ _)]

/-- The counting loop in exact integers. -/
theorem tallyVotes_eq (s : DB) (h : UInt64) (x : String) :
    n.tallyVotes s h x =
      (Int64.ofInt (((n.matching s h x).map (n.signedWeight (n.electors s) h x)).sum),
        Int64.ofInt (n.addedTotals s h x * total (n.electors s))) := by
  rw [tallyVotes_eq_foldl]
  unfold addedTotals electors electorsOf
  by_cases hreg : s.listValidators 5000 ≠ []
  · simp only [if_pos hreg]
    have hfold := n.tallyRegistry_foldl (s.listValidators 5000) h x (n.matching s h x) 0 0
    rwa [zero_add, zero_add] at hfold
  · simp only [if_neg hreg]
    have hfold := n.tallyConfig_foldl h x (n.matching s h x) 0 0
    rw [zero_add] at hfold
    refine hfold.trans (congrArg (Prod.mk _) ?_)
    cases n.matching s h x with
    | nil => simp
    | cons vr votes => simp [totalWeight_eq]

theorem signedWeight_le {ws : List (String × ℤ)} (hpos : ∀ e ∈ ws, 0 ≤ e.2) (h : UInt64)
    (x : String) (vr : VoteRecord) :
    0 ≤ n.signedWeight ws h x vr ∧ n.signedWeight ws h x vr ≤ weight ws {vr.pubkeyHex} := by
  unfold signedWeight
  split
  · exact ⟨weight_nonneg hpos _, le_refl _⟩
  · exact ⟨le_refl 0, weight_nonneg hpos _⟩

/-- Amounts that are at most the voters' weights add up to at most the weight of all voters. -/
theorem sum_le_weight_voters {s : DB} {h : UInt64} (hkeyed : s.VotesKeyed h) {x : String}
    {ws : List (String × ℤ)} (hpos : ∀ e ∈ ws, 0 ≤ e.2) {p : VoteRecord → Bool}
    (hp : ∀ vr, p vr = true → vr.blockHash = x) {f : VoteRecord → ℤ}
    (hf : ∀ vr, f vr ≤ weight ws {vr.pubkeyHex}) :
    (((s.listVotesForHeight h).filter p).map f).sum ≤ weight ws (s.voters h x) := by
  have hnodup : (((s.listVotesForHeight h).filter p).map VoteRecord.pubkeyHex).Nodup :=
    hkeyed.nodup.sublist (List.filter_sublist.map _)
  -- one vote for each key, so the sum over votes is a sum over keys
  calc (((s.listVotesForHeight h).filter p).map f).sum
      ≤ (((s.listVotesForHeight h).filter p).map fun vr => weight ws {vr.pubkeyHex}).sum :=
        List.sum_le_sum fun vr _ => hf vr
    _ = ((((s.listVotesForHeight h).filter p).map VoteRecord.pubkeyHex).map
          fun k => weight ws {k}).sum := by
        rw [List.map_map]
        rfl
    _ = weight ws {k | k ∈ ((s.listVotesForHeight h).filter p).map VoteRecord.pubkeyHex} :=
        sum_weight_singleton ws hnodup
    _ ≤ weight ws (s.voters h x) := by
        refine weight_le_weight hpos fun e _ hmem => ?_
        obtain ⟨vr, hvr, heq⟩ := List.mem_map.mp hmem
        obtain ⟨hlisted, hmatch⟩ := List.mem_filter.mp hvr
        obtain ⟨pub, hget⟩ := DB.mem_listVotesForHeight.mp hlisted
        have hpub : pub = e.1 := (hkeyed pub vr hget).symm.trans heq
        rw [hpub] at hget
        exact ⟨vr, hget, hp vr hmatch⟩

/-- The signed weight is at most the weight of the voters. -/
theorem sum_signedWeight_le {s : DB} {h : UInt64} (hkeyed : s.VotesKeyed h) (x : String)
    {ws : List (String × ℤ)} (hpos : ∀ e ∈ ws, 0 ≤ e.2) :
    ((n.matching s h x).map (n.signedWeight ws h x)).sum ≤ weight ws (s.voters h x) :=
  sum_le_weight_voters hkeyed hpos (fun _ hmatch => (of_decide_eq_true hmatch).1)
    fun vr => (signedWeight_le hpos h x vr).2

/-- At most one vote per configured validator, and the node's own, is counted. -/
theorem addedTotals_le_rounds {s : DB} {h : UInt64} (hkeyed : s.VotesKeyed h)
    (hvoters : ∀ (pub : String) (vr : VoteRecord), (s.votes h)[pub]? = some vr →
      n.isValidator pub = true ∨ pub = n.localPubHex) (x : String) :
    (n.addedTotals s h x : ℤ) ≤ n.rounds s := by
  unfold addedTotals rounds roundsOf
  split
  · have hnodup : ((n.matching s h x).map VoteRecord.pubkeyHex).Nodup :=
      hkeyed.nodup.sublist (List.filter_sublist.map _)
    -- the keys of the counted votes are configured, or the node's own
    have hsub : (n.matching s h x).map VoteRecord.pubkeyHex ⊆
        n.localPubHex :: n.validators.map Validator.pubkeyHex := by
      intro k hk
      obtain ⟨vr, hvr, rfl⟩ := List.mem_map.mp hk
      obtain ⟨pub, hget⟩ := DB.mem_listVotesForHeight.mp (List.mem_filter.mp hvr).1
      rw [hkeyed pub vr hget]
      rcases hvoters pub vr hget with hval | hloc
      · obtain ⟨v, hv, hpub⟩ := List.any_eq_true.mp hval
        exact List.mem_cons_of_mem _ (List.mem_map.mpr ⟨v, hv, of_decide_eq_true hpub⟩)
      · rw [hloc]
        exact List.mem_cons_self
    have hlen := hnodup.length_le_of_subset hsub
    rw [List.length_map, List.length_cons, List.length_map] at hlen
    exact_mod_cast hlen
  · exact_mod_cast min_le_left 1 _

/-- What makes the sums of a node exact: positive weights, a threshold of two thirds, and a total
small enough for every product. -/
structure SmallElectorate (n : Node) (s : DB) : Prop where
  pos : ∀ e ∈ n.electors s, 0 < e.2
  num : n.thresholdNum = 2
  den : n.thresholdDen = 3
  small : 3 * (n.rounds s * total (n.electors s)) < 2 ^ 63

theorem one_le_rounds (s : DB) : 1 ≤ n.rounds s := by
  unfold rounds roundsOf
  split
  · omega
  · exact le_refl 1

/-- `tryFinalizeHeight` finalizes only what two thirds of the electorate voted for. -/
theorem supported_of_quorumReached {s : DB} {h : UInt64} {x : String} (hs : n.SmallElectorate s)
    (hkeyed : s.VotesKeyed h)
    (hvoters : ∀ (pub : String) (vr : VoteRecord), (s.votes h)[pub]? = some vr →
      n.isValidator pub = true ∨ pub = n.localPubHex)
    (hq : n.quorumReached s h x = true) : n.Supported s h x := by
  have hnn : ∀ e ∈ n.electors s, 0 ≤ e.2 := fun e he => (hs.pos e he).le
  have hsum := n.sum_signedWeight_le hkeyed x hnn
  have hrounds := addedTotals_le_rounds hkeyed hvoters x
  have hone := n.one_le_rounds s
  have hsmall := hs.small
  have htotal : weight (n.electors s) (s.voters h x) ≤ total (n.electors s) :=
    weight_le_total hnn _
  have hW : 0 ≤ total (n.electors s) := (weight_nonneg hnn _).trans htotal
  have hS : 0 ≤ ((n.matching s h x).map (n.signedWeight (n.electors s) h x)).sum := by
    refine List.sum_nonneg fun y hy => ?_
    obtain ⟨vr, -, rfl⟩ := List.mem_map.mp hy
    exact (signedWeight_le hnn h x vr).1
  unfold quorumReached reachedThreshold at hq
  rw [tallyVotes_eq, hs.num, hs.den] at hq
  unfold Supported
  generalize ((n.matching s h x).map (n.signedWeight (n.electors s) h x)).sum = S at *
  generalize total (n.electors s) = W at *
  generalize weight (n.electors s) (s.voters h x) = V at *
  -- the exact sums are in range, so the comparisons are those of the integers
  have hrW : 0 ≤ n.addedTotals s h x * W := mul_nonneg (Int.natCast_nonneg _) hW
  have hrW' : n.addedTotals s h x * W ≤ n.rounds s * W := mul_le_mul_of_nonneg_right hrounds hW
  have hW' : W ≤ n.rounds s * W := le_mul_of_one_le_left hW hone
  obtain ⟨-, hq⟩ := (Bool.and_eq_true _ _).mp hq
  obtain ⟨hpos, hle⟩ := (Bool.and_eq_true _ _).mp hq
  have hpos := of_decide_eq_true hpos
  have hle := of_decide_eq_true hle
  rw [two_thirds_iff hrW (by omega) hS (by omega)] at hle
  rw [weight_pos_iff, Int64.toInt_ofInt_of_le (by omega) (by omega)] at hpos
  -- the total is positive, so at least one vote was counted
  have hr : (1 : ℤ) ≤ n.addedTotals s h x := by
    by_contra hlt
    have hzero : (n.addedTotals s h x : ℤ) = 0 := by omega
    rw [hzero, zero_mul] at hpos
    exact lt_irrefl 0 hpos
  have hWr : W ≤ n.addedTotals s h x * W := le_mul_of_one_le_left hW hr
  have hWpos : 0 < W := by
    rcases hW.lt_or_eq with hlt | heq
    · exact hlt
    · rw [← heq, mul_zero] at hpos
      exact absurd hpos (lt_irrefl 0)
  exact ⟨hWpos, by omega⟩

/-! ### `TryFinalizeHeight` -/

/-- One round of the loop over the registry, on what a key is assigned: the assigned weight is at
most the weight that the electorate gives the key. -/
theorem liveWeights_foldl {vals : List RegValidator}
    (hpos : ∀ v ∈ vals, v.slashed = false → 0 < v.weight) (m : Table Int64) (t : ℤ)
    (hm : ∀ pub : String, 0 ≤ (m[pub]?.getD 0).toInt) :
    let r := vals.foldl (fun (acc : Table Int64 × Int64) v =>
      if v.slashed ∨ v.weight ≤ 0 then acc
      else (acc.1.insert v.pubkeyHex v.weight, acc.2 + v.weight)) (m, Int64.ofInt t)
    r.2 = Int64.ofInt (t + total (registryElectors vals)) ∧
      ∀ pub : String, 0 ≤ (r.1[pub]?.getD 0).toInt ∧ (r.1[pub]?.getD 0).toInt ≤
          (m[pub]?.getD 0).toInt + weight (registryElectors vals) {pub} := by
  induction vals generalizing m t with
  | nil =>
      exact ⟨by simp [registryElectors, total], fun pub => ⟨hm pub, by simp [registryElectors]⟩⟩
  | cons v vals ih =>
      have hrest : ∀ v' ∈ vals, v'.slashed = false → 0 < v'.weight := fun v' h' =>
        hpos v' (List.mem_cons_of_mem _ h')
      rw [List.foldl_cons, registryElectors_cons]
      by_cases hslashed : v.slashed = true
      · rw [if_pos hslashed, if_pos (Or.inl hslashed)]
        exact ih hrest m t hm
      · have hw : 0 < v.weight := hpos v List.mem_cons_self (Bool.eq_false_iff.mpr hslashed)
        have hskip : ¬ (v.slashed = true ∨ v.weight ≤ 0) := by
          rintro (hs | hle)
          · exact hslashed hs
          · exact Int64.not_lt.mpr hle hw
        rw [if_neg hslashed, if_neg hskip, ofInt_add_weight]
        have hwInt : 0 < v.weight.toInt := weight_pos_iff.mp hw
        have hread : ∀ pub : String, (((m.insert v.pubkeyHex v.weight)[pub]?).getD 0).toInt =
            if v.pubkeyHex = pub then v.weight.toInt else (m[pub]?.getD 0).toInt := by
          intro pub
          rw [Table.getElem?_put]
          split <;> rfl
        -- a later entry of the same key overwrites the earlier one, so the bound is an inequality
        obtain ⟨htot, hbound⟩ := ih hrest (m.insert v.pubkeyHex v.weight) (t + v.weight.toInt) (by
          intro pub
          rw [hread]
          split
          · exact hwInt.le
          · exact hm pub)
        refine ⟨?_, fun pub => ⟨(hbound pub).1, (hbound pub).2.trans ?_⟩⟩
        · rw [htot, total_cons, add_assoc]
        · have hmp := hm pub
          rw [hread, weight_cons]
          simp only [Set.mem_singleton_iff]
          split <;> omega

/-- The total and the map of `TryFinalizeHeight`, for positive weights. -/
theorem liveWeights_spec {vals : List RegValidator}
    (hpos : ∀ v ∈ vals, v.slashed = false → 0 < v.weight) :
    (liveWeights vals).2 = Int64.ofInt (total (registryElectors vals)) ∧
      ∀ pub : String, 0 ≤ ((liveWeights vals).1[pub]?.getD 0).toInt ∧
        ((liveWeights vals).1[pub]?.getD 0).toInt ≤ weight (registryElectors vals) {pub} := by
  obtain ⟨htot, hbound⟩ := liveWeights_foldl hpos (∅ : Table Int64) 0 fun pub => by simp
  rw [zero_add] at htot
  refine ⟨htot, fun pub => ⟨(hbound pub).1, ?_⟩⟩
  have hempty : ((∅ : Table Int64)[pub]?.getD 0).toInt = 0 := by simp
  have hle := (hbound pub).2
  rw [hempty, zero_add] at hle
  exact hle

/-- The weight behind a hash in the tally, in exact integers. -/
theorem tallyByHash_eq {m : Table Int64} (hm : ∀ pub : String, 0 ≤ (m[pub]?.getD 0).toInt)
    (votes : List VoteRecord) (x : String) :
    (tallyByHash m votes)[x]?.getD 0 = Int64.ofInt (((votes.filter fun vr => vr.blockHash = x).map
      fun vr => (m[vr.pubkeyHex]?.getD 0).toInt).sum) := by
  have hfold : ∀ (t : Table Int64) (a : ℤ), t[x]?.getD 0 = Int64.ofInt a →
      (votes.foldl (fun (tally : Table Int64) vr =>
        let w := m[vr.pubkeyHex]?.getD 0
        if w ≤ 0 then tally
        else tally.insert vr.blockHash (tally[vr.blockHash]?.getD 0 + w)) t)[x]?.getD 0 =
      Int64.ofInt (a + ((votes.filter fun vr => vr.blockHash = x).map
        fun vr => (m[vr.pubkeyHex]?.getD 0).toInt).sum) := by
    induction votes with
    | nil =>
        intro t a ht
        simpa using ht
    | cons vr votes ih =>
        intro t a ht
        rw [List.foldl_cons, List.filter_cons]
        dsimp only
        by_cases hw : m[vr.pubkeyHex]?.getD 0 ≤ 0
        · -- a key without weight adds nothing
          have hzero : (m[vr.pubkeyHex]?.getD 0).toInt = 0 := by
            rw [Int64.le_iff_toInt_le, Int64.toInt_zero] at hw
            exact le_antisymm hw (hm vr.pubkeyHex)
          rw [if_pos hw, ih t a ht]
          split
          · rw [List.map_cons, List.sum_cons, hzero, zero_add]
          · rfl
        · rw [if_neg hw]
          -- only votes for the hash change its entry
          by_cases hx : vr.blockHash = x
          · rw [if_pos (decide_eq_true hx), List.map_cons, List.sum_cons, ← add_assoc]
            refine ih _ _ ?_
            rw [Table.getElem?_put, if_pos hx, Option.getD_some, hx, ht, ofInt_add_weight]
          · rw [if_neg (by simpa using hx)]
            refine ih _ _ ?_
            rw [Table.getElem?_put, if_neg hx, ht]
  have h0 := hfold ∅ 0 (by simp)
  rw [zero_add] at h0
  exact h0

/-- The heaviest entry is an entry, unless there is none with a positive weight. -/
theorem bestTally_mem (entries : List (String × Int64)) :
    bestTally entries = ("", 0) ∨ bestTally entries ∈ entries := by
  have hfold : ∀ best : String × Int64,
      entries.foldl (fun (best : String × Int64) e => if best.2 < e.2 then e else best) best =
          best ∨
      entries.foldl (fun (best : String × Int64) e => if best.2 < e.2 then e else best) best ∈
        entries := by
    induction entries with
    | nil => exact fun best => Or.inl rfl
    | cons e entries ih =>
        intro best
        rw [List.foldl_cons]
        rcases ih (if best.2 < e.2 then e else best) with heq | hmem
        · rw [heq]
          split
          · exact Or.inr List.mem_cons_self
          · exact Or.inl rfl
        · exact Or.inr (List.mem_cons_of_mem _ hmem)
  exact hfold ("", 0)

/-- What `TryFinalizeHeight` has checked about the hash it picks. -/
theorem weightedWinner_eq_some {s : DB} {h : UInt64} {x : String} {ord : MapOrder}
    (hw : weightedWinner ord s h = some x) :
    s.listValidators 5000 ≠ [] ∧ ¬ (liveWeights (s.listValidators 5000)).2 ≤ 0 ∧
      ∃ w, (w = 0 ∨ (tallyByHash (liveWeights (s.listValidators 5000)).1
          (s.listVotesForHeight h))[x]? = some w) ∧
        ¬ w * 3 < (liveWeights (s.listValidators 5000)).2 * 2 := by
  unfold weightedWinner at hw
  dsimp only at hw
  obtain ⟨hnone, hw⟩ := Option.ite_none_left_eq_some.mp hw
  obtain ⟨hbest, hw⟩ := Option.ite_none_left_eq_some.mp hw
  obtain ⟨hlist, hlive⟩ := not_or.mp hnone
  refine ⟨hlist, hlive, _, ?_, hbest⟩
  -- the picked entry is the initial one, or an entry of the tally
  rcases bestTally_mem (ord.order (tallyByHash (liveWeights (s.listValidators 5000)).1
    (s.listVotesForHeight h)).toList) with hzero | hmem
  · exact Or.inl (congrArg Prod.snd hzero)
  · rw [(ord.perm _).mem_iff] at hmem
    rw [← Option.some.inj hw]
    exact Or.inr ((Table.mem_toList_iff ..).mp hmem)

/-- The registered electorate has positive weights, so the live weights are exact. -/
theorem SmallElectorate.live_pos {s : DB} (hs : n.SmallElectorate s)
    (hlist : s.listValidators 5000 ≠ []) :
    ∀ v ∈ s.listValidators 5000, v.slashed = false → 0 < v.weight := by
  intro v hv hslashed
  have helect : n.electors s = registryElectors (s.listValidators 5000) := if_pos hlist
  have hmem : (v.pubkeyHex, v.weight.toInt) ∈ n.electors s := by
    rw [helect]
    exact List.mem_map.mpr ⟨v, List.mem_filter.mpr ⟨hv, by simp [hslashed]⟩, rfl⟩
  exact weight_pos_iff.mpr (hs.pos _ hmem)

/-- `TryFinalizeHeight` finalizes only what two thirds of the electorate voted for. -/
theorem supported_of_weightedWinner {s : DB} {h : UInt64} {x : String} {ord : MapOrder}
    (hs : n.SmallElectorate s) (hkeyed : s.VotesKeyed h)
    (hw : weightedWinner ord s h = some x) : n.Supported s h x := by
  obtain ⟨hlist, hlive, w, hwx, hthird⟩ := weightedWinner_eq_some hw
  have helect : n.electors s = registryElectors (s.listValidators 5000) := if_pos hlist
  obtain ⟨htot, hbound⟩ := liveWeights_spec (hs.live_pos hlist)
  rw [← helect] at htot hbound
  have hnn : ∀ e ∈ n.electors s, 0 ≤ e.2 := fun e he => (hs.pos e he).le
  have hsmall := hs.small
  have hW : 0 ≤ total (n.electors s) := (weight_nonneg hnn ∅).trans (weight_le_total hnn ∅)
  have hW' : total (n.electors s) ≤ n.rounds s * total (n.electors s) :=
    le_mul_of_one_le_left hW (n.one_le_rounds s)
  have hVW := weight_le_total hnn (s.voters h x)
  -- the tallied weight of the hash is exact and at most the weight of its voters
  obtain ⟨a, ha, hwa, haV⟩ : ∃ a : ℤ, 0 ≤ a ∧ w = Int64.ofInt a ∧
      a ≤ weight (n.electors s) (s.voters h x) := by
    rcases hwx with rfl | hget
    · exact ⟨0, le_refl 0, rfl, weight_nonneg hnn _⟩
    · have hval := tallyByHash_eq (fun pub => (hbound pub).1) (s.listVotesForHeight h) x
      rw [hget, Option.getD_some] at hval
      refine ⟨_, List.sum_nonneg fun v hv => ?_, hval, sum_le_weight_voters hkeyed hnn
        (fun _ hmatch => of_decide_eq_true hmatch) fun vr => (hbound vr.pubkeyHex).2⟩
      obtain ⟨vr, -, rfl⟩ := List.mem_map.mp hv
      exact (hbound vr.pubkeyHex).1
  rw [htot, Int64.not_le, weight_pos_iff, Int64.toInt_ofInt_of_le (by omega) (by omega)] at hlive
  rw [hwa, htot, Int64.not_lt, two_thirds_iff hW (by omega) ha (by omega)] at hthird
  exact ⟨hlive, by omega⟩

end Node

end ReserveOS
