import ReserveOS.Correctness.FinalizedAnchor
import ReserveOS.Network.System
import Mathlib.Data.String.Basic

/-!
# Agreement at one height

Two nodes never record different hashes as finalized for one height, by whichever routine, as long
as the keys outside the network hold less than a third of the electorate that the nodes count
(`agreement`). That electorate is what `ListValidators` returns, at most 5000 entries of the
registry. With more entries than that, a validator with a small share of the registry can have two
thirds of the weight that is counted (`not_agreement_capped`).
-/

namespace ReserveOS

open Quorum

/-- Every pair that one of the two finalization routines recorded. -/
def DB.recorded (s : DB) : List (UInt64 × String) := s.finalizedLog ++ s.weightedLog

/-- A recorded pair is the genesis pair or has two thirds of the electorate behind it. -/
theorem Node.VoteBook.recorded {n : Node} {G : UInt64 → String → String → Prop} {s : DB}
    (hb : n.VoteBook G s) {h : UInt64} {x : String} (hx : (h, x) ∈ s.recorded) :
    (h = 0 ∧ x = n.genesisHash) ∨ n.Supported s h x := by
  rcases List.mem_append.mp hx with hx | hx
  · exact hb.finalized h x hx
  · exact Or.inr (hb.weighted h x hx)

namespace Network

variable {ι : Type}

/-- No two nodes have recorded different hashes for one height. -/
def Agreement (t : ι → DB) : Prop :=
  ∀ i j h x y, (h, x) ∈ (t i).recorded → (h, y) ∈ (t j).recorded → x = y

/-- Two nodes that differ share a signer, and no honest node signs twice at a height. -/
theorem Invariant.agreement {net : Network ι} {t : ι → DB} (hinv : net.Invariant t)
    (ht : net.Trusted net.electors) : Agreement t := by
  intro i j h x y hx hy
  rcases (hinv.book i).recorded hx with ⟨rfl, rfl⟩ | hx
  · rcases (hinv.book j).recorded hy with ⟨-, rfl⟩ | hy
    · rw [genesisHash_eq, genesisHash_eq]
    · rw [genesisHash_eq, hinv.finalized_zero ht hy]
  · rcases (hinv.book j).recorded hy with ⟨rfl, rfl⟩ | hy
    · rw [genesisHash_eq, hinv.finalized_zero ht hx]
    · -- one node signed both, and a node signs one hash per height
      obtain ⟨m, hmx, hmy⟩ := hinv.common_signer ht hx hy
      exact (hinv.book m).signLog_unique hmx hmy

/-- In every run of a network whose counted electorate is trusted, no two nodes ever record
different hashes for one height. -/
theorem sameHeight_agreement [DecidableEq ι] (net : Network ι) (ht : net.Trusted net.electors)
    (es : List (ι × Event)) (hrun : Run.Admitted net.step net.Admits net.init es) :
    ∀ t ∈ Run.states net.step net.init es, Agreement t := by
  intro t hmem
  exact (Invariant.states ht hrun t hmem).agreement ht

/-- Blocks are delivered to nodes, and then votes. -/
def relay (bs : List (ι × Block)) (votes : List (ι × VoteRecord)) : List (ι × Event) :=
  bs.map (fun e => (e.1, .submitBlock 0 e.2)) ++ votes.map fun e => (e.1, .ingestVote 0 e.2)

/-- Such a run is admitted if the votes are genuine after the blocks. -/
theorem admitted_relay [DecidableEq ι] {net : Network ι} {bs : List (ι × Block)}
    {votes : List (ι × VoteRecord)}
    (hvotes : ∀ e ∈ votes, net.Genuine ((relay bs []).foldl net.step net.init) e.2.height
      e.2.pubkeyHex e.2.blockHash) :
    Run.Admitted net.step net.Admits net.init (relay bs votes) := by
  rw [relay, List.map_nil, List.append_nil] at hvotes
  refine Run.Admitted.append (Run.admitted_of_forall _ fun s e he => ?_) ?_
  · obtain ⟨d, -, rfl⟩ := List.mem_map.mp he
    exact ⟨nofun, nofun⟩
  · generalize List.foldl net.step net.init _ = s at hvotes
    induction votes generalizing s with
    | nil => trivial
    | cons e votes ih =>
        refine ⟨⟨fun vr hvr _ => ?_, nofun⟩, ih _ fun d hd hkey => ?_⟩
        · obtain rfl := Option.some.inj hvr
          exact hvotes e List.mem_cons_self
        · -- signatures stay in the logs
          obtain ⟨i, hi, hlog⟩ := hvotes d (List.mem_cons_of_mem _ hd) hkey
          exact ⟨i, hi, Invariant.signLog_subset net s _ i hlog⟩

end Network

namespace Sample

/-- A third account. -/
def carol : String := String.ofList (List.replicate 64 'c')

/-- A node in an electorate of three; it signs if it has a key. -/
def seat (key : String) : Node :=
  { voting with
    validators := [⟨alice, 2⟩, ⟨bob, 2⟩, ⟨carol, 1⟩]
    localPubHex := key
    localPrivHex := if key = "" then "" else String.ofList (List.replicate 128 '0') }

/-- Alice's node, bob's, and a third one. -/
def council (third : String) : Network (Fin 3) where
  node := fun i => seat (if i = 0 then alice else if i = 1 then bob else third)
  prim := prim
  genesis := node.genesis
  validators := [⟨alice, 2⟩, ⟨bob, 2⟩, ⟨carol, 1⟩]
  registry := ∅
  prim_eq := fun _ => rfl
  genesis_eq := fun _ => rfl
  validators_eq := fun _ => rfl
  num_eq := fun _ => rfl
  den_eq := fun _ => rfl

theorem electors_council (third : String) :
    (council third).electors = [(alice, 2), (bob, 2), (carol, 1)] := rfl

/-- The third node has no key, and carol's is outside the network. -/
theorem trusted_council : (council "").Trusted (council "").electors := by
  have halice : alice ∉ (council "").faulty := fun hnone => hnone 0 rfl
  have hbob : bob ∉ (council "").faulty := fun hnone => hnone 1 rfl
  rw [electors_council]
  refine ⟨by decide, by decide, by decide, fun _ => ?_⟩
  rw [weight_cons, weight_cons, weight_cons, if_neg halice, if_neg hbob, weight_nil]
  split <;> decide

/-- The blocks that the three nodes see. -/
def deliveries (bs₀ bs₁ bs₂ : List Block) : List (Fin 3 × Block) :=
  bs₀.map (0, ·) ++ bs₁.map (1, ·) ++ bs₂.map (2, ·)

/-- Bob's vote for a hash, on its way to alice. -/
def bobToAlice (h : UInt64) (x : String) : Fin 3 × VoteRecord :=
  (0, { vote h x with pubkeyHex := bob })

/-- The first block reaches every node, and alice and bob vote for it. -/
def firstBlock : List (Fin 3 × Block) := deliveries [main₁] [main₁] [main₁]

/-- Carol votes for another hash at bob's node; then the votes of alice and bob are exchanged. -/
def exchange : List (Fin 3 × VoteRecord) :=
  [(1, { vote 1 "01" with pubkeyHex := carol }), (1, vote 1 hash₁), bobToAlice 1 hash₁]

theorem firstBlock_read : ∀ i < 2, (1, hash₁) ∈
    ((Network.relay firstBlock []).foldl (council "").step (council "").init i).signLog := by
  decide +kernel

theorem admitted_exchange : Run.Admitted (council "").step (council "").Admits (council "").init
    (Network.relay firstBlock exchange) := by
  refine Network.admitted_relay fun e he => ?_
  simp only [exchange, List.mem_cons, List.not_mem_nil, or_false] at he
  rcases he with rfl | rfl | rfl
  · rintro ⟨i, hi⟩
    exact absurd hi (by revert i; decide)
  · exact fun _ => ⟨0, rfl, firstBlock_read 0 (by decide)⟩
  · exact fun _ => ⟨1, rfl, firstBlock_read 1 (by decide)⟩

/-- Alice and bob have finalized the block, and carol's other vote is stored. -/
theorem exchange_read :
    let t := (Network.relay firstBlock exchange).foldl (council "").step (council "").init
    (1, hash₁) ∈ (t 0).recorded ∧ (1, hash₁) ∈ (t 1).recorded ∧ (t 1).hasVote 1 carol = true := by
  decide +kernel

end Sample

namespace Network

open Sample

/-- Carol has one fifth of the weight and votes against the others; alice and bob finalize the first
block. -/
theorem sameHeight_agreement_exchange :
    let t := (relay firstBlock exchange).foldl (council "").step
      (council "").init
    ((1, hash₁) ∈ (t 0).recorded ∧ (1, hash₁) ∈ (t 1).recorded ∧ (t 1).hasVote 1 carol = true) ∧
    ∀ t ∈ Run.states (council "").step (council "").init
      (relay firstBlock exchange), Agreement t :=
  ⟨exchange_read, sameHeight_agreement (council "") trusted_council
    (relay firstBlock exchange) admitted_exchange⟩

end Network

/-! ### A registry with more than 5000 entries -/

namespace Table

variable {V : Type}

/-- A table made from a list with increasing keys lists it again. -/
theorem toList_ofList {l : List (String × V)} (h : l.Pairwise fun a b => a.1 < b.1) :
    (Std.ExtTreeMap.ofList l : Table V).toList = l := by
  have hlisted : (Std.ExtTreeMap.ofList l : Table V).toList.Pairwise fun a b => a.1 < b.1 :=
    Std.ExtTreeMap.ordered_keys_toList.imp fun hab => compare_lt_iff_lt.mp hab
  have hnodup : ∀ {l' : List (String × V)}, (l'.Pairwise fun a b => a.1 < b.1) → l'.Nodup := by
    intro l' hl'
    refine List.Pairwise.imp (fun {a b} hab heq => ?_) hl'
    rw [heq] at hab
    exact lt_irrefl _ hab
  -- both lists are sorted, so it is enough that they have the same members
  refine List.Perm.eq_of_pairwise (fun a b _ _ hab hba => absurd hba (lt_asymm hab)) hlisted h ?_
  rw [List.perm_ext_iff_of_nodup (hnodup hlisted) (hnodup h)]
  rintro ⟨k, v⟩
  rw [mem_toList_iff]
  have hdistinct : l.Pairwise fun a b => ¬ compare a.1 b.1 = .eq :=
    h.imp fun hab heq => hab.ne (compare_eq_iff_eq.mp heq)
  constructor
  · intro hget
    by_contra hnot
    by_cases hk : k ∈ l.map Prod.fst
    · obtain ⟨⟨k', v'⟩, hmem, rfl⟩ := List.mem_map.mp hk
      rw [Std.ExtTreeMap.getElem?_ofList_of_mem (by simp) hdistinct hmem] at hget
      cases hget
      exact hnot hmem
    · rw [Std.ExtTreeMap.getElem?_ofList_of_contains_eq_false (by simpa using hk)] at hget
      cases hget
  · intro hmem
    exact Std.ExtTreeMap.getElem?_ofList_of_mem (by simp) hdistinct hmem

end Table

namespace Sample

/-- A key of zeros. -/
def zeros (k : ℕ) : String := String.ofList (List.replicate (k + 1) '0')

/-- A registry entry. -/
def member (key : String) (weight : Int64) : RegValidator := ⟨key, "", weight, 0, false⟩

/-- Validators of weight one. -/
def crowd (size : ℕ) : List RegValidator := (List.range size).map fun k => member (zeros k) 1

/-- A crowd and alice, 5000 entries in all. -/
def listed : List RegValidator := crowd 4999 ++ [member alice 10000]

/-- The same with bob, whose entry is the last of 5001. -/
def roll : List RegValidator := listed ++ [member bob 100000]

/-- The registry with these entries. -/
def crowded : Table RegValidator := Std.ExtTreeMap.ofList (roll.map fun v => (v.pubkeyHex, v))

theorem zeros_lt_zeros {i j : ℕ} (h : i < j) : zeros i < zeros j := by
  rw [String.lt_iff, zeros, zeros, String.toList_ofList, String.toList_ofList]
  induction i generalizing j with
  | zero =>
      obtain ⟨j, rfl⟩ : ∃ j', j = j' + 1 := ⟨j - 1, by omega⟩
      rw [List.replicate_succ, List.replicate_succ, List.replicate_succ, List.cons_lt_cons_iff]
      exact Or.inr ⟨rfl, List.nil_lt_cons _ _⟩
  | succ i ih =>
      obtain ⟨j, rfl⟩ : ∃ j', j = j' + 1 := ⟨j - 1, by omega⟩
      have hlt := ih (show i < j by omega)
      rw [List.replicate_succ]
      change _ < '0' :: List.replicate (j + 1) '0'
      rw [List.cons_lt_cons_iff]
      exact Or.inr ⟨rfl, hlt⟩

/-- Keys are ordered by their first digit. -/
theorem lt_of_digit {c d : Char} (h : c < d) (j k : ℕ) :
    String.ofList (List.replicate (j + 1) c) < String.ofList (List.replicate (k + 1) d) := by
  rw [String.lt_iff, String.toList_ofList, String.toList_ofList, List.replicate_succ,
    List.replicate_succ, List.cons_lt_cons_iff]
  exact Or.inl h

theorem toList_crowded : crowded.toList = roll.map fun v => (v.pubkeyHex, v) := by
  refine Table.toList_ofList (List.pairwise_map.mpr ?_)
  have hcrowd : ∀ v ∈ crowd 4999, v.pubkeyHex < alice ∧ v.pubkeyHex < bob := by
    intro v hv
    obtain ⟨k, -, rfl⟩ := List.mem_map.mp hv
    exact ⟨lt_of_digit (by decide) k 63, lt_of_digit (by decide) k 63⟩
  have hab : alice < bob := lt_of_digit (by decide) 63 63
  unfold roll listed
  rw [List.append_assoc, List.pairwise_append]
  refine ⟨List.pairwise_map.mpr (List.pairwise_lt_range.imp zeros_lt_zeros), ?_, ?_⟩
  · simpa [member] using hab
  · intro v hv w hw
    rcases List.mem_cons.mp hw with rfl | hw
    · exact (hcrowd v hv).1
    · rw [List.mem_singleton.mp hw]
      exact (hcrowd v hv).2

theorem map_snd_crowded : crowded.toList.map Prod.snd = roll := by
  rw [toList_crowded, List.map_map]
  exact List.map_id roll

/-- `ListValidators` stops before bob. -/
theorem take_crowded : (crowded.toList.map Prod.snd).take 5000 = listed := by
  rw [map_snd_crowded]
  exact List.take_left' (by simp [listed, crowd])

/-- The weight of the crowd, and of alice, who is not in it. -/
theorem weight_crowd (size : ℕ) :
    total (registryElectors (crowd size)) = size ∧
      weight (registryElectors (crowd size)) {alice} = 0 := by
  induction size with
  | zero => exact ⟨rfl, rfl⟩
  | succ k ih =>
      have hsucc : registryElectors (crowd (k + 1)) =
          registryElectors (crowd k) ++ [(zeros k, 1)] := by
        unfold crowd
        rw [List.range_succ, List.map_append, registryElectors_append]
        rfl
      have hne : zeros k ≠ alice := (lt_of_digit (by decide) k 63).ne
      rw [hsucc, total_append, weight_append, ih.1, ih.2, weight_cons]
      simp [total, hne]

theorem weight_listed : total (registryElectors listed) = 14999 ∧
    weight (registryElectors listed) {alice} = 10000 := by
  obtain ⟨htot, hweight⟩ := weight_crowd 4999
  unfold listed
  rw [registryElectors_append, total_append, weight_append, htot, hweight]
  refine ⟨rfl, ?_⟩
  change 0 + weight [(alice, 10000)] {alice} = 10000
  simp [weight_cons]

/-- A node with the given key that has alice in its configured set. -/
def member₁ (key : String) : Node := { voting with localPubHex := key }

/-- Bob's node and another one, with the registry of 5001 entries. -/
def capped : Network Bool where
  node := fun i => member₁ (if i then bob else "")
  prim := prim
  genesis := node.genesis
  validators := [⟨alice, 1⟩]
  registry := crowded
  prim_eq := fun _ => rfl
  genesis_eq := fun _ => rfl
  validators_eq := fun _ => rfl
  num_eq := fun _ => rfl
  den_eq := fun _ => rfl

theorem listValidators_crowded {s : DB} (hs : s.validators = crowded) :
    s.listValidators 5000 = listed := by
  unfold DB.listValidators
  rw [hs, if_neg (by omega), take_crowded]

/-- Alice's vote alone passes the tally of a node. -/
theorem quorumReached_listed (key : String) {s : DB} (hs : s.validators = crowded)
    {h : UInt64} {vr : VoteRecord} (hvr : vr.pubkeyHex = alice) (hchain : vr.chainID = "sample")
    (hvotes : s.listVotesForHeight h = [vr])
    (hsig : prim.checkVote alice vr.sigHex "sample" h vr.blockHash = true) :
    (member₁ key).quorumReached s h vr.blockHash = true := by
  have hlist := listValidators_crowded hs
  have hne : listed ≠ [] := by simp [listed]
  have helect : (member₁ key).electors s = registryElectors listed := by
    unfold Node.electors electorsOf
    rw [hlist, if_pos hne]
  have hmatch : (member₁ key).matching s h vr.blockHash = [vr] := by
    have hid : vr.chainID = (member₁ key).genesis.chainID := hchain
    unfold Node.matching
    rw [hvotes]
    simp [hid]
  have hadded : (member₁ key).addedTotals s h vr.blockHash = 1 := by
    unfold Node.addedTotals
    rw [hlist, if_pos hne, hmatch]
    rfl
  have hsigned :
      (member₁ key).signedWeight (registryElectors listed) h vr.blockHash vr = 10000 := by
    unfold Node.signedWeight
    rw [hvr]
    exact (if_pos hsig).trans weight_listed.2
  -- 10000 of 14999, and one matching vote
  unfold Node.quorumReached
  rw [Node.tallyVotes_eq, helect, hmatch, hadded, weight_listed.1, List.map_singleton,
    List.sum_singleton, hsigned]
  rfl

/-- The first vote of a height is the only one listed. -/
theorem listVotesForHeight_putVote {s : DB} {vr : VoteRecord} (hs : s.votes vr.height = ∅) :
    (s.putVote vr).listVotesForHeight vr.height = [vr] := by
  have hone : (Std.ExtTreeMap.ofList [(vr.pubkeyHex, vr)] : Table VoteRecord).toList =
      [(vr.pubkeyHex, vr)] := Table.toList_ofList (List.pairwise_singleton _ _)
  rw [Std.ExtTreeMap.ofList_singleton] at hone
  have hvotes : (s.putVote vr).votes vr.height = (∅ : Table VoteRecord).insert vr.pubkeyHex vr := by
    rw [← hs]
    exact Function.update_self ..
  unfold DB.listVotesForHeight
  rw [hvotes, hone]
  rfl

/-- Alice's vote alone finalizes whatever it names at a new node. -/
theorem recorded_capped (key : String) (vr : VoteRecord) (hpub : vr.pubkeyHex = alice)
    (hchain : vr.chainID = "sample")
    (hsig : prim.checkVote alice vr.sigHex "sample" vr.height vr.blockHash = true) :
    (vr.height, vr.blockHash) ∈ ((member₁ key).step ((member₁ key).genesisDB crowded)
      (.ingestVote 0 vr)).recorded := by
  have hreg : (member₁ key).isRegistered ((member₁ key).genesisDB crowded) vr.pubkeyHex = true := by
    unfold Node.isRegistered
    rw [listValidators_crowded rfl, if_pos (by simp [listed])]
    refine List.any_eq_true.mpr ⟨member alice 10000, by simp [listed], ?_⟩
    simp [hpub, member]
  have hval : (member₁ key).isValidator vr.pubkeyHex = true := by
    rw [hpub]
    exact List.any_eq_true.mpr ⟨⟨alice, 1⟩, List.mem_singleton.mpr rfl, decide_eq_true rfl⟩
  have hnew : ((member₁ key).genesisDB crowded).hasVote vr.height vr.pubkeyHex = false := by
    unfold DB.hasVote
    change ((∅ : Table VoteRecord)[vr.pubkeyHex]?).isSome = false
    simp
  have hquorum : (member₁ key).quorumReached (((member₁ key).genesisDB crowded).putVote vr)
      vr.height vr.blockHash = true :=
    quorumReached_listed key rfl hpub hchain (listVotesForHeight_putVote rfl) hsig
  have hcheck : (member₁ key).prim.checkVote vr.pubkeyHex vr.sigHex vr.chainID vr.height
      vr.blockHash = true := by
    rw [hpub, hchain]
    exact hsig
  have hne : vr.pubkeyHex ≠ "" := by
    rw [hpub]
    decide
  have henabled : (member₁ key).finalityEnabled = true := rfl
  have hid : vr.chainID = (member₁ key).genesis.chainID := hchain
  -- every check of `ingestVote` passes
  rw [Node.step, Node.ingestVote, if_neg (not_not.mpr henabled), if_neg (not_not.mpr hid),
    if_neg (not_or.mpr ⟨not_not.mpr hreg, hne⟩), if_neg (not_not.mpr hcheck),
    if_neg (not_not.mpr hval), hnew]
  dsimp only
  rw [Node.tryFinalizeHeight, if_neg Bool.false_ne_true, if_pos hquorum]
  exact List.mem_append_left _ List.mem_cons_self

theorem allElectors_capped : capped.allElectors = registryElectors listed ++ [(bob, 100000)] := by
  have hmap : capped.registry.toList.map Prod.snd = roll := map_snd_crowded
  unfold Network.allElectors electorsOf
  rw [hmap, if_pos (by simp [roll]), roll, registryElectors_append]
  rfl

/-- Alice has less than a third of the whole registry. -/
theorem trusted_capped : capped.Trusted capped.allElectors := by
  have hhonest : bob ∉ capped.faulty := fun hnone => hnone true rfl
  have hpos : ∀ e ∈ registryElectors listed, 0 < e.2 := by
    intro e he
    obtain ⟨v, hv, rfl⟩ := List.mem_map.mp he
    rcases List.mem_append.mp (List.mem_filter.mp hv).1 with hv | hv
    · obtain ⟨k, -, rfl⟩ := List.mem_map.mp hv
      exact Int.one_pos
    · rw [List.mem_singleton.mp hv]
      decide
  have hrounds : roundsOf capped.validators capped.listed = 2 := by
    unfold roundsOf Network.listed
    change (if (crowded.toList.map Prod.snd).take 5000 ≠ [] then _ else _) = _
    rw [take_crowded, if_pos (by simp [listed])]
    rfl
  have htotal : total (registryElectors listed ++ [(bob, 100000)]) = 114999 := by
    rw [total_append, weight_listed.1]
    rfl
  rw [allElectors_capped]
  refine ⟨fun i j _ hij => ?_, fun e he => ?_, ?_, ?_⟩
  · cases i <;> cases j
    · rfl
    · exact absurd hij (by decide)
    · exact absurd hij (by decide)
    · rfl
  · rcases List.mem_append.mp he with he | he
    · exact hpos e he
    · rw [List.mem_singleton.mp he]
      decide
  · rw [hrounds, htotal]
    decide
  · -- everyone but bob may be faulty
    have hle := weight_le_total (fun e he => (hpos e he).le) capped.faulty
    rw [weight_listed.1] at hle
    intro _
    rw [htotal, weight_append, weight_cons, if_neg hhonest, weight_nil]
    omega

/-- Alice votes for two blocks of one height, one at each node. -/
def splitRun : List (Bool × Event) :=
  [(true, .ingestVote 0 (vote 1 "01")), (false, .ingestVote 0 (vote 1 "02"))]

theorem admitted_splitRun : Run.Admitted capped.step capped.Admits capped.init splitRun := by
  -- alice has no node, so nothing is asked of her votes
  have hforeign : ¬ ∃ i, capped.pub i = alice := by
    rintro ⟨i, hi⟩
    cases i
    · exact absurd hi (by decide)
    · exact absurd hi (by decide)
  refine ⟨⟨fun vr hvr _ hkey => ?_, nofun⟩, ⟨fun vr hvr _ hkey => ?_, nofun⟩, trivial⟩
  · obtain rfl : vote 1 "01" = vr := Option.some.inj hvr
    exact absurd hkey hforeign
  · obtain rfl : vote 1 "02" = vr := Option.some.inj hvr
    exact absurd hkey hforeign

end Sample

namespace Network

open Sample

/-- With 5001 registered validators, one that holds less than a third of the registry makes two
nodes record different hashes for one height. -/
theorem not_agreement_capped :
    capped.Trusted capped.allElectors ∧
      Run.Admitted capped.step capped.Admits capped.init splitRun ∧
      ∃ t ∈ Run.states capped.step capped.init splitRun, ¬ Agreement t := by
  refine ⟨trusted_capped, admitted_splitRun, _,
    Run.foldl_mem_states capped.step capped.init splitRun, fun hagree => ?_⟩
  have hsig : ∀ x ∈ ["01", "02"],
      Sample.prim.checkVote alice (vote 1 x).sigHex "sample" 1 x = true := by
    decide +kernel
  have h₁ := recorded_capped bob (vote 1 "01") rfl rfl
    (hsig "01" List.mem_cons_self)
  have h₂ := recorded_capped "" (vote 1 "02") rfl rfl
    (hsig "02" (List.mem_cons_of_mem _ List.mem_cons_self))
  have htrue : splitRun.foldl capped.step capped.init true =
      (member₁ bob).step ((member₁ bob).genesisDB crowded)
        (.ingestVote 0 (vote 1 "01")) := by
    rw [splitRun, List.foldl_cons, List.foldl_cons, List.foldl_nil, step,
      Function.update_of_ne (by decide), step, Function.update_self]
    rfl
  have hfalse : splitRun.foldl capped.step capped.init false =
      (member₁ "").step ((member₁ "").genesisDB crowded)
        (.ingestVote 0 (vote 1 "02")) := by
    rw [splitRun, List.foldl_cons, List.foldl_cons, List.foldl_nil, step,
      Function.update_self, step, Function.update_of_ne (by decide)]
    rfl
  rw [← htrue] at h₁
  rw [← hfalse] at h₂
  exact absurd (hagree true false 1 "01" "02" h₁ h₂) (by decide)

end Network

end ReserveOS
