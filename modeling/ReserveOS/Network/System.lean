import ReserveOS.Network.VoteBook

/-!
# Networks of nodes

Several nodes run the code with one genesis, one validator set and a threshold of two thirds. Blocks
and votes arrive in any order and as often as the network likes. The one thing the network cannot do
is forge: a vote that verifies under the key of a node was signed by a node with that key
(`Network.Genuine`).

In every state of every such run, each pair that a node records as finalized is the genesis pair or
has two thirds of the electorate behind it; and two such pairs, recorded anywhere and for any
heights, were both signed by one honest node (`Invariant.common_signer`).
-/

namespace ReserveOS

open Quorum

/-! ### Height zero -/

/-- The path of a walk down to the finalized height has one entry for each height. -/
theorem DB.walkBack_length {s : DB} {finH : UInt64} {k : ℕ} {h : String} {acc path : List String}
    (hpos : k ≠ 0 ∨ finH = 0) (hok : s.walkBack finH k h acc = .ok path) :
    finH.toNat ≤ k ∧ path.length = acc.length + (k + 1 - finH.toNat) := by
  induction k generalizing h acc with
  | zero =>
      obtain rfl : finH = 0 := hpos.resolve_left fun hne => hne rfl
      rw [walkBack, if_pos rfl] at hok
      cases hok
      simp
  | succ k ih =>
      rw [walkBack] at hok
      split at hok
      next hfin =>
        cases hok
        rw [List.length_cons]
        omega
      next hne =>
        split at hok
        · cases hok
        · split at hok
          · cases hok
          next hge =>
            -- the walk goes on at height `k`, which is zero only if the anchor is
            have hpos' : k ≠ 0 ∨ finH = 0 := by
              rcases Nat.eq_zero_or_pos k with h0 | hk
              · exact Or.inr (UInt64.toNat.inj (by simp only [UInt64.toNat_zero]; omega))
              · exact Or.inl (by omega)
            obtain ⟨hle, hlen⟩ := ih hpos' hok
            rw [List.length_cons] at hlen
            omega

namespace Node

variable {n : Node} {s : DB} {b : Block}

variable (n) in
/-- At height zero the node knows, and signs, nothing but the genesis block. -/
structure AtGenesis (s : DB) : Prop where
  index : s.hashByHeight 0 = some n.genesisHash
  tip : ∀ x, s.getTip = some (0, x) → x = n.genesisHash
  signed : ∀ x, (0, x) ∈ s.signLog → x = n.genesisHash

/-- A chain switch leaves the genesis entry of the index alone, unless it starts from another
finalized hash of height zero. -/
theorem hashByHeight_zero_switchTo {finH : UInt64} {path : List String} {x : String} {h : UInt64}
    (hh : h ≠ 0) (hindex : s.hashByHeight 0 = some n.genesisHash)
    (hfin : ∀ y, s.finalized = some (0, y) → y = n.genesisHash)
    (hpath : s.candidatePath x h = .ok (finH, path)) :
    (s.switchTo finH path x h).hashByHeight 0 = some n.genesisHash := by
  obtain ⟨finHash, hanchor, -, hwalk, hhead⟩ := DB.candidatePath_eq_ok_iff.mp hpath
  have hne : h.toNat ≠ 0 := fun h0 => hh (UInt64.toNat.inj h0)
  obtain ⟨hle, hlen⟩ := DB.walkBack_length (Or.inl hne) hwalk
  have hlt := h.toNat_lt
  rw [List.length_nil] at hlen
  have hread := DB.hashByHeight_rewriteIndex path s finH 0 (by omega)
  change (s.switchTo finH path x h).hashByHeight 0 = _ at hread
  rw [hread]
  split
  next hzero =>
    -- the path starts at height zero, with the anchor
    rw [UInt64.toNat_zero] at hzero ⊢
    obtain rfl : finH = 0 := UInt64.toNat.inj (by rw [UInt64.toNat_zero]; omega)
    rw [Nat.zero_sub, ← List.head?_eq_getElem?, hhead]
    rcases DB.switchAnchor_eq_ok hanchor with ⟨-, hidx⟩ | hf
    · rw [← hidx, hindex]
    · rw [hfin finHash hf]
  next => exact hindex

/-- The index and the tip at height zero after a submitted block. -/
theorem AtGenesis.submitBlock (h : n.AtGenesis s)
    (hfin : ∀ x, s.finalized = some (0, x) → x = n.genesisHash) (now : Int64) :
    (n.submitBlock now s b).2.hashByHeight 0 = some n.genesisHash ∧
      ∀ x, (n.submitBlock now s b).2.getTip = some (0, x) → x = n.genesisHash := by
  have hout := n.submitBlock_outcome now s b
  generalize n.submitBlock now s b = res at hout
  -- a stored block has a height above zero, so it writes another entry of the index
  have hstored : n.preStore s b = .ok true →
      (n.stored s b).hashByHeight 0 = some n.genesisHash := by
    intro hpre
    rw [hashByHeight_stored, if_neg (storable_of_preStore n hpre).height_ne_zero.symm]
    exact h.index
  have hnot : n.preStore s b = .ok true → ∀ {y x : String},
      some (b.header.height, y) = some (0, x) → x = n.genesisHash := by
    intro hpre y x heq
    exact absurd (Prod.mk.inj (Option.some.inj heq)).1 (storable_of_preStore n hpre).height_ne_zero
  cases hout with
  | rejected e hpre => exact ⟨h.index, h.tip⟩
  | ignored hpre => exact ⟨h.index, h.tip⟩
  | invalidTip e hpre hext hval => exact ⟨hstored hpre, h.tip⟩
  | extended hpre hext hval =>
      have hsame := n.sameChain_advanceTip now (n.stored s b) b (cumWork s b)
      constructor
      · rw [hsame.hashByHeight]
        change Function.update (n.stored s b).hashByHeight b.header.height _ 0 = _
        rw [Function.update_of_ne (storable_of_preStore n hpre).height_ne_zero.symm]
        exact hstored hpre
      · intro x hx
        rw [hsame.getTip] at hx
        exact hnot hpre hx
  | forkStored r hpre hext hkeep => exact ⟨hstored hpre, h.tip⟩
  | switched finH path hpre hext hwork hpath =>
      obtain ⟨-, hidx, htip, -⟩ := sameTables_rebuild (n := n) ((n.stored s b).switchTo finH path
        (n.hashHex b.header) b.header.height) (cumWork s b)
      constructor
      · rw [hidx]
        refine hashByHeight_zero_switchTo (storable_of_preStore n hpre).height_ne_zero
          (hstored hpre) (fun y hy => hfin y ?_) hpath
        rwa [(n.sameFinality_stored s b).finalized] at hy
      · intro x hx
        rw [htip] at hx
        exact hnot hpre hx

/-- Every event keeps height zero to the genesis block. -/
theorem AtGenesis.step (h : n.AtGenesis s)
    (hfin : ∀ x, s.finalized = some (0, x) → x = n.genesisHash) {e : Event}
    (hcp : ∀ now cp, e = .checkpoint now cp → s.getTip = some (cp.height, cp.hashHex)) :
    n.AtGenesis (n.step s e) := by
  have hlog := (n.signLog_step s e).2
  cases hb : e.block? with
  | some b =>
      obtain ⟨now, rfl⟩ : ∃ now, e = .submitBlock now b := by
        cases e <;> cases hb
        exact ⟨_, rfl⟩
      obtain ⟨hindex, htip⟩ := h.submitBlock (b := b) hfin now
      refine ⟨hindex, htip, fun x hx => ?_⟩
      rcases n.blockByHash_submitBlock now s b with ⟨-, hsame⟩ | ⟨hpre, -⟩
      · rw [Node.step, hsame] at hx
        exact h.signed x hx
      · -- a vote for the block itself is at its height, which is not zero
        rcases hlog 0 x hx with hx | ⟨hzero, -⟩
        · exact h.signed x hx
        · exact absurd hzero.symm (storable_of_preStore n hpre).height_ne_zero
  | none =>
      have hsame : s.SameChain (n.step s e) := (finSteps_step hb).sameChain
      refine ⟨?_, ?_, fun x hx => ?_⟩
      · rw [hsame.hashByHeight]
        exact h.index
      · rw [hsame.getTip]
        exact h.tip
      · rcases hlog 0 x hx with hx | hsigns
        · exact h.signed x hx
        · cases e with
          | submitBlock now b => cases hb
          | submitVote ord now req => exact hsigns.elim
          | ingestVote now vr => exact hsigns.elim
          | tick now =>
              -- the tick signs what the index names, the checkpoint what the tip is
              obtain ⟨b, hget⟩ := hsigns
              have hidx := (DB.getBlockByHeight_eq_some_iff.mp hget).1
              rw [h.index] at hidx
              exact (Option.some.inj hidx).symm
          | checkpoint now cp =>
              obtain ⟨hzero, rfl⟩ := hsigns
              have htip := hcp now cp rfl
              rw [← hzero] at htip
              exact h.tip _ htip

theorem atGenesis_genesisDB (n : Node) (registry : Table RegValidator) :
    n.AtGenesis (n.genesisDB registry) where
  index := by rw [hashByHeight_genesisDB]; rfl
  tip := fun x hx => (Prod.mk.inj (Option.some.inj hx)).2.symm
  signed := fun x hx => by cases hx

end Node

/-! ### Networks -/

/-- Nodes that run the code with one genesis, one validator set and a threshold of two thirds. They
may differ in everything else. -/
structure Network (ι : Type) where
  node : ι → Node
  prim : Primitives
  genesis : Genesis
  validators : List Validator
  /-- The validator registry that every node starts with. -/
  registry : Table RegValidator
  prim_eq : ∀ i, (node i).prim = prim
  genesis_eq : ∀ i, (node i).genesis = genesis
  validators_eq : ∀ i, (node i).validators = validators
  num_eq : ∀ i, (node i).thresholdNum = 2
  den_eq : ∀ i, (node i).thresholdDen = 3

namespace Network

variable {ι : Type} (net : Network ι)

/-- The key a node signs with. -/
def pub (i : ι) : String := (net.node i).localPubHex

/-- The key of the common genesis block. -/
def genesisHash : String :=
  ((genesisBlock net.prim.sha256 net.genesis).header.hash net.prim.sha256).toHex

/-- The registry entries that `ListValidators` returns. -/
def listed : List RegValidator := (net.registry.toList.map Prod.snd).take 5000

/-- The electorate that the nodes count. -/
def electors : List (String × ℤ) := electorsOf net.validators net.listed

/-- The electorate with every entry of the registry. -/
def allElectors : List (String × ℤ) :=
  electorsOf net.validators (net.registry.toList.map Prod.snd)

/-- The keys that no node of the network signs with. -/
def faulty : Set String := {k | ∀ i, net.pub i ≠ k}

/-- An electorate for which the network is made: every key with weight belongs to one node at most,
weights are positive and so small that no product overflows, and the keys outside the network hold
less than a third of the weight, if there is any. -/
structure Trusted (ws : List (String × ℤ)) : Prop where
  keys : ∀ i j, net.pub i ∈ ws.map Prod.fst → net.pub i = net.pub j → i = j
  pos : ∀ e ∈ ws, 0 < e.2
  small : 3 * (roundsOf net.validators net.listed * total ws) < 2 ^ 63
  faulty : 0 < total ws → 3 * weight ws net.faulty < total ws

/-- A vote in the name of a node was signed by a node with that key. -/
def Genuine (s : ι → DB) (h : UInt64) (k x : String) : Prop :=
  (∃ i, net.pub i = k) → ∃ i, net.pub i = k ∧ (h, x) ∈ (s i).signLog

/-- What the network may do: it delivers no forged vote, and checkpoint processing is about the
node's tip, as in `SubmitBlock`. -/
def Admits (s : ι → DB) (e : ι × Event) : Prop :=
  (∀ vr, e.2.vote? = some vr →
    net.prim.checkVote vr.pubkeyHex vr.sigHex vr.chainID vr.height vr.blockHash = true →
    net.Genuine s vr.height vr.pubkeyHex vr.blockHash) ∧
  ∀ now cp, e.2 = .checkpoint now cp → (s e.1).getTip = some (cp.height, cp.hashHex)

/-- All nodes are new. -/
def init : ι → DB := fun i => (net.node i).genesisDB net.registry

/-- An event at one node. -/
def step [DecidableEq ι] (s : ι → DB) (e : ι × Event) : ι → DB :=
  Function.update s e.1 ((net.node e.1).step (s e.1) e.2)

section Step

variable [DecidableEq ι] {s : ι → DB}

/-- What holds of every node holds after an event at one node if it holds there. -/
theorem forall_step {P : ι → DB → Prop} (e : ι × Event) (h : ∀ i, P i (s i))
    (he : P e.1 ((net.node e.1).step (s e.1) e.2)) : ∀ i, P i (net.step s e i) := by
  intro i
  by_cases hi : i = e.1
  · subst hi
    rwa [step, Function.update_self]
  · rw [step, Function.update_of_ne hi]
    exact h i

end Step

variable {net}

theorem genesisHash_eq (i : ι) : (net.node i).genesisHash = net.genesisHash := by
  unfold Node.genesisHash Node.hashHex Node.genesisBlock genesisHash
  rw [net.prim_eq, net.genesis_eq]

/-- All nodes count the same electorate. -/
theorem electors_eq {i : ι} {s : DB} (hs : s.validators = net.registry) :
    (net.node i).electors s = net.electors := by
  unfold Node.electors DB.listValidators electors listed
  rw [net.validators_eq, hs, if_neg (by omega)]

theorem rounds_eq {i : ι} {s : DB} (hs : s.validators = net.registry) :
    (net.node i).rounds s = roundsOf net.validators net.listed := by
  unfold Node.rounds DB.listValidators listed
  rw [net.validators_eq, hs, if_neg (by omega)]

/-- A trusted electorate is small at every node. -/
theorem Trusted.smallElectorate (ht : net.Trusted net.electors) (i : ι) {s : DB}
    (hs : s.validators = net.registry) : (net.node i).SmallElectorate s where
  pos := by
    rw [electors_eq hs]
    exact ht.pos
  num := net.num_eq i
  den := net.den_eq i
  small := by
    rw [electors_eq hs, rounds_eq hs]
    exact ht.small

variable (net) in
/-- What holds of all nodes together in every state of a run. -/
structure Invariant (s : ι → DB) : Prop where
  book : ∀ i, (net.node i).VoteBook (net.Genuine s) (s i)
  atGenesis : ∀ i, (net.node i).AtGenesis (s i)
  registry : ∀ i, (s i).validators = net.registry

namespace Invariant

variable {s : ι → DB}

/-- The vote of an honest voter is in the log of the node that holds its key. -/
theorem exists_signer (hinv : net.Invariant s) {i : ι} {h : UInt64} {k x : String}
    (hk : k ∈ (s i).voters h x) (hhonest : k ∉ net.faulty) :
    ∃ m, net.pub m = k ∧ (h, x) ∈ (s m).signLog := by
  obtain ⟨vr, hget, rfl⟩ := hk
  rcases (hinv.book i).genuine h k vr hget with ⟨hown, hlog⟩ | hgen
  · exact ⟨i, hown.symm, hlog⟩
  · refine hgen ?_
    by_contra hnone
    exact hhonest fun m hm => hnone ⟨m, hm⟩

/-- Two pairs with two thirds of the electorate behind each, wherever and for whatever heights, were
both signed by one node of the electorate, and by one outside any set `F` that has less than a third
together with the faulty keys. -/
theorem common_signer_of_lt (hinv : net.Invariant s) (ht : net.Trusted net.electors)
    {F : Set String}
    (hF : 0 < total net.electors → 3 * weight net.electors (net.faulty ∪ F) < total net.electors)
    {i j : ι} {h h' : UInt64} {x y : String} (hx : (net.node i).Supported (s i) h x)
    (hy : (net.node j).Supported (s j) h' y) :
    ∃ m, net.pub m ∉ F ∧ (h, x) ∈ (s m).signLog ∧ (h', y) ∈ (s m).signLog := by
  obtain ⟨hpos, hx⟩ := hx
  obtain ⟨-, hy⟩ := hy
  rw [electors_eq (hinv.registry i)] at hpos hx
  rw [electors_eq (hinv.registry j)] at hy
  -- the two quorums share an honest voter outside the set
  obtain ⟨e, he, hxe, hye, hout⟩ :=
    exists_mem_inter (fun e he => (ht.pos e he).le) hx hy (hF hpos)
  obtain ⟨hhonest, hout⟩ := not_or.mp hout
  obtain ⟨m, hm, hmx⟩ := hinv.exists_signer hxe hhonest
  obtain ⟨m', hm', hmy⟩ := hinv.exists_signer hye hhonest
  have hmem : net.pub m ∈ net.electors.map Prod.fst := by
    rw [hm]
    exact List.mem_map.mpr ⟨e, he, rfl⟩
  obtain rfl : m = m' := ht.keys m m' hmem (hm.trans hm'.symm)
  exact ⟨m, hm ▸ hout, hmx, hmy⟩

/-- Two such pairs were both signed by one node. -/
theorem common_signer (hinv : net.Invariant s) (ht : net.Trusted net.electors) {i j : ι}
    {h h' : UInt64} {x y : String} (hx : (net.node i).Supported (s i) h x)
    (hy : (net.node j).Supported (s j) h' y) :
    ∃ m, (h, x) ∈ (s m).signLog ∧ (h', y) ∈ (s m).signLog := by
  have hnone := ht.faulty
  rw [← Set.union_empty net.faulty] at hnone
  obtain ⟨m, -, hboth⟩ := hinv.common_signer_of_lt ht hnone hx hy
  exact ⟨m, hboth⟩

/-- Whatever is recorded for height zero is the genesis block. -/
theorem finalized_zero (hinv : net.Invariant s) (ht : net.Trusted net.electors) {i : ι} {x : String}
    (hx : (net.node i).Supported (s i) 0 x) : x = net.genesisHash := by
  obtain ⟨m, hm, -⟩ := hinv.common_signer ht hx hx
  rw [(hinv.atGenesis m).signed x hm]
  exact genesisHash_eq m

/-- The invariant holds at the start: nobody has voted. -/
theorem init (ht : net.Trusted net.electors) : net.Invariant net.init where
  book := by
    intro i
    have hempty : ∀ (h : UInt64) (k : String), ((net.init i).votes h)[k]? = none := fun h k => by
      change (∅ : Table VoteRecord)[k]? = none
      simp
    refine ⟨ht.smallElectorate i rfl, fun h k vr hget => ?_, fun h k vr hget => ?_,
      fun h k vr hget => ?_, fun h x hmem => ?_, fun h x hmem => ?_, fun h x hmem => ?_,
      fun h x hlast => ?_⟩
    · rw [hempty] at hget
      cases hget
    · rw [hempty] at hget
      cases hget
    · rw [hempty] at hget
      cases hget
    · cases hmem
    · have heq : (h, x) = (0, (net.node i).genesisHash) := List.mem_singleton.mp hmem
      exact Or.inl (Prod.mk.inj heq)
    · cases hmem
    · rw [← Option.some.inj hlast]
      exact List.mem_singleton.mpr rfl
  atGenesis := fun i => (net.node i).atGenesis_genesisDB net.registry
  registry := fun _ => rfl

variable [DecidableEq ι]

variable (net) in
/-- Signed votes are never forgotten. -/
theorem signLog_subset (s : ι → DB) (e : ι × Event) (i : ι) :
    (s i).signLog ⊆ (net.step s e i).signLog := by
  by_cases hi : i = e.1
  · subst hi
    rw [Network.step, Function.update_self]
    exact ((net.node e.1).signLog_step (s e.1) e.2).1
  · rw [Network.step, Function.update_of_ne hi]
    exact List.Subset.refl _

/-- Every event that the network may bring about keeps the invariant. -/
theorem step (hinv : net.Invariant s) (ht : net.Trusted net.electors) {e : ι × Event}
    (he : net.Admits s e) : net.Invariant (net.step s e) := by
  obtain ⟨i, ev⟩ := e
  have hlog := signLog_subset net s (i, ev)
  have hgenuine : ∀ h k x, net.Genuine s h k x → net.Genuine (net.step s (i, ev)) h k x := by
    intro h k x hgen hkey
    obtain ⟨m, hm, hmem⟩ := hgen hkey
    exact ⟨m, hm, hlog m hmem⟩
  refine ⟨net.forall_step _ (fun j => (hinv.book j).mono hgenuine) ?_,
    net.forall_step _ hinv.atGenesis ?_,
    net.forall_step (P := fun _ t => t.validators = net.registry) _ hinv.registry ?_⟩
  · refine ((hinv.book i).step fun vr hvr hsig => ?_).mono hgenuine
    rw [net.prim_eq] at hsig
    exact he.1 vr hvr hsig
  · refine (hinv.atGenesis i).step (fun x hx => ?_) he.2
    -- a pair recorded for height zero is the first record, or it has an honest signer
    rcases (hinv.book i).finalized 0 x ((hinv.book i).last 0 x hx) with ⟨-, rfl⟩ | hsup
    · rfl
    · rw [genesisHash_eq]
      exact hinv.finalized_zero ht hsup
  · rw [Node.validators_step]
    exact hinv.registry i

/-- The invariant holds in every state of every run. -/
theorem states (ht : net.Trusted net.electors) {es : List (ι × Event)}
    (hrun : Run.Admitted net.step net.Admits net.init es) :
    ∀ t ∈ Run.states net.step net.init es, net.Invariant t :=
  Run.invariant (E := fun _ => True) (fun _ _ hinv _ he => hinv.step ht he) (fun _ _ => trivial)
    (init ht) hrun

end Invariant

end Network

end ReserveOS
