import ReserveOS.Node.Finality

/-!
# Pulling votes

The second half of the gossip tick, `pullVotesFromPeers`: a node asks each of its peers for the
votes of the last four checkpoints up to its tip, and hands what it gets to `ingestVote`. The answer
of a peer for a height is an argument, `none` if the request fails; a node that runs the code
answers with `ListVotesForHeight` (`/finality/votes`).
-/

namespace ReserveOS

namespace Node

variable (n : Node)

/-- The first height that `pullVotesFromPeers` asks for. -/
def pullStart (lastCp : UInt64) : UInt64 :=
  if n.checkpointInterval * 3 ≤ lastCp then lastCp - n.checkpointInterval * 3 else 0

/-- The heights of the loop `for h := start; h <= lastCp; h += interval`, as many as the fuel
allows. -/
def pullHeights (lastCp : UInt64) : ℕ → UInt64 → List UInt64
  | 0, _ => []
  | fuel + 1, h =>
      if h ≤ lastCp then h :: pullHeights lastCp fuel (h + n.checkpointInterval) else []

/-- The votes that a pull gets, in the order in which they are ingested. -/
def pulledVotes (peers : List String) (replies : String → UInt64 → Option (List VoteRecord))
    (tipH : UInt64) : List VoteRecord :=
  let lastCp := n.lastCheckpoint tipH
  (n.pullHeights lastCp (2 ^ 64) (n.pullStart lastCp)).flatMap fun h =>
    peers.flatMap fun peer => (replies peer h).getD []

/-- `pullVotesFromPeers`. -/
def pullVotesFromPeers (now : Int64) (peers : List String)
    (replies : String → UInt64 → Option (List VoteRecord)) (s : DB) : DB :=
  match s.getTip with
  | none => s
  | some (tipH, _) => (n.pulledVotes peers replies tipH).foldl (n.ingestVote now) s

/-- The height is one of the last four checkpoints up to the tip, and the loop does not wrap. -/
def Recent (tipH h : UInt64) : Prop :=
  tipH.toNat + 3 * n.checkpointInterval.toNat < 2 ^ 64 ∧
    ∃ c, h.toNat = c * n.checkpointInterval.toNat ∧ c ≤ tipH.toNat / n.checkpointInterval.toNat ∧
      tipH.toNat / n.checkpointInterval.toNat ≤ c + 3

variable {n} {lastCp h tipH : UInt64}

/-- A checkpoint height from the start of the loop on is visited. -/
theorem mem_pullHeights {start : UInt64} {j fuel : ℕ} (hfuel : j < fuel)
    (hj : h.toNat = start.toNat + j * n.checkpointInterval.toNat) (hle : h ≤ lastCp)
    (hfit : lastCp.toNat + n.checkpointInterval.toNat < 2 ^ 64) :
    h ∈ n.pullHeights lastCp fuel start := by
  induction j generalizing start fuel with
  | zero =>
      obtain ⟨fuel, rfl⟩ := Nat.exists_eq_add_one.mpr hfuel
      obtain rfl : h = start := UInt64.toNat.inj (by omega)
      rw [pullHeights, if_pos hle]
      exact List.mem_cons_self
  | succ j ih =>
      obtain ⟨fuel, rfl⟩ := Nat.exists_eq_add_one.mpr (Nat.zero_lt_of_lt hfuel)
      rw [Nat.succ_mul] at hj
      have hle' : h.toNat ≤ lastCp.toNat := UInt64.le_iff_toNat_le.mp hle
      have hstart : start ≤ lastCp := UInt64.le_iff_toNat_le.mpr (by omega)
      have hnext : (start + n.checkpointInterval).toNat =
          start.toNat + n.checkpointInterval.toNat := by
        rw [UInt64.toNat_add, Nat.mod_eq_of_lt (by omega)]
      rw [pullHeights, if_pos hstart]
      exact List.mem_cons_of_mem _ (ih (by omega) (by omega))

/-- The last four checkpoints are asked for. -/
theorem Recent.mem_pullHeights (hrecent : n.Recent tipH h) :
    h ∈ n.pullHeights (n.lastCheckpoint tipH) (2 ^ 64) (n.pullStart (n.lastCheckpoint tipH)) := by
  obtain ⟨hfit, c, hc, hcq, hqc⟩ := hrecent
  generalize hi : n.checkpointInterval.toNat = i at *
  generalize hq : tipH.toNat / i = q at *
  have hqi : q * i ≤ tipH.toNat := hq ▸ Nat.div_mul_le_self _ _
  have hlast : (n.lastCheckpoint tipH).toNat = q * i := by
    rw [lastCheckpoint, UInt64.toNat_mul, UInt64.toNat_div, hi, hq, Nat.mod_eq_of_lt (by omega)]
  have hthree : (n.checkpointInterval * 3).toNat = i * 3 := by
    rw [UInt64.toNat_mul, hi, show (3 : UInt64).toNat = 3 from rfl, Nat.mod_eq_of_lt (by omega)]
  -- the loop starts three checkpoints before the last one, or at zero
  have hstart : (n.pullStart (n.lastCheckpoint tipH)).toNat = (q - 3) * i := by
    rw [Nat.sub_mul, pullStart]
    split
    next hle =>
      rw [UInt64.toNat_sub_of_le _ _ hle, hlast, hthree, Nat.mul_comm i]
    next hlt =>
      rw [UInt64.le_iff_toNat_le, hlast, hthree] at hlt
      rw [UInt64.toNat_zero]
      omega
  have hci : c * i ≤ q * i := Nat.mul_le_mul_right i hcq
  refine Node.mem_pullHeights (j := c - (q - 3)) (by omega) ?_
    (UInt64.le_iff_toNat_le.mpr (by omega)) (by omega)
  rw [hi, hstart, hc, ← Nat.add_mul]
  congr 1
  omega

/-- The votes that a pull brings. -/
theorem mem_pulledVotes {peers : List String}
    {replies : String → UInt64 → Option (List VoteRecord)} {vr : VoteRecord} :
    vr ∈ n.pulledVotes peers replies tipH ↔
      ∃ k ∈ n.pullHeights (n.lastCheckpoint tipH) (2 ^ 64) (n.pullStart (n.lastCheckpoint tipH)),
        ∃ p ∈ peers, ∃ votes, replies p k = some votes ∧ vr ∈ votes := by
  have hreply : ∀ p k, vr ∈ (replies p k).getD [] ↔ ∃ votes, replies p k = some votes ∧
      vr ∈ votes := by
    intro p k
    cases replies p k with
    | none => simp
    | some votes => simp
  simp only [pulledVotes, List.mem_flatMap, hreply]

end Node

end ReserveOS
