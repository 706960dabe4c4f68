import Mathlib.Data.List.Induction
import ReserveOS.Correctness.Gossip
import ReserveOS.General.PenaltyBox

/-!
# Scores of gossiping peers

In any run of the P2P handler, and whatever the other peers do, the number of messages of a peer
that are penalised is bounded by the score it came with, its rewarded messages, and the length of
the run in units of a ban (`penalised_bounded`). The record of a peer is a penalty box
(`General.PenaltyBox`) with visits for the messages that pass the gates.
-/

namespace ReserveOS

/-! ### The record of a peer as a penalty box -/

/-- The numbers of `penalizePeer`, and the smallest penalty of the handler. -/
def gossipRules : PenaltyBox.Rules := ⟨-50, 600, 2, by decide, by decide⟩

/-- What the record of a peer says about its score and its ban. -/
def PeerStats.box (db : PeerStats) (pub : String) : PenaltyBox.Record :=
  ⟨(db.getPeerStat pub).1.score.toInt, (db.getPeerStat pub).1.bannedUntil.toInt⟩

/-- A verdict as the mark of a visit. -/
def Verdict.mark : Verdict → PenaltyBox.Mark
  | .none => .pass
  | .score delta => .reward delta.toInt
  | .penalty delta => .penalty (-delta.toInt)

/-- The verdict is a penalty. -/
def Verdict.isPenalty : Verdict → Bool
  | .penalty _ => true
  | _ => false

namespace Verdict

variable {v : Verdict}

/-- A moderate verdict changes a score by at most one hundred. -/
theorem Moderate.bounds (h : v.Moderate) :
    (∀ delta, v = .score delta → delta.toInt = 0 ∨ delta.toInt = 1) ∧
      ∀ delta, v = .penalty delta → -100 ≤ delta.toInt ∧ delta.toInt ≤ -2 := by
  refine ⟨fun delta hv => ?_, fun delta hv => ?_⟩
  · subst hv
    rcases h with rfl | rfl
    · exact .inl rfl
    · exact .inr rfl
  · subst hv
    simp only [Moderate, List.mem_cons, List.not_mem_nil, or_false] at h
    rcases h with rfl | rfl | rfl | rfl | rfl <;> decide

/-- The mark of a moderate verdict is fair. -/
theorem Moderate.fair (h : v.Moderate) (entered marked : ℤ) :
    PenaltyBox.Visit.Fair gossipRules ⟨entered, marked, v.mark⟩ := by
  obtain ⟨hscore, hpenalty⟩ := h.bounds
  cases v with
  | none => trivial
  | score delta =>
      show 0 ≤ delta.toInt
      have := hscore delta rfl
      omega
  | penalty delta =>
      show (2 : ℤ) ≤ -delta.toInt
      have := hpenalty delta rfl
      omega

end Verdict

namespace PeerStats

variable {db : PeerStats} {pub : String}

/-- Reading a record that was just written, of the same peer or of another one. -/
theorem getPeerStat_putPeerStat (stamp : Int64) (ps : PeerStat) (pub : String) :
    ((db.putPeerStat stamp ps).getPeerStat pub).1 =
      if pub = ps.pubkeyHex then { ps with updatedUnix := stamp } else (db.getPeerStat pub).1 := by
  by_cases h : pub = ps.pubkeyHex
  · simp [getPeerStat, putPeerStat, h]
  · simp [getPeerStat, putPeerStat, h]

/-- `penalizePeer`: the new score is stored, and a ban if it is low enough. -/
theorem settle_penalty (clk : Readings) (pub : String) (delta : Int64) :
    db.settle clk pub (.penalty delta) = if (db.getPeerStat pub).1.score + delta ≤ -50 then
        (db.addPeerScore clk.stamp pub delta).2.banPeer clk.ban clk.stamp' pub 600
      else (db.addPeerScore clk.stamp pub delta).2 := rfl

/-- A verdict on one peer leaves the records of the others alone. -/
theorem box_settle_of_ne (clk : Readings) {peer : String} (v : Verdict) (hne : pub ≠ peer) :
    (db.settle clk peer v).box pub = db.box pub := by
  cases v with
  | none => rfl
  | score delta =>
      simp [settle, box, addPeerScore, getPeerStat_putPeerStat, PeerStat.scored, hne]
  | penalty delta =>
      rw [settle_penalty]
      split
      · simp [box, addPeerScore, banPeer, getPeerStat_putPeerStat, PeerStat.scored,
          PeerStat.banned, hne]
      · simp [box, addPeerScore, getPeerStat_putPeerStat, PeerStat.scored, hne]

/-- A verdict is the visit of a penalty box, as long as nothing overflows. -/
theorem box_settle (clk : Readings) {v : Verdict} (hv : v.Moderate) (entered : ℤ)
    (hlow : -2 ^ 63 + 100 ≤ (db.box pub).score) (hhigh : (db.box pub).score + 100 < 2 ^ 63)
    (hban : 0 ≤ clk.ban.toInt) (hban' : clk.ban.toInt + 600 < 2 ^ 63) :
    (db.settle clk pub v).box pub =
      (db.box pub).after gossipRules ⟨entered, clk.ban.toInt, v.mark⟩ := by
  obtain ⟨hscore, hpenalty⟩ := hv.bounds
  -- the sum that `AddPeerScore` writes
  have hsum : ∀ delta : Int64, -100 ≤ delta.toInt → delta.toInt ≤ 1 →
      ((db.getPeerStat pub).1.score + delta).toInt = (db.box pub).score + delta.toInt :=
    fun delta hl hh => toInt_add_of_bounds (by simp only [box] at hlow; omega)
      (by simp only [box] at hhigh; omega)
  cases v with
  | none => rfl
  | score delta =>
      have hd := hscore delta rfl
      simp [settle, box, addPeerScore, getPeerStat_putPeerStat, PeerStat.scored, Verdict.mark,
        PenaltyBox.Record.after, hsum delta (by omega) (by omega)]
  | penalty delta =>
      have hd := hpenalty delta rfl
      have hsum := hsum delta (by omega) (by omega)
      have htest : ((db.getPeerStat pub).1.score + delta ≤ -50) ↔
          (db.box pub).score - -delta.toInt ≤ gossipRules.floor := by
        rw [Int64.le_iff_toInt_le, hsum, sub_neg_eq_add]
        rfl
      have hten : (600 : Int64).toInt = 600 := rfl
      have htime : (clk.ban + 600).toInt = clk.ban.toInt + gossipRules.ban :=
        toInt_add_of_bounds (by omega) (by omega)
      simp only [settle_penalty, Verdict.mark, PenaltyBox.Record.after]
      by_cases hfloor : (db.box pub).score - -delta.toInt ≤ gossipRules.floor
      · rw [if_pos (htest.mpr hfloor), if_pos hfloor, sub_neg_eq_add]
        simp [box, addPeerScore, banPeer, getPeerStat_putPeerStat, PeerStat.scored,
          PeerStat.banned, htime, hsum]
      · rw [if_neg (fun h => hfloor (htest.mp h)), if_neg hfloor, sub_neg_eq_add]
        simp [box, addPeerScore, getPeerStat_putPeerStat, PeerStat.scored, hsum]

/-- A peer that is not banned is at an open door. -/
theorem bannedUntil_le_of_not_isBanned {now : Int64} (h : db.isBanned now pub = false)
    (hnow : 0 ≤ now.toInt) : (db.box pub).bannedUntil ≤ now.toInt := by
  unfold isBanned getPeerStat at h
  unfold box getPeerStat
  cases hrec : db pub with
  | none => simpa using hnow
  | some ps =>
      rw [hrec] at h
      simpa [Int64.lt_iff_toInt_lt] using h

end PeerStats

/-! ### The penalties of a run -/

namespace GossipEnv

variable {F D : Type} (env : GossipEnv F D) (pub : String)

/-- The verdicts of a run, each with its peer. -/
def verdicts : GossipState F → List (GossipCall D) → List (String × Verdict)
  | _, [] => []
  | s, c :: cs => (c.peer, env.verdict s c) :: verdicts (env.step s c) cs

/-- How many messages of a peer are penalised in a run. -/
def penalised (s : GossipState F) (cs : List (GossipCall D)) : ℕ :=
  (env.verdicts s cs).countP fun v => v.1 = pub ∧ v.2.isPenalty

/-- How many messages of a peer are rewarded in a run. -/
def rewarded (s : GossipState F) (cs : List (GossipCall D)) : ℕ :=
  (env.verdicts s cs).countP fun v => v.1 = pub ∧ v.2 = .score 1

/-- The clock runs forward, from `a` to `b`, through the calls. -/
def InOrder : ℤ → ℤ → List (GossipCall D) → Prop
  | a, b, [] => a ≤ b
  | a, b, c :: cs =>
      a ≤ c.clk.gate.toInt ∧ c.clk.gate.toInt ≤ c.clk.ban.toInt ∧ InOrder c.clk.ban.toInt b cs

/-- The visit that a call is for a peer, if it is about the peer and passes the gates. -/
def visit? (s : GossipState F) (c : GossipCall D) : Option PenaltyBox.Visit :=
  if c.peer = pub ∧ env.passes c.clk s c.peer then
    some ⟨c.clk.gate.toInt, c.clk.ban.toInt, (env.verdict s c).mark⟩
  else none

/-- The visits of a peer in a run. -/
def visits : GossipState F → List (GossipCall D) → List PenaltyBox.Visit
  | _, [] => []
  | s, c :: cs => (env.visit? pub s c).toList ++ visits (env.step s c) cs

variable {env pub} {s : GossipState F} {c : GossipCall D} {cs : List (GossipCall D)}

theorem verdict_of_not_passes (h : env.passes c.clk s c.peer = false) :
    env.verdict s c = .none := by
  obtain ⟨limiter, heq⟩ := handle_of_not_passes (k := c.senderCount) (m := c.msg) h
  rw [verdict, heq]

theorem stats_step_of_not_passes (h : env.passes c.clk s c.peer = false) :
    (env.step s c).stats = s.stats := by
  obtain ⟨limiter, heq⟩ := handle_of_not_passes (k := c.senderCount) (m := c.msg) h
  rw [step, heq]

/-- A call that passes the gates settles its verdict, and writes no other record. -/
theorem stats_step_of_passes (h : env.passes c.clk s c.peer = true) :
    (env.step s c).stats = s.stats.settle c.clk c.peer (env.verdict s c) := by
  rw [step, verdict, handle_of_passes h]
  dsimp only
  rw [effect_dispatch.stats]

/-- Every message gets a moderate verdict. -/
theorem moderate_verdict : (env.verdict s c).Moderate := by
  cases h : env.passes c.clk s c.peer with
  | false =>
      rw [verdict_of_not_passes h]
      trivial
  | true =>
      rw [verdict, handle_of_passes h]
      exact effect_dispatch.moderate

/-- A call is no visit of a peer whose record it does not change. -/
theorem box_step_of_visit_none (h : env.visit? pub s c = none) :
    (env.step s c).stats.box pub = s.stats.box pub := by
  unfold visit? at h
  cases hpass : env.passes c.clk s c.peer with
  | false => rw [stats_step_of_not_passes hpass]
  | true =>
      have hne : pub ≠ c.peer := by
        rintro rfl
        simp [hpass] at h
      rw [stats_step_of_passes hpass, PeerStats.box_settle_of_ne c.clk _ hne]

/-- A visit finds the door open, and leaves the record as a penalty box does. -/
theorem box_step_of_visit_some {v : PenaltyBox.Visit} (h : env.visit? pub s c = some v)
    (hscore : |(s.stats.box pub).score| + 100 < 2 ^ 63) (hgate : 0 ≤ c.clk.gate.toInt)
    (hban : c.clk.gate.toInt ≤ c.clk.ban.toInt) (hend : c.clk.ban.toInt + 600 < 2 ^ 63) :
    PenaltyBox.Open (s.stats.box pub) v ∧
      (env.step s c).stats.box pub = (s.stats.box pub).after gossipRules v := by
  unfold visit? at h
  split at h
  next hmine =>
    cases h
    obtain ⟨rfl, hpass⟩ := hmine
    have hadm : s.stats.isBanned c.clk.gate c.peer = false := by
      simp only [passes, admits, Bool.and_eq_true, decide_eq_true_eq] at hpass
      simpa using hpass.1.2.2
    obtain ⟨hlow, hhigh⟩ := abs_lt.mp (by omega : |(s.stats.box c.peer).score| < 2 ^ 63 - 100)
    refine ⟨PeerStats.bannedUntil_le_of_not_isBanned hadm hgate, ?_⟩
    rw [stats_step_of_passes hpass]
    exact PeerStats.box_settle c.clk moderate_verdict _ (by omega) (by omega) (by omega) hend
  next => cases h

/-- A verdict changes a score by at most one hundred. -/
theorem abs_score_step_le (hscore : |(s.stats.box pub).score| + 100 < 2 ^ 63)
    (hgate : 0 ≤ c.clk.gate.toInt) (hban : c.clk.gate.toInt ≤ c.clk.ban.toInt)
    (hend : c.clk.ban.toInt + 600 < 2 ^ 63) :
    |((env.step s c).stats.box pub).score| ≤ |(s.stats.box pub).score| + 100 := by
  cases hv : env.visit? pub s c with
  | none =>
      rw [box_step_of_visit_none hv]
      omega
  | some v =>
      rw [(box_step_of_visit_some hv hscore hgate hban hend).2]
      unfold visit? at hv
      split at hv
      next =>
        cases hv
        have hmod : (env.verdict s c).Moderate := moderate_verdict
        obtain ⟨hreward, hpenalty⟩ := hmod.bounds
        cases hverdict : env.verdict s c with
        | none =>
            simp only [PenaltyBox.Record.after, Verdict.mark]
            omega
        | score delta =>
            have := hreward delta hverdict
            simp only [PenaltyBox.Record.after, Verdict.mark]
            rw [abs_le]
            have := abs_le.mp (le_refl |(s.stats.box pub).score|)
            omega
        | penalty delta =>
            have := hpenalty delta hverdict
            simp only [PenaltyBox.Record.after, Verdict.mark]
            rw [abs_le]
            have := abs_le.mp (le_refl |(s.stats.box pub).score|)
            omega
      next => cases hv

/-- The visits of a run follow each other in time. -/
theorem timed_visits {a b : ℤ} (h : InOrder a b cs) :
    PenaltyBox.Timed a b (env.visits pub s cs) := by
  induction cs generalizing s a with
  | nil => exact h
  | cons c cs ih =>
      obtain ⟨ha, hban, hrest⟩ := h
      unfold visits visit?
      split
      · exact ⟨ha, hban, ih hrest⟩
      · exact (ih hrest).mono (ha.trans hban)

/-- Every visit is fair. -/
theorem fair_visits : ∀ v ∈ env.visits pub s cs, v.Fair gossipRules := by
  induction cs generalizing s with
  | nil => exact fun v hv => absurd hv List.not_mem_nil
  | cons c cs ih =>
      intro v hv
      unfold visits visit? at hv
      split at hv
      · rcases List.mem_cons.mp hv with rfl | hv
        · exact moderate_verdict.fair _ _
        · exact ih v hv
      · exact ih v hv

/-- Every visit finds the door open. -/
theorem admitted_visits {a b : ℤ} (ha : 0 ≤ a) (hb : b + 600 < 2 ^ 63) (htimes : InOrder a b cs)
    (hscore : |(s.stats.box pub).score| + 100 * cs.length < 2 ^ 63) :
    Run.Admitted (PenaltyBox.Record.after gossipRules) PenaltyBox.Open (s.stats.box pub)
      (env.visits pub s cs) := by
  induction cs generalizing s a with
  | nil => trivial
  | cons c cs ih =>
      obtain ⟨hgate, hban, hrest⟩ := htimes
      rw [List.length_cons] at hscore
      push_cast at hscore
      have hroom : |(s.stats.box pub).score| + 100 < 2 ^ 63 := by omega
      have hend : c.clk.ban.toInt + 600 < 2 ^ 63 := by
        have hle := (timed_visits hrest : PenaltyBox.Timed _ b (env.visits pub s cs)).le
        omega
      have hstep : |((env.step s c).stats.box pub).score| ≤ |(s.stats.box pub).score| + 100 :=
        abs_score_step_le hroom (ha.trans hgate) hban hend
      have ih := ih (s := env.step s c) ((ha.trans hgate).trans hban) hrest (by omega)
      rw [visits]
      cases hv : env.visit? pub s c with
      | none => rwa [← box_step_of_visit_none hv]
      | some v =>
          obtain ⟨hopen, hbox⟩ := box_step_of_visit_some hv hroom (ha.trans hgate) hban hend
          exact ⟨hopen, hbox ▸ ih⟩

/-- The penalties of the visits are those of the run. -/
theorem penalties_visits : PenaltyBox.penalties (env.visits pub s cs) = env.penalised pub s cs := by
  induction cs generalizing s with
  | nil => rfl
  | cons c cs ih =>
      have hmark : PenaltyBox.penalties (env.visit? pub s c).toList =
          if c.peer = pub ∧ (env.verdict s c).isPenalty then 1 else 0 := by
        unfold visit?
        cases hpass : env.passes c.clk s c.peer with
        | false => simp [verdict_of_not_passes hpass, Verdict.isPenalty, PenaltyBox.penalties]
        | true =>
            by_cases hpeer : c.peer = pub
            · cases hv : env.verdict s c <;>
                simp [hpeer, PenaltyBox.penalties, PenaltyBox.Visit.penalised, Verdict.mark,
                  Verdict.isPenalty]
            · simp [hpeer, PenaltyBox.penalties]
      rw [visits, PenaltyBox.penalties, List.countP_append, ← PenaltyBox.penalties,
        ← PenaltyBox.penalties, hmark, ih, penalised, penalised, verdicts, List.countP_cons]
      simp [Nat.add_comm]

/-- The rewards of the visits are those of the run. -/
theorem rewards_visits : PenaltyBox.rewards (env.visits pub s cs) = env.rewarded pub s cs := by
  induction cs generalizing s with
  | nil => rfl
  | cons c cs ih =>
      have hmark : PenaltyBox.rewards (env.visit? pub s c).toList =
          if c.peer = pub ∧ env.verdict s c = .score 1 then 1 else 0 := by
        unfold visit?
        cases hpass : env.passes c.clk s c.peer with
        | false => simp [verdict_of_not_passes hpass, PenaltyBox.rewards]
        | true =>
            by_cases hpeer : c.peer = pub
            · have hmod : (env.verdict s c).Moderate := moderate_verdict
              cases hv : env.verdict s c with
              | none =>
                  simp [hpeer, PenaltyBox.rewards, PenaltyBox.Visit.gain, Verdict.mark]
              | penalty delta =>
                  simp [hpeer, PenaltyBox.rewards, PenaltyBox.Visit.gain, Verdict.mark]
              | score delta =>
                  rw [hv] at hmod
                  rcases hmod with rfl | rfl
                  · simp [hpeer, PenaltyBox.rewards, PenaltyBox.Visit.gain, Verdict.mark]
                  · simp [hpeer, PenaltyBox.rewards, PenaltyBox.Visit.gain, Verdict.mark]
            · simp [hpeer, PenaltyBox.rewards]
      rw [visits, PenaltyBox.rewards, List.map_append, List.sum_append, ← PenaltyBox.rewards,
        ← PenaltyBox.rewards, hmark, ih, rewarded, rewarded, verdicts, List.countP_cons]
      by_cases h : c.peer = pub ∧ env.verdict s c = .score 1
      · simp [h, Int.add_comm]
      · simp [h]

/-- In any run of the handler, between the times `a` and `b` and with any messages of any peers,
the messages of one peer that are penalised number at most half of its score above minus fifty and
of its rewarded messages, and one, and one for each ten minutes. -/
theorem penalised_bounded (env : GossipEnv F D) (pub : String) (s : GossipState F)
    (cs : List (GossipCall D)) {a b : ℤ} (ha : 0 ≤ a) (hb : b + 600 < 2 ^ 63)
    (htimes : InOrder a b cs)
    (hscore : |(s.stats.getPeerStat pub).1.score.toInt| + 100 * cs.length < 2 ^ 63) :
    (env.penalised pub s cs : ℚ) ≤
      (max 0 ((s.stats.getPeerStat pub).1.score.toInt + 49) + env.rewarded pub s cs) / 2 + 1 +
        (b - a) / 600 := by
  have hadmitted : Run.Admitted (PenaltyBox.Record.after gossipRules) PenaltyBox.Open
      (s.stats.box pub) (env.visits pub s cs) := admitted_visits ha hb htimes hscore
  obtain ⟨free, banning, htotal, hpaid, hapart⟩ :=
    PenaltyBox.exists_split fair_visits (timed_visits htimes) hadmitted
  rw [penalties_visits] at htotal
  rw [rewards_visits] at hpaid
  -- the two halves of the split, as rational numbers
  have hpaid : (2 * free : ℚ) ≤ max 0 ((s.stats.getPeerStat pub).1.score.toInt + 49) +
      env.rewarded pub s cs := by
    have hscore' : (s.stats.box pub).score - gossipRules.floor - 1 =
        (s.stats.getPeerStat pub).1.score.toInt + 49 := by
      simp only [PeerStats.box, gossipRules]
      omega
    rw [hscore'] at hpaid
    exact_mod_cast hpaid
  have hapart : (600 * banning : ℚ) ≤ 600 + (b - a) := by exact_mod_cast hapart
  rw [htotal]
  push_cast at hpaid ⊢
  linarith

end GossipEnv

namespace Sample

/-- A peer of another chain says hello three times: at first, while it is banned, and when the ban
has run out. Another peer sends something that cannot be decoded. -/
def strangers : List (GossipCall Payload) :=
  [⟨atSecond 10, 0, "02", .ofData .hello (.hello "other" "")⟩,
    ⟨atSecond 11, 0, "03", .ofData .peers .none⟩,
    ⟨atSecond 12, 0, "02", .ofData .hello (.hello "other" "")⟩,
    ⟨atSecond 611, 0, "02", .ofData .hello (.hello "other" "")⟩]

end Sample

open Sample

/-- The first hello gets the peer banned, the second is not read, and the third is penalised again:
two penalties within 601 seconds, which the bound allows for. -/
theorem GossipEnv.penalised_bounded_strangers :
    let s := listening (Sample.node.genesisDB ∅)
    (∀ c ∈ strangers.head?, (talker.step s c).stats.isBanned 12 "02" = true) ∧
    talker.penalised "02" s strangers = 2 ∧
    (talker.penalised "02" s strangers : ℚ) ≤
      (max 0 ((s.stats.getPeerStat "02").1.score.toInt + 49) +
        talker.rewarded "02" s strangers) / 2 + 1 + ((611 : ℤ) - (10 : ℤ)) / 600 := by
  refine ⟨by decide +kernel, by decide +kernel, ?_⟩
  exact penalised_bounded talker "02" _ strangers (by decide) (by decide)
    ⟨by decide, by decide, by decide, by decide, by decide, by decide, by decide, by decide,
      show (611 : ℤ) ≤ 611 from le_rfl⟩ (by decide)

end ReserveOS
