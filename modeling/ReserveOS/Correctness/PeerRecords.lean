import Mathlib.Algebra.BigOperators.Fin
import ReserveOS.General.SharedCell
import ReserveOS.Storage.PeerAccess

/-!
# Scores and bans under concurrent calls

The record of a peer keeps every penalty and every ban exactly if each write is made from a record
whose score is the stored one, and each change of the score from a record whose ban is the stored
one as well (`peerRecord_kept_iff`). The cell of `SharedCell` is the pair of score and ban, and what
it should hold is the initial pair with the logged updates applied.
-/

namespace ReserveOS

/-! ### Updates of the pair of score and ban -/

namespace PeerStat

/-- The fields that the calls change. -/
def view (ps : PeerStat) : Int64 × Int64 := (ps.score, ps.bannedUntil)

end PeerStat

namespace PeerUpdate

/-- What an update does to score and ban. -/
def act (u : PeerUpdate) (v : Int64 × Int64) : Int64 × Int64 :=
  match u with
  | .add delta => (v.1 + delta, v.2)
  | .ban until_ => (v.1, until_)

/-- What an update adds to the score. -/
def delta (u : PeerUpdate) : ℤ :=
  match u with
  | .add delta => delta.toInt
  | .ban _ => 0

/-- The end of the ban that an update sets. -/
def ban? (u : PeerUpdate) : Option Int64 :=
  match u with
  | .add _ => none
  | .ban until_ => some until_

/-- A record has the stored score and, where the update keeps the ban, the stored ban. -/
def Agrees (u : PeerUpdate) (ps stored : PeerStat) : Prop :=
  ps.score = stored.score ∧ (u.ban? = none → ps.bannedUntil = stored.bannedUntil)

instance (u : PeerUpdate) (ps stored : PeerStat) : Decidable (u.Agrees ps stored) :=
  inferInstanceAs (Decidable (_ ∧ (_ → _)))

theorem act_eq_iff (u : PeerUpdate) (ps stored : PeerStat) :
    u.act ps.view = u.act stored.view ↔ u.Agrees ps stored := by
  unfold Agrees
  cases u <;> simp [act, ban?, PeerStat.view]

/-- A written record has the update applied. -/
theorem view_apply (u : PeerUpdate) (ps : PeerStat) (pub : String) :
    (ps.apply pub u).view = u.act ps.view := by
  cases u <;> rfl

/-- All updates of a log, oldest first: the deltas add up, and the newest ban stands. -/
theorem foldr_act (log : List PeerUpdate) (v : Int64 × Int64) :
    log.foldr act v =
      (Int64.ofInt (v.1.toInt + (log.map delta).sum), (log.findSome? ban?).getD v.2) := by
  induction log with
  | nil => simp
  | cons u log ih =>
      rw [List.foldr_cons, ih]
      cases u with
      | add d =>
          have hsum : v.1.toInt + (d.toInt + (log.map delta).sum) =
              v.1.toInt + (log.map delta).sum + d.toInt := by omega
          simp [act, delta, List.findSome?_cons, ban?, hsum, Int64.ofInt_add]
      | ban t => simp [act, delta, List.findSome?_cons, ban?]

end PeerUpdate

/-! ### One access -/

namespace PeerCall

/-- The function that a call is a call of, with the clock readings of its two writes. -/
def run (c : PeerCall) (db : PeerStats) (pub : String) (now stamp now' stamp' : Int64) :
    PeerStats :=
  match c with
  | .addPeerScore d => (db.addPeerScore stamp pub d).2
  | .penalizePeer d => db.penalizePeer now' stamp stamp' pub d
  | .banPeer seconds => db.banPeer now stamp pub seconds
  | .unbanPeer => db.unbanPeer stamp pub

/-- What a call adds to the score. -/
def delta (c : PeerCall) : ℤ :=
  match c with
  | .addPeerScore d => d.toInt
  | .penalizePeer d => d.toInt
  | .banPeer _ => 0
  | .unbanPeer => 0

/-- What a call has added to the score so far. -/
def added (c : PeerCall) (p : PeerPhase) : ℤ :=
  match p with
  | .start => 0
  | .read _ => 0
  | _ => c.delta

variable (c : PeerCall) (ps : PeerStat)

@[simp] theorem added_start : c.added .start = 0 := rfl

@[simp] theorem added_read : c.added (.read ps) = 0 := rfl

@[simp] theorem added_ban : c.added .ban = c.delta := rfl

@[simp] theorem added_banRead : c.added (.banRead ps) = c.delta := rfl

@[simp] theorem added_done : c.added .done = c.delta := rfl

theorem delta_update (now : Int64) : (c.update now).delta = c.delta := by
  cases c <;> rfl

/-- After its first write a call has made its change of the score. -/
theorem added_next : c.added (c.next ps) = c.delta := by
  cases c with
  | penalizePeer d =>
      show (PeerCall.penalizePeer d).added (if ps.score ≤ -50 then .ban else .done) = _
      split <;> rfl
  | _ => rfl

end PeerCall

namespace PeerRun

variable {ι : Type*} [DecidableEq ι] (pub : String) (call : ι → PeerCall)

omit [DecidableEq ι] in
/-- The record that a write is made from, and its update. -/
def pending (s : PeerRun ι) (a : PeerAccess ι) : Option (PeerStat × PeerUpdate) :=
  match s.phase a.call with
  | .read ps => some (ps, (call a.call).update a.now)
  | .banRead ps => some (ps, .ban (a.now + 600))
  | _ => none

/-- A write puts the updated record in the database and in the log. -/
theorem step_of_pending {s : PeerRun ι} {a : PeerAccess ι} {ps : PeerStat} {u : PeerUpdate}
    (h : pending call s a = some (ps, u)) : ∃ p, s.step pub call a = s.put pub a ps u p := by
  unfold pending at h
  unfold step
  split at h
  · simp only [Option.some.injEq, Prod.mk.injEq] at h
    obtain ⟨rfl, rfl⟩ := h
    simp_all
  · simp only [Option.some.injEq, Prod.mk.injEq] at h
    obtain ⟨rfl, rfl⟩ := h
    simp_all
  · cases h

/-- Any other access leaves the database and the log as they are. -/
theorem step_of_idle {s : PeerRun ι} {a : PeerAccess ι} (h : pending call s a = none) :
    (s.step pub call a).db = s.db ∧ (s.step pub call a).log = s.log := by
  unfold pending at h
  unfold step
  split at h
  · cases h
  · cases h
  · split <;> simp_all [goto]

/-- The read and the first write of a call, one right after the other. -/
theorem step_step_of_start {s : PeerRun ι} {i : ι} (h : s.phase i = .start)
    (now₀ stamp₀ now stamp : Int64) :
    (s.step pub call ⟨i, now₀, stamp₀⟩).step pub call ⟨i, now, stamp⟩ = let u := (call i).update now
      s.put pub ⟨i, now, stamp⟩ (s.record pub) u
        ((call i).next ((s.record pub).apply pub u)) := by
  simp [step, h, goto, put]

/-- The same for the ban of `penalizePeer`. -/
theorem step_step_of_ban {s : PeerRun ι} {i : ι} (h : s.phase i = .ban)
    (now₀ stamp₀ now stamp : Int64) :
    (s.step pub call ⟨i, now₀, stamp₀⟩).step pub call ⟨i, now, stamp⟩ =
      s.put pub ⟨i, now, stamp⟩ (s.record pub) (.ban (now + 600)) .done := by
  simp [step, h, goto, put]

theorem step_of_done {s : PeerRun ι} {i : ι} (h : s.phase i = .done) (now stamp : Int64) :
    s.step pub call ⟨i, now, stamp⟩ = s := by
  simp [step, h]

/-- A call whose accesses follow one another does what its function does. -/
theorem db_of_alone {s : PeerRun ι} {i : ι} (h : s.phase i = .start)
    (now₀ stamp₀ now stamp now₁ stamp₁ now' stamp' : Int64) :
    ([⟨i, now₀, stamp₀⟩, ⟨i, now, stamp⟩, ⟨i, now₁, stamp₁⟩, ⟨i, now', stamp'⟩].foldl
      (step pub call) s).db = (call i).run s.db pub now stamp now' stamp' := by
  simp only [List.foldl_cons, List.foldl_nil]
  rw [step_step_of_start pub call h]
  dsimp only
  have hdone (u : PeerUpdate) :
      (s.put pub ⟨i, now, stamp⟩ (s.record pub) u .done).phase i = .done := by simp [put]
  cases hc : call i with
  | penalizePeer d =>
      -- the score that the first write has put in the record decides whether there is a second
      by_cases hlow : ((s.record pub).scored pub d).score ≤ -50
      · have hnext : (PeerCall.penalizePeer d).next ((s.record pub).scored pub d) = .ban :=
          if_pos hlow
        simp only [PeerCall.update, PeerStat.apply, hnext]
        rw [step_step_of_ban pub call (by simp [put])]
        exact (if_pos hlow).symm
      · have hnext : (PeerCall.penalizePeer d).next ((s.record pub).scored pub d) = .done :=
          if_neg hlow
        simp only [PeerCall.update, PeerStat.apply, hnext]
        rw [step_of_done pub call (hdone _), step_of_done pub call (hdone _)]
        exact (if_neg hlow).symm
  | _ =>
      simp only [PeerCall.next]
      rw [step_of_done pub call (hdone _), step_of_done pub call (hdone _)]
      rfl

omit [DecidableEq ι] in
/-- Reading the record after a write. -/
theorem view_getPeerStat_put (db : PeerStats) (stamp : Int64) (ps : PeerStat) (u : PeerUpdate) :
    ((db.putPeerStat stamp (ps.apply pub u)).getPeerStat pub).1.view = u.act ps.view := by
  have hkey : (ps.apply pub u).pubkeyHex = pub := by cases u <;> rfl
  rw [← PeerUpdate.view_apply u ps pub]
  simp [PeerStats.putPeerStat, PeerStats.getPeerStat, hkey, PeerStat.view]

/-- The cell of one peer's score and ban, and the value without lost updates. -/
def sharedCell (v : Int64 × Int64) : SharedCell (PeerRun ι) (PeerAccess ι) (Int64 × Int64) where
  step := step pub call
  cell s := (s.record pub).view
  intended s := s.log.foldr PeerUpdate.act v
  writes s a := (pending call s a).map fun w => (w.1.view, w.2.act)
  cell_of_write s a c f h := by
    obtain ⟨⟨ps, u⟩, hw, hcf⟩ := Option.map_eq_some_iff.mp h
    obtain ⟨p, hstep⟩ := step_of_pending pub call hw
    cases hcf
    rw [hstep]
    exact view_getPeerStat_put pub s.db a.stamp ps u
  cell_of_idle s a h := by
    have hidle := step_of_idle pub call (Option.map_eq_none_iff.mp h)
    simp [record, hidle.1]
  intended_of_write s a c f h := by
    obtain ⟨⟨ps, u⟩, hw, hcf⟩ := Option.map_eq_some_iff.mp h
    obtain ⟨p, hstep⟩ := step_of_pending pub call hw
    cases hcf
    rw [hstep]
    rfl
  intended_of_idle s a h := by
    have hidle := step_of_idle pub call (Option.map_eq_none_iff.mp h)
    simp [hidle.2]

omit [DecidableEq ι] in
/-- If the access writes, no other call has changed what the write leaves as it was. -/
def Undisturbed (s : PeerRun ι) (a : PeerAccess ι) : Prop :=
  ∀ w ∈ pending call s a, w.2.Agrees w.1 (s.record pub)

omit [DecidableEq ι] in
instance (s : PeerRun ι) (a : PeerAccess ι) : Decidable (s.Undisturbed pub call a) :=
  inferInstanceAs (Decidable (∀ w ∈ pending call s a, w.2.Agrees w.1 (s.record pub)))

/-- A write is fresh if nobody has disturbed the record that it was made from. -/
theorem fresh_iff (v : Int64 × Int64) (s : PeerRun ι) (a : PeerAccess ι) :
    (sharedCell pub call v).Fresh s a ↔ s.Undisturbed pub call a := by
  constructor
  · intro hfresh w hw
    rw [← PeerUpdate.act_eq_iff]
    refine hfresh _ _ ?_
    simp [sharedCell, Option.mem_def.mp hw]
  · intro hclear c f hcf
    obtain ⟨⟨ps, u⟩, hw, heq⟩ := Option.map_eq_some_iff.mp hcf
    cases heq
    exact (PeerUpdate.act_eq_iff u ps _).mpr (hclear _ hw)

omit [DecidableEq ι] in
/-- The score is the one of `ps₀` plus the deltas of all writes, and the ban is the one that the
last write of a ban has set. -/
def Kept (ps₀ : PeerStat) (s : PeerRun ι) : Prop :=
  (s.record pub).score = Int64.ofInt (ps₀.score.toInt + (s.log.map PeerUpdate.delta).sum) ∧
    (s.record pub).bannedUntil = (s.log.findSome? PeerUpdate.ban?).getD ps₀.bannedUntil

theorem current_iff_kept (ps₀ : PeerStat) (s : PeerRun ι) :
    (sharedCell pub call ps₀.view).Current s ↔ s.Kept pub ps₀ := by
  show (s.record pub).view = s.log.foldr PeerUpdate.act ps₀.view ↔ _
  rw [PeerUpdate.foldr_act]
  exact Prod.mk.injEq .. ▸ Iff.rfl

/-! ### All calls together -/

variable [Fintype ι]

/-- The logged deltas are what the calls have added so far. -/
def Accounted (s : PeerRun ι) : Prop :=
  (s.log.map PeerUpdate.delta).sum = ∑ i, (call i).added (s.phase i)

/-- One call moves on. -/
theorem sum_added_update (phase : ι → PeerPhase) (i : ι) (p : PeerPhase) :
    ∑ j, (call j).added (Function.update phase i p j) =
      ∑ j, (call j).added (phase j) + ((call i).added p - (call i).added (phase i)) := by
  have hsplit := Finset.add_sum_erase Finset.univ (fun j => (call j).added (phase j))
    (Finset.mem_univ i)
  simp only [Function.apply_update fun j => (call j).added]
  rw [Finset.sum_update_of_mem (Finset.mem_univ i), Finset.sdiff_singleton_eq_erase, ← hsplit]
  omega

/-- An access logs what its call adds. -/
theorem Accounted.step {s : PeerRun ι} (h : s.Accounted call) (a : PeerAccess ι) :
    (s.step pub call a).Accounted call := by
  unfold Accounted at h ⊢
  unfold PeerRun.step
  split
  case h_1 hp => simp [goto, sum_added_update, h, hp]
  case h_2 ps hp =>
      -- the first write of a call, the only one that can change the score
      simp [put, sum_added_update, h, hp, PeerCall.added_next, PeerCall.delta_update, add_comm]
  case h_3 hp => simp [goto, sum_added_update, h, hp]
  case h_4 ps hp => simp [put, sum_added_update, h, hp, PeerUpdate.delta]
  case h_5 => exact h

omit [DecidableEq ι] in
theorem accounted_start (db : PeerStats) : (start db : PeerRun ι).Accounted call := by
  simp [Accounted, start]

/-- In every run the record keeps all penalties and bans exactly if no write is disturbed; and once
all calls are done, the score is then the initial one plus the deltas of all calls. -/
theorem peerRecord_kept_iff (db : PeerStats) (es : List (PeerAccess ι)) :
    ((∀ t ∈ Run.states (step pub call) (start db) es, t.Kept pub (db.getPeerStat pub).1) ↔
      Run.Admitted (step pub call) (Undisturbed pub call) (start db) es) ∧
    (Run.Admitted (step pub call) (Undisturbed pub call) (start db) es →
      ∀ t, t = es.foldl (step pub call) (start db) → (∀ i, t.phase i = .done) →
        (t.record pub).score =
          Int64.ofInt ((db.getPeerStat pub).1.score.toInt + ∑ i, (call i).delta) ∧
        (t.record pub).bannedUntil =
          (t.log.findSome? PeerUpdate.ban?).getD (db.getPeerStat pub).1.bannedUntil) := by
  have hstart : (sharedCell pub call (db.getPeerStat pub).1.view).Current (start db) := rfl
  have hrun := SharedCell.forall_current_iff (current_iff_kept pub call (db.getPeerStat pub).1)
    (fresh_iff pub call _) hstart es
  refine ⟨hrun, ?_⟩
  rintro hadm t rfl hdone
  have hkept := hrun.mpr hadm _ (Run.foldl_mem_states _ _ _)
  have hacc : (es.foldl (step pub call) (start db)).Accounted call :=
    Run.invariant (E := fun _ => True) (fun s a h _ _ => h.step pub call a) (fun _ _ => trivial)
      (accounted_start call db) hadm _ (Run.foldl_mem_states _ _ _)
  -- with every call done, what they have added is what they add
  have hsum : ((es.foldl (step pub call) (start db)).log.map PeerUpdate.delta).sum =
      ∑ i, (call i).delta := by
    rw [hacc]
    simp [hdone]
  rw [← hsum]
  exact hkept

end PeerRun

namespace Sample

/-- A session handler takes ten points from a peer while an operator bans it for ten minutes. -/
def penaltyAndBan (operator : Bool) : PeerCall :=
  if operator then .banPeer 600 else .penalizePeer (-10)

/-- An access at time 1000. -/
def peerAccess (operator : Bool) : PeerAccess Bool := ⟨operator, 1000, 1000⟩

/-- The calls after a schedule, on an empty database. -/
def afterAccesses (schedule : List Bool) : PeerRun Bool :=
  (schedule.map peerAccess).foldl (PeerRun.step "peer" penaltyAndBan) (.start fun _ => none)

/-- The handler reads, the operator reads and writes, the handler writes. -/
def lostBan : List Bool := [false, true, true, false]

/-- The operator's call, then the handler's. -/
def keptBan : List Bool := [true, true, false, false]

end Sample

namespace PeerRun

open Sample

/-- Both calls of `Sample.lostBan` have returned, and the peer is not banned. -/
theorem not_peerRecord_kept_lostBan :
    (∀ i, (afterAccesses lostBan).phase i = .done) ∧
    (afterAccesses lostBan).log.findSome? PeerUpdate.ban? = some 1600 ∧
    ((afterAccesses lostBan).record "peer").bannedUntil = 0 ∧
    (afterAccesses lostBan).db.isBanned 1001 "peer" = false := by
  decide

/-- One call after the other, the penalty and the ban are both kept. -/
theorem peerRecord_kept_keptBan :
    ((afterAccesses keptBan).record "peer").score = -10 ∧
    ((afterAccesses keptBan).record "peer").bannedUntil = 1600 := by
  have hadm : Run.Admitted (step "peer" penaltyAndBan)
      (Undisturbed "peer" penaltyAndBan) (start fun _ => none)
      (keptBan.map peerAccess) := by
    refine ⟨?_, ?_, ?_, ?_, trivial⟩ <;> decide
  have hdone : ∀ i, (afterAccesses keptBan).phase i = .done := by decide
  obtain ⟨hscore, hban⟩ := (peerRecord_kept_iff "peer" penaltyAndBan (fun _ => none)
    (keptBan.map peerAccess)).2 hadm _ rfl hdone
  refine ⟨hscore.trans ?_, hban.trans ?_⟩
  · decide
  · decide

end PeerRun

end ReserveOS
