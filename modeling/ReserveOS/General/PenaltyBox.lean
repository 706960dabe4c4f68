import Mathlib.Tactic.Linarith
import ReserveOS.General.Run

/-!
# Penalty boxes

A visitor has a score. A visit may be rewarded or penalised, and a penalty that brings the score
down to `floor` or below closes the door for the time `ban`; a reward does not open it again.

`exists_split` bounds the penalties of a visitor over any sequence of visits in a window of time:
those that did not close the door are paid for by the score it came with and by its rewards, and
between two that did lies the time `ban`.
-/

namespace PenaltyBox

/-- The score that closes the door, for how long, and the smallest penalty. -/
structure Rules where
  floor : ℤ
  ban : ℤ
  cost : ℤ
  ban_nonneg : 0 ≤ ban
  cost_nonneg : 0 ≤ cost

/-- What is kept of a visitor. -/
structure Record where
  score : ℤ
  bannedUntil : ℤ

/-- What becomes of a visit. -/
inductive Mark where
  | pass
  | reward (amount : ℤ)
  | penalty (amount : ℤ)

/-- A visit: when the visitor comes to the door, and when the mark is made. -/
structure Visit where
  entered : ℤ
  marked : ℤ
  mark : Mark

variable (R : Rules)

/-- The record after a visit. -/
def Record.after (r : Record) (v : Visit) : Record :=
  match v.mark with
  | .pass => r
  | .reward amount => { r with score := r.score + amount }
  | .penalty amount =>
      { score := r.score - amount
        bannedUntil := if r.score - amount ≤ R.floor then v.marked + R.ban else r.bannedUntil }

/-- The door is open for the visit. -/
def Open (r : Record) (v : Visit) : Prop := r.bannedUntil ≤ v.entered

/-- Rewards are not negative, and a penalty is at least the smallest one. -/
def Visit.Fair (v : Visit) : Prop :=
  match v.mark with
  | .pass => True
  | .reward amount => 0 ≤ amount
  | .penalty amount => R.cost ≤ amount

/-- The visits follow each other in the time from `a` to `b`. -/
def Timed : ℤ → ℤ → List Visit → Prop
  | a, b, [] => a ≤ b
  | a, b, v :: vs => a ≤ v.entered ∧ v.entered ≤ v.marked ∧ Timed v.marked b vs

/-- The visit is penalised. -/
def Visit.penalised (v : Visit) : Bool :=
  match v.mark with
  | .penalty _ => true
  | _ => false

/-- The reward of a visit. -/
def Visit.gain (v : Visit) : ℤ :=
  match v.mark with
  | .reward amount => amount
  | _ => 0

/-- The penalties of a list of visits. -/
def penalties (vs : List Visit) : ℕ := vs.countP Visit.penalised

/-- The rewards of a list of visits. -/
def rewards (vs : List Visit) : ℤ := (vs.map Visit.gain).sum

variable {R}

theorem Timed.le {a b : ℤ} {vs : List Visit} (h : Timed a b vs) : a ≤ b := by
  induction vs generalizing a with
  | nil => exact h
  | cons v vs ih =>
      have := ih h.2.2
      exact (h.1.trans h.2.1).trans this

/-- An earlier start. -/
theorem Timed.mono {a a' b : ℤ} {vs : List Visit} (h : Timed a b vs) (ha : a' ≤ a) :
    Timed a' b vs := by
  cases vs with
  | nil => exact ha.trans h
  | cons v vs => exact ⟨ha.trans h.1, h.2⟩

/-- What the penalties of a list of visits are split into: `free` of them left the door open,
`banning` of them closed it. -/
structure Split (R : Rules) (r : Record) (a b : ℤ) (vs : List Visit) (free banning : ℕ) :
    Prop where
  total : penalties vs = free + banning
  paid : R.cost * free ≤ max 0 (r.score - R.floor - 1) + rewards vs
  apart : R.ban * banning ≤ R.ban + (b - a)

/-- A visit without a penalty. Its reward, if any, raises the score. -/
theorem Split.cons_unpenalised {r : Record} {v : Visit} {vs : List Visit} {a b : ℤ}
    {free banning : ℕ} (h : Split R (r.after R v) v.marked b vs free banning)
    (hv : v.penalised = false) (hfair : v.Fair R) (ha : a ≤ v.marked) :
    Split R r a b (v :: vs) free banning := by
  have hscore : (r.after R v).score = r.score + v.gain ∧ 0 ≤ v.gain := by
    unfold Visit.penalised at hv
    unfold Visit.Fair at hfair
    unfold Record.after Visit.gain
    cases hm : v.mark with
    | pass => simp
    | reward amount => simpa [hm] using hfair
    | penalty amount => simp [hm] at hv
  obtain ⟨hscore, hgain⟩ := hscore
  refine ⟨?_, ?_, ?_⟩
  · simp [penalties, hv, ← h.total]
  · have hpaid := h.paid
    have hsum : rewards (v :: vs) = v.gain + rewards vs := by simp [rewards]
    rw [hscore] at hpaid
    rw [hsum]
    omega
  · have := h.apart
    linarith

/-- What a penalty does to the score, and to the counts of the visits. -/
theorem cons_penalty (r : Record) {v : Visit} (vs : List Visit) {amount : ℤ}
    (hv : v.mark = .penalty amount) : (r.after R v).score = r.score - amount ∧
      penalties (v :: vs) = penalties vs + 1 ∧ rewards (v :: vs) = rewards vs := by
  simp [Record.after, penalties, Visit.penalised, rewards, Visit.gain, hv]

/-- A penalty that leaves the door open is paid from the score. -/
theorem Split.cons_free {r : Record} {v : Visit} {vs : List Visit} {a b amount : ℤ}
    {free banning : ℕ} (h : Split R (r.after R v) v.marked b vs free banning)
    (hv : v.mark = .penalty amount) (hcost : R.cost ≤ amount) (hopen : R.floor < r.score - amount)
    (ha : a ≤ v.marked) : Split R r a b (v :: vs) (free + 1) banning := by
  obtain ⟨hscore, hcount, hsum⟩ := cons_penalty (R := R) r vs hv
  refine ⟨?_, ?_, ?_⟩
  · rw [hcount, h.total]
    omega
  · have hpaid := h.paid
    have hnonneg := R.cost_nonneg
    rw [hscore] at hpaid
    rw [hsum]
    push_cast
    rw [mul_add, mul_one]
    omega
  · have := h.apart
    linarith

/-- A penalty that closes the door. The visits that follow, if any, begin when it opens again. -/
theorem Split.cons_banning {r : Record} {v : Visit} {vs : List Visit} {a b amount : ℤ}
    {free banning : ℕ}
    (h : Split R (r.after R v) (if vs = [] then v.marked else v.marked + R.ban) b vs free banning)
    (hv : v.mark = .penalty amount) (hclosed : r.score - amount ≤ R.floor) (ha : a ≤ v.marked)
    (hb : v.marked ≤ b) : Split R r a b (v :: vs) free (banning + 1) := by
  obtain ⟨hscore, hcount, hsum⟩ := cons_penalty (R := R) r vs hv
  refine ⟨?_, ?_, ?_⟩
  · rw [hcount, h.total]
    omega
  · have hpaid := h.paid
    rw [hscore] at hpaid
    rw [hsum]
    omega
  · have happart := h.apart
    push_cast
    rw [mul_add, mul_one]
    split at happart
    next hnil =>
      -- there is no further visit, so no further penalty
      have hzero : banning = 0 := by
        have := h.total
        simp only [hnil, penalties, List.countP_nil] at this
        omega
      subst hzero
      simp only [Nat.cast_zero, mul_zero]
      linarith
    next => linarith

/-- The penalties of any sequence of visits split. -/
theorem exists_split {r : Record} {a b : ℤ} {vs : List Visit} (hfair : ∀ v ∈ vs, v.Fair R)
    (htimed : Timed a b vs) (hopen : Run.Admitted (Record.after R) Open r vs) :
    ∃ free banning, Split R r a b vs free banning := by
  induction vs generalizing r a with
  | nil =>
      refine ⟨0, 0, rfl, ?_, ?_⟩
      · simp [rewards]
      · have hban := R.ban_nonneg
        have hle : a ≤ b := htimed
        simp only [Nat.cast_zero, mul_zero]
        linarith
  | cons v vs ih =>
      obtain ⟨ha, hm, htail⟩ := htimed
      have hrest : ∀ u ∈ vs, u.Fair R := fun u hu => hfair u (List.mem_cons_of_mem _ hu)
      have hv := hfair v List.mem_cons_self
      have hle : a ≤ v.marked := ha.trans hm
      cases hp : v.penalised with
      | false =>
          obtain ⟨free, banning, hsplit⟩ := ih hrest htail hopen.2
          exact ⟨free, banning, hsplit.cons_unpenalised hp hv hle⟩
      | true =>
          obtain ⟨amount, hmark⟩ : ∃ amount, v.mark = .penalty amount := by
            cases hmark : v.mark <;> simp [Visit.penalised, hmark] at hp ⊢
          have hcost : R.cost ≤ amount := by simpa [Visit.Fair, hmark] using hv
          rcases lt_or_ge R.floor (r.score - amount) with hfree | hclosed
          · obtain ⟨free, banning, hsplit⟩ := ih hrest htail hopen.2
            exact ⟨free + 1, banning, hsplit.cons_free hmark hcost hfree hle⟩
          · -- the next visit is admitted, hence not before the door opens
            have htail' : Timed (if vs = [] then v.marked else v.marked + R.ban) b vs := by
              cases vs with
              | nil => simpa using htail
              | cons u us =>
                  have hu : (r.after R v).bannedUntil ≤ u.entered := hopen.2.1
                  simp only [Record.after, hmark, if_pos hclosed] at hu
                  exact ⟨hu, htail.2⟩
            obtain ⟨free, banning, hsplit⟩ := ih hrest htail' hopen.2
            exact ⟨free, banning + 1, hsplit.cons_banning hmark hclosed hle htail.le⟩

end PenaltyBox
