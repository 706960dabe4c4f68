import ReserveOS.Correctness.Participation
import ReserveOS.General.Run
import ReserveOS.Node.PopScores

/-!
# Scores under requests

Between two payouts the scores change by `/pop/event` and `/pop/heartbeat` alone. What a request
does is to add one number to one score (`db_popStep`), in `uint64`. `scores_grow_iff` says exactly
when no score and no effective weight ever goes down along a run of requests: no sum passes the
largest `uint64`, and no positive score passes `2 ^ 63`, from where it counts as the registered
weight, unless that weight is at least the score.
-/

namespace ReserveOS

/-- The body of a request that is acted on. -/
def PopRequest.accepted (req : PopRequest) : Option PopBody :=
  if req.method = "POST" then req.body.bind fun body => if body.id = "" then none else some body
  else none

/-- The id and the number that a request adds to its score, if it does. -/
def PopCall.added : PopCall → Option (String × UInt64)
  | .event _ req => req.accepted.map fun body =>
      (body.id, orOne body.delta * eventMul (if body.type = "" then "heartbeat" else body.type))
  | .heartbeat req => req.accepted.map fun body => (body.id, orOne body.delta)

/-- Every request adds to at most one score, and does nothing else to the tables of the
distribution. -/
theorem db_popStep (s : PopStore) (c : PopCall) :
    (popStep s c).db = c.added.elim s.db fun e => s.db.addScore e.1 e.2 := by
  -- both handlers make the same three checks before they write
  cases c with
  | event now req =>
      rw [popStep, popEvent, PopCall.added, PopRequest.accepted]
      by_cases hpost : req.method = "POST"
      · rw [if_neg (not_not.mpr hpost), if_pos hpost]
        rcases req.body with _ | body
        · rfl
        · by_cases hid : body.id = "" <;> simp [hid, PopStore.putPopEvent]
      · rw [if_pos hpost, if_neg hpost]
        rfl
  | heartbeat req =>
      rw [popStep, popHeartbeat, PopCall.added, PopRequest.accepted]
      by_cases hpost : req.method = "POST"
      · rw [if_neg (not_not.mpr hpost), if_pos hpost]
        rcases req.body with _ | body
        · rfl
        · by_cases hid : body.id = "" <;> simp [hid]
      · rw [if_pos hpost, if_neg hpost]
        rfl

namespace PopDB

/-- No score goes down, and no effective weight of the participants does that had a score. -/
structure Grows (parts : List Participant) (s t : PopDB) : Prop where
  score : ∀ id, s.getScore id ≤ t.getScore id
  weight : ∀ p ∈ parts, 0 < s.getScore p.id → s.weightOf p ≤ t.weightOf p

/-- Adding `delta` to a score does not lower anything. Where the score passes `2 ^ 63`, the weight
of its participant falls back to the registered one, which must not be lower. -/
structure Fits (parts : List Participant) (s : PopDB) (id : String) (delta : UInt64) : Prop where
  score : (s.getScore id).toNat + delta.toNat < 2 ^ 64
  weight : ∀ p ∈ parts, p.id = id → 0 < p.weight → 0 < s.getScore id →
    (s.getScore id).toNat < 2 ^ 63 → 2 ^ 63 ≤ (s.getScore id).toNat + delta.toNat →
    ((s.getScore id).toNat : ℤ) ≤ p.weight.toInt

variable {parts : List Participant} {s t u : PopDB}

theorem Grows.refl (parts : List Participant) (s : PopDB) : s.Grows parts s :=
  ⟨fun _ => UInt64.le_rfl, fun _ _ _ => Int64.le_rfl⟩

theorem Grows.trans (h : s.Grows parts t) (h' : t.Grows parts u) : s.Grows parts u := by
  refine ⟨fun id => UInt64.le_trans (h.score id) (h'.score id), fun p hp hpos => ?_⟩
  -- a positive score stays positive
  have hpos' : 0 < t.getScore p.id := UInt64.lt_of_lt_of_le hpos (h.score p.id)
  exact Int64.le_trans (h.weight p hp hpos) (h'.weight p hp hpos')

theorem getScore_addScore (s : PopDB) (id a : String) (delta : UInt64) :
    (s.addScore id delta).getScore a = if id = a then s.getScore id + delta else s.getScore a := by
  rw [getScore, addScore, Table.getElem?_put]
  split
  · rfl
  · rfl

/-- The conversion to `int64` gives a positive number up to `2 ^ 63 - 1` and not beyond. -/
theorem toInt64_le_zero_iff (v : UInt64) : v.toInt64 ≤ 0 ↔ ¬ (0 < v.toNat ∧ v.toNat < 2 ^ 63) := by
  have hv := v.toNat_lt
  rw [Int64.le_iff_toInt_le]
  show v.toBitVec.toInt ≤ 0 ↔ _
  rw [BitVec.toInt_eq_toNat_cond, UInt64.toNat_toBitVec]
  split <;> omega

/-- The weight that counts, as an integer. -/
theorem toInt_weightOf_eq (s : PopDB) (p : Participant) :
    (s.weightOf p).toInt = if p.weight ≤ 0 then 0
      else if 0 < (s.getScore p.id).toNat ∧ (s.getScore p.id).toNat < 2 ^ 63 then
        ((s.getScore p.id).toNat : ℤ)
      else p.weight.toInt := by
  have hscore := toInt64_le_zero_iff (s.getScore p.id)
  rw [weightOf, effectiveWeight]
  split
  · rfl
  · split
    · next h => rw [if_neg (hscore.mp h)]
    · next h =>
        have hsmall := not_not.mp (mt hscore.mpr h)
        rw [if_pos hsmall, toInt_toInt64_of_lt hsmall.2]

/-- A sum in `uint64` is not below its first part exactly when it does not wrap. -/
theorem le_add_iff (a d : UInt64) : a ≤ a + d ↔ a.toNat + d.toNat < 2 ^ 64 := by
  have ha := a.toNat_lt
  have hd := d.toNat_lt
  rw [UInt64.le_iff_toNat_le, UInt64.toNat_add]
  omega

theorem getScore_addScore_self (s : PopDB) (id : String) (delta : UInt64) :
    (s.addScore id delta).getScore id = s.getScore id + delta := by
  rw [getScore_addScore, if_pos rfl]

/-- Where the sum fits, the weight of the participant goes down only if the score passes `2 ^ 63`
and the registered weight is lower than the score was. -/
theorem weightOf_le_addScore_iff {p : Participant} {delta : UInt64}
    (hfits : (s.getScore p.id).toNat + delta.toNat < 2 ^ 64) (hpos : 0 < s.getScore p.id) :
    s.weightOf p ≤ (s.addScore p.id delta).weightOf p ↔
      (0 < p.weight → (s.getScore p.id).toNat < 2 ^ 63 →
        2 ^ 63 ≤ (s.getScore p.id).toNat + delta.toNat →
        ((s.getScore p.id).toNat : ℤ) ≤ p.weight.toInt) := by
  have hpos : 0 < (s.getScore p.id).toNat := UInt64.lt_iff_toNat_lt.mp hpos
  rw [Int64.le_iff_toInt_le, toInt_weightOf_eq, toInt_weightOf_eq, getScore_addScore_self,
    UInt64.toNat_add, Nat.mod_eq_of_lt hfits]
  by_cases hreg : p.weight ≤ 0
  · rw [if_pos hreg, if_pos hreg]
    exact iff_of_true Int.le_rfl fun h => absurd h (Int64.not_lt.mpr hreg)
  · rw [if_neg hreg, if_neg hreg, imp_iff_right (Int64.not_le.mp hreg)]
    -- below `2 ^ 63` before and after, before only, or neither
    split
    · next hbefore =>
        split
        · next hafter => exact iff_of_true (by omega) fun _ habove => by omega
        · next hafter =>
            have habove := Nat.not_lt.mp fun hbelow => hafter ⟨by omega, hbelow⟩
            exact ⟨fun hle _ _ => hle, fun hkeeps => hkeeps hbefore.2 habove⟩
    · next hbefore =>
        rw [if_neg (by omega)]
        exact iff_of_true Int.le_rfl fun hbelow => absurd ⟨hpos, hbelow⟩ hbefore

/-- Adding to a score lowers nothing exactly if the sum fits. -/
theorem grows_addScore_iff (id : String) (delta : UInt64) :
    s.Grows parts (s.addScore id delta) ↔ s.Fits parts id delta := by
  constructor
  · rintro ⟨hscore, hweight⟩
    have hfits := hscore id
    rw [getScore_addScore_self, le_add_iff] at hfits
    refine ⟨hfits, ?_⟩
    rintro p hp rfl hreg hpos
    exact (weightOf_le_addScore_iff hfits hpos).mp (hweight p hp hpos) hreg
  · rintro ⟨hfits, hweight⟩
    refine ⟨fun a => ?_, fun p hp hpos => ?_⟩
    · rw [getScore_addScore]
      split
      · next heq => exact heq ▸ (le_add_iff _ _).mpr hfits
      · exact UInt64.le_rfl
    · by_cases hid : p.id = id
      · subst hid
        exact (weightOf_le_addScore_iff hfits hpos).mpr fun hreg => hweight p hp rfl hreg hpos
      · -- the score of another participant is as it was
        rw [Int64.le_iff_toInt_le, toInt_weightOf_eq, toInt_weightOf_eq, getScore_addScore,
          if_neg (Ne.symm hid)]

end PopDB

/-- The request does not lower anything. -/
def PopCall.Fits (parts : List Participant) (s : PopStore) (c : PopCall) : Prop :=
  ∀ e ∈ c.added, s.db.Fits parts e.1 e.2

/-- For every start, every list of participants and every sequence of requests: from each state of
the run to each later one no score goes down, and no effective weight of a participant whose score
was positive, if and only if each request of the run fits. -/
theorem scores_grow_iff (parts : List Participant) (s : PopStore) (cs : List PopCall) :
    (Run.states popStep s cs).Pairwise (fun t u => t.db.Grows parts u.db) ↔
      Run.Admitted popStep (PopCall.Fits parts) s cs := by
  refine Run.pairwise_states_iff (I := fun _ => True) (E := fun _ => True)
    (R := fun t u : PopStore => t.db.Grows parts u.db) (fun _ _ _ _ => trivial)
    (fun t c _ _ => ?_) (fun t u v => PopDB.Grows.trans) (fun _ _ => trivial) trivial
  rw [db_popStep, PopCall.Fits]
  cases hadded : c.added with
  | none => exact iff_of_true (PopDB.Grows.refl parts t.db) (by simp)
  | some e =>
      rw [Option.elim_some, PopDB.grows_addScore_iff]
      simp

namespace Sample

/-- One participant of weight one, without a score. -/
def oneParticipant : PopStore := ⟨(poolOf 0).register "a" 1 0, ∅⟩

/-- A heartbeat of the participant. -/
def beat (delta : UInt64) : PopCall := .heartbeat ⟨"POST", some ⟨"a", "", delta⟩⟩

end Sample

open Sample

/-- A score of one and a heartbeat of `2 ^ 64 - 1`: the score is zero again. A score of
`2 ^ 63 - 1` and a heartbeat of one: the weight falls to the registered one. -/
theorem not_scores_grow_beats :
    ¬ (Run.states popStep oneParticipant
        [beat 1, beat 18446744073709551615]).Pairwise
          (fun t u => t.db.Grows [⟨"a", 1, 0⟩] u.db) ∧
      ¬ (Run.states popStep oneParticipant
        [beat 9223372036854775807, beat 1]).Pairwise
          (fun t u => t.db.Grows [⟨"a", 1, 0⟩] u.db) := by
  constructor
  · intro h
    have hlast := (List.pairwise_cons.mp (List.pairwise_cons.mp h).2).1 _ List.mem_cons_self
    exact absurd (hlast.score "a") (by decide +kernel)
  · intro h
    have hlast := (List.pairwise_cons.mp (List.pairwise_cons.mp h).2).1 _ List.mem_cons_self
    have hscored : 0 < (popStep oneParticipant (beat 9223372036854775807)).db.getScore
        "a" := by decide +kernel
    exact absurd (hlast.weight ⟨"a", 1, 0⟩ List.mem_cons_self hscored) (by decide +kernel)

end ReserveOS
