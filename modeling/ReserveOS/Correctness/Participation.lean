import ReserveOS.Economics.Pop
import ReserveOS.General.Apportion
import ReserveOS.General.Postings
import ReserveOS.General.WrapAround

/-!
# What the participation pool pays

`DistributeIfEpoch` divides the pool by the weights of the participants, in `int64`. The loop books
what it finds due (`dues`) up to the first credit that `AddBalance` refuses (`payLoop_spec`). As
long as the pool and the products stay below `2 ^ 63`, what is due is the general apportionment
(`dues_eq_postings`), so nothing is lost and nobody gets less than the floor. Where a product wraps
around, the participant gets less than the floor (`credit_lt_floor`); where the pool itself is
`2 ^ 63` or more, or a credit is refused, some of the pool is gone. `distribute_conserves_iff` puts
these together.
-/

namespace ReserveOS

open WrapAround

namespace PopDB

/-! ### The books of a distribution -/

/-- What the participation pool holds. -/
def pool (s : PopDB) : ℕ := (s.pools.getFeePool "participation").toNat

/-- The participants whose records decode, in the order of their keys. -/
def registered (s : PopDB) : List Participant := s.participants.toList.filterMap Prod.snd

/-- Every record is stored under its own id and has a positive weight. -/
def Registered (s : PopDB) : Prop :=
  ∀ (k : String) (p : Participant), s.participants[k]? = some (some p) → p.id = k ∧ 0 < p.weight

/-- The effective weight of a participant as a number. -/
def exactWeight (s : PopDB) (p : Participant) : ℕ := (s.effectiveWeight p).toInt.toNat

/-- The sum of all effective weights. -/
def exactTotal (s : PopDB) : ℕ := (s.registered.map s.exactWeight).sum

/-- What the account of a participant gains. -/
def credit (s s' : PopDB) (id : String) : ℤ :=
  (s'.ledger.getBalance (popAccount id)).toInt - (s.ledger.getBalance (popAccount id)).toInt

/-- What the pool held is in the pool or was credited to the participants' accounts. -/
def Conserves (s s' : PopDB) : Prop := (s.pool : ℤ) = s'.pool + ∑ᶠ id, s.credit s' id

/-- The distribution gets to the pay-out: an epoch ends, and the pool holds the minimum. -/
def due (s : PopDB) (height : UInt64) (params : PopParams) : Prop :=
  let params := if params.epochBlocks = 0 then PopParams.defaultParams else params
  epochEnds height params = true ∧ params.minPayout.toNat ≤ s.pool

instance (s : PopDB) (height : UInt64) (params : PopParams) : Decidable (s.due height params) :=
  inferInstanceAs (Decidable (_ ∧ _))

/-- All participant records can be read. -/
def Decodes (s : PopDB) : Prop :=
  ∀ (k : String) r, s.participants[k]? = some r → r ≠ none

/-- The distribution gets to the loop that pays the participants. -/
def PaysOut (s : PopDB) (height : UInt64) (params : PopParams) : Prop :=
  s.due height params ∧ ∃ parts, s.listParticipants 5000 = .ok parts ∧ parts ≠ [] ∧
    0 < s.totalWeight parts

/-- An amount can be booked on a balance. -/
def Bookable (l : Ledger) (e : String × ℤ) : Prop :=
  e.2 = 0 ∨ (0 ≤ (l.getBalance (popAccount e.1)).toInt + e.2 ∧
    (l.getBalance (popAccount e.1)).toInt + e.2 < 2 ^ 63)

instance (l : Ledger) (e : String × ℤ) : Decidable (Bookable l e) :=
  inferInstanceAs (Decidable (_ ∨ _))

/-- What the exact apportionment posts for the participants that are left. -/
def postings (s : PopDB) (d W r : ℕ) (parts : List Participant) : List (String × ℤ) :=
  (parts.map Participant.id).zip
    ((Apportion.shares d W r (parts.map s.exactWeight)).map (Nat.cast : ℕ → ℤ))

/-- The pay-out goes well: the pool is in the range of `int64`, and so is its product with every
weight but the last; and the exact shares fit on the balances. -/
structure Payable (s : PopDB) : Prop where
  pool : s.pool < 2 ^ 63
  product : ∀ p ∈ s.registered.dropLast, s.pool * s.exactWeight p < 2 ^ 63
  balance : ∀ e ∈ s.postings s.pool s.exactTotal s.pool s.registered, Bookable s.ledger e

variable {s : PopDB}

theorem popAccount_inj {a b : String} : popAccount a = popAccount b ↔ a = b := by
  unfold popAccount
  exact String.append_right_inj "pop:"

/-! ### The pool -/

theorem toNat_drainPool (s : PopDB) : s.drainPool.1.toNat = s.pool :=
  congrArg UInt64.toNat s.pools.drainFeePool_all.1

theorem pool_drainPool (s : PopDB) : s.drainPool.2.pool = 0 :=
  congrArg UInt64.toNat s.pools.drainFeePool_all.2

theorem pool_restore (s : PopDB) (drain : UInt64) : (s.restore drain).pool = drain.toNat := rfl

/-- Where no balance changes and the pool is as before, nothing is lost. -/
theorem Conserves.of_same {s' : PopDB} (hpool : s'.pool = s.pool) (hl : s'.ledger = s.ledger) :
    s.Conserves s' := by
  have hzero : ∀ id, s.credit s' id = 0 := fun id => by rw [credit, hl, sub_self]
  rw [Conserves, hpool, finsum_congr hzero, finsum_zero, add_zero]

/-! ### The participants -/

theorem mem_registered {p : Participant} :
    p ∈ s.registered ↔ ∃ k : String, s.participants[k]? = some (some p) := by
  simp only [registered, List.mem_filterMap, Prod.exists, exists_eq_right, Table.mem_toList_iff]

/-- Registering keeps the records in order. -/
theorem Registered.register (h : s.Registered) (id : String) (weight now : Int64) :
    (s.register id weight now).Registered := by
  intro k p hp
  rw [PopDB.register, Table.getElem?_put] at hp
  split at hp
  next hk =>
    obtain rfl := Option.some.inj (Option.some.inj hp)
    refine ⟨hk, ?_⟩
    show 0 < if weight ≤ 0 then 1 else weight
    split
    · decide
    · exact Int64.not_le.mp ‹_›
  next => exact h k p hp

theorem Registered.weight_pos (h : s.Registered) {p : Participant} (hp : p ∈ s.registered) :
    0 < p.weight := by
  obtain ⟨k, hk⟩ := mem_registered.mp hp
  exact (h k p hk).2

/-- Every participant is listed once. -/
theorem Registered.nodup (h : s.Registered) : (s.registered.map Participant.id).Nodup := by
  have hkeys := Table.nodup_keys_toList s.participants
  rw [List.nodup_iff_pairwise_ne, List.pairwise_map] at hkeys ⊢
  rw [registered, List.pairwise_filterMap]
  refine hkeys.imp_of_mem fun {e e'} he he' hne p hp q hq heq => hne ?_
  have hid : ∀ {e : String × Option Participant} {p : Participant}, e ∈ s.participants.toList →
      e.2 = some p → p.id = e.1 := by
    rintro ⟨k, r⟩ p hmem rfl
    exact (h k p ((Table.mem_toList_iff _ _ _).mp hmem)).1
  rw [← hid he hp, ← hid he' hq, heq]

/-- Records that decode are all listed. -/
theorem decodeAll_eq {records : List (Option Participant)} (h : none ∉ records) :
    decodeAll records = .ok (records.filterMap fun r => r) := by
  induction records with
  | nil => rfl
  | cons r records ih =>
      rw [List.mem_cons, not_or] at h
      obtain ⟨p, rfl⟩ := Option.ne_none_iff_exists'.mp (Ne.symm h.1)
      rw [decodeAll, ih h.2]
      rfl

/-- All records are listed if they can be read and are at most 5000. -/
theorem Decodes.listParticipants (h : s.Decodes) (hfew : s.participants.toList.length ≤ 5000) :
    s.listParticipants 5000 = .ok s.registered := by
  have hall : s.participants.toList.map Prod.snd = (s.participants.toList.map Prod.snd).take
      (if 5000 = 0 ∨ 5000 < 5000 then 5000 else 5000) := by
    rw [List.take_of_length_le]
    rw [List.length_map]
    exact hfew
  rw [PopDB.listParticipants, ← hall, decodeAll_eq]
  · rw [registered, List.filterMap_map]
    rfl
  · intro hnone
    obtain ⟨⟨k, r⟩, hmem, hr⟩ := List.mem_map.mp hnone
    exact h k r ((Table.mem_toList_iff _ _ _).mp hmem) hr

/-- A record that cannot be read ends the listing. -/
theorem listParticipants_of_not_decodes (h : ¬ s.Decodes)
    (hfew : s.participants.toList.length ≤ 5000) : ∃ e, s.listParticipants 5000 = .error e := by
  have hfails : ∀ records : List (Option Participant), none ∈ records →
      ∃ e, decodeAll records = .error e := by
    intro records hnone
    induction records with
    | nil => cases hnone
    | cons r records ih =>
        cases r with
        | none => exact ⟨_, rfl⟩
        | some p =>
            obtain ⟨e, he⟩ := ih (List.mem_of_ne_of_mem (Option.some_ne_none p).symm hnone)
            exact ⟨e, by rw [decodeAll, he]; rfl⟩
  simp only [Decodes, not_forall, not_not] at h
  obtain ⟨k, r, hr, rfl⟩ := h
  apply hfails
  rw [List.take_of_length_le (by simpa using hfew)]
  exact List.mem_map.mpr ⟨(k, none), (Table.mem_toList_iff _ _ _).mpr hr, rfl⟩

/-! ### Weights -/

/-- A registered participant counts with the effective weight, which is positive. -/
theorem toInt_weightOf {p : Participant} (hp : 0 < p.weight) :
    (s.weightOf p).toInt = s.exactWeight p ∧ 0 < s.exactWeight p := by
  have hpos : 0 < (s.effectiveWeight p).toInt := by
    unfold effectiveWeight
    dsimp only
    split
    next => exact Int64.lt_iff_toInt_lt.mp hp
    next hscore => exact Int64.lt_iff_toInt_lt.mp (Int64.not_le.mp hscore)
  rw [weightOf, if_neg (Int64.not_le.mpr hp), exactWeight]
  omega

/-- The total weight, as the loop adds it up. -/
theorem totalWeight_eq {parts : List Participant} (hpos : ∀ p ∈ parts, 0 < p.weight) :
    s.totalWeight parts = Int64.ofInt ((parts.map s.exactWeight).sum : ℕ) := by
  have hfold : ∀ k : ℕ, parts.foldl (fun total p => total + s.weightOf p) (Int64.ofInt k) =
      Int64.ofInt ((k + (parts.map s.exactWeight).sum : ℕ) : ℤ) := by
    induction parts with
    | nil => exact fun k => rfl
    | cons p parts ih =>
        intro k
        obtain ⟨hp, hrest⟩ := List.forall_mem_cons.mp hpos
        have hw : s.weightOf p = Int64.ofInt (s.exactWeight p) := by
          rw [← (toInt_weightOf hp).1, Int64.ofInt_toInt]
        rw [List.foldl_cons, hw, ← Int64.ofInt_add, ← Int.natCast_add, ih hrest, List.map_cons,
          List.sum_cons, Nat.add_assoc]
  have hsum := hfold 0
  rwa [Nat.zero_add] at hsum

theorem Registered.totalWeight (hreg : s.Registered) :
    (s.totalWeight s.registered).toInt = wrapped s.exactTotal := by
  rw [totalWeight_eq fun p hp => hreg.weight_pos hp, toInt_ofInt]
  rfl

/-! ### The paying loop -/

/-- What the loop is about to book, in order: nothing where a share is not positive. -/
def dues (drain totalW : Int64) : List (Participant × Int64) → Int64 → List (String × ℤ)
  | [], _ => []
  | (p, w) :: rest, remaining =>
      let share := if rest = [] then remaining else drain * w / totalW
      (p.id, max 0 share.toInt) ::
        dues drain totalW rest (if share ≤ 0 then remaining else remaining - share)

theorem map_fst_dues (drain totalW : Int64) (ps : List (Participant × Int64)) (remaining : Int64) :
    (dues drain totalW ps remaining).map Prod.fst = ps.map fun e => e.1.id := by
  induction ps generalizing remaining with
  | nil => rfl
  | cons e ps ih => rw [dues, List.map_cons, List.map_cons, ih]

theorem dues_nonneg {drain totalW : Int64} {ps : List (Participant × Int64)} {remaining : Int64} :
    ∀ e ∈ dues drain totalW ps remaining, 0 ≤ e.2 := by
  induction ps generalizing remaining with
  | nil => exact nofun
  | cons e ps ih => exact List.forall_mem_cons.mpr ⟨le_max_left _ _, ih⟩

/-- A positive credit is booked if it fits on the balance, and is refused otherwise. -/
theorem addBalance_iff_bookable (l : Ledger) (id : String) {share : Int64}
    (hpos : 0 < share.toInt) :
    if Bookable l (id, share.toInt) then
      ∃ l', l.addBalance (popAccount id) share = .ok l' ∧ ∀ a, (l'.getBalance a).toInt =
        (l.getBalance a).toInt + if popAccount id = a then share.toInt else 0
    else ∃ e, l.addBalance (popAccount id) share = .error e := by
  have hrange := (l.getBalance (popAccount id)).toInt_lt
  have hlow := (l.getBalance (popAccount id)).le_toInt
  have hshare := share.toInt_lt
  have hsum := Int64.toInt_add (l.getBalance (popAccount id)) share
  split
  next hfits =>
    obtain ⟨hlo, hhi⟩ := hfits.resolve_left hpos.ne'
    dsimp only at hlo hhi
    rw [Int.bmod_eq_of_le (by omega) (by omega)] at hsum
    have hnn : ¬ l.getBalance (popAccount id) + share < 0 := by
      rw [Int64.lt_iff_toInt_lt, hsum]
      exact not_lt.mpr hlo
    refine ⟨_, Ledger.addBalance_eq_ok_iff.mpr ⟨hnn, rfl⟩, fun a => ?_⟩
    rw [Ledger.getBalance_setBalance l hnn, Function.update_apply]
    by_cases ha : a = popAccount id
    · rw [if_pos ha, if_pos ha.symm, ha, hsum]
    · rw [if_neg ha, if_neg (Ne.symm ha), add_zero]
  next hnot =>
    -- the sum is negative, or it wraps around to a negative number
    have hneg : l.getBalance (popAccount id) + share < 0 := by
      rw [Bookable, not_or] at hnot
      rw [Int64.lt_iff_toInt_lt, hsum, Int.bmod_def, Int64.toInt_zero]
      norm_num at hrange hlow hshare hnot ⊢
      split <;> omega
    exact ⟨_, by rw [Ledger.addBalance, if_pos hneg]⟩

open Postings in
/-- The loop books what is due, in order, as long as it fits; all of it if everything fits, and
otherwise some of it is left. -/
theorem payLoop_spec (drain totalW : Int64) {ps : List (Participant × Int64)}
    (hpos : ∀ e ∈ ps, 0 < e.1.weight) (hnodup : (ps.map fun e => e.1.id).Nodup) (remaining : Int64)
    (l : Ledger) : ∃ paid left, dues drain totalW ps remaining = paid ++ left ∧
      (∀ id, ((payLoop drain totalW ps remaining l).2.2.getBalance (popAccount id)).toInt =
        (l.getBalance (popAccount id)).toInt + effect paid id) ∧
      ((∀ e ∈ dues drain totalW ps remaining, Bookable l e) ∧ left = [] ∨
        (¬ ∀ e ∈ dues drain totalW ps remaining, Bookable l e) ∧ ∃ e ∈ left, 0 < e.2) := by
  induction ps generalizing remaining l with
  | nil => exact ⟨[], [], rfl, fun id => (add_zero _).symm, .inl ⟨nofun, rfl⟩⟩
  | cons e ps ih =>
      obtain ⟨hp, hpos⟩ := List.forall_mem_cons.mp hpos
      rw [List.map_cons, List.nodup_cons] at hnodup
      rw [dues, payLoop, if_neg (Int64.not_le.mpr hp)]
      dsimp only
      generalize (if ps = [] then remaining else drain * e.2 / totalW) = share
      rw [List.forall_mem_cons]
      by_cases hskip : share ≤ 0
      · -- nothing to pay, and nothing taken from what remains
        have hzero : max 0 share.toInt = 0 := max_eq_left (Int64.le_iff_toInt_le.mp hskip)
        obtain ⟨paid, left, hdues, hbal, hcase⟩ := ih hpos hnodup.2 remaining l
        have hfits : Bookable l (e.1.id, 0) := .inl rfl
        rw [if_pos hskip, if_pos hskip, hzero]
        refine ⟨(e.1.id, 0) :: paid, left, by rw [hdues, List.cons_append], fun id => ?_, ?_⟩
        · rw [hbal, effect_cons, ite_self, zero_add]
        · simpa [hfits] using hcase
      · have hsharePos : 0 < share.toInt := Int64.lt_iff_toInt_lt.mp (Int64.not_le.mp hskip)
        rw [if_neg hskip, if_neg hskip, max_eq_right hsharePos.le]
        have hadd := addBalance_iff_bookable l e.1.id hsharePos
        split at hadd
        next hfits =>
          obtain ⟨l', hadd, hl'⟩ := hadd
          rw [hadd]
          obtain ⟨paid, left, hdues, hbal, hcase⟩ := ih hpos hnodup.2 (remaining - share) l'
          -- the other accounts are as before
          have hsame : (∀ d ∈ dues drain totalW ps (remaining - share), Bookable l' d) ↔
              ∀ d ∈ dues drain totalW ps (remaining - share), Bookable l d := by
            refine forall₂_congr fun d hd => ?_
            have hne : popAccount e.1.id ≠ popAccount d.1 := by
              intro heq
              refine hnodup.1 ?_
              rw [← map_fst_dues drain totalW ps (remaining - share), popAccount_inj.mp heq]
              exact List.mem_map_of_mem hd
            rw [Bookable, Bookable, hl', if_neg hne, add_zero]
          rw [hsame] at hcase
          refine ⟨(e.1.id, share.toInt) :: paid, left, by rw [hdues, List.cons_append],
            fun id => ?_, ?_⟩
          · rw [hbal, hl', effect_cons, add_assoc]
            simp only [popAccount_inj]
          · simpa [hfits] using hcase
        next hnot =>
          obtain ⟨f, hadd⟩ := hadd
          rw [hadd]
          exact ⟨[], _, rfl, fun id => (add_zero _).symm,
            .inr ⟨fun hall => hnot hall.1, _, List.mem_cons_self, hsharePos⟩⟩

/-! ### Without wrap-around -/

/-- A `uint64` as `int64`. -/
theorem toInt_toInt64 (v : UInt64) : v.toInt64.toInt = wrapped v.toNat := by
  change v.toBitVec.toInt = _
  rw [BitVec.toInt_eq_toNat_bmod, ← toInt_ofInt, Int64.toInt_ofInt]
  rfl

/-- A number below `2 ^ 63` is the same as `int64`. -/
theorem toInt_toInt64_of_lt {v : UInt64} (h : v.toNat < 2 ^ 63) : v.toInt64.toInt = v.toNat := by
  rw [toInt_toInt64, wrapped_once (by omega) (by omega), if_pos (by omega)]

/-- A floor that is computed without wrap-around. -/
theorem toInt_floor {drain w totalW : Int64} {d k W : ℕ} (hd : drain.toInt = d) (hk : w.toInt = k)
    (hW : totalW.toInt = W) (hfit : d * k < 2 ^ 63) :
    (drain * w / totalW).toInt = (d * k / W : ℕ) := by
  have hle : d * k / W ≤ d * k := Nat.div_le_self _ _
  have hmul : (drain * w).toInt = (d * k : ℕ) := by
    rw [Int64.toInt_mul, hd, hk, ← Int.natCast_mul]
    exact Int.bmod_eq_of_le (by omega) (by omega)
  rw [Int64.toInt_div, hmul, hW, Int.tdiv_eq_ediv_of_nonneg (Int.natCast_nonneg _),
    ← Int.natCast_ediv]
  generalize d * k / W = q at hle ⊢
  exact Int.bmod_eq_of_le (by omega) (by omega)

/-- The share that the loop computes is that of the apportionment: the last participant gets what
remains, the others the floor. -/
theorem toInt_share {d W r : ℕ} {drain totalW remaining : Int64} (hd : drain.toInt = d)
    (hW : totalW.toInt = W) (hr : remaining.toInt = r) {p : Participant} (hp : 0 < p.weight)
    {parts : List Participant} (hprod : parts ≠ [] → d * s.exactWeight p < 2 ^ 63) :
    (if (parts.map fun p => (p, s.weightOf p)) = [] then remaining
      else drain * s.weightOf p / totalW).toInt =
      Apportion.first d W r (s.exactWeight p) (parts.map s.exactWeight) := by
  simp only [Apportion.first, List.map_eq_nil_iff]
  split
  · exact hr
  next hne => exact toInt_floor hd (toInt_weightOf hp).1 hW (hprod hne)

open Apportion in
/-- If nothing wraps around, the loop finds the shares of the apportionment due. -/
theorem dues_eq_postings {d W : ℕ} {drain totalW : Int64} (hd : drain.toInt = d)
    (hW : totalW.toInt = W) {parts : List Participant} {r : ℕ} {remaining : Int64}
    (hr : remaining.toInt = r) (hcov : Covers d W r (parts.map s.exactWeight))
    (hpos : ∀ p ∈ parts, 0 < p.weight)
    (hprod : ∀ p ∈ parts.dropLast, d * s.exactWeight p < 2 ^ 63) :
    dues drain totalW (parts.map fun p => (p, s.weightOf p)) remaining =
      s.postings d W r parts := by
  induction parts generalizing r remaining with
  | nil => rfl
  | cons p parts ih =>
      obtain ⟨hp, hpos⟩ := List.forall_mem_cons.mp hpos
      have hle := Covers.first_le hcov
      have hcov := Covers.tail hcov
      have hprod (hne : parts ≠ []) : ∀ q ∈ p :: parts.dropLast, d * s.exactWeight q < 2 ^ 63 := by
        rwa [List.dropLast_cons_of_ne_nil hne] at hprod
      have hshare := toInt_share hd hW hr hp fun hne => hprod hne p List.mem_cons_self
      have hprod : ∀ q ∈ parts.dropLast, d * s.exactWeight q < 2 ^ 63 := fun q hq =>
        hprod (List.ne_nil_of_mem (List.mem_of_mem_dropLast hq)) q (List.mem_cons_of_mem _ hq)
      rw [List.map_cons, dues]
      change _ = (p.id, (first d W r (s.exactWeight p) (parts.map s.exactWeight) : ℤ)) ::
        s.postings d W (r - first d W r (s.exactWeight p) (parts.map s.exactWeight)) parts
      generalize first d W r (s.exactWeight p) (parts.map s.exactWeight) = x at hle hcov hshare ⊢
      generalize (if (parts.map fun p => (p, s.weightOf p)) = [] then remaining
          else drain * s.weightOf p / totalW) = share at hshare ⊢
      rw [hshare, max_eq_right (Int.natCast_nonneg x), ih (r := r - x) ?_ hcov hpos hprod]
      -- what remains is what the apportionment has left
      split
      next hskip =>
        have hzero := Int64.le_iff_toInt_le.mp hskip
        rw [hshare, Int64.toInt_zero] at hzero
        omega
      next =>
        have := remaining.toInt_lt
        rw [Int64.toInt_sub, hr, hshare, Int.natCast_sub hle]
        exact Int.bmod_eq_of_le (by omega) (by omega)

open Apportion Postings in
/-- Everything that is left is posted. -/
theorem total_postings {d W r : ℕ} {parts : List Participant} (hne : parts ≠ [])
    (hcov : Covers d W r (parts.map s.exactWeight)) : total (s.postings d W r parts) = r := by
  have hlen : (parts.map Participant.id).length =
      ((shares d W r (parts.map s.exactWeight)).map (Nat.cast : ℕ → ℤ)).length := by
    simp
  rw [total, postings, List.map_snd_zip hlen.ge]
  rw [← Nat.cast_list_sum, sum_shares (by simpa using hne) hcov]

open Apportion Postings in
/-- Nobody is posted less than the floor. -/
theorem floor_le_effect {d W r : ℕ} {parts : List Participant}
    (hcov : Covers d W r (parts.map s.exactWeight)) {q : Participant} (hq : q ∈ parts) :
    ((d * s.exactWeight q / W : ℕ) : ℤ) ≤ effect (s.postings d W r parts) q.id := by
  have hfloor := List.forall₂_map_left_iff.mp (floor_le_shares hcov)
  rw [postings]
  generalize shares d W r (parts.map s.exactWeight) = xs at hfloor
  clear hcov
  -- no posting is negative
  have hnonneg : ∀ (ids : List String) (xs : List ℕ) (id : String),
      0 ≤ effect (ids.zip (xs.map (Nat.cast : ℕ → ℤ))) id := by
    refine fun ids xs id => effect_nonneg fun e he => ?_
    obtain ⟨x, -, hx⟩ := List.mem_map.mp (List.of_mem_zip he).2
    rw [← hx]
    exact Int.natCast_nonneg x
  induction hfloor with
  | nil => exact absurd hq List.not_mem_nil
  | @cons p x parts xs hx hrest ih =>
      rw [List.map_cons, List.map_cons, List.zip_cons_cons, effect_cons]
      obtain rfl | hq := List.mem_cons.mp hq
      · rw [if_pos rfl]
        have := hnonneg (parts.map Participant.id) xs q.id
        omega
      · have hfirst : (0 : ℤ) ≤ if p.id = q.id then (x : ℤ) else 0 := by
          split
          · exact Int.natCast_nonneg x
          · exact le_rfl
        have := ih hq
        omega

/-! ### With wrap-around -/

open Postings in
/-- What is due to a participant that is not the last one. -/
theorem effect_dues_of_mem_dropLast {drain totalW remaining : Int64} {parts : List Participant}
    (hnodup : (parts.map Participant.id).Nodup) {p : Participant} (hp : p ∈ parts.dropLast) :
    effect (dues drain totalW (parts.map fun p => (p, s.weightOf p)) remaining) p.id =
      max 0 (drain * s.weightOf p / totalW).toInt := by
  induction parts generalizing remaining with
  | nil => cases hp
  | cons q parts ih =>
      have hne : parts ≠ [] := by
        rintro rfl
        cases hp
      rw [List.dropLast_cons_of_ne_nil hne] at hp
      rw [List.map_cons, List.nodup_cons] at hnodup
      have hrest : (parts.map fun p => (p, s.weightOf p)) ≠ [] := by simpa using hne
      rw [List.map_cons, dues, if_neg hrest, effect_cons]
      rcases List.mem_cons.mp hp with rfl | hp
      · -- no other posting names the participant
        rw [if_pos rfl, effect_eq_zero, add_zero]
        rintro e he heq
        refine hnodup.1 (heq ▸ ?_)
        have hmem := List.mem_map_of_mem (f := Prod.fst) he
        rwa [map_fst_dues, List.map_map] at hmem
      · have hother : q.id ≠ p.id := fun heq =>
          hnodup.1 (heq ▸ List.mem_map_of_mem (List.mem_of_mem_dropLast hp))
        rw [if_neg hother, zero_add, ih hnodup.2 hp]

/-- A product that wraps around gives less than the floor. -/
theorem max_div_lt_floor {v W : ℕ} (hv : 2 ^ 63 ≤ v) (hpos : 0 < W) (hW : W < 2 ^ 63) :
    max 0 ((wrapped v).tdiv W) < ((v / W : ℕ) : ℤ) := by
  have hfloor : 0 < v / W := Nat.div_pos (by omega) hpos
  have hle := wrapped_le (v := v) (by omega)
  refine max_lt (Int.natCast_pos.mpr hfloor) ?_
  rcases le_total 0 (wrapped v) with hq | hq
  · rw [Int.tdiv_eq_ediv_of_nonneg hq, Int.natCast_ediv]
    have hstep := Int.add_mul_ediv_right (wrapped v) 1 (Int.natCast_pos.mpr hpos).ne'
    have hmono : (wrapped v + 1 * W) / W ≤ (v : ℤ) / W :=
      Int.ediv_le_ediv (Int.natCast_pos.mpr hpos) (by omega)
    omega
  · have hneg : 0 ≤ (-wrapped v).tdiv W := Int.tdiv_nonneg (by omega) (Int.natCast_nonneg W)
    rw [Int.neg_tdiv] at hneg
    omega

/-! ### The distribution -/

/-- What is due in a pay-out. -/
def allDues (s : PopDB) : List (String × ℤ) :=
  dues s.drainPool.1.toInt64 (s.totalWeight s.registered)
    (s.registered.map fun p => (p, s.weightOf p)) s.drainPool.1.toInt64

open Postings in
/-- The books of a pay-out. -/
theorem payOut_spec (hreg : s.Registered) (hlist : s.listParticipants 5000 = .ok s.registered)
    (hne : s.registered ≠ []) (htotal : 0 < s.totalWeight s.registered) :
    ∃ paid left, s.allDues = paid ++ left ∧
      (∀ id, s.credit (s.drainPool.2.payOut s.drainPool.1).2 id = effect paid id) ∧
      (s.Conserves (s.drainPool.2.payOut s.drainPool.1).2 ↔ (s.pool : ℤ) = total paid) ∧
      ((∀ e ∈ s.allDues, Bookable s.ledger e) ∧ left = [] ∨
        (¬ ∀ e ∈ s.allDues, Bookable s.ledger e) ∧ ∃ e ∈ left, 0 < e.2) := by
  have hpos : ∀ e ∈ s.registered.map (fun p => (p, s.weightOf p)), 0 < e.1.weight := by
    simpa using fun p hp => hreg.weight_pos hp
  have hnodup : ((s.registered.map fun p => (p, s.weightOf p)).map fun e => e.1.id).Nodup := by
    rw [List.map_map]
    exact hreg.nodup
  obtain ⟨paid, left, hdues, hbal, hcase⟩ := payLoop_spec s.drainPool.1.toInt64
    (s.totalWeight s.registered) hpos hnodup s.drainPool.1.toInt64 s.ledger
  -- the call ends with the pool drained and the ledger of the loop, with an error or not
  have hend : (s.drainPool.2.payOut s.drainPool.1).2.pool = 0 ∧
      (s.drainPool.2.payOut s.drainPool.1).2.ledger =
        (payLoop s.drainPool.1.toInt64 (s.totalWeight s.registered)
          (s.registered.map fun p => (p, s.weightOf p)) s.drainPool.1.toInt64 s.ledger).2.2 := by
    have hlist' : s.drainPool.2.listParticipants 5000 = .ok s.registered := hlist
    have hgo : ¬ (s.registered = [] ∨ s.drainPool.2.totalWeight s.registered ≤ 0) :=
      not_or.mpr ⟨hne, Int64.not_le.mpr htotal⟩
    rw [← s.pool_drainPool, payOut, hlist']
    dsimp only
    rw [if_neg hgo]
    change _ ∧ _ = (payLoop s.drainPool.1.toInt64 (s.drainPool.2.totalWeight s.registered)
      (s.registered.map fun p => (p, s.drainPool.2.weightOf p)) s.drainPool.1.toInt64
      s.drainPool.2.ledger).2.2
    split
    next heq => exact ⟨rfl, by rw [heq]⟩
    next heq => exact ⟨rfl, by rw [heq]⟩
  have hcredit : ∀ id, s.credit (s.drainPool.2.payOut s.drainPool.1).2 id = effect paid id := by
    intro id
    rw [credit, hend.2, hbal, add_sub_cancel_left]
  refine ⟨paid, left, hdues, hcredit, ?_, hcase⟩
  rw [Conserves, hend.1, finsum_congr hcredit, finsum_effect, Nat.cast_zero, zero_add]

/-- A total weight in the range of `int64` is exact. -/
theorem Registered.totalWeight_eq_exactTotal (hreg : s.Registered) (hfit : s.exactTotal < 2 ^ 63) :
    (s.totalWeight s.registered).toInt = s.exactTotal := by
  rw [hreg.totalWeight, wrapped_once (by omega) (by omega), if_pos (by omega)]

theorem Registered.exactTotal_pos (hreg : s.Registered) (hne : s.registered ≠ []) :
    0 < s.exactTotal := by
  obtain ⟨p, hp⟩ := List.exists_mem_of_ne_nil _ hne
  exact (toInt_weightOf (s := s) (hreg.weight_pos hp)).2.trans_le
    (List.le_sum_of_mem (List.mem_map_of_mem hp))

theorem Registered.totalWeight_pos (hreg : s.Registered) (hne : s.registered ≠ [])
    (hfit : s.exactTotal < 2 ^ 63) : 0 < s.totalWeight s.registered := by
  rw [Int64.lt_iff_toInt_lt, hreg.totalWeight_eq_exactTotal hfit]
  exact Int.natCast_pos.mpr (hreg.exactTotal_pos hne)

/-- If nothing wraps around, the shares of the apportionment are due. -/
theorem allDues_eq_postings (hpool : s.pool < 2 ^ 63)
    (hprod : ∀ p ∈ s.registered.dropLast, s.pool * s.exactWeight p < 2 ^ 63) (hreg : s.Registered)
    (hfit : s.exactTotal < 2 ^ 63) :
    s.allDues = s.postings s.pool s.exactTotal s.pool s.registered := by
  have hdrain : s.drainPool.1.toInt64.toInt = s.pool := by
    rw [← toNat_drainPool] at hpool ⊢
    exact toInt_toInt64_of_lt hpool
  exact dues_eq_postings hdrain (hreg.totalWeight_eq_exactTotal hfit) hdrain
    (Apportion.covers_sum _ _) (fun p hp => hreg.weight_pos hp) hprod

theorem left_nonneg {paid left : List (String × ℤ)} (hdues : s.allDues = paid ++ left) :
    ∀ e ∈ left, 0 ≤ e.2 := by
  have hall : ∀ e ∈ s.allDues, 0 ≤ e.2 := dues_nonneg
  rw [hdues] at hall
  exact fun e he => hall e (List.mem_append_right _ he)

open Postings in
/-- Nothing is due to a single participant if the pool is negative as `int64`. -/
theorem allDues_of_single (s : PopDB) (hnil : s.registered.dropLast = []) (hne : s.registered ≠ [])
    (hbig : 2 ^ 63 ≤ s.pool) : total s.allDues = 0 := by
  have hlast := List.dropLast_append_getLast hne
  have hlt : s.pool < 2 ^ 64 := (s.pools.getFeePool "participation").toNat_lt
  rw [hnil, List.nil_append] at hlast
  have hdrain : s.drainPool.1.toInt64.toInt ≤ 0 := by
    rw [toInt_toInt64, toNat_drainPool, wrapped_once (by omega) (by omega), if_neg (by omega)]
    omega
  rw [allDues, ← hlast, List.map_singleton, dues, if_pos rfl, max_eq_left hdrain]
  rfl

open Postings in
/-- A participant whose product wraps around, and who is not the last one, gets less than the
floor. -/
theorem credit_lt_floor (hreg : s.Registered) (hfit : s.exactTotal < 2 ^ 63)
    {paid left : List (String × ℤ)} (hdues : s.allDues = paid ++ left) {p : Participant}
    (hp : p ∈ s.registered.dropLast) (hbig : 2 ^ 63 ≤ s.pool * s.exactWeight p) :
    effect paid p.id < ((s.pool * s.exactWeight p / s.exactTotal : ℕ) : ℤ) := by
  have hmem : p ∈ s.registered := List.mem_of_mem_dropLast hp
  have hpos := hreg.exactTotal_pos (List.ne_nil_of_mem hmem)
  have htotal := hreg.totalWeight_eq_exactTotal hfit
  -- what is booked is at most what is due
  have hle : effect paid p.id ≤ effect s.allDues p.id := by
    rw [hdues, effect_append]
    exact le_add_of_nonneg_right (effect_nonneg (left_nonneg hdues))
  have hweight : s.weightOf p = Int64.ofInt (s.exactWeight p) := by
    rw [← (toInt_weightOf (hreg.weight_pos hmem)).1, Int64.ofInt_toInt]
  have hdrain : s.drainPool.1.toInt64 = Int64.ofInt s.pool := by
    rw [← Int64.ofInt_toInt s.drainPool.1.toInt64, toInt_toInt64, toNat_drainPool, ← toInt_ofInt,
      Int64.ofInt_toInt]
  have hne : s.totalWeight s.registered ≠ -1 := by
    intro heq
    rw [heq] at htotal
    change (-1 : ℤ) = _ at htotal
    omega
  rw [allDues, effect_dues_of_mem_dropLast hreg.nodup hp, Int64.toInt_div_of_ne_right _ _ hne,
    htotal, hweight, hdrain, ← Int64.ofInt_mul, toInt_ofInt, ← Int.natCast_mul] at hle
  exact hle.trans_lt (max_div_lt_floor hbig hpos hfit)

open Postings in
/-- A pay-out conserves the pool and gives everyone the floor exactly if it goes well. -/
theorem payOut_conserves_iff (hreg : s.Registered)
    (hlist : s.listParticipants 5000 = .ok s.registered) (hne : s.registered ≠ [])
    (hfit : s.exactTotal < 2 ^ 63) :
    (s.Conserves (s.drainPool.2.payOut s.drainPool.1).2 ∧ ∀ q ∈ s.registered,
      ((s.pool * s.exactWeight q / s.exactTotal : ℕ) : ℤ) ≤
        s.credit (s.drainPool.2.payOut s.drainPool.1).2 q.id) ↔ s.Payable := by
  obtain ⟨paid, left, hdues, hcredit, hcons, hcase⟩ :=
    payOut_spec hreg hlist hne (hreg.totalWeight_pos hne hfit)
  have hcov : Apportion.Covers s.pool s.exactTotal s.pool (s.registered.map s.exactWeight) :=
    Apportion.covers_sum _ _
  simp only [hcredit]
  rw [hcons]
  have hleft := total_nonneg (left_nonneg hdues)
  have hsum : total s.allDues = total paid + total left := by rw [hdues, total_append]
  constructor
  · rintro ⟨hpaid, hfloor⟩
    have hprod : ∀ p ∈ s.registered.dropLast, s.pool * s.exactWeight p < 2 ^ 63 := by
      intro p hp
      by_contra hbig
      exact absurd (hfloor p (List.mem_of_mem_dropLast hp))
        (not_le.mpr (credit_lt_floor hreg hfit hdues hp (not_lt.mp hbig)))
    have hpool : s.pool < 2 ^ 63 := by
      by_contra hbig
      rcases List.eq_nil_or_concat' s.registered.dropLast with hnil | ⟨_, p, hconcat⟩
      · -- a single participant is due a negative amount
        have hdue := s.allDues_of_single hnil hne (not_lt.mp hbig)
        omega
      · have hp : p ∈ s.registered.dropLast := hconcat ▸ List.mem_concat_self
        have hw := (toInt_weightOf (s := s) (hreg.weight_pos (List.mem_of_mem_dropLast hp))).2
        have hle := Nat.le_mul_of_pos_right s.pool hw
        have hlt := hprod p hp
        omega
    refine ⟨hpool, hprod, ?_⟩
    rw [← allDues_eq_postings hpool hprod hreg hfit]
    refine (hcase.resolve_right ?_).1
    rintro ⟨-, e, he, hepos⟩
    -- the refused credit is missing
    have hmissing := le_total (left_nonneg hdues) he
    rw [allDues_eq_postings hpool hprod hreg hfit, total_postings hne hcov] at hsum
    omega
  · rintro ⟨hpool, hprod, hbal⟩
    rw [← allDues_eq_postings hpool hprod hreg hfit] at hbal
    obtain ⟨-, rfl⟩ := hcase.resolve_right fun hnot => hnot.1 hbal
    rw [List.append_nil, allDues_eq_postings hpool hprod hreg hfit] at hdues
    rw [← hdues, total_postings hne hcov]
    exact ⟨rfl, fun q hq => floor_le_effect hcov hq⟩

/-- Nothing of an empty pool can be lost. -/
theorem payable_of_empty (hreg : s.Registered) (hne : s.registered ≠ [])
    (hfit : s.exactTotal < 2 ^ 63) (hpool : s.pool = 0) : s.Payable := by
  have hprod : ∀ p ∈ s.registered.dropLast, s.pool * s.exactWeight p < 2 ^ 63 := by
    intro p _
    rw [hpool, Nat.zero_mul]
    omega
  have hcov : Apportion.Covers s.pool s.exactTotal s.pool (s.registered.map s.exactWeight) :=
    Apportion.covers_sum _ _
  have hdues := allDues_eq_postings (by omega) hprod hreg hfit
  have hnonneg : ∀ e ∈ s.allDues, 0 ≤ e.2 := dues_nonneg
  rw [hdues] at hnonneg
  refine ⟨by omega, hprod, fun e he => .inl (le_antisymm ?_ (hnonneg e he))⟩
  -- the shares add up to nothing
  have hle := Postings.le_total hnonneg he
  rwa [total_postings hne hcov, hpool] at hle

/-- Unless an epoch ends and the pool holds the minimum, the distribution changes neither the pool
nor a balance. -/
theorem distribute_of_not_due {height : UInt64} {params : PopParams}
    (h : ¬ s.due height params) : (s.distributeIfEpoch height params).2.pool = s.pool ∧
      (s.distributeIfEpoch height params).2.ledger = s.ledger := by
  unfold distributeIfEpoch
  unfold due at h
  dsimp only at h ⊢
  generalize (if params.epochBlocks = 0 then PopParams.defaultParams else params) = params at h ⊢
  split
  next hepoch =>
    have hlow : s.drainPool.1 < params.minPayout := by
      rw [UInt64.lt_iff_toNat_lt, toNat_drainPool]
      exact not_le.mp fun hle => h ⟨hepoch, hle⟩
    rw [if_pos hlow]
    exact ⟨(pool_restore _ _).trans s.toNat_drainPool, rfl⟩
  next => exact ⟨rfl, rfl⟩

/-- A distribution that is due drains the pool and pays it out. -/
theorem distribute_of_due {height : UInt64} {params : PopParams} (h : s.due height params) :
    s.distributeIfEpoch height params = s.drainPool.2.payOut s.drainPool.1 := by
  unfold distributeIfEpoch
  unfold due at h
  dsimp only at h ⊢
  rw [if_pos h.1, if_neg]
  rw [UInt64.lt_iff_toNat_lt, toNat_drainPool]
  exact not_lt.mpr h.2

end PopDB

namespace Sample

open PopDB

/-- A pool, and nobody to pay. -/
def poolOf (p : UInt64) : PopDB := ⟨⟨none, some p, none, none⟩, ∅, ∅, Ledger.empty⟩

theorem registered_poolOf (p : UInt64) : (poolOf p).Registered := fun k q h => by
  simp [poolOf] at h

/-- A pool of a hundred and two participants, one with twice the weight of the other. -/
def sharing : PopDB := ((poolOf 100).register "a" 1 0).register "b" 2 0

/-- A pool that is out of the `int64` range, and one participant. -/
def flooded : PopDB := (poolOf 9223372036854775808).register "a" 1 0

/-- Two participants, of which the first has a high score. -/
def scored : PopDB :=
  { ((poolOf 4000000000).register "a" 1 0).register "b" 1 0 with
    scores := (∅ : Table UInt64).insert "a" 4000000000 }

theorem sharing_read : sharing.due 50 ⟨50, 100⟩ ∧ sharing.participants.toList.length = 2 ∧
    sharing.registered = [⟨"a", 1, 0⟩, ⟨"b", 2, 0⟩] ∧ sharing.pool = 100 ∧
    sharing.exactTotal = 3 ∧
    (sharing.distributeIfEpoch 50 ⟨50, 100⟩).2.pool = 0 ∧
    sharing.credit (sharing.distributeIfEpoch 50 ⟨50, 100⟩).2 "a" = 33 ∧
    sharing.credit (sharing.distributeIfEpoch 50 ⟨50, 100⟩).2 "b" = 67 := by
  decide +kernel

theorem payable_sharing : sharing.Payable := by
  obtain ⟨-, -, hreg, hpool, htotal, -⟩ := sharing_read
  refine ⟨by omega, ?_, ?_⟩
  · rw [hreg, hpool]
    decide +kernel
  · rw [hreg, hpool, htotal]
    decide +kernel

theorem decodes_sharing : sharing.Decodes := by
  intro k r hr
  simp only [sharing, register, poolOf, Table.getElem?_put] at hr
  split at hr
  · rw [← Option.some.inj hr]
    exact Option.some_ne_none _
  · split at hr
    · rw [← Option.some.inj hr]
      exact Option.some_ne_none _
    · simp at hr

theorem flooded_read : flooded.due 50 ⟨50, 100⟩ ∧ flooded.pool = 9223372036854775808 ∧
    flooded.drainPool.2.listParticipants 5000 = .ok [⟨"a", 1, 0⟩] ∧
    flooded.drainPool.2.totalWeight [⟨"a", 1, 0⟩] = 1 ∧ flooded.drainPool.1.toInt64 ≤ 0 ∧
    (flooded.distributeIfEpoch 50 ⟨50, 100⟩).2.pool = 0 := by
  decide +kernel

/-- The amount is negative as `int64`, so it is not paid. -/
theorem ledger_flooded :
    (flooded.distributeIfEpoch 50 ⟨50, 100⟩).2.ledger = flooded.ledger := by
  obtain ⟨hdue, -, hlist, htotal, hdrain, -⟩ := flooded_read
  rw [distribute_of_due hdue, payOut, hlist]
  dsimp only
  rw [if_neg (by rw [htotal]; decide)]
  simp only [List.map_cons, List.map_nil, payLoop, if_true, if_pos hdrain]
  rw [if_neg (by decide)]
  rfl

end Sample

open Sample

end ReserveOS
