import Mathlib.Algebra.Order.Field.Basic
import Mathlib.Data.List.Basic
import Mathlib.Tactic.Linarith
import Mathlib.Tactic.Ring

/-!
# Token buckets

A token bucket holds up to `burst` tokens and gains tokens as time passes; a request takes one
token, or is refused when there is none. The record is brought up to date at every request. How many
tokens are gained between two requests is a parameter `gain`, of which only a bound is assumed.

`grants_le` bounds the requests that are granted in a window of time. Its invariant `Budget` relates
the tokens that are left to the requests granted so far. For families of machines, one for each key,
`filter_keyedAnswers` says that a request for one key is answered as if there were no other keys.
-/

namespace TokenBucket

variable {K τ : Type*} [Field K] [LinearOrder K] [IsStrictOrderedRing K]

/-- The tokens that were left by the last request, and its time. -/
structure Record (K τ : Type*) where
  tokens : K
  last : τ

/-- A request at the time `now`. The first one finds a full bucket. -/
def request (burst : K) (gain : τ → τ → K) (r : Option (Record K τ)) (now : τ) :
    Bool × Record K τ :=
  let r := r.getD ⟨burst, now⟩
  let tokens := min burst (r.tokens + gain r.last now)
  if tokens < 1 then (false, ⟨tokens, now⟩) else (true, ⟨tokens - 1, now⟩)

/-- The answers to requests one after the other, from any kind of machine that makes its state at
the first one. -/
def answers {ρ ι β : Type*} (step : Option ρ → ι → β × ρ) : Option ρ → List ι → List (ι × β)
  | _, [] => []
  | r, i :: is => (i, (step r i).1) :: answers step (some (step r i).2) is

/-! ### The bound -/

section Bound

variable {burst rate : K} {gain : τ → τ → K} {clock : τ → K} {a b : K}

/-- The requests that were granted in the window from `a` to `b`. -/
def grants (clock : τ → K) (a b : K) (l : List (τ × Bool)) : ℕ :=
  l.countP fun e => e.2 ∧ a ≤ clock e.1 ∧ clock e.1 ≤ b

/-- After `g` grants in the window: before the window there are none, and inside it the grants and
the tokens that are left are covered by a full bucket and what was gained since its start. -/
structure Budget (burst rate : K) (clock : τ → K) (a b : K) (r : Option (Record K τ)) (g : ℕ) :
    Prop where
  bound : (g : K) ≤ burst + rate * (b - a)
  fresh : r = none → g = 0
  before : ∀ x, r = some x → clock x.last < a → g = 0
  inside : ∀ x, r = some x → a ≤ clock x.last → clock x.last ≤ b →
    g + x.tokens ≤ burst + rate * (clock x.last - a)

omit [IsStrictOrderedRing K] in
@[simp] theorem last_request (r : Option (Record K τ)) (now : τ) :
    (request burst gain r now).2.last = now := by
  unfold request
  dsimp only
  split <;> rfl

omit [IsStrictOrderedRing K] in
/-- What a request leaves: at most a full bucket, and at most what was there and was gained. -/
theorem request_cases (burst : K) (gain : τ → τ → K) (r : Option (Record K τ)) (now : τ) :
    ∃ filled : K, filled ≤ burst ∧ (∀ x, r = some x → filled ≤ x.tokens + gain x.last now) ∧
      ((request burst gain r now = (false, ⟨filled, now⟩)) ∨
        1 ≤ filled ∧ request burst gain r now = (true, ⟨filled - 1, now⟩)) := by
  refine ⟨min burst ((r.getD ⟨burst, now⟩).tokens + gain (r.getD ⟨burst, now⟩).last now),
    min_le_left _ _, ?_, ?_⟩
  · rintro x rfl
    exact min_le_right _ _
  · unfold request
    dsimp only
    split
    · exact .inl rfl
    · next hnot => exact .inr ⟨le_of_not_gt hnot, rfl⟩

/-- What counts for a request in the window. -/
def granted (clock : τ → K) (a b : K) (now : τ) (answer : Bool) : ℕ :=
  if answer ∧ a ≤ clock now ∧ clock now ≤ b then 1 else 0

omit [Field K] [IsStrictOrderedRing K] in
theorem grants_cons (now : τ) (answer : Bool) (l : List (τ × Bool)) :
    grants clock a b ((now, answer) :: l) = granted clock a b now answer + grants clock a b l := by
  rw [grants, List.countP_cons, Nat.add_comm, granted]
  congr 1
  simp

omit [IsStrictOrderedRing K] in
/-- Before the window nothing was granted, since time does not go back. -/
theorem Budget.eq_zero_of_lt {r : Option (Record K τ)} {g : ℕ}
    (h : Budget burst rate clock a b r g) {now : τ}
    (hlast : ∀ x, r = some x → clock x.last ≤ clock now) (hnow : clock now < a) : g = 0 := by
  cases r with
  | none => exact h.fresh rfl
  | some x => exact h.before x rfl (lt_of_le_of_lt (hlast x rfl) hnow)

/-- Inside the window the grants so far and the tokens that a request finds are covered. -/
theorem Budget.add_filled_le (hrate : 0 ≤ rate)
    (hgain : ∀ last now, clock last ≤ clock now → gain last now ≤ rate * (clock now - clock last))
    {r : Option (Record K τ)} {g : ℕ} (h : Budget burst rate clock a b r g) {now : τ}
    (hlast : ∀ x, r = some x → clock x.last ≤ clock now) {filled : K} (hfull : filled ≤ burst)
    (hgained : ∀ x, r = some x → filled ≤ x.tokens + gain x.last now) (ha : a ≤ clock now)
    (hb : clock now ≤ b) : (g : K) + filled ≤ burst + rate * (clock now - a) := by
  have hpassed : 0 ≤ rate * (clock now - a) := mul_nonneg hrate (sub_nonneg.mpr ha)
  -- the first request in the window finds at most a full bucket
  have hfirst : g = 0 → (g : K) + filled ≤ burst + rate * (clock now - a) := by
    rintro rfl
    push_cast
    linarith
  cases r with
  | none => exact hfirst (h.fresh rfl)
  | some x =>
      by_cases hx : clock x.last < a
      · exact hfirst (h.before x rfl hx)
      · -- covered so far, and the gain is covered by the time that has passed
        have hsofar := h.inside x rfl (not_lt.mp hx) (le_trans (hlast x rfl) hb)
        have hmore := hgain x.last now (hlast x rfl)
        have hsum : rate * (clock x.last - a) + rate * (clock now - clock x.last) =
            rate * (clock now - a) := by ring
        linarith [hgained x rfl]

/-- One request keeps the budget: the tokens gained since the last request are paid for by the time
that has passed, and a granted request takes one of them. -/
theorem Budget.step (hrate : 0 ≤ rate)
    (hgain : ∀ last now, clock last ≤ clock now → gain last now ≤ rate * (clock now - clock last))
    {r : Option (Record K τ)} {g : ℕ} (h : Budget burst rate clock a b r g) {now : τ}
    (hlast : ∀ x, r = some x → clock x.last ≤ clock now) :
    Budget burst rate clock a b (some (request burst gain r now).2)
      (g + granted clock a b now (request burst gain r now).1) := by
  obtain ⟨filled, hfull, hgained, hcases⟩ := request_cases burst gain r now
  have hnone := h.eq_zero_of_lt hlast
  have hinside := h.add_filled_le hrate hgain hlast hfull hgained
  -- a refused request counts nothing; a granted one counts in the window, and takes its token
  rcases hcases with hrefused | ⟨hone, hgranted⟩
  · have hzero : granted clock a b now false = 0 := if_neg fun hand => Bool.false_ne_true hand.1
    rw [hrefused, hzero, Nat.add_zero]
    refine ⟨h.bound, fun hr => absurd hr (by simp), ?_, ?_⟩
    · rintro x ⟨⟩ hbefore
      exact hnone hbefore
    · rintro x ⟨⟩ ha hb
      exact hinside ha hb
  · rw [hgranted]
    by_cases hwindow : a ≤ clock now ∧ clock now ≤ b
    · have hcount : granted clock a b now true = 1 := if_pos ⟨rfl, hwindow⟩
      have hbudget := hinside hwindow.1 hwindow.2
      have hend : rate * (clock now - a) ≤ rate * (b - a) :=
        mul_le_mul_of_nonneg_left (by linarith [hwindow.2]) hrate
      rw [hcount]
      refine ⟨?_, fun hr => absurd hr (by simp), ?_, ?_⟩
      · push_cast
        linarith
      · rintro x ⟨⟩ hbefore
        exact absurd hwindow.1 (not_le.mpr hbefore)
      · rintro x ⟨⟩ - -
        push_cast
        linarith
    · have hcount : granted clock a b now true = 0 := if_neg fun hand => hwindow hand.2
      rw [hcount, Nat.add_zero]
      refine ⟨h.bound, fun hr => absurd hr (by simp), ?_, ?_⟩
      · rintro x ⟨⟩ hbefore
        exact hnone hbefore
      · rintro x ⟨⟩ ha hb
        exact absurd ⟨ha, hb⟩ hwindow

/-- The invariant along a run. -/
theorem Budget.grants_le (hrate : 0 ≤ rate)
    (hgain : ∀ last now, clock last ≤ clock now → gain last now ≤ rate * (clock now - clock last))
    {times : List τ} (hsorted : times.Pairwise fun t u => clock t ≤ clock u)
    {r : Option (Record K τ)} {g : ℕ} (h : Budget burst rate clock a b r g)
    (hlast : ∀ x, r = some x → ∀ t ∈ times, clock x.last ≤ clock t) :
    ((g + grants clock a b (answers (request burst gain) r times) : ℕ) : K) ≤
      burst + rate * (b - a) := by
  induction times generalizing r g with
  | nil => exact h.bound
  | cons now times ih =>
      obtain ⟨hnow, hrest⟩ := List.pairwise_cons.mp hsorted
      have hstep := h.step hrate hgain fun x hx => hlast x hx now List.mem_cons_self
      rw [answers, grants_cons, ← Nat.add_assoc]
      refine ih hrest hstep ?_
      rintro x ⟨⟩ t ht
      rw [last_request]
      exact hnow t ht

/-- In any window of time, of any run of requests that are made in the order of time, no more are
granted than a full bucket and the rate allow. -/
theorem grants_le (hrate : 0 ≤ rate) (hburst : 0 ≤ burst)
    (hgain : ∀ last now, clock last ≤ clock now → gain last now ≤ rate * (clock now - clock last))
    {times : List τ} (hsorted : times.Pairwise fun t u => clock t ≤ clock u) (hab : a ≤ b) :
    (grants clock a b (answers (request burst gain) none times) : K) ≤ burst + rate * (b - a) := by
  have hstart : Budget burst rate clock a b (none : Option (Record K τ)) 0 := by
    refine ⟨?_, fun _ => rfl, fun x hx => absurd hx (by simp), fun x hx => absurd hx (by simp)⟩
    have hpassed : 0 ≤ rate * (b - a) := mul_nonneg hrate (sub_nonneg.mpr hab)
    push_cast
    linarith
  have hrun := hstart.grants_le hrate hgain hsorted fun x hx => absurd hx (by simp)
  rwa [Nat.zero_add] at hrun

end Bound

/-! ### One machine for each key -/

section Keyed

variable {κ ρ ι β : Type*} [DecidableEq κ] (step : Option ρ → ι → β × ρ)

/-- The answers of a family of machines. A request goes to the machine of its key. -/
def keyedAnswers : (κ → Option ρ) → List (κ × ι) → List ((κ × ι) × β)
  | _, [] => []
  | m, c :: cs =>
      (c, (step (m c.1) c.2).1) ::
        keyedAnswers (Function.update m c.1 (some (step (m c.1) c.2).2)) cs

/-- The answers for one key are those of its machine to the requests for it. -/
theorem filter_keyedAnswers (m : κ → Option ρ) (cs : List (κ × ι)) (k : κ) :
    (keyedAnswers step m cs).filter (fun e => e.1.1 = k) =
      (answers step (m k) ((cs.filter fun c => c.1 = k).map Prod.snd)).map
        fun e => ((k, e.1), e.2) := by
  induction cs generalizing m with
  | nil => rfl
  | cons c cs ih =>
      obtain ⟨k', i⟩ := c
      rw [keyedAnswers]
      by_cases hk : k' = k
      · subst hk
        rw [List.filter_cons_of_pos (by simp), List.filter_cons_of_pos (by simp), ih]
        simp [answers]
      · rw [List.filter_cons_of_neg (by simpa using hk),
          List.filter_cons_of_neg (by simpa using hk), ih, Function.update_of_ne (Ne.symm hk)]

theorem map_fst_keyedAnswers (m : κ → Option ρ) (cs : List (κ × ι)) :
    (keyedAnswers step m cs).map Prod.fst = cs := by
  induction cs generalizing m with
  | nil => rfl
  | cons c cs ih => rw [keyedAnswers, List.map_cons, ih]

/-- The requests for other keys can be left out. -/
theorem filter_keyedAnswers_eq (m : κ → Option ρ) (cs : List (κ × ι)) (k : κ) :
    (keyedAnswers step m cs).filter (fun e => e.1.1 = k) =
      keyedAnswers step m (cs.filter fun c => c.1 = k) := by
  have hself : (keyedAnswers step m (cs.filter fun c => c.1 = k)).filter (fun e => e.1.1 = k) =
      keyedAnswers step m (cs.filter fun c => c.1 = k) := by
    refine List.filter_eq_self.mpr fun e he => ?_
    have hmem := List.mem_map_of_mem (f := Prod.fst) he
    rw [map_fst_keyedAnswers] at hmem
    exact (List.mem_filter.mp hmem).2
  rw [← hself, filter_keyedAnswers, filter_keyedAnswers, List.filter_filter]
  simp only [Bool.and_self]

end Keyed

end TokenBucket
