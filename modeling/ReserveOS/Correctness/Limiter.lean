import ReserveOS.Node.Limiter

/-!
# What the rate limiters admit

A limiter is a family of token buckets, one for each key (`allowAll_eq`). The tokens that a bucket
gains between two calls are at most what the rate gives for the time between them: the difference
of two clock values can wrap, but then it is too small (`toInt_sub_le`). So the general bound
applies to each key, and calls for other keys do not matter (`tokenBucket_bound`).
-/

namespace ReserveOS

namespace Limiter

open TokenBucket

/-- A clock value in seconds. -/
def seconds (now : Int64) : ℚ := now.toInt / 1000000000

/-- The tokens gained between two calls. -/
def gain (rate : ℚ) (last now : Int64) : ℚ := ((now - last).toInt / 1000000000 : ℚ) * rate

/-- The answers for a key that were positive, between two times in seconds. -/
def admitted (key : String) (start stop : ℚ) (l : List ((String × Int64) × Bool)) : ℕ :=
  l.countP fun e => e.1.1 = key ∧ e.2 ∧ start ≤ seconds e.1.2 ∧ seconds e.1.2 ≤ stop

/-! ### Limiters as families of buckets -/

theorem minf_eq_min (a b : ℚ) : minf a b = min a b := by
  unfold minf
  split
  · next h => exact (min_eq_left h.le).symm
  · next h => exact (min_eq_right (not_lt.mp h)).symm

/-- A call is a request to the bucket of its key. -/
theorem allowAt_eq (rl : Limiter) (key : String) (now : Int64) :
    rl.allowAt key now = ((request rl.burst (gain rl.rate) (rl.m key) now).1,
      rl.store key (request rl.burst (gain rl.rate) (rl.m key) now).2) := by
  unfold allowAt request gain
  dsimp only
  rw [minf_eq_min]
  split <;> rfl

/-- The answers to a run of calls are those of the buckets. -/
theorem allowAll_eq (rl : Limiter) (calls : List (String × Int64)) :
    allowAll allowAt rl calls = keyedAnswers (request rl.burst (gain rl.rate)) rl.m calls := by
  induction calls generalizing rl with
  | nil => rfl
  | cons c calls ih =>
      rw [allowAll, keyedAnswers, allowAt_eq, ih]
      rfl

/-! ### The clock -/

theorem seconds_le_iff {t u : Int64} : seconds t ≤ seconds u ↔ t ≤ u := by
  rw [seconds, seconds, Int64.le_iff_toInt_le, div_le_div_iff_of_pos_right (by decide), Int.cast_le]

/-- The difference of two clock values in order is not above the time between them. It is below if
it wraps. -/
theorem toInt_sub_le {last now : Int64} (h : last ≤ now) :
    (now - last).toInt ≤ now.toInt - last.toInt := by
  have hle := Int64.le_iff_toInt_le.mp h
  rw [Int64.toInt_sub, Int.bmod_def]
  split <;> omega

theorem gain_le {rate : ℚ} (hrate : 0 ≤ rate) {last now : Int64} (h : seconds last ≤ seconds now) :
    gain rate last now ≤ rate * (seconds now - seconds last) := by
  have hdiff : ((now - last).toInt : ℚ) ≤ now.toInt - last.toInt := by
    exact_mod_cast toInt_sub_le (seconds_le_iff.mp h)
  rw [gain, seconds, seconds, ← sub_div, mul_comm]
  exact mul_le_mul_of_nonneg_left (div_le_div_of_nonneg_right hdiff (by decide)) hrate

/-! ### The bound -/

/-- The token bucket property of a limiter: in each window of `T` seconds, a key gets at most
`burst + rate * T` positive answers, and its answers do not depend on the calls for other keys. -/
structure Bounded (allow : Limiter → String → Int64 → Bool × Limiter) (rl : Limiter) : Prop where
  window : ∀ calls : List (String × Int64), (calls.Pairwise fun c c' => c.2 ≤ c'.2) →
    ∀ (key : String) (start T : ℚ), 0 ≤ T →
      (admitted key start (start + T) (allowAll allow rl calls) : ℚ) ≤ rl.burst + rl.rate * T
  independent : ∀ (calls : List (String × Int64)) (key : String),
    (allowAll allow rl calls).filter (fun e => e.1.1 = key) =
      allowAll allow rl (calls.filter fun c => c.1 = key)

/-- The positive answers for a key are the requests that its bucket grants. -/
theorem admitted_allowAll (rl : Limiter) (calls : List (String × Int64)) (key : String)
    (start stop : ℚ) :
    admitted key start stop (allowAll allowAt rl calls) =
      grants seconds start stop (answers (request rl.burst (gain rl.rate)) (rl.m key)
        ((calls.filter fun c => c.1 = key).map Prod.snd)) := by
  have hfilter := filter_keyedAnswers (request rl.burst (gain rl.rate)) rl.m calls key
  rw [← allowAll_eq] at hfilter
  have hadmitted : ∀ l : List ((String × Int64) × Bool), admitted key start stop l =
      (l.filter fun e => e.1.1 = key).countP fun e =>
        e.2 ∧ start ≤ seconds e.1.2 ∧ seconds e.1.2 ≤ stop := by
    intro l
    rw [admitted, List.countP_filter]
    congr 1
    ext e
    simp [Bool.and_comm]
  rw [hadmitted, hfilter, List.countP_map]
  rfl

/-- A new limiter is bounded. -/
theorem bounded_new {rate burst : ℚ} (hrate : 0 ≤ rate) (hburst : 1 ≤ burst) :
    Bounded allowAt (new rate burst) := by
  refine ⟨fun calls hclock key start T hT => ?_, fun calls key => ?_⟩
  · have hsorted : ((calls.filter fun c => c.1 = key).map Prod.snd).Pairwise
        fun t u => seconds t ≤ seconds u :=
      List.pairwise_map.mpr ((hclock.filter _).imp seconds_le_iff.mpr)
    have hpos : 0 ≤ burst := le_trans zero_le_one hburst
    have hwindow : start ≤ start + T := le_add_of_nonneg_right hT
    have hgain : ∀ last now, seconds last ≤ seconds now →
        gain rate last now ≤ rate * (seconds now - seconds last) := fun _ _ => gain_le hrate
    have hgrants := grants_le hrate hpos hgain hsorted hwindow
    rw [add_sub_cancel_left] at hgrants
    rw [admitted_allowAll]
    exact hgrants
  · rw [allowAll_eq, allowAll_eq, filter_keyedAnswers_eq]

end Limiter

/-- For every rate and burst both limiters have the token bucket property, from the empty map on. -/
theorem tokenBucket_bound {rate burst : ℚ} (hrate : 0 ≤ rate) (hburst : 1 ≤ burst) :
    Limiter.Bounded PeerLimiter.allow (newPeerLimiter rate burst) ∧
      Limiter.Bounded RateLimiter.allow (newRateLimiter rate burst) :=
  ⟨Limiter.bounded_new hrate hburst, Limiter.bounded_new hrate hburst⟩

namespace Sample

/-- Five calls of one peer within a second, and one of another peer between them. -/
def peerCalls : List (String × Int64) :=
  [("a", 0), ("a", 0), ("b", 0), ("a", 0), ("a", 0), ("a", 1000000000)]

end Sample

/-- With two messages a second and a burst of three, four of the five calls are admitted. -/
theorem tokenBucket_bound_five :
    Limiter.admitted "a" 0 (0 + 1) (allowAll PeerLimiter.allow (newPeerLimiter 2 3)
        Sample.peerCalls) = 4 ∧
      (Limiter.admitted "a" 0 (0 + 1) (allowAll PeerLimiter.allow (newPeerLimiter 2 3)
        Sample.peerCalls) : ℚ) ≤ 3 + 2 * 1 := by
  have hclock : Sample.peerCalls.Pairwise fun c c' => c.2 ≤ c'.2 := by decide
  refine ⟨by decide +kernel, ?_⟩
  exact (tokenBucket_bound (by decide) (by decide)).1.window _ hclock "a" 0 1 (by decide)

end ReserveOS
