import ReserveOS.General.TokenBucket
import ReserveOS.Runtime

/-!
# Rate limiters

`peerLimiter` of `p2p_gossip.go` and `rateLimiter` of the gateway (`services/initialize-daemon`),
two copies of one token bucket limiter. Their `float64` fields are rational numbers here, computed
exactly. The clock is `time.Now().UnixNano()`, so an `int64`, and the difference of two clock
values wraps. A call holds the mutex from start to end, so calls are serial.
-/

namespace ReserveOS

/-- The record of a key: its tokens, and the clock at its last call. -/
abbrev LimiterRec := TokenBucket.Record ℚ Int64

/-- The fields of both limiters. -/
structure Limiter where
  m : String → Option LimiterRec
  rate : ℚ
  burst : ℚ

/-- `minf`. -/
def minf (a b : ℚ) : ℚ := if a < b then a else b

namespace Limiter

/-- The limiter with an empty map. -/
def new (rate burst : ℚ) : Limiter := ⟨fun _ => none, rate, burst⟩

/-- `rl.m[key] = rec`. -/
def store (rl : Limiter) (key : String) (r : LimiterRec) : Limiter :=
  { rl with m := Function.update rl.m key (some r) }

/-- The body of `allow` when the clock is `now`. -/
def allowAt (rl : Limiter) (key : String) (now : Int64) : Bool × Limiter :=
  let r := (rl.m key).getD ⟨rl.burst, now⟩
  let dt : ℚ := (now - r.last).toInt / 1000000000
  let tokens := minf rl.burst (r.tokens + dt * rl.rate)
  if tokens < 1 then (false, rl.store key ⟨tokens, now⟩)
  else (true, rl.store key ⟨tokens - 1, now⟩)

end Limiter

/-- `peerLimiter`. -/
abbrev PeerLimiter := Limiter

/-- `newPeerLimiter`. -/
def newPeerLimiter (rate burst : ℚ) : PeerLimiter := Limiter.new rate burst

/-- `peerLimiter.allow`. -/
def PeerLimiter.allow (rl : PeerLimiter) (peer : String) (now : Int64) : Bool × PeerLimiter :=
  rl.allowAt peer now

/-- `rateLimiter`. -/
abbrev RateLimiter := Limiter

/-- `newRateLimiter`. -/
def newRateLimiter (rate burst : ℚ) : RateLimiter := Limiter.new rate burst

/-- `rateLimiter.allow`. -/
def RateLimiter.allow (rl : RateLimiter) (ip : String) (now : Int64) : Bool × RateLimiter :=
  rl.allowAt ip now

/-- Calls of an `allow` one after the other, each with its answer. A call is a key and the clock. -/
def allowAll (allow : Limiter → String → Int64 → Bool × Limiter) :
    Limiter → List (String × Int64) → List ((String × Int64) × Bool)
  | _, [] => []
  | rl, c :: cs => (c, (allow rl c.1 c.2).1) :: allowAll allow (allow rl c.1 c.2).2 cs

end ReserveOS
