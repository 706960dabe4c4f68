import ReserveOS.Economics.Pop
import ReserveOS.Node.Finality

/-!
# Participation scores

The score table of `pop_scores.go` and the two handlers of `node.go` that add to it, `/pop/event`
and `/pop/heartbeat`. The delta of a request is any `uint64`; it is multiplied and added without a
check for overflow.
-/

namespace ReserveOS

/-- An event record. -/
structure PopEvent where
  id : String
  type : String
  delta : UInt64
  timeUnix : Int64
deriving DecidableEq

/-- The tables that the two handlers write, beside those they leave alone. -/
structure PopStore where
  db : PopDB
  /-- `pop:event:` -/
  events : Table PopEvent

/-- `AddScore`. -/
def PopDB.addScore (s : PopDB) (id : String) (delta : UInt64) : PopDB :=
  { s with scores := s.scores.insert id (s.getScore id + delta) }

/-- `PutPoPEvent`, at the time `now`. The record replaces an earlier one of the same second, id and
type. -/
def PopStore.putPopEvent (now : Int64) (s : PopStore) (ev : PopEvent) : PopStore :=
  let ev := if ev.timeUnix = 0 then { ev with timeUnix := now } else ev
  { s with
    events := s.events.insert
      ("pop:event:" ++ toString ev.timeUnix ++ ":" ++ ev.id ++ ":" ++ ev.type) ev }

/-- The body of a request to `/pop/event`. A heartbeat has no type. -/
structure PopBody where
  id : String
  type : String
  delta : UInt64

/-- A request to `/pop/event` or `/pop/heartbeat`; `body` is `none` when it does not decode. -/
structure PopRequest where
  method : String
  body : Option PopBody

/-- The multiplier of an event type. -/
def eventMul (type : String) : UInt64 :=
  if type = "relay" then 5
  else if type = "storage" then 3
  else if type = "uptime" then 2
  else 1

/-- A delta of zero counts as one. -/
def orOne (delta : UInt64) : UInt64 := if delta = 0 then 1 else delta

/-- The `/pop/event` handler. -/
def popEvent (now : Int64) (s : PopStore) (req : PopRequest) : Response × PopStore :=
  if req.method ≠ "POST" then (⟨405, ""⟩, s)
  else
    match req.body with
    | none => (⟨400, ""⟩, s)
    | some body =>
        if body.id = "" then (⟨400, "\x7b\"error\":\"missing id\"\x7d"⟩, s)
        else
          let type := if body.type = "" then "heartbeat" else body.type
          let delta := orOne body.delta
          let applied := delta * eventMul type
          let s := s.putPopEvent now ⟨body.id, type, delta, 0⟩
          (⟨200, "\x7b\"applied\":" ++ toString applied ++ ",\"ok\":true\x7d\n"⟩,
            { s with db := s.db.addScore body.id applied })

/-- The `/pop/heartbeat` handler. -/
def popHeartbeat (s : PopStore) (req : PopRequest) : Response × PopStore :=
  if req.method ≠ "POST" then (⟨405, ""⟩, s)
  else
    match req.body with
    | none => (⟨400, ""⟩, s)
    | some body =>
        if body.id = "" then (⟨400, "\x7b\"error\":\"missing id\"\x7d"⟩, s)
        else (⟨200, "\x7b\"ok\":true\x7d\n"⟩,
          { s with db := s.db.addScore body.id (orOne body.delta) })

/-- A request that can add to a score. -/
inductive PopCall where
  | event (now : Int64) (req : PopRequest)
  | heartbeat (req : PopRequest)

/-- The tables after a request. -/
def popStep (s : PopStore) : PopCall → PopStore
  | .event now req => (popEvent now s req).2
  | .heartbeat req => (popHeartbeat s req).2

end ReserveOS
