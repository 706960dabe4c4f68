import ReserveOS.Node.ForkChoice
import ReserveOS.State.Snapshot

/-!
# The listing of checkpoints

`checkpoints.go` at the level of LevelDB's keys, and the two handlers of `node.go` that list
checkpoints. The key of a checkpoint ends with its height in decimal, and LevelDB iterates keys in
byte order. The JSON codec is a parameter which decodes what it has encoded.
-/

namespace ReserveOS

/-- The first bytes of a checkpoint key. -/
def checkpointPrefix : List UInt8 := stringBytes "finality:checkpoint:"

/-- `keyCheckpoint`. -/
def keyCheckpoint (height : UInt64) : List UInt8 :=
  checkpointPrefix ++ stringBytes (toString height.toNat)

/-- `strconv.Atoi`. -/
def atoi (s : String) : Option ℤ :=
  match s.toList with
  | '-' :: cs => (parseUint cs).bind fun v => if v.toNat ≤ 2 ^ 63 then some (-v.toNat) else none
  | '+' :: cs => (parseUint cs).bind fun v => if v.toNat < 2 ^ 63 then some v.toNat else none
  | cs => (parseUint cs).bind fun v => if v.toNat < 2 ^ 63 then some v.toNat else none

/-- The reply of `/finality/status`. -/
structure FinalityStatus where
  finalizedHeight : UInt64
  finalizedSet : Bool
  latestCheckpointHeight : UInt64

/-- The reply of `/finality/checkpoints`: a status without a body, or a page. -/
inductive CheckpointsReply where
  | refused (status : ℕ)
  | page (fromH : UInt64) (count : ℕ) (checkpoints : List Checkpoint)

/-- `encoding/json` for checkpoint records. -/
structure CheckpointCodec where
  marshal : Checkpoint → List UInt8
  unmarshal : List UInt8 → Option Checkpoint
  unmarshal_marshal : ∀ cp, unmarshal (marshal cp) = some cp

namespace CheckpointCodec

variable (c : CheckpointCodec)

/-- `PutCheckpoint`. -/
def putCheckpoint (db : KV) (height : UInt64) (cp : Checkpoint) : KV :=
  db.insert (keyCheckpoint height) (c.marshal cp)

/-- The loop of `ListCheckpoints`, up to the first value that does not decode. -/
def unmarshalAll : List (List UInt8) → Res (List Checkpoint)
  | [] => .ok []
  | v :: vs =>
      match c.unmarshal v with
      | none => .error (.error "cannot decode checkpoint")
      | some cp => (unmarshalAll vs).map (cp :: ·)

/-- `ListCheckpoints`: the first records in key order, never more than 5000. -/
def listCheckpoints (db : KV) (limit : ℤ) : Res (List Checkpoint) :=
  c.unmarshalAll (((db.iterator checkpointPrefix).map Prod.snd).take
    (if limit ≤ 0 ∨ 5000 < limit then 5000 else limit.toNat))

/-- The `/finality/status` handler, with what `GetFinalizedHeight` returns. It drops the error of
the listing. -/
def finalityStatus (finalized : Option UInt64) (db : KV) : FinalityStatus where
  finalizedHeight := finalized.getD 0
  finalizedSet := finalized.isSome
  latestCheckpointHeight :=
    match c.listCheckpoints db 5000 with
    | .ok cps => (cps.getLast?.map Checkpoint.height).getD 0
    | .error _ => 0

/-- The number of entries that `/finality/checkpoints` answers with at most. -/
def pageSize (countQ : String) : ℕ :=
  match atoi countQ with
  | none => 50
  | some count => if count ≤ 0 then 50 else if 200 < count then 200 else count.toNat

/-- The `/finality/checkpoints` handler. -/
def finalityCheckpoints (db : KV) (method fromQ countQ : String) : CheckpointsReply :=
  if method ≠ "GET" then .refused 405
  else
    let fromH := (parseUint fromQ.toList).getD 0
    match c.listCheckpoints db 5000 with
    | .error _ => .refused 500
    | .ok cps =>
        let cps := if 0 < fromH then cps.filter fun cp => fromH ≤ cp.height else cps
        let cps := cps.take (pageSize countQ)
        .page fromH cps.length cps

end CheckpointCodec

end ReserveOS
