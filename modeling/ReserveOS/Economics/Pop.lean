import ReserveOS.Economics.Fees
import ReserveOS.State.Ledger

/-!
# Paying out the participation pool

`DistributeIfEpoch` of `core/economics/pop`, with the participant records and scores of the storage.
It drains the pool first, and puts the amount back on some of its exits.
-/

namespace ReserveOS

/-- A participant record. -/
structure Participant where
  id : String
  weight : Int64
  addedAt : Int64
deriving DecidableEq

/-- The parameters of the distribution. -/
structure PopParams where
  epochBlocks : UInt64
  minPayout : UInt64

/-- `DefaultParams`. -/
def PopParams.defaultParams : PopParams := ⟨50, 100⟩

/-- The tables that the distribution uses. -/
structure PopDB where
  /-- `fees:pool:` -/
  pools : FeePools
  /-- `pop:participant:`, where `none` is a record that does not decode -/
  participants : Table (Option Participant)
  /-- `pop:score:` -/
  scores : Table UInt64
  /-- `bal:` and `nonce:` -/
  ledger : Ledger

/-- The account of a participant. -/
def popAccount (id : String) : String := "pop:" ++ id

namespace PopDB

/-- `PutParticipant`, as `/pop/register` calls it: a weight that is not positive becomes one. -/
def register (s : PopDB) (id : String) (weight now : Int64) : PopDB :=
  { s with
    participants := s.participants.insert id
      (some ⟨id, if weight ≤ 0 then 1 else weight, now⟩) }

/-- The records in the order of their keys, up to the first one that does not decode. -/
def decodeAll : List (Option Participant) → Res (List Participant)
  | [] => .ok []
  | none :: _ => .error (.error "cannot decode participant")
  | some p :: records => (decodeAll records).map (p :: ·)

/-- `ListParticipants`: the first records, never more than 5000. -/
def listParticipants (s : PopDB) (limit : ℕ) : Res (List Participant) :=
  decodeAll ((s.participants.toList.map Prod.snd).take
    (if limit = 0 ∨ 5000 < limit then 5000 else limit))

/-- The value `GetScore` returns, zero when there is none. -/
def getScore (s : PopDB) (id : String) : UInt64 := s.scores[id]?.getD 0

/-- The weight that counts for a participant: the score as `int64` if it is positive, else the
registered weight. -/
def effectiveWeight (s : PopDB) (p : Participant) : Int64 :=
  let w := (s.getScore p.id).toInt64
  if w ≤ 0 then p.weight else w

/-- The entry of `weights` for a participant. -/
def weightOf (s : PopDB) (p : Participant) : Int64 :=
  if p.weight ≤ 0 then 0 else s.effectiveWeight p

/-- `totalW`. -/
def totalWeight (s : PopDB) (parts : List Participant) : Int64 :=
  parts.foldl (fun total p => total + s.weightOf p) 0

/-- The paying loop, with what remains of the drained amount. The last participant of the list gets
the remainder, and a share that is not positive is skipped. -/
def payLoop (drain totalW : Int64) :
    List (Participant × Int64) → Int64 → Ledger → Res Unit × Int64 × Ledger
  | [], remaining, l => (.ok (), remaining, l)
  | (p, w) :: rest, remaining, l =>
      if p.weight ≤ 0 then payLoop drain totalW rest remaining l
      else
        let share := if rest = [] then remaining else drain * w / totalW
        if share ≤ 0 then payLoop drain totalW rest remaining l
        else
          match l.addBalance (popAccount p.id) share with
          | .error e => (.error e, remaining - share, l)
          | .ok l' => payLoop drain totalW rest (remaining - share) l'

/-- `SetFeePool` for the participation pool. -/
def restore (s : PopDB) (drain : UInt64) : PopDB :=
  { s with pools := s.pools.setFeePool "participation" drain }

/-- `DrainFeePool` for the whole participation pool. -/
def drainPool (s : PopDB) : UInt64 × PopDB :=
  let drained := s.pools.drainFeePool "participation" 0
  (drained.1.1, { s with pools := drained.2 })

/-- The second half of `DistributeIfEpoch`, once `drain` has been taken out of the pool. -/
def payOut (s : PopDB) (drain : UInt64) : (UInt64 × Res Unit) × PopDB :=
  match s.listParticipants 5000 with
  | .error e => ((0, .error e), s)
  | .ok parts =>
      if parts = [] ∨ s.totalWeight parts ≤ 0 then ((0, .ok ()), s.restore drain)
      else
        match payLoop drain.toInt64 (s.totalWeight parts) (parts.map fun p => (p, s.weightOf p))
            drain.toInt64 s.ledger with
        | (.error e, remaining, l) =>
            (((drain.toInt64 - remaining).toUInt64, .error e), { s with ledger := l })
        | (.ok _, _, l) => ((drain, .ok ()), { s with ledger := l, scores := ∅ })

/-- The epoch test of `DistributeIfEpoch`. -/
def epochEnds (height : UInt64) (params : PopParams) : Bool :=
  height ≠ 0 && height % params.epochBlocks = 0

/-- `DistributeIfEpoch`, with the paid amount and the error. -/
def distributeIfEpoch (s : PopDB) (height : UInt64) (params : PopParams) :
    (UInt64 × Res Unit) × PopDB :=
  let params := if params.epochBlocks = 0 then PopParams.defaultParams else params
  if epochEnds height params then
    let (drain, s') := s.drainPool
    if drain < params.minPayout then ((0, .ok ()), s'.drainPool.2.restore drain)
    else s'.payOut drain
  else ((0, .ok ()), s)

end PopDB

end ReserveOS
