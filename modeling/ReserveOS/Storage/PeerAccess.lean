import ReserveOS.Storage.PeerStats

/-!
# Concurrent calls on the record of one peer

Session handlers and admin endpoints call `AddPeerScore`, `penalizePeer`, `BanPeer` and `UnbanPeer`
at the same time, and nothing guards the record. Here each call is cut at its database accesses, so
that between the read and the write of one call any accesses of the others can take place. A run is
a list of accesses, each naming the call that takes its next step.
-/

namespace ReserveOS

/-- A call for one peer. -/
inductive PeerCall where
  | addPeerScore (delta : Int64)
  | penalizePeer (delta : Int64)
  | banPeer (seconds : Int64)
  | unbanPeer
deriving DecidableEq

/-- What a write changes in the record it was made from. -/
inductive PeerUpdate where
  | add (delta : Int64)
  | ban (until_ : Int64)
deriving DecidableEq

/-- Where a call stands. A record is the one that the call has read and will write back; `ban` and
`banRead` are the second read and write of `penalizePeer`. -/
inductive PeerPhase where
  | start
  | read (ps : PeerStat)
  | ban
  | banRead (ps : PeerStat)
  | done
deriving DecidableEq

/-- The next access of a call, with the clock readings `time.Now().Unix()` of `BanPeer` and of
`PutPeerStat`. -/
structure PeerAccess (ι : Type*) where
  call : ι
  now : Int64
  stamp : Int64

/-- The database, the calls, and the writes made so far, newest first. -/
structure PeerRun (ι : Type*) where
  db : PeerStats
  phase : ι → PeerPhase
  log : List PeerUpdate

namespace PeerCall

/-- The first write of a call. -/
def update (c : PeerCall) (now : Int64) : PeerUpdate :=
  match c with
  | .addPeerScore delta => .add delta
  | .penalizePeer delta => .add delta
  | .banPeer seconds => .ban (now + seconds)
  | .unbanPeer => .ban 0

/-- Where a call stands after its first write: `penalizePeer` goes on to `BanPeer` when the score
it has written is low. -/
def next (c : PeerCall) (written : PeerStat) : PeerPhase :=
  match c with
  | .penalizePeer _ => if written.score ≤ -50 then .ban else .done
  | _ => .done

end PeerCall

namespace PeerStat

/-- The record that a write puts in the database. -/
def apply (ps : PeerStat) (pub : String) (u : PeerUpdate) : PeerStat :=
  match u with
  | .add delta => ps.scored pub delta
  | .ban until_ => ps.banned pub until_

end PeerStat

namespace PeerRun

variable {ι : Type*} [DecidableEq ι]

/-- Before the first access. -/
def start (db : PeerStats) : PeerRun ι := ⟨db, fun _ => .start, []⟩

variable (pub : String) (call : ι → PeerCall) (s : PeerRun ι)

/-- The record of the peer. -/
def record : PeerStat := (s.db.getPeerStat pub).1

/-- A call moves on without a write. -/
def goto (i : ι) (p : PeerPhase) : PeerRun ι := { s with phase := Function.update s.phase i p }

/-- A call writes and moves on. -/
def put (a : PeerAccess ι) (ps : PeerStat) (u : PeerUpdate) (p : PeerPhase) : PeerRun ι where
  db := s.db.putPeerStat a.stamp (ps.apply pub u)
  phase := Function.update s.phase a.call p
  log := u :: s.log

/-- One database access. A call that is done makes none. -/
def step (a : PeerAccess ι) : PeerRun ι :=
  match s.phase a.call with
  | .start => s.goto a.call (.read (s.record pub))
  | .read ps =>
      let u := (call a.call).update a.now
      s.put pub a ps u ((call a.call).next (ps.apply pub u))
  | .ban => s.goto a.call (.banRead (s.record pub))
  | .banRead ps => s.put pub a ps (.ban (a.now + 600)) .done
  | .done => s

end PeerRun

end ReserveOS
