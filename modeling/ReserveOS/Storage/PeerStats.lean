import ReserveOS.Runtime

/-!
# Scores and bans of peers

`peerstats.go`, `UnbanPeer` of `peerstats_list.go` and `penalizePeer` of `p2p_gossip.go`. The score
and the ban of a peer are fields of one record, and every function reads the record, changes it and
writes it back. `now` and `stamp` are readings of the clock: `stamp` is the one of `PutPeerStat`.
-/

namespace ReserveOS

/-- `PeerStat`. -/
structure PeerStat where
  pubkeyHex : String
  score : Int64
  bannedUntil : Int64
  updatedUnix : Int64
deriving DecidableEq

/-- The key range `net:peerstat:`. -/
abbrev PeerStats : Type := String → Option PeerStat

namespace PeerStats

variable (db : PeerStats)

/-- `GetPeerStat`, with the flag that tells whether there is a record. -/
def getPeerStat (pub : String) : PeerStat × Bool :=
  match db pub with
  | some ps => (ps, true)
  | none => (⟨pub, 0, 0, 0⟩, false)

/-- `PutPeerStat`. -/
def putPeerStat (stamp : Int64) (ps : PeerStat) : PeerStats :=
  Function.update db ps.pubkeyHex (some { ps with updatedUnix := stamp })

end PeerStats

namespace PeerStat

variable (ps : PeerStat)

/-- What `AddPeerScore` writes back. -/
def scored (pub : String) (delta : Int64) : PeerStat :=
  { ps with pubkeyHex := pub, score := ps.score + delta }

/-- What `BanPeer` and `UnbanPeer` write back. -/
def banned (pub : String) (until_ : Int64) : PeerStat :=
  { ps with pubkeyHex := pub, bannedUntil := until_ }

end PeerStat

namespace PeerStats

variable (db : PeerStats)

/-- `AddPeerScore`. -/
def addPeerScore (stamp : Int64) (pub : String) (delta : Int64) : PeerStat × PeerStats :=
  let ps := (db.getPeerStat pub).1.scored pub delta
  (ps, db.putPeerStat stamp ps)

/-- `BanPeer`. -/
def banPeer (now stamp : Int64) (pub : String) (seconds : Int64) : PeerStats :=
  db.putPeerStat stamp ((db.getPeerStat pub).1.banned pub (now + seconds))

/-- `UnbanPeer`. -/
def unbanPeer (stamp : Int64) (pub : String) : PeerStats :=
  db.putPeerStat stamp ((db.getPeerStat pub).1.banned pub 0)

/-- `IsBanned`, without the time it returns. -/
def isBanned (now : Int64) (pub : String) : Bool :=
  let (ps, ok) := db.getPeerStat pub
  ok && now < ps.bannedUntil

/-- `penalizePeer`: ten minutes at a score of minus fifty or less. -/
def penalizePeer (now stamp stamp' : Int64) (pub : String) (delta : Int64) : PeerStats :=
  let (ps, db) := db.addPeerScore stamp pub delta
  if ps.score ≤ -50 then db.banPeer now stamp' pub 600 else db

end PeerStats

end ReserveOS
