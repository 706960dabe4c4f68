import ReserveOS.Storage.PeerStats

/-!
# Announcements of transactions and blocks

The cases `inv_tx` and `inv_block` of the message handler in `p2p_gossip.go`. A peer announces an
ID, and the handler asks it for the body unless the ID has been seen. What has been seen is kept in
two places, a map in memory and a key range of the database, and looked up under the mutex `seenMu`.

A call that finds the mutex locked waits for it. Nothing but another call of the handler unlocks it,
so in a sequence of calls such a call does not return.
-/

namespace ReserveOS

/-- The two kinds of announcements. -/
inductive InvKind where
  | tx
  | block
deriving DecidableEq

/-- The variables of the handler that announcements touch. Times of first sight are `time.Now()`. -/
structure Inventory where
  /-- `seenTx` and `seenBlk` -/
  inMemory : InvKind → String → Option Int64
  /-- `seen:tx:` and `seen:blk:` -/
  persistent : InvKind → String → Option Int64
  /-- `seenMu` -/
  locked : Bool
  /-- the `get_tx` and `get_block` messages sent, with the peer, newest first -/
  requests : List (String × InvKind × String)

/-- A message that announces an ID, with what the handler reads before it looks at the message: the
peer's stored record, the clock, and the answer of the rate limiter. -/
structure Announcement where
  peer : String
  kind : InvKind
  id : String
  stats : PeerStats
  now : Int64
  allowed : Bool

/-- The gates before the `switch`: the allowlist, bans, and the rate limiter. -/
def passesGates (allowlist : List String) (m : Announcement) : Bool :=
  (allowlist = [] ∨ m.peer ∈ allowlist) ∧ ¬ m.stats.isBanned m.now m.peer ∧ m.allowed

namespace Inventory

/-- `HasSeenTx`, `HasSeenBlk`. -/
def hasSeen (s : Inventory) (kind : InvKind) (id : String) : Bool := (s.persistent kind id).isSome

/-- The assignment to the map in memory, and `MarkSeenTx` or `MarkSeenBlk`. -/
def markSeen (s : Inventory) (now : Int64) (kind : InvKind) (id : String) : Inventory :=
  { s with
    inMemory := Function.update s.inMemory kind (Function.update (s.inMemory kind) id (some now))
    persistent :=
      Function.update s.persistent kind (Function.update (s.persistent kind) id (some now)) }

/-- One case of the `switch`. The value tells whether the call returns. -/
def announce (kind : InvKind) (s : Inventory) (m : Announcement) : Bool × Inventory :=
  if m.id = "" then (true, s)
  else if s.locked then (false, s)
  else
    -- from here on the mutex is held
    let s := { s with locked := true }
    if s.hasSeen kind m.id then (true, s)
    else
      let ok := (s.inMemory kind m.id).isSome
      let s := if ok then s else s.markSeen m.now kind m.id
      let s := { s with locked := false }
      if ok then (true, s)
      else (true, { s with requests := (m.peer, kind, m.id) :: s.requests })

/-- The case `inv_tx`. -/
def invTx : Inventory → Announcement → Bool × Inventory := announce .tx

/-- The case `inv_block`. -/
def invBlock : Inventory → Announcement → Bool × Inventory := announce .block

/-- The handler, on an announcement. -/
def handle (allowlist : List String) (s : Inventory) (m : Announcement) : Bool × Inventory :=
  if passesGates allowlist m then
    match m.kind with
    | .tx => s.invTx m
    | .block => s.invBlock m
  else (true, s)

/-- The variables after a call of the handler. -/
def step (allowlist : List String) (s : Inventory) (m : Announcement) : Inventory :=
  (s.handle allowlist m).2

/-- The variables when the handler is installed, over whatever the database holds. -/
def new (persistent : InvKind → String → Option Int64) : Inventory :=
  ⟨fun _ _ => none, persistent, false, []⟩

end Inventory

end ReserveOS
