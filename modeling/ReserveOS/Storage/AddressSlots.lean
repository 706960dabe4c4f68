import ReserveOS.Runtime

/-!
# Address slots of the storage daemon

`handleAllocSlot` of `storaged/server.go` on the two tables that `migrate` creates. A slot gets its
derivation index from a counter named after account and purpose, and the table of slots admits one
row for each purpose and index (`UNIQUE(purpose, derivation_index)`), whatever the account.

A request is one SQLite transaction: it is serial, and a request that fails leaves the database as
it was. `slot_id` is an `AUTOINCREMENT` column, so an `INSERT` takes the number after the largest
one that was ever used, and fails once that is the largest row id.
-/

namespace ReserveOS

/-- `allocSlotReq`. -/
structure AllocSlotReq where
  accountID : Option String
  purpose : String
  expiresAt : Option Int64
deriving DecidableEq

/-- `allocSlotResp`. -/
structure AllocSlotResp where
  slotID : ℕ
  derivationIndex : ℕ
  expiresAt : Option Int64
deriving DecidableEq

/-- What the handler answers: a status with a body, or a slot. -/
inductive AllocAnswer where
  | refused (status : ℕ) (body : String)
  | allocated (resp : AllocSlotResp)
deriving DecidableEq

/-- A row of `address_slots`, as far as the handler fills it. -/
structure SlotRow where
  slotID : ℕ
  accountID : Option String
  purpose : String
  derivationIndex : ℕ
  createdAt : Int64
  expiresAt : Option Int64
  status : String
deriving DecidableEq

/-- The tables `counters` and `address_slots`, and the largest `slot_id` used so far. -/
structure SlotDB where
  counters : String → Option ℕ
  slots : List SlotRow
  seq : ℕ

/-- The largest row id of SQLite. -/
def maxRowID : ℕ := 2 ^ 63 - 1

namespace AllocSlotReq

/-- `counterName`. -/
def counterName (req : AllocSlotReq) : String :=
  "addr_index:" ++ req.accountID.getD "default" ++ ":" ++ req.purpose

end AllocSlotReq

namespace SlotDB

/-- The tables after `migrate` on a new file. -/
def empty : SlotDB := ⟨fun _ => none, [], 0⟩

variable (db : SlotDB)

/-- `SELECT value FROM counters`, with the row inserted at zero if there is none. -/
def current (name : String) : ℕ := (db.counters name).getD 0

/-- `UPDATE counters SET value=value+1`, on the row that `current` has made sure of. -/
def bump (name : String) : SlotDB :=
  { db with counters := Function.update db.counters name (some (db.current name + 1)) }

/-- A row with this purpose and index is in `address_slots`. -/
def taken (purpose : String) (index : ℕ) : Bool :=
  db.slots.any fun row => row.purpose = purpose ∧ row.derivationIndex = index

/-- `INSERT INTO address_slots`: the new row id, unless the row is refused. -/
def insertSlot (now : Int64) (req : AllocSlotReq) (deriv : ℕ) : Option (ℕ × SlotDB) :=
  if db.taken req.purpose deriv then none
  else if db.seq < maxRowID then
    let row : SlotRow :=
      ⟨db.seq + 1, req.accountID, req.purpose, deriv, now, req.expiresAt, "allocated"⟩
    some (db.seq + 1, { db with slots := row :: db.slots, seq := db.seq + 1 })
  else none

/-- `handleAllocSlot`; `body` is `none` when it does not decode. -/
def handleAllocSlot (now : Int64) (method : String) (body : Option AllocSlotReq) :
    AllocAnswer × SlotDB :=
  if method ≠ "POST" then (.refused 405 "", db)
  else
    match body with
    | none => (.refused 400 "", db)
    | some req =>
        if req.purpose = "" then (.refused 400 "\x7b\"error\":\"missing purpose\"\x7d", db)
        else
          let deriv := db.current req.counterName
          match (db.bump req.counterName).insertSlot now req deriv with
          -- the deferred `Rollback`
          | none => (.refused 500 "", db)
          | some (slotID, tx) => (.allocated ⟨slotID, deriv, req.expiresAt⟩, tx)

end SlotDB

end ReserveOS
