import ReserveOS.State.Snapshot

/-!
# Headers by height

The header index of `headers_index.go` and its pruning in `headers_gc.go`, at the level of
LevelDB's keys. A hash is a Go string, so any byte string. Beside the record of a header,
`PutHeader` writes an entry whose key holds height and hash; the listing of a height and the
pruning split these keys again. The JSON encoding of headers is a parameter; no function here
reads it.
-/

namespace ReserveOS

/-- The byte `:`. -/
def colon : UInt8 := 58

/-- `keyHdrHash`. -/
def keyHdrHash (hash : List UInt8) : List UInt8 := stringBytes "hdr:" ++ hash

/-- The first bytes of the entries of a height. -/
def heightPrefix (h : UInt64) : List UInt8 := stringBytes ("hdrh:" ++ toString h.toNat ++ ":")

/-- `keyHdrAtHeight`. -/
def keyHdrAtHeight (h : UInt64) (hash : List UInt8) : List UInt8 := heightPrefix h ++ hash

/-- `strings.SplitN` with a separator of one byte. -/
def splitN (sep : UInt8) : ℕ → List UInt8 → List (List UInt8)
  | 0, _ => []
  | 1, k => [k]
  | n + 2, k =>
      match k.span (· ≠ sep) with
      | (part, []) => [part]
      | (part, _ :: rest) => part :: splitN sep (n + 1) rest

/-- `parseU64`: the leading digits, with `uint64` wrap-around. -/
def parseU64 (s : List UInt8) : UInt64 :=
  (s.takeWhile fun c => 48 ≤ c ∧ c ≤ 57).foldl (fun n c => n * 10 + (c - 48).toUInt64) 0

namespace KV

/-- `PutHeader` of `headers_index.go`. -/
def putHeader (marshal : BlockHeader → List UInt8) (db : KV) (header : BlockHeader)
    (hash : List UInt8) : KV :=
  (db.insert (keyHdrHash hash) (marshal header)).insert (keyHdrAtHeight header.height hash) [1]

/-- The hash in the key of an entry. -/
def hashOfKey (k : List UInt8) : Option (List UInt8) :=
  match splitN colon 3 k with
  | [_, _, hash] => some hash
  | _ => none

/-- `ListHeaderHashesAtHeight`. -/
def listHeaderHashesAtHeight (db : KV) (h : UInt64) (limit : ℤ) : List (List UInt8) :=
  ((db.iterator (heightPrefix h)).filterMap fun e => hashOfKey e.1).take
    (if limit ≤ 0 ∨ 5000 < limit then 5000 else limit.toNat)

/-- The test of `DeleteHeadersBelowHeight` on a key. -/
def keyIsBelow (hLimit : UInt64) (k : List UInt8) : Bool :=
  match splitN colon 3 k with
  | [_, height, _] => parseU64 height < hLimit
  | _ => false

/-- `DeleteHeadersBelowHeight`. The iterator sees the database as it was before the deletions. -/
def deleteHeadersBelowHeight (db : KV) (hLimit : UInt64) : KV :=
  db.deleteAll (((db.iterator (stringBytes "hdrh:")).map Prod.fst).filter (keyIsBelow hLimit))

end KV

/-- A call that changes the header index. -/
inductive HeaderCall where
  | put (header : BlockHeader) (hash : List UInt8)
  | delete (hLimit : UInt64)

/-- The database after a call. -/
def KV.headerStep (marshal : BlockHeader → List UInt8) (db : KV) : HeaderCall → KV
  | .put header hash => db.putHeader marshal header hash
  | .delete hLimit => db.deleteHeadersBelowHeight hLimit

end ReserveOS
