import ReserveOS.Chain.Codec
import ReserveOS.State.Ledger

/-!
# Snapshots of the stored state

The snapshot files of `snapshot.go`, `snapshot_bin.go` and `snapshot_auto.go`, and the two routines
that load them into a database (`RestoreSnapshot`, and `WipeStatePrefixes` followed by
`ImportStateMaps` of `state_import.go`), at the level of LevelDB's keys and values. An id is a Go
string, so any byte string. The codecs are parameters which decode what they have encoded. A `range`
over a Go map is a list of its entries, in any order.
-/

namespace ReserveOS

/-- A finite map keyed by byte strings, in their order. -/
abbrev ByteMap (V : Type) := Std.ExtTreeMap (List UInt8) V compare

/-- A LevelDB database. -/
abbrev KV := ByteMap (List UInt8)

/-- `binary.BigEndian.PutUint64` into eight bytes. -/
def putUint64 (v : UInt64) : List UInt8 :=
  [(v >>> 56).toUInt8, (v >>> 48).toUInt8, (v >>> 40).toUInt8, (v >>> 32).toUInt8,
    (v >>> 24).toUInt8, (v >>> 16).toUInt8, (v >>> 8).toUInt8, v.toUInt8]

/-- The value of a stored entry, when it has eight bytes. -/
def entryValue : List UInt8 → Option UInt64
  | [v0, v1, v2, v3, v4, v5, v6, v7] =>
      some (v0.toUInt64 <<< 56 ||| v1.toUInt64 <<< 48 ||| v2.toUInt64 <<< 40 |||
        v3.toUInt64 <<< 32 ||| v4.toUInt64 <<< 24 ||| v5.toUInt64 <<< 16 ||| v6.toUInt64 <<< 8 |||
        v7.toUInt64)
  | _ => none

/-- The first bytes of a balance key. -/
def balPrefix : List UInt8 := stringBytes "bal:"

/-- The first bytes of a nonce key. -/
def noncePrefix : List UInt8 := stringBytes "nonce:"

/-- `keyBal`. -/
def keyBal (id : List UInt8) : List UInt8 := balPrefix ++ id

/-- `keyNonce`. -/
def keyNonce (id : List UInt8) : List UInt8 := noncePrefix ++ id

/-- `strings.TrimPrefix`. -/
def trimPrefix (k pref : List UInt8) : List UInt8 :=
  if pref.isPrefixOf k then k.drop pref.length else k

namespace KV

/-! ### The stored entries -/

/-- `db.NewIterator(util.BytesPrefix(pref), nil)`: the entries below a prefix, in key order. -/
def iterator (db : KV) (pref : List UInt8) : List (List UInt8 × List UInt8) :=
  db.toList.filter fun e => pref.isPrefixOf e.1

/-- `SetBalance`, which stores zero for a negative value. -/
def setBalance (db : KV) (id : List UInt8) (value : Int64) : KV :=
  db.insert (keyBal id) (putUint64 (if value < 0 then 0 else value).toUInt64)

/-- `SetNonce`. -/
def setNonce (db : KV) (id : List UInt8) (nonce : UInt64) : KV :=
  db.insert (keyNonce id) (putUint64 nonce)

/-- Deleting keys one after the other. -/
def deleteAll (db : KV) (keys : List (List UInt8)) : KV := keys.foldl (fun db k => db.erase k) db

/-- `ResetState`: one batch with the keys of both iterators. -/
def resetState (db : KV) : KV :=
  db.deleteAll ((db.iterator balPrefix).map Prod.fst ++ (db.iterator noncePrefix).map Prod.fst)

/-- `WipeStatePrefixes`: the second iterator is opened after the first deletions. -/
def wipeStatePrefixes (db : KV) : KV :=
  let db := db.deleteAll ((db.iterator balPrefix).map Prod.fst)
  db.deleteAll ((db.iterator noncePrefix).map Prod.fst)

/-! ### Export and import -/

/-- The scan of one prefix in `WriteSnapshot` and `ExportStateMaps`; an entry whose value does not
have eight bytes is passed over. -/
def scan {V : Type} (db : KV) (pref : List UInt8) (conv : UInt64 → V) : ByteMap V :=
  (db.iterator pref).foldl (fun m e =>
    match entryValue e.2 with
    | some u => m.insert (trimPrefix e.1 pref) (conv u)
    | none => m) ∅

/-- `ExportStateMaps`; `WriteSnapshot` has the same two loops. -/
def exportStateMaps (db : KV) : ByteMap Int64 × ByteMap UInt64 :=
  (db.scan balPrefix UInt64.toInt64, db.scan noncePrefix id)

/-- `ImportStateMaps`, with the entries of the two maps in the order of iteration. -/
def importStateMaps (db : KV) (bal : List (List UInt8 × Int64))
    (non : List (List UInt8 × UInt64)) : KV :=
  non.foldl (fun db e => db.insert (noncePrefix ++ e.1) (putUint64 e.2))
    (bal.foldl (fun db e => db.insert (balPrefix ++ e.1) (putUint64 e.2.toUInt64)) db)

/-- `RestoreSnapshot`, with the entries of the two maps in the order of iteration. -/
def restoreSnapshot (db : KV) (bal : List (List UInt8 × Int64))
    (non : List (List UInt8 × UInt64)) : KV :=
  non.foldl (fun db e => db.setNonce e.1 e.2)
    (bal.foldl (fun db e => db.setBalance e.1 e.2) db.resetState)

end KV

/-! ### Snapshot files -/

/-- The contents of a snapshot file (`Snapshot` in `snapshot.go`), with ids as byte strings. -/
structure RawSnapshot where
  version : Int64
  height : UInt64
  tipHash : String
  createdUnix : Int64
  balances : ByteMap Int64
  nonces : ByteMap UInt64

/-- The record that `WriteSnapshot` and `WriteSnapshotBin` fill in. -/
def KV.snapshot (db : KV) (version : Int64) (height : UInt64) (tipHash : String) (now : Int64) :
    RawSnapshot where
  version := version
  height := height
  tipHash := tipHash
  createdUnix := now
  balances := db.exportStateMaps.1
  nonces := db.exportStateMaps.2

/-- The codecs of `encoding/json`, `encoding/gob` and `compress/gzip`. -/
structure Codecs (Plain Packed : Type) where
  jsonEncode : RawSnapshot → Plain
  jsonDecode : Plain → Option RawSnapshot
  gobEncode : RawSnapshot → Plain
  gobDecode : Plain → Option RawSnapshot
  gzip : Plain → Packed
  gunzip : Packed → Option Plain
  jsonDecode_jsonEncode : ∀ s, jsonDecode (jsonEncode s) = some s
  gobDecode_gobEncode : ∀ s, gobDecode (gobEncode s) = some s
  gunzip_gzip : ∀ p, gunzip (gzip p) = some p

namespace Codecs

variable {Plain Packed : Type} (c : Codecs Plain Packed)

/-- `WriteSnapshot` at the time `now`: the name of the file, and the directory with it. -/
def writeSnapshot (db : KV) (dir : Table Packed) (height : UInt64) (tipHash : String)
    (now : Int64) : String × Table Packed :=
  let name := "state_" ++ toString height ++ ".json.gz"
  (name, dir.insert name (c.gzip (c.jsonEncode (db.snapshot 1 height tipHash now))))

/-- `WriteSnapshotBin`. -/
def writeSnapshotBin (db : KV) (dir : Table Packed) (height : UInt64) (tipHash : String)
    (now : Int64) : String × Table Packed :=
  let name := "state_" ++ toString height ++ ".gob.gz"
  (name, dir.insert name (c.gzip (c.gobEncode (db.snapshot 2 height tipHash now))))

/-- `ReadSnapshot`. -/
def readSnapshot (dir : Table Packed) (name : String) : Option RawSnapshot :=
  dir[name]?.bind fun f => (c.gunzip f).bind c.jsonDecode

/-- `ReadSnapshotBin`. -/
def readSnapshotBin (dir : Table Packed) (name : String) : Option RawSnapshot :=
  dir[name]?.bind fun f => (c.gunzip f).bind c.gobDecode

/-- `ReadSnapshotAuto`. -/
def readSnapshotAuto (dir : Table Packed) (name : String) : Option RawSnapshot :=
  if hasSuffix name ".gob.gz" then c.readSnapshotBin dir name else c.readSnapshot dir name

end Codecs

end ReserveOS
