import ReserveOS.Chain.Types

/-!
# The account ledger

The stored balances and nonces of `core/state` with their accessors, snapshots of them, and the
working copy that block validation simulates on. `AddBalance` is the one of `state.go`, which
refuses a negative result.
-/

namespace ReserveOS

/-- The working set of a block simulation: Go maps that read as zero at a missing key. -/
@[ext]
structure Sim where
  bal : String → Int64
  nonce : String → UInt64

namespace Sim

/-- `setBal`. -/
def setBal (m : Sim) (id : String) (v : Int64) : Sim :=
  { m with bal := Function.update m.bal id v }

/-- `setNon`. -/
def setNonce (m : Sim) (id : String) (v : UInt64) : Sim :=
  { m with nonce := Function.update m.nonce id v }

/-- `setBal(id, getBal(id)+v)`. -/
def addBal (m : Sim) (id : String) (v : Int64) : Sim := m.setBal id (m.bal id + v)

variable (m : Sim) (id : String)

@[simp] theorem bal_setBal (v : Int64) : (m.setBal id v).bal = Function.update m.bal id v := rfl
@[simp] theorem nonce_setBal (v : Int64) : (m.setBal id v).nonce = m.nonce := rfl
@[simp] theorem bal_setNonce (v : UInt64) : (m.setNonce id v).bal = m.bal := rfl
@[simp] theorem nonce_setNonce (v : UInt64) :
    (m.setNonce id v).nonce = Function.update m.nonce id v := rfl
@[simp] theorem nonce_addBal (v : Int64) : (m.addBal id v).nonce = m.nonce := rfl
@[simp] theorem bal_addBal (v : Int64) :
    (m.addBal id v).bal = Function.update m.bal id (m.bal id + v) := rfl

/-- Balance and nonce writes commute. -/
theorem setNonce_setBal (id' : String) (v : Int64) (k : UInt64) :
    (m.setBal id v).setNonce id' k = (m.setNonce id' k).setBal id v := rfl

/-- A credit and a nonce write commute. -/
theorem setNonce_addBal (id' : String) (v : Int64) (k : UInt64) :
    (m.addBal id v).setNonce id' k = (m.setNonce id' k).addBal id v := rfl

end Sim

/-- The stored balances (`bal:`) and nonces (`nonce:`). -/
structure Ledger where
  bal : Table Int64
  nonce : Table UInt64

namespace Ledger

/-- `ResetState`: no entry at all. -/
def empty : Ledger := ⟨∅, ∅⟩

/-- The value `GetBalance` returns, zero for an account with no entry. -/
def getBalance (l : Ledger) (id : String) : Int64 := l.bal[id]?.getD 0

/-- The value `GetNonce` returns, zero for an account with no entry. -/
def getNonce (l : Ledger) (id : String) : UInt64 := l.nonce[id]?.getD 0

/-- `SetBalance`, which stores zero for a negative value. -/
def setBalance (l : Ledger) (id : String) (value : Int64) : Ledger :=
  { l with bal := l.bal.insert id (if value < 0 then 0 else value) }

/-- `SetNonce`. -/
def setNonce (l : Ledger) (id : String) (nonce : UInt64) : Ledger :=
  { l with nonce := l.nonce.insert id nonce }

/-- `AddBalance`. The sum wraps as `int64` does; a negative one is refused. -/
def addBalance (l : Ledger) (id : String) (delta : Int64) : Res Ledger :=
  if l.getBalance id + delta < 0 then .error (.error "insufficient funds")
  else .ok (l.setBalance id (l.getBalance id + delta))

/-- The ledger as a simulation reads it. -/
def view (l : Ledger) : Sim := ⟨l.getBalance, l.getNonce⟩

@[simp] theorem view_bal (l : Ledger) : l.view.bal = l.getBalance := rfl
@[simp] theorem view_nonce (l : Ledger) : l.view.nonce = l.getNonce := rfl

/-- The stored nonces, after a balance write. -/
@[simp] theorem getNonce_setBalance (l : Ledger) (id : String) (v : Int64) :
    (l.setBalance id v).getNonce = l.getNonce := rfl

/-- The stored balances, after a nonce write. -/
@[simp] theorem getBalance_setNonce (l : Ledger) (id : String) (v : UInt64) :
    (l.setNonce id v).getBalance = l.getBalance := rfl

/-- Reading a balance after a write of a non-negative value. -/
theorem getBalance_setBalance (l : Ledger) {id : String} {v : Int64} (hv : ¬ v < 0) :
    (l.setBalance id v).getBalance = Function.update l.getBalance id v := by
  funext a
  rw [getBalance, setBalance, Table.getElem?_put, if_neg hv, Function.update_apply]
  by_cases h : id = a
  · simp [h]
  · simp [h, Ne.symm h, getBalance]

/-- Reading a nonce after a write. -/
theorem getNonce_setNonce (l : Ledger) (id : String) (k : UInt64) :
    (l.setNonce id k).getNonce = Function.update l.getNonce id k := by
  funext a
  rw [getNonce, setNonce, Table.getElem?_put, Function.update_apply]
  by_cases h : id = a
  · simp [h]
  · simp [h, Ne.symm h, getNonce]

/-- `AddBalance` succeeds exactly when the wrapped sum is not negative, and then stores it. -/
theorem addBalance_eq_ok_iff {l l' : Ledger} {id : String} {d : Int64} :
    l.addBalance id d = .ok l' ↔
      ¬ l.getBalance id + d < 0 ∧ l' = l.setBalance id (l.getBalance id + d) := by
  unfold addBalance
  split
  next h => simp [h]
  next h => simp [h, eq_comm]

/-- A successful `AddBalance` is the simulation's credit. -/
theorem view_of_addBalance {l l' : Ledger} {id : String} {d : Int64}
    (h : l.addBalance id d = .ok l') : l'.view = l.view.addBal id d := by
  obtain ⟨hnn, rfl⟩ := addBalance_eq_ok_iff.mp h
  ext1
  · simp [getBalance_setBalance l hnn]
  · simp

/-- `SetNonce` is the simulation's nonce write. -/
theorem view_setNonce (l : Ledger) (id : String) (k : UInt64) :
    (l.setNonce id k).view = l.view.setNonce id k := by
  ext1
  · simp
  · simp [getNonce_setNonce]

end Ledger

/-- A state snapshot file's contents. -/
structure Snapshot where
  height : UInt64
  tipHash : String
  balances : Table Int64
  nonces : Table UInt64

/-- A file of the snapshot directory, as the JSON reader and as the gob reader decode it; `none`
stands for a read error. -/
structure SnapshotFile where
  json : Option Snapshot
  gob : Option Snapshot

/-- `RestoreSnapshot`. -/
def restoreSnapshot (ss : Snapshot) : Ledger :=
  ss.nonces.toList.foldl (fun l e => l.setNonce e.1 e.2)
    (ss.balances.toList.foldl (fun l e => l.setBalance e.1 e.2) Ledger.empty)

/-- `strings.HasSuffix`. -/
def hasSuffix (s suf : String) : Bool := suf.toList.isSuffixOf s.toList

/-- `ListSnapshots`: the snapshot files of the directory, in name order. -/
def listSnapshots (dir : Table SnapshotFile) : List String :=
  (dir.toList.map Prod.fst).filter fun name =>
    "state_".toList.isPrefixOf name.toList &&
      (hasSuffix name ".json.gz" || hasSuffix name ".gob.gz")

/-- `ReadSnapshot`. -/
def readSnapshot (dir : Table SnapshotFile) (name : String) : Option Snapshot :=
  dir[name]?.bind SnapshotFile.json

/-- `ReadSnapshotAuto`: the reader follows the file name's suffix. -/
def readSnapshotAuto (dir : Table SnapshotFile) (name : String) : Option Snapshot :=
  if hasSuffix name ".gob.gz" then dir[name]?.bind SnapshotFile.gob else readSnapshot dir name

/-- `parseInt64`: the decimal digits of the string, every other character skipped, with `int64`
wrap-around. -/
def parseInt64 (s : String) : Int64 :=
  s.toList.foldl (fun (n : Int64) c =>
    if c < '0' ∨ '9' < c then n else n * 10 + Int64.ofNat (c.toNat - 48)) 0

end ReserveOS
