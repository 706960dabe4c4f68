import ReserveOS.Runtime

/-!
# Fees and fee pools

`SplitFees` of `core/economics/fees` divides the fees of a block, and `fees.go` of the storage keeps
the four pools that the parts go to. Amounts are `int64` on one side and `uint64` on the other.
-/

namespace ReserveOS

/-! ### `SplitFees` -/

/-- `ModeDefense`. -/
def modeDefense : String := "DEFENSE"

/-- `ModeContainment`. -/
def modeContainment : String := "CONTAINMENT"

/-- The parts of a fee total. -/
structure Split where
  toValidators : Int64
  toParticipation : Int64
  toTreasury : Int64
  toDefensePool : Int64
deriving DecidableEq

/-- `SplitFees`; of its parameters it reads the mode. Every mode but the two named ones is the
normal one. -/
def splitFees (total : Int64) (mode : String) : Split :=
  if total ≤ 0 then ⟨0, 0, 0, 0⟩
  else if mode = modeDefense then
    let v := total * 35 / 100
    let pop := total * 15 / 100
    let tr := total * 20 / 100
    ⟨v, pop, tr, total - v - pop - tr⟩
  else if mode = modeContainment then
    let v := total * 25 / 100
    let pop := total * 10 / 100
    let tr := total * 15 / 100
    ⟨v, pop, tr, total - v - pop - tr⟩
  else
    let v := total * 50 / 100
    let pop := total * 20 / 100
    ⟨v, pop, total - v - pop, 0⟩

/-! ### Pools -/

/-- The four `fees:pool:` keys. -/
structure FeePools where
  validators : Option UInt64
  participation : Option UInt64
  treasury : Option UInt64
  defense : Option UInt64

namespace FeePools

/-- The entry of `GetFeePools` under a name, zero when there is none. -/
def getFeePool (p : FeePools) (name : String) : UInt64 :=
  if name = "validators" then p.validators.getD 0
  else if name = "participation" then p.participation.getD 0
  else if name = "treasury" then p.treasury.getD 0
  else if name = "defense" then p.defense.getD 0
  else 0

/-- `SetFeePool`; an unknown name changes nothing. -/
def setFeePool (p : FeePools) (name : String) (value : UInt64) : FeePools :=
  if name = "validators" then { p with validators := some value }
  else if name = "participation" then { p with participation := some value }
  else if name = "treasury" then { p with treasury := some value }
  else if name = "defense" then { p with defense := some value }
  else p

/-- `DrainFeePool`, with what is drained and what remains. An amount of zero drains everything. -/
def drainFeePool (p : FeePools) (name : String) (amount : UInt64) : (UInt64 × UInt64) × FeePools :=
  let cur := p.getFeePool name
  if cur = 0 then ((0, 0), p)
  else
    let amount := if amount = 0 ∨ cur < amount then cur else amount
    ((amount, cur - amount), p.setFeePool name (cur - amount))

theorem getFeePool_setFeePool (p : FeePools) (v : UInt64) :
    (p.setFeePool "participation" v).getFeePool "participation" = v := rfl

/-- Draining everything. -/
theorem drainFeePool_all (p : FeePools) : (p.drainFeePool "participation" 0).1.1 =
      p.getFeePool "participation" ∧
    (p.drainFeePool "participation" 0).2.getFeePool "participation" = 0 := by
  simp only [drainFeePool, true_or, if_true]
  split
  next h => exact ⟨h.symm, h⟩
  next => exact ⟨rfl, by rw [getFeePool_setFeePool, UInt64.sub_self]⟩

end FeePools

end ReserveOS
