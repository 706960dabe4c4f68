import ReserveOS.General.WhileLoop
import ReserveOS.Node.Apply

/-!
# Reconciling the fee records

`applyBlockTxs` leaves one fee record for each height (`fees_block.go`), and the handler of
`/fees/reconcile` in `node.go` adds up the records of a range of heights. Its loop counts in
`uint64` up to a bound that is included, so it need not end; the reply is a relation, without a
result where the loop goes on forever.
-/

namespace ReserveOS

/-- The loop of `strconv.ParseUint(s, 10, 64)` for the value it returns beside its error: zero at
a character that is not a digit, and the largest number as soon as the digits read exceed it. -/
def parseUintLoop : ℕ → List Char → UInt64
  | v, [] => UInt64.ofNat v
  | v, c :: cs =>
      if '0' ≤ c ∧ c ≤ '9' then
        let v := v * 10 + (c.toNat - 48)
        if v < 2 ^ 64 then parseUintLoop v cs else UInt64.ofNat (2 ^ 64 - 1)
      else 0

/-- The value of `strconv.ParseUint(s, 10, 64)` for a caller that drops the error. -/
def parseUintValue (s : String) : UInt64 := parseUintLoop 0 s.toList

/-- The reply of `/fees/reconcile`. -/
structure FeeReport where
  fromH : UInt64
  toH : UInt64
  blocks : Int64
  feeSumTotal : Int64

/-- The variables of the loop of `/fees/reconcile`. -/
structure FeeTally where
  h : UInt64
  blocks : Int64
  total : Int64

namespace DB

/-- `GetBlockFeeSum`. -/
def getBlockFeeSum (s : DB) (height : UInt64) : Option Int64 := s.blockFees height

/-- One round of the loop, with `h++` at its end. -/
def tallyRound (s : DB) (t : FeeTally) : FeeTally :=
  match s.getBlockFeeSum t.h with
  | some sum => ⟨t.h + 1, t.blocks + 1, t.total + sum⟩
  | none => { t with h := t.h + 1 }

/-- `for h := from; h <= to; h++` performs exactly `k` rounds and is left with `t`. -/
def TallyStops (s : DB) (fromH toH : UInt64) (k : ℕ) (t : FeeTally) : Prop :=
  WhileLoop.Stops (fun t => t.h ≤ toH) s.tallyRound k ⟨fromH, 0, 0⟩ t

/-- The bounds of the loop for two query values, or `none` for the status 400. An upper bound of
zero is replaced by the height of the tip, if there is one. -/
def reconcileRange (s : DB) (fromQ toQ : String) : Option (UInt64 × UInt64) :=
  let fromH := parseUintValue fromQ
  let toH := parseUintValue toQ
  let toH := if toH = 0 then s.getTip.elim toH Prod.fst else toH
  if toH < fromH then none else some (fromH, toH)

/-- The handler of `/fees/reconcile` answers, with a report or with the status 400. -/
inductive FeesReconcile (s : DB) (fromQ toQ : String) : Option FeeReport → Prop
  | badRequest (h : s.reconcileRange fromQ toQ = none) : FeesReconcile s fromQ toQ none
  | report {fromH toH : UInt64} {k : ℕ} {t : FeeTally}
      (h : s.reconcileRange fromQ toQ = some (fromH, toH)) (hloop : s.TallyStops fromH toH k t) :
      FeesReconcile s fromQ toQ (some ⟨fromH, toH, t.blocks, t.total⟩)

end DB

end ReserveOS
