import ReserveOS.Node.Mining

/-!
# The transaction loops over any arithmetic

The loops of `ValidateBlockStateTip`, `applyBlockToSim` and `FilterTxsBySimState` once more, with
the types of balances and nonces as parameters. Over machine integers they are the loops of the
model (`simTxs_machine`, `applyTxsToSim_machine` and `filterTxs_machine`). Over the integers and the
natural numbers nothing wraps, and the loops compute what they are meant to.
-/

namespace ReserveOS

/-- How the loops read amounts and nonces. -/
structure Arith (A N : Type) where
  amount : Int64 → A
  count : UInt64 → N

/-- The arithmetic of the code. -/
def Arith.machine : Arith Int64 UInt64 := ⟨fun v => v, fun k => k⟩

/-- Exact arithmetic. -/
def Arith.exact : Arith ℤ ℕ := ⟨Int64.toInt, UInt64.toNat⟩

/-- A working copy of balances and nonces. -/
@[ext]
structure SimOver (A N : Type) where
  bal : String → A
  nonce : String → N

/-- A working copy with exact balances and nonces. -/
abbrev ExactSim : Type := SimOver ℤ ℕ

namespace SimOver

variable {A N : Type}

/-- `setBal`. -/
def setBal (m : SimOver A N) (id : String) (v : A) : SimOver A N :=
  { m with bal := Function.update m.bal id v }

/-- `setNon`. -/
def setNonce (m : SimOver A N) (id : String) (v : N) : SimOver A N :=
  { m with nonce := Function.update m.nonce id v }

/-- `setBal(id, getBal(id)+v)`. -/
def addBal [Add A] (m : SimOver A N) (id : String) (v : A) : SimOver A N :=
  m.setBal id (m.bal id + v)

section Loops

variable [Add A] [Sub A] [OfNat A 0] [LT A] [DecidableLT A] [Add N] [OfNat N 1] [DecidableEq N]

variable (ar : Arith A N)

/-- `outTotal`. -/
def outTotal (outs : List TxOut) : A := outs.foldl (fun t o => t + ar.amount o.amount) 0

/-- Crediting the outputs of a transfer. -/
def creditOutputs (m : SimOver A N) (outs : List TxOut) : SimOver A N :=
  outs.foldl (fun m o =>
    if o.address ≠ "" then m.addBal o.address (ar.amount o.amount)
    else if o.P ≠ "" then m.addBal (otapBucket o.P) (ar.amount o.amount)
    else m) m

/-- One transaction of the loop of `ValidateBlockStateTip`. -/
def simTx (m : SimOver A N) (tx₀ : Tx) : Res (SimOver A N) :=
  let tx := tx₀.normalize
  if ar.count tx.nonce ≠ m.nonce tx.fromId + 1 then .error (.error "bad nonce in block")
  else
    let m := m.setNonce tx.fromId (ar.count tx.nonce)
    if tx.type = "otap_claim" then
      match tx.otapClaim with
      | none => .error (.panic "nil pointer dereference")
      | some c =>
          let bucket := otapBucket c.P
          let need := ar.amount c.amount + ar.amount tx.fee
          if m.bal bucket < need then .error (.error "insufficient otap bucket")
          else .ok ((m.setBal bucket (m.bal bucket - need)).addBal c.toId (ar.amount c.amount))
    else
      let need := outTotal ar tx.outputs + ar.amount tx.fee
      if m.bal tx.fromId < need then .error (.error "insufficient funds")
      else .ok ((m.setBal tx.fromId (m.bal tx.fromId - need)).creditOutputs ar tx.outputs)

/-- The loop of `ValidateBlockStateTip`. -/
def simTxs : SimOver A N → List Tx → Res (SimOver A N)
  | m, [] => .ok m
  | m, tx :: txs => (m.simTx ar tx).bind fun m' => simTxs m' txs

/-- One transaction of the loop of `applyBlockToSim`. -/
def applyTxToSim (m : SimOver A N) (tx : Tx) : Res (SimOver A N) :=
  if tx.type = "coinbase" then
    .ok (tx.outputs.foldl (fun m o => m.addBal o.address (ar.amount o.amount)) m)
  else if ar.count tx.nonce ≠ m.nonce tx.fromId + 1 then .error (.error "bad_nonce")
  else
    match (if tx.type = "otap_claim" then tx.otapClaim else none) with
    | some c =>
        let bucket := otapBucket c.P
        let need := ar.amount c.amount + ar.amount tx.fee
        if m.bal bucket < need then .error (.error "insufficient_otap_bucket")
        else
          .ok (((m.setBal bucket (m.bal bucket - need)).addBal c.toId
            (ar.amount c.amount)).setNonce tx.fromId (ar.count tx.nonce))
    | none =>
        let need := outTotal ar tx.outputs + ar.amount tx.fee
        if m.bal tx.fromId < need then .error (.error "insufficient_funds")
        else
          .ok (((m.setBal tx.fromId (m.bal tx.fromId - need)).setNonce
            tx.fromId (ar.count tx.nonce)).creditOutputs ar tx.outputs)

/-- The loop of `applyBlockToSim`. -/
def applyTxsToSim : SimOver A N → List Tx → Res (SimOver A N)
  | m, [] => .ok m
  | m, tx :: txs => (m.applyTxToSim ar tx).bind fun m' => applyTxsToSim m' txs

/-- The loop body of `FilterTxsBySimState`. -/
def filterTx (m : SimOver A N) (tx : Tx) : Option (SimOver A N) :=
  if tx.type = "coinbase" then
    some (tx.outputs.foldl (fun m o => m.addBal o.address (ar.amount o.amount)) m)
  else if ar.count tx.nonce ≠ m.nonce tx.fromId + 1 then none
  else
    match (if tx.type = "otap_claim" then tx.otapClaim else none) with
    | some c =>
        let bucket := otapBucket c.P
        let need := ar.amount c.amount + ar.amount tx.fee
        if m.bal bucket < need then none
        else
          some (((m.setBal bucket (m.bal bucket - need)).addBal c.toId
            (ar.amount c.amount)).setNonce tx.fromId (ar.count tx.nonce))
    | none =>
        let need := outTotal ar tx.outputs + ar.amount tx.fee
        if m.bal tx.fromId < need then none
        else
          some (((m.setBal tx.fromId (m.bal tx.fromId - need)).setNonce
            tx.fromId (ar.count tx.nonce)).creditOutputs ar tx.outputs)

/-- The loop of `FilterTxsBySimState`. -/
def filterTxs : SimOver A N → List Tx → List Tx
  | _, [] => []
  | m, tx :: txs =>
      match m.filterTx ar tx with
      | some m' => tx :: filterTxs m' txs
      | none => filterTxs m txs

end Loops

end SimOver

/-! ### The machine instance -/

theorem ite_eq_apply_ite {α β : Type} {f : α → β} {p q : Prop} [Decidable p] [Decidable q] {a b : α}
    {a' b' : β} (hpq : p ↔ q) (ha : a' = f a) (hb : b' = f b) :
    (if p then a' else b') = f (if q then a else b) := by
  by_cases h : q
  · rw [if_pos h, if_pos (hpq.mpr h), ha]
  · rw [if_neg h, if_neg (mt hpq.mp h), hb]

namespace Sim

/-- A working copy of the model. -/
def toOver (m : Sim) : SimOver Int64 UInt64 := ⟨m.bal, m.nonce⟩

theorem toOver_foldl {f : Sim → TxOut → Sim}
    {g : SimOver Int64 UInt64 → TxOut → SimOver Int64 UInt64}
    (h : ∀ m o, (f m o).toOver = g m.toOver o) (m : Sim) (outs : List TxOut) :
    (outs.foldl f m).toOver = outs.foldl g m.toOver := by
  induction outs generalizing m with
  | nil => rfl
  | cons o outs ih => rw [List.foldl_cons, List.foldl_cons, ih, h]

theorem toOver_creditOutputs (m : Sim) (outs : List TxOut) :
    (m.creditOutputs outs).toOver = m.toOver.creditOutputs .machine outs := by
  refine toOver_foldl (fun m o => ?_) m outs
  split
  · rfl
  split
  · rfl
  · rfl

theorem simTx_machine (m : Sim) (tx : Tx) :
    m.toOver.simTx .machine tx = (m.simTx tx).map toOver := by
  refine ite_eq_apply_ite Iff.rfl rfl (ite_eq_apply_ite Iff.rfl ?_ ?_)
  · cases tx.normalize.otapClaim with
    | none => rfl
    | some c => exact ite_eq_apply_ite Iff.rfl rfl rfl
  · refine ite_eq_apply_ite Iff.rfl rfl (congrArg Except.ok ?_)
    rw [toOver_creditOutputs]
    rfl

theorem applyTxToSim_machine (m : Sim) (tx : Tx) :
    m.toOver.applyTxToSim .machine tx = (m.applyTxToSim tx).map toOver := by
  refine ite_eq_apply_ite Iff.rfl ?_ (ite_eq_apply_ite Iff.rfl rfl ?_)
  · exact congrArg Except.ok (toOver_foldl (fun _ _ => rfl) m tx.outputs).symm
  cases (if tx.type = "otap_claim" then tx.otapClaim else none) with
  | some c => exact ite_eq_apply_ite Iff.rfl rfl rfl
  | none =>
      refine ite_eq_apply_ite Iff.rfl rfl (congrArg Except.ok ?_)
      rw [toOver_creditOutputs]
      rfl

theorem filterTx_machine (m : Sim) (tx : Tx) :
    m.toOver.filterTx .machine tx = (m.filterTx tx).map toOver := by
  refine ite_eq_apply_ite Iff.rfl ?_ (ite_eq_apply_ite Iff.rfl rfl ?_)
  · exact congrArg some (toOver_foldl (fun _ _ => rfl) m tx.outputs).symm
  cases (if tx.type = "otap_claim" then tx.otapClaim else none) with
  | some c => exact ite_eq_apply_ite Iff.rfl rfl rfl
  | none =>
      refine ite_eq_apply_ite Iff.rfl rfl (congrArg some ?_)
      rw [toOver_creditOutputs]
      rfl

/-- Over machine integers the loops are those of the model. -/
theorem simTxs_machine (m : Sim) (txs : List Tx) :
    m.toOver.simTxs .machine txs = (m.simTxs txs).map toOver := by
  induction txs generalizing m with
  | nil => rfl
  | cons tx txs ih =>
      rw [SimOver.simTxs, simTxs, simTx_machine]
      cases m.simTx tx with
      | error e => rfl
      | ok m' => exact ih m'

/-- Over machine integers this is the replay of the model. -/
theorem applyTxsToSim_machine (m : Sim) (txs : List Tx) :
    m.toOver.applyTxsToSim .machine txs = (m.applyTxsToSim txs).map toOver := by
  induction txs generalizing m with
  | nil => rfl
  | cons tx txs ih =>
      rw [SimOver.applyTxsToSim, applyTxsToSim, applyTxToSim_machine]
      cases m.applyTxToSim tx with
      | error e => rfl
      | ok m' => exact ih m'

/-- Over machine integers this is the filter of the model. -/
theorem filterTxs_machine (m : Sim) (txs : List Tx) :
    m.toOver.filterTxs .machine txs = m.filterTxs txs := by
  induction txs generalizing m with
  | nil => rfl
  | cons tx txs ih =>
      rw [SimOver.filterTxs, filterTxs, filterTx_machine]
      cases m.filterTx tx with
      | none => exact ih m
      | some m' => exact congrArg (List.cons tx) (ih m')

end Sim

end ReserveOS
