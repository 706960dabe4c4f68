import ReserveOS.Node.Finality

/-!
# Genesis and block submission

`ensureGenesisStored` and `SubmitBlock` of `node.go`. `SubmitBlock` is cut where its writes begin:
`preStore` is everything before `PutBlock`, `stored` the unconditional writes, `extendTip` the
fast path and `selectFork` the fork choice.
-/

namespace ReserveOS

namespace Node

variable (n : Node)

/-- `ensureGenesisStored`. -/
def ensureGenesisStored (s : DB) : Res Unit × DB :=
  match s.genesis with
  | none =>
      let gb := n.genesisBlock
      let s' := ({ s with genesis := some n.genesis }.putBlock n.genesisHash 0 gb).putTip 0
        n.genesisHash
      (.ok (), ((s'.putFinalized 0 n.genesisHash).putWork n.genesisHash
        (work64 gb.header.bits)).putTipWork (work64 gb.header.bits))
  | some existing =>
      if existing.chainID ≠ n.genesis.chainID then
        (.error (.error ("genesis mismatch: db=" ++ existing.chainID ++ " file=" ++
          n.genesis.chainID)), s)
      else (.ok (), s)

/-- The database of a new node, with an arbitrary validator registry. -/
def genesisDB (registry : Table RegValidator) : DB := (n.ensureGenesisStored (DB.fresh registry)).2

/-! ### `SubmitBlock` -/

/-- `getHeader` of the difficulty rule: the header that the height index names. -/
def indexHeader (s : DB) (height : UInt64) : Option BlockHeader :=
  (s.getBlockByHeight height).map fun p => p.2.header

/-- `fmt.Sprintf("%08x", v)`. -/
def hex32 (v : UInt32) : String := hexEncode (putU32 v).reverse

/-- The difficulty rule: when `NextWorkRequired` is determined, `Bits` must equal it. -/
def checkBits (s : DB) (b : Block) : Res Unit :=
  match n.prim.nextWorkRequired (indexHeader s) (fun h => (indexHeader s h).map BlockHeader.bits)
      b.header.height with
  | none => .ok ()
  | some expected =>
      if b.header.bits ≠ expected then
        .error (.error ("bad bits: got " ++ hex32 b.header.bits ++ " want " ++ hex32 expected))
      else .ok ()

/-- The parent rules of `SubmitBlock`: the parent is stored and one below. -/
def checkParent (s : DB) (b : Block) : Res Unit :=
  match s.blockByHash b.prevHex with
  | none => .error (.error "missing parent")
  | some prevB =>
      if prevB.header.height + 1 ≠ b.header.height then .error (.error "bad height linkage")
      else n.checkBits s b

/-- Everything `SubmitBlock` does before its first write. The value tells whether the block goes
on to be stored: a block of height zero is accepted and ignored. -/
def preStore (s : DB) (b : Block) : Res Bool :=
  if b.header.chainID ≠ n.genesis.chainID then .error (.error "wrong chain_id")
  else
    (n.validateLimits b).bind fun _ =>
      (n.validateBlockStateOnMainParent s b).bind fun _ =>
        (n.validateBlockBasic b).bind fun _ =>
          if ¬ meetsTarget (b.header.hash n.prim.sha256) b.header.bits then
            .error (.error "pow does not meet target")
          else if b.header.height = 0 then .ok false
          else (n.checkParent s b).bind fun _ => .ok true

/-- The cumulative work of a block above its stored parent. -/
def cumWork (s : DB) (b : Block) : UInt64 :=
  cumulative (s.getWork b.prevHex) (work64 b.header.bits)

/-- The writes every block gets: body, height entry, header and work. -/
def stored (s : DB) (b : Block) : DB :=
  ((s.putBlock (n.hashHex b.header) b.header.height b).putHeader (n.hashHex b.header)
    b.header).putWork (n.hashHex b.header) (cumWork s b)

/-- The block extends the current tip. -/
def extendsTip (s : DB) (b : Block) : Bool :=
  match s.getTip with
  | some (tipH, tipHash) => b.prevHex = tipHash && b.header.height = tipH + 1
  | none => false

/-- The writes that move the tip to a block that extends it. -/
def moveTip (s : DB) (b : Block) (cum : UInt64) : DB :=
  ((s.putTip b.header.height (n.hashHex b.header)).putTipWork cum).putHashByHeightOverwrite
    b.header.height (n.hashHex b.header)

/-- Moving the tip to a block that extends it, with checkpoint processing. -/
def advanceTip (now : Int64) (s : DB) (b : Block) (cum : UInt64) : DB :=
  let s' := n.moveTip s b cum
  if n.finalityEnabled && b.header.height % n.checkpointInterval = 0 then
    let cp : Checkpoint := ⟨b.header.height, n.hashHex b.header, b.header.timeUnix⟩
    n.processCheckpointVotes now (s'.putCheckpoint b.header.height cp) cp
  else s'

/-- The fast path of `SubmitBlock`, on a database that already holds the block. -/
def extendTip (now : Int64) (s : DB) (b : Block) (cum : UInt64) : Res Unit × DB :=
  match n.validateBlockStateTip s.ledger b with
  | .error e => (.error e, s)
  | .ok _ => (.ok (), n.advanceTip now s b cum)

/-- The fork choice of `SubmitBlock`: more work than the tip, and the switch succeeds. An error of
the switch is dropped, a panic is not. -/
def selectFork (s : DB) (b : Block) (cum : UInt64) : Res Unit × DB :=
  if s.getTipWork < cum then
    match n.trySwitchMainChain s (n.hashHex b.header) b.header.height with
    | (.ok _, s') => (.ok (), s'.putTipWork cum)
    | (.error (.error _), s') => (.ok (), s')
    | (.error (.panic msg), s') => (.error (.panic msg), s')
  else (.ok (), s)

/-- `SubmitBlock`. -/
def submitBlock (now : Int64) (s : DB) (b : Block) : Res Unit × DB :=
  match n.preStore s b with
  | .error e => (.error e, s)
  | .ok false => (.ok (), s)
  | .ok true =>
      let s' := n.stored s b
      if extendsTip s' b then n.extendTip now s' b (cumWork s b)
      else n.selectFork s' b (cumWork s b)

end Node

end ReserveOS
