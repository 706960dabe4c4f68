import ReserveOS.Node.Events

/-!
# Synchronising with peers

`syncOnce` of `sync.go`. A round asks the peers for their chains, scores the headers that the best
peer sends by writing header and work entries for them, and submits the blocks if the scored chain
has more work than the tip. What the peers answer is an input, request by request; an error of the
HTTP client is an input too.

`reorgFromPeer`, which `syncOnce` calls when a block is refused, is not defined in the repository.
What it returns and writes is an input as well, and `ReorgKnown` is what results about a round
assume of it.
-/

namespace ReserveOS

/-- `chainInfoResp`, as far as `syncOnce` reads it. -/
structure ChainInfo where
  chainID : String
  height : UInt64
  tip : String
deriving DecidableEq

/-- `locateResp`, as far as `syncOnce` reads it. -/
structure Located where
  found : Bool
  height : UInt64
deriving DecidableEq

/-- What the peers answer in one round. -/
structure SyncReplies where
  /-- `fetchChainInfo` of every configured peer, with the peer's address -/
  chainInfo : List (String × Except String ChainInfo)
  /-- the headers above the tip -/
  tipHeaders : Except String (List BlockHeader)
  /-- the hash of the best peer's block at the finalized height -/
  anchorHash : Except String String
  /-- the answer to the block locator -/
  located : Except String Located
  /-- the headers above the common ancestor -/
  forkHeaders : Except String (List BlockHeader)
  /-- `fetchBlockByHash`, in the order of the requests, with the time of each; requests beyond the
  end of the list time out -/
  blocks : List (Except String (Int64 × Block))
  /-- `reorgFromPeer`: whether it returns nil, and the database that it leaves -/
  reorgFromPeer : DB → Bool × DB

/-- The peer with the greatest height on our chain: address, height and tip. -/
def bestPeer (chainID : String) (infos : List (String × Except String ChainInfo)) :
    String × UInt64 × String :=
  infos.foldl (fun best p =>
    match p.2 with
    | .error _ => best
    | .ok ci =>
        if ci.chainID ≠ chainID then best
        else if best.2.1 < ci.height then (p.1, ci.height, ci.tip) else best) ("", 0, "")

/-- How a loop of `fetchBlockByHash` and `SubmitBlock` ends. -/
inductive FetchEnd where
  | done
  | notFetched (msg : String)
  | refused (msg : String)
  | panicked (msg : String)
deriving DecidableEq

namespace Node

variable (n : Node)

/-- The scoring of one header: its header and its work entry. -/
def scoreHeader (s : DB) (hdr : BlockHeader) (parentWork : UInt64) : DB :=
  (s.putHeader (n.hashHex hdr) hdr).putWork (n.hashHex hdr)
    (cumulative parentWork (work64 hdr.bits))

/-- The scoring loop: the hashes to fetch, the work of the last header scored (`work` when there is
none), and the database. A header without a scored parent is the last one to fetch. -/
def scoreHeaders (s : DB) (work : UInt64) : List BlockHeader → List String × UInt64 × DB
  | [] => ([], work, s)
  | hdr :: hdrs =>
      if ¬ meetsTarget (hdr.hash n.prim.sha256) hdr.bits then ([], work, s)
      else
        match s.work hdr.prevHash.toHex with
        | none => ([n.hashHex hdr], work, s)
        | some parentWork =>
            let rest := scoreHeaders (n.scoreHeader s hdr parentWork)
              (cumulative parentWork (work64 hdr.bits)) hdrs
            (n.hashHex hdr :: rest.1, rest.2)

/-- The loop that fetches and submits the scored blocks. -/
def submitFetched (s : DB) :
    List String → List (Except String (Int64 × Block)) → FetchEnd × DB
  | [], _ => (.done, s)
  | _ :: _, [] => (.notFetched "timeout", s)
  | _ :: _, .error msg :: _ => (.notFetched msg, s)
  | _ :: hashes, .ok (now, b) :: replies =>
      match n.submitBlock now s b with
      | (.ok _, s') => submitFetched s' hashes replies
      | (.error (.error msg), s') => (.refused msg, s')
      | (.error (.panic msg), s') => (.panicked msg, s')

/-- The fast path stops at the first error and drops it. -/
def syncFast (s : DB) (hashes : List String) (r : SyncReplies) : Res Unit × DB :=
  match n.submitFetched s hashes r.blocks with
  | (.panicked msg, s') => (.error (.panic msg), s')
  | (_, s') => (.ok (), s')

/-- The locator path after its scoring loop returns the first error, unless a refused block leads to
a successful `reorgFromPeer`. -/
def syncLocated (s : DB) (hashes : List String) (r : SyncReplies) : Res Unit × DB :=
  match n.submitFetched s hashes r.blocks with
  | (.done, s') => (.ok (), s')
  | (.notFetched msg, s') => (.error (.error msg), s')
  | (.refused msg, s') =>
      let reorg := r.reorgFromPeer s'
      (if reorg.1 then .ok () else .error (.error msg), reorg.2)
  | (.panicked msg, s') => (.error (.panic msg), s')

/-- The locator path: the peer agrees on the finalized anchor (the one of `trySwitchMainChain`) and
names a common ancestor not below it. -/
def syncFromAncestor (s : DB) (curWork : UInt64) (r : SyncReplies) : Res Unit × DB :=
  match s.switchAnchor with
  | .error e => (.error e, s)
  | .ok (finH, finHash) =>
      match r.anchorHash with
      | .error msg => (.error (.error msg), s)
      | .ok peerHash =>
          if peerHash ≠ finHash then (.error (.error "peer finalized anchor mismatch"), s)
          else
            match r.located with
            | .error _ => (.ok (), s)
            | .ok anc =>
                if ¬ anc.found then (.ok (), s)
                else if anc.height < finH then (.error (.error "ancestor below finalized"), s)
                else
                  match r.forkHeaders with
                  | .error msg => (.error (.error msg), s)
                  | .ok hdrs =>
                      if hdrs = [] then (.ok (), s)
                      else
                        let scored := n.scoreHeaders s 0 hdrs
                        if scored.2.1 ≤ curWork then (.ok (), scored.2.2)
                        else n.syncLocated scored.2.2 scored.1 r

/-- `syncOnce`. -/
def syncOnce (s : DB) (r : SyncReplies) : Res Unit × DB :=
  let best := bestPeer n.genesis.chainID r.chainInfo
  if best.1 = "" then (.ok (), s)
  else
    match s.getTip with
    | none => (.ok (), s)
    | some (localH, _) =>
        if best.2.1 ≤ localH then (.ok (), s)
        else
          -- an error counts as an empty list
          let scored := n.scoreHeaders s 0 (r.tipHeaders.toOption.getD [])
          if s.getTipWork < scored.2.1 ∧ scored.1 ≠ [] then n.syncFast scored.2.2 scored.1 r
          else if best.2.2 = "" then (.ok (), scored.2.2)
          else n.syncFromAncestor scored.2.2 s.getTipWork r

/-! ### The small steps of a round -/

/-- One write of a round: a header of `known` is scored above its parent's entry, or a block with a
header of `known` is submitted. -/
inductive SyncStep (known : BlockHeader → Prop) : DB → DB → Prop
  | score {s : DB} (hdr : BlockHeader) (hk : known hdr) (w : UInt64)
      (hw : s.work hdr.prevHash.toHex = some w) : SyncStep known s (n.scoreHeader s hdr w)
  | submit {s : DB} (now : Int64) (b : Block) (hk : known b.header) :
      SyncStep known s (n.submitBlock now s b).2

/-- A chain of such writes. -/
abbrev SyncSteps (known : BlockHeader → Prop) : DB → DB → Prop :=
  Relation.ReflTransGen (n.SyncStep known)

end Node

namespace SyncReplies

/-- The headers that a round receives, alone or in a block. -/
def headers (r : SyncReplies) : List BlockHeader :=
  r.tipHeaders.toOption.getD [] ++ r.forkHeaders.toOption.getD [] ++
    r.blocks.filterMap fun reply => reply.toOption.map fun p => p.2.header

/-- What `reorgFromPeer` does is a chain of scored headers and submitted blocks of `known`. -/
def ReorgKnown (n : Node) (known : BlockHeader → Prop) (r : SyncReplies) : Prop :=
  ∀ s, n.SyncSteps known s (r.reorgFromPeer s).2

end SyncReplies

namespace Node

variable {n : Node} {known : BlockHeader → Prop}

/-- Scoring headers writes their headers and work entries. -/
theorem syncSteps_scoreHeaders (hdrs : List BlockHeader) (hk : ∀ hdr ∈ hdrs, known hdr) (s : DB)
    (work : UInt64) : n.SyncSteps known s (n.scoreHeaders s work hdrs).2.2 := by
  induction hdrs generalizing s work with
  | nil => exact .refl
  | cons hdr hdrs ih =>
      have hrest : ∀ hdr' ∈ hdrs, known hdr' := fun hdr' h' => hk hdr' (List.mem_cons_of_mem _ h')
      rw [scoreHeaders]
      split
      · exact .refl
      · split
        · exact .refl
        next w hw =>
          exact .trans (.single (.score hdr (hk hdr List.mem_cons_self) w hw)) (ih hrest _ _)

/-- Fetched blocks are submitted one by one, up to the first that is refused. -/
theorem syncSteps_submitFetched (hashes : List String)
    (replies : List (Except String (Int64 × Block)))
    (hk : ∀ p : Int64 × Block, .ok p ∈ replies → known p.2.header) (s : DB) :
    n.SyncSteps known s (n.submitFetched s hashes replies).2 := by
  induction hashes generalizing s replies with
  | nil => exact .refl
  | cons x hashes ih =>
      match replies with
      | [] => exact .refl
      | .error msg :: replies => exact .refl
      | .ok (now, b) :: replies =>
          have hone : n.SyncSteps known s (n.submitBlock now s b).2 :=
            .single (.submit now b (hk (now, b) List.mem_cons_self))
          rw [submitFetched]
          split
          next s' heq =>
            rw [heq] at hone
            exact hone.trans (ih replies (fun p hp => hk p (List.mem_cons_of_mem _ hp)) s')
          next msg s' heq =>
            rw [heq] at hone
            exact hone
          next msg s' heq =>
            rw [heq] at hone
            exact hone

variable {r : SyncReplies}

theorem known_of_mem_blocks (hk : ∀ hdr ∈ r.headers, known hdr) (p : Int64 × Block)
    (hp : .ok p ∈ r.blocks) : known p.2.header := by
  apply hk
  simp only [SyncReplies.headers, List.mem_append, List.mem_filterMap]
  exact Or.inr ⟨.ok p, hp, rfl⟩

/-- The fast path is made of sync steps. -/
theorem syncSteps_syncFast (hk : ∀ hdr ∈ r.headers, known hdr) (s : DB) (hashes : List String) :
    n.SyncSteps known s (n.syncFast s hashes r).2 := by
  have hsub := syncSteps_submitFetched (n := n) hashes r.blocks (known_of_mem_blocks hk) s
  unfold syncFast
  split
  next heq =>
    rw [heq] at hsub
    exact hsub
  next heq =>
    rw [heq] at hsub
    exact hsub

/-- The catch-up after a locator is made of sync steps, if `reorgFromPeer` is. -/
theorem syncSteps_syncLocated (hk : ∀ hdr ∈ r.headers, known hdr) (hreorg : r.ReorgKnown n known)
    (s : DB) (hashes : List String) : n.SyncSteps known s (n.syncLocated s hashes r).2 := by
  have hsub := syncSteps_submitFetched (n := n) hashes r.blocks (known_of_mem_blocks hk) s
  unfold syncLocated
  generalize n.submitFetched s hashes r.blocks = fetched at hsub
  obtain ⟨end', s'⟩ := fetched
  cases end' with
  | refused msg => exact hsub.trans (hreorg s')
  | done => exact hsub
  | notFetched msg => exact hsub
  | panicked msg => exact hsub

/-- The headers above the common ancestor are scored, and their blocks submitted or handed to
`reorgFromPeer`. -/
theorem syncSteps_syncFromAncestor (hk : ∀ hdr ∈ r.headers, known hdr)
    (hreorg : r.ReorgKnown n known) (s : DB) (w : UInt64) :
    n.SyncSteps known s (n.syncFromAncestor s w r).2 := by
  unfold syncFromAncestor
  -- nothing is written before the headers of the peer have been checked
  split
  · exact .refl
  split
  · exact .refl
  split
  · exact .refl
  split
  · exact .refl
  split
  · exact .refl
  split
  · exact .refl
  split
  · exact .refl
  next hdrs hreply =>
    split
    · exact .refl
    · have hscore := syncSteps_scoreHeaders (n := n) hdrs (fun hdr hmem => hk hdr (by
        simp [SyncReplies.headers, hreply, Except.toOption, hmem])) s 0
      dsimp only
      -- the round ends with the scored headers, or fetches their blocks
      split
      · exact hscore
      · exact hscore.trans (syncSteps_syncLocated hk hreorg _ _)

/-- A round is a chain of scored headers and submitted blocks that the peers sent. -/
theorem syncSteps_syncOnce (hk : ∀ hdr ∈ r.headers, known hdr) (hreorg : r.ReorgKnown n known)
    (s : DB) : n.SyncSteps known s (n.syncOnce s r).2 := by
  unfold syncOnce
  dsimp only
  split
  · exact .refl
  · split
    · exact .refl
    · split
      · exact .refl
      · have hscore := syncSteps_scoreHeaders (n := n) (r.tipHeaders.toOption.getD [])
          (fun hdr hmem => hk hdr (by simp [SyncReplies.headers, hmem])) s 0
        split
        · exact hscore.trans (syncSteps_syncFast hk _ _)
        · split
          · exact hscore
          · exact hscore.trans (syncSteps_syncFromAncestor hk hreorg _ _)

end Node

end ReserveOS
