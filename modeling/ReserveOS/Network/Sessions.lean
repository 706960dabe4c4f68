import ReserveOS.Correctness.GossipScores
import ReserveOS.Node.Session

/-!
# What a session proves

A hello signs the sender's own key and nonce, and names neither the other side nor anything that it
has sent. The network is in the hands of an attacker, who may deliver any line and any frame to any
node, but cannot sign for the nodes (`Unforged`).

* `session_origin`: a session with a node proves that this node has said hello at some time, and no
  more: whoever has seen the hello opens a session in its name at any other node.
* `replayed_hello_bans`: the first frame of such a session is enough to have the node banned for ten
  minutes.
-/

namespace ReserveOS

namespace Links

variable {K C M : Type} {ch : Channel K C M} {prim : Primitives} {id : Identity} {l : Links K}
  {c : ℕ} {s s' : Session K}

theorem handleConn_of_check {h : Hello} (hcheck : h.check prim = .ok ()) (nonceB : String) :
    l.handleConn ch prim id c (some h) nonceB = (some (id.hello prim nonceB),
      l.opened c ⟨h.pub, ch.deriveSessionKey h.pub id.pubHex h.nonce nonceB⟩) := by
  rw [handleConn, serveSession, hcheck]
  rfl

/-- What is written under the key of a session is read in it. -/
theorem receive_opened (m : M) :
    (l.opened c s).receive ch c (ch.writeFrame s.key m) = (some (s.peerPub, m), l.opened c s) := by
  rw [receive, opened]
  dsimp only
  rw [Function.update_self]
  dsimp only
  rw [ch.readFrame_writeFrame]

variable (ch prim id l c) in
/-- A connection leads to a session if its line passes the checks, and to nothing if not. -/
theorem handleConn_cases (line : Option Hello) (nonceB : String) :
    l.handleConn ch prim id c line nonceB = (none, l) ∨ ∃ h, line = some h ∧ h.check prim = .ok () ∧
        l.handleConn ch prim id c line nonceB = (some (id.hello prim nonceB),
          l.opened c ⟨h.pub, ch.deriveSessionKey h.pub id.pubHex h.nonce nonceB⟩) := by
  cases line with
  | none => exact .inl rfl
  | some h =>
      cases hcheck : h.check prim with
      | error msg =>
          left
          rw [handleConn, serveSession, hcheck]
          rfl
      | ok _ => exact .inr ⟨h, rfl, hcheck, handleConn_of_check hcheck nonceB⟩

variable (ch prim id l c) in
/-- The same for a dial. -/
theorem dial_cases (nonceA : String) (resp : Option Hello) :
    (l.dial ch prim id c nonceA resp).2 = l ∨
      ∃ h, resp = some h ∧ h.check prim = .ok () ∧ (l.dial ch prim id c nonceA resp).2 =
        l.opened c ⟨h.pub, ch.deriveSessionKey id.pubHex h.pub nonceA h.nonce⟩ := by
  cases resp with
  | none => exact .inl rfl
  | some h =>
      unfold dial dialSession
      dsimp only
      cases hcheck : h.check prim with
      | error msg => exact .inl rfl
      | ok _ => exact .inr ⟨h, rfl, hcheck, rfl⟩

/-- A session that is read from, or that messages are sent on. -/
def Holds (l : Links K) (s : Session K) : Prop :=
  (∃ c, l.reading c = some s) ∨ ∃ pub c, l.sessions pub = some (c, s)

/-- A session that is held was held before, or is the new one. -/
theorem holds_of_opened (h : (l.opened c s).Holds s') : s' = s ∨ l.Holds s' := by
  rcases h with ⟨c', h⟩ | ⟨pub, c', h⟩
  · rw [opened] at h
    dsimp only at h
    rw [Function.update_apply] at h
    split at h
    next => exact .inl (Option.some.inj h).symm
    next => exact .inr (.inl ⟨c', h⟩)
  · rw [opened] at h
    dsimp only at h
    rw [Function.update_apply] at h
    split at h
    next => exact .inl (Prod.mk.inj (Option.some.inj h)).2.symm
    next => exact .inr (.inr ⟨pub, c', h⟩)

/-- Reading opens no session. -/
theorem holds_of_receive {frame : C} (h : (l.receive ch c frame).2.Holds s) :
    l.Holds s := by
  unfold receive at h
  split at h
  next => exact h
  next =>
    split at h
    next =>
      rcases h with ⟨c', h⟩ | h
      · dsimp only at h
        rw [Function.update_apply] at h
        split at h
        next => cases h
        next => exact .inl ⟨c', h⟩
      · exact .inr h
    next => exact h
    next => exact h

end Links

/-! ### Nodes and the network -/

/-- The nodes of a network: their identities and the code they share. -/
structure PeerNetwork (ι K C M : Type) where
  id : ι → Identity
  prim : Primitives
  channel : Channel K C M

/-- The sessions of each node, and the lines that the nodes have sent. -/
structure PeerWorld (ι K : Type) where
  links : ι → Links K
  said : List Hello

/-- What the network delivers: a connection with its first line, the line that answers a dial, or a
frame. The nonces are those that the nodes draw. -/
inductive PeerEvent (ι C : Type) where
  | handleConn (v : ι) (c : ℕ) (line : Option Hello) (nonceB : String)
  | dial (v : ι) (c : ℕ) (nonceA : String) (resp : Option Hello)
  | receive (v : ι) (c : ℕ) (frame : C)

/-- The line of the other side that an event brings. -/
def PeerEvent.line {ι C : Type} : PeerEvent ι C → Option Hello
  | .handleConn _ _ line _ => line
  | .dial _ _ _ resp => resp
  | .receive _ _ _ => none

namespace PeerNetwork

variable {ι K C M : Type} [DecidableEq ι] (net : PeerNetwork ι K C M)

/-- Before the nodes have connected. -/
def start : PeerWorld ι K := ⟨fun _ => Links.fresh, []⟩

/-- The world after an event. A node says hello when it dials, and when it answers. -/
def step (w : PeerWorld ι K) : PeerEvent ι C → PeerWorld ι K
  | .handleConn v c line nonceB =>
      let r := (w.links v).handleConn net.channel net.prim (net.id v) c line nonceB
      ⟨Function.update w.links v r.2, w.said ++ r.1.toList⟩
  | .dial v c nonceA resp =>
      let r := (w.links v).dial net.channel net.prim (net.id v) c nonceA resp
      ⟨Function.update w.links v r.2, w.said ++ [(net.id v).hello net.prim nonceA]⟩
  | .receive v c frame =>
      ⟨Function.update w.links v ((w.links v).receive net.channel c frame).2, w.said⟩

/-- Nobody signs for a node: a line with the key of a node that passes the checks carries a nonce
that the node has sent. -/
def Unforged (w : PeerWorld ι K) (e : PeerEvent ι C) : Prop :=
  ∀ h ∈ e.line, ∀ u, h.pub = (net.id u).pubHex → h.check net.prim = .ok () →
    ∃ h' ∈ w.said, h'.pub = h.pub ∧ h'.nonce = h.nonce

/-- The key of a session comes from a hello of the node itself and, if the peer is a node, from a
hello of the peer. -/
def Founded (said : List Hello) (v : ι) (s : Session K) : Prop :=
  ∀ u, s.peerPub = (net.id u).pubHex →
    ∃ theirs ∈ said, ∃ ours ∈ said, theirs.pub = s.peerPub ∧ ours.pub = (net.id v).pubHex ∧
      (s.key = net.channel.deriveSessionKey ours.pub theirs.pub ours.nonce theirs.nonce ∨
        s.key = net.channel.deriveSessionKey theirs.pub ours.pub theirs.nonce ours.nonce)

/-- All sessions of all nodes are founded. -/
def AllFounded (w : PeerWorld ι K) : Prop :=
  ∀ v s, (w.links v).Holds s → net.Founded w.said v s

variable {net} {w : PeerWorld ι K}

/-- A node that opens no session but a founded one. -/
theorem AllFounded.update (hw : net.AllFounded w) {said : List Hello} (hsaid : w.said ⊆ said)
    {v : ι} {l : Links K} (hl : ∀ s, l.Holds s → (w.links v).Holds s ∨ net.Founded said v s) :
    net.AllFounded ⟨Function.update w.links v l, said⟩ := by
  -- what was said stays said
  have hmono : ∀ u s, (w.links u).Holds s → net.Founded said u s := by
    intro u s hs u' hu'
    obtain ⟨theirs, ht, ours, ho, hrest⟩ := hw u s hs u' hu'
    exact ⟨theirs, hsaid ht, ours, hsaid ho, hrest⟩
  intro u s hs
  dsimp only at hs
  rw [Function.update_apply] at hs
  split at hs
  next huv =>
    subst huv
    rcases hl s hs with hs | hs
    · exact hmono u s hs
    · exact hs
  next => exact hmono u s hs

/-- An event founds the sessions it opens. -/
theorem AllFounded.step (hw : net.AllFounded w) {e : PeerEvent ι C} (he : net.Unforged w e) :
    net.AllFounded (net.step w e) := by
  cases e with
  | handleConn v c line nonceB =>
      refine hw.update (List.subset_append_left _ _) fun s hs => ?_
      rcases Links.handleConn_cases net.channel net.prim (net.id v) (w.links v) c line nonceB with
        heq | ⟨h, rfl, hcheck, heq⟩
      · rw [heq] at hs
        exact .inl hs
      · rw [heq] at hs ⊢
        refine (Links.holds_of_opened hs).symm.imp_right fun hnew u hu => ?_
        subst hnew
        obtain ⟨theirs, ht, hpub, hnonce⟩ := he h rfl u hu hcheck
        refine ⟨theirs, List.mem_append_left _ ht, (net.id v).hello net.prim nonceB,
          List.mem_append_right _ (List.mem_singleton.mpr rfl), hpub, rfl, .inr ?_⟩
        rw [hpub, hnonce]
        rfl
  | dial v c nonceA resp =>
      refine hw.update (List.subset_append_left _ _) fun s hs => ?_
      rcases Links.dial_cases net.channel net.prim (net.id v) (w.links v) c nonceA resp with
        heq | ⟨h, rfl, hcheck, heq⟩
      · exact .inl (heq ▸ hs)
      · rw [heq] at hs
        refine (Links.holds_of_opened hs).symm.imp_right fun hnew u hu => ?_
        subst hnew
        obtain ⟨theirs, ht, hpub, hnonce⟩ := he h rfl u hu hcheck
        refine ⟨theirs, List.mem_append_left _ ht, (net.id v).hello net.prim nonceA,
          List.mem_append_right _ (List.mem_singleton.mpr rfl), hpub, rfl, .inl ?_⟩
        rw [hpub, hnonce]
        rfl
  | receive v c frame =>
      exact hw.update (List.Subset.refl _) fun s hs => .inl (Links.holds_of_receive hs)

omit [DecidableEq ι] in
theorem allFounded_start : net.AllFounded (start : PeerWorld ι K) := by
  intro v s hs
  rcases hs with ⟨c, hs⟩ | ⟨pub, c, hs⟩
  · cases hs
  · cases hs

variable (net) in
/-- The lines that the nodes have sent pass the checks. -/
def Signed (w : PeerWorld ι K) : Prop := ∀ h ∈ w.said, h.check net.prim = .ok ()

/-- No event brings a hello into the network that its node has not signed. -/
theorem Signed.step (hw : net.Signed w)
    (hsign : ∀ v nonce, ((net.id v).hello net.prim nonce).check net.prim = .ok ())
    (e : PeerEvent ι C) : net.Signed (net.step w e) := by
  cases e with
  | handleConn v c line nonceB =>
      intro h hh
      rcases List.mem_append.mp hh with hh | hh
      · exact hw h hh
      · rcases Links.handleConn_cases net.channel net.prim (net.id v) (w.links v) c line nonceB with
          heq | ⟨h', -, -, heq⟩
        · rw [heq] at hh
          exact absurd hh List.not_mem_nil
        · rw [heq] at hh
          rw [List.mem_singleton.mp hh]
          exact hsign v nonceB
  | dial v c nonceA resp =>
      intro h hh
      rcases List.mem_append.mp hh with hh | hh
      · exact hw h hh
      · rw [List.mem_singleton.mp hh]
        exact hsign v nonceA
  | receive v c frame => exact hw

/-- In every run in which nobody signs for the nodes, a session with a node rests on a hello that
the node has sent. In every state of the run, each hello that was sent can be replayed at any node:
it opens a session in the name of its sender, on which the node reads what anyone writes who has
seen the two hellos, and to which it sends what is meant for the sender. -/
theorem session_origin (net : PeerNetwork ι K C M)
    (hsign : ∀ v nonce, ((net.id v).hello net.prim nonce).check net.prim = .ok ())
    (es : List (PeerEvent ι C)) (hes : Run.Admitted net.step net.Unforged start es) :
    ∀ w ∈ Run.states net.step start es, net.AllFounded w ∧ ∀ h ∈ w.said, ∀ v c nonceB,
        let replay : PeerEvent ι C := .handleConn v c (some h) nonceB
        let key := net.channel.deriveSessionKey h.pub (net.id v).pubHex h.nonce nonceB
        let l := (net.step w replay).links v
        net.Unforged w replay ∧
          (net.step w replay).said = w.said ++ [(net.id v).hello net.prim nonceB] ∧
          ∀ m, (l.receive net.channel c (net.channel.writeFrame key m)).1 = some (h.pub, m) ∧
            l.sendTo net.channel h.pub m = .ok (c, net.channel.writeFrame key m) := by
  intro w hw
  obtain ⟨hfounded, hsigned⟩ := Run.invariant (I := fun w => net.AllFounded w ∧ net.Signed w)
    (E := fun _ => True) (fun w e hw _ he => ⟨hw.1.step he, hw.2.step hsign e⟩)
    (fun _ _ => trivial) ⟨allFounded_start, fun h hh => absurd hh List.not_mem_nil⟩ hes w hw
  refine ⟨hfounded, fun h hh v c nonceB => ?_⟩
  intro replay key l
  have hconn : (w.links v).handleConn net.channel net.prim (net.id v) c (some h) nonceB =
      (some ((net.id v).hello net.prim nonceB), (w.links v).opened c ⟨h.pub, key⟩) :=
    Links.handleConn_of_check (hsigned h hh) nonceB
  have hl : l = (w.links v).opened c ⟨h.pub, key⟩ := by
    simp only [l, replay, step, hconn, Function.update_self]
  refine ⟨fun h' hh' u hu _ => ?_, ?_, fun m => ⟨?_, ?_⟩⟩
  · obtain rfl := Option.some.inj hh'
    exact ⟨h, hh, rfl, rfl⟩
  · simp only [replay, step, hconn, Option.toList_some]
  · rw [hl, show key = (⟨h.pub, key⟩ : Session K).key from rfl, Links.receive_opened]
  · rw [hl, Links.sendTo, Links.opened]
    dsimp only
    rw [Function.update_self]

end PeerNetwork

/-! ### A session and the handler -/

/-- A node with its sessions and its P2P handler. -/
structure Endpoint (K C F D : Type) where
  id : Identity
  channel : Channel K C (Msg D)
  env : GossipEnv F D

/-- The sessions, and the variables of the handler. -/
structure EndpointState (K F : Type) where
  links : Links K
  gossip : GossipState F

/-- A connection with its first line, or a frame that is read while the clock shows `clk`. -/
inductive EndpointEvent (C : Type) where
  | handleConn (c : ℕ) (line : Option Hello) (nonceB : String)
  | receive (c : ℕ) (frame : C) (clk : Readings) (senderCount : ℤ)

namespace Endpoint

variable {K C F D : Type} (ep : Endpoint K C F D)

/-- The state after an event. Sends of the handler leave through the sessions and are not needed
here. -/
def step (σ : EndpointState K F) : EndpointEvent C → EndpointState K F
  | .handleConn c line nonceB =>
      { σ with links := (σ.links.handleConn ep.channel ep.env.node.prim ep.id c line nonceB).2 }
  | .receive c frame clk senderCount =>
      match σ.links.receive ep.channel c frame with
      | (none, l) => { σ with links := l }
      | (some (peer, m), l) => ⟨l, (ep.env.handle clk senderCount σ.gossip peer m).state⟩

/-- A frame in a session with `pub` that is read before the time `limit`, or a connection. -/
def FromPeer (pub : String) (limit : ℤ) (σ : EndpointState K F) : EndpointEvent C → Prop
  | .handleConn _ _ _ => True
  | .receive c _ clk _ =>
      (∀ s, σ.links.reading c = some s → s.peerPub = pub) ∧ 0 ≤ clk.gate.toInt ∧
        clk.gate.toInt < limit

variable {ep} {σ : EndpointState K F} {pub : String} {clk : Readings} {k : ℤ} {d : D}

/-- A `hello` message with another chain ID costs a hundred points. -/
theorem handle_foreign_hello {cid : String} (hpass : ep.env.passes clk σ.gossip pub = true)
    (hd : (ep.env.codec.decodeHello d).chainID = some cid) (hne : cid ≠ "")
    (hforeign : cid ≠ ep.env.chainID) :
    (ep.env.handle clk k σ.gossip pub (Msg.ofData .hello d)).state = { σ.gossip with
        limiter := (σ.gossip.limiter.allow pub clk.nanos).2
        stats := σ.gossip.stats.settle clk pub (.penalty (-100)) } := by
  rw [GossipEnv.handle_of_passes hpass]
  simp only [GossipEnv.dispatch, Msg.ofData, GossipEnv.onHello, hd, Option.getD_some, ne_eq, hne,
    not_false_eq_true, hforeign, and_self, if_true]

/-- Such a message closes the door for ten minutes, to a peer with at most fifty points. -/
theorem bannedUntil_settle {stats : PeerStats}
    (hscore : (stats.getPeerStat pub).1.score.toInt ≤ 50)
    (hlow : -2 ^ 63 + 100 ≤ (stats.getPeerStat pub).1.score.toInt) (hban : 0 ≤ clk.ban.toInt)
    (hban' : clk.ban.toInt + 600 < 2 ^ 63) :
    ((stats.settle clk pub (.penalty (-100))).box pub).bannedUntil = clk.ban.toInt + 600 := by
  have hmoderate : (Verdict.penalty (-100)).Moderate := by
    simp [Verdict.Moderate]
  have hsum : (stats.box pub).score - 100 ≤ -50 := by
    simp only [PeerStats.box]
    omega
  rw [PeerStats.box_settle clk hmoderate 0 hlow (by simp only [PeerStats.box]; omega) hban hban']
  exact if_pos hsum

/-- While the door is closed, nothing that comes from the peer is handled. -/
theorem gossip_step_of_banned {limit : ℤ} (hban : (σ.gossip.stats.box pub).bannedUntil = limit)
    {e : EndpointEvent C} (he : FromPeer pub limit σ e) : (ep.step σ e).gossip = σ.gossip := by
  cases e with
  | handleConn c line nonceB => rfl
  | receive c frame clk senderCount =>
      obtain ⟨hpeer, hnow, hlimit⟩ := he
      have hbanned : σ.gossip.stats.isBanned clk.gate pub = true := by
        by_contra hopen
        have hle := PeerStats.bannedUntil_le_of_not_isBanned (Bool.not_eq_true _ ▸ hopen) hnow
        omega
      unfold step
      dsimp only
      split
      next => rfl
      next peer m l heq =>
        -- the session of the frame is one with the peer
        obtain rfl : peer = pub := by
          unfold Links.receive at heq
          split at heq
          next => cases heq
          next s hs =>
            split at heq
            next => cases heq
            next => cases heq
            next =>
              obtain rfl : s.peerPub = peer := (Prod.mk.inj (Option.some.inj (Prod.mk.inj heq).1)).1
              exact hpeer s hs
        dsimp only
        rw [GossipEnv.handle, if_pos (.inr (by simp [GossipEnv.admits, hbanned]))]

/-- Whoever replays a hello of a peer with at most fifty points, and writes one frame in the session
that this opens, gets the peer banned: for ten minutes nothing that comes from it is handled, in
sessions old and new, and the rest of the handler's variables is as before. -/
theorem replayed_hello_bans (ep : Endpoint K C F D) (σ : EndpointState K F) (h : Hello)
    (hcheck : h.check ep.env.node.prim = .ok ()) (c : ℕ) (nonceB : String) (clk : Readings)
    (k : ℤ) (d : D) (cid : String) (hd : (ep.env.codec.decodeHello d).chainID = some cid)
    (hne : cid ≠ "") (hforeign : cid ≠ ep.env.chainID)
    (hpass : ep.env.passes clk σ.gossip h.pub = true)
    (hscore : (σ.gossip.stats.getPeerStat h.pub).1.score.toInt ≤ 50)
    (hlow : -2 ^ 63 + 100 ≤ (σ.gossip.stats.getPeerStat h.pub).1.score.toInt)
    (hban : 0 ≤ clk.ban.toInt) (hban' : clk.ban.toInt + 600 < 2 ^ 63) :
    let key := ep.channel.deriveSessionKey h.pub ep.id.pubHex h.nonce nonceB
    let σ₁ := ep.step (ep.step σ (.handleConn c (some h) nonceB))
      (.receive c (ep.channel.writeFrame key (Msg.ofData .hello d)) clk k)
    σ₁.gossip = { σ.gossip with
        limiter := (σ.gossip.limiter.allow h.pub clk.nanos).2
        stats := σ.gossip.stats.settle clk h.pub (.penalty (-100)) } ∧
      ∀ es, Run.Admitted ep.step (FromPeer h.pub (clk.ban.toInt + 600)) σ₁ es →
        (es.foldl ep.step σ₁).gossip = σ₁.gossip := by
  intro key σ₁
  have hlinks : ep.step σ (.handleConn c (some h) nonceB) =
      ⟨σ.links.opened c ⟨h.pub, key⟩, σ.gossip⟩ := by
    rw [step, Links.handleConn_of_check hcheck]
  have hfirst : σ₁.gossip = { σ.gossip with
      limiter := (σ.gossip.limiter.allow h.pub clk.nanos).2
      stats := σ.gossip.stats.settle clk h.pub (.penalty (-100)) } := by
    have hread : (σ.links.opened c ⟨h.pub, key⟩).receive ep.channel c
        (ep.channel.writeFrame key (Msg.ofData .hello d)) =
        (some (h.pub, Msg.ofData .hello d), σ.links.opened c ⟨h.pub, key⟩) :=
      Links.receive_opened _
    rw [show σ₁ = ep.step ⟨σ.links.opened c ⟨h.pub, key⟩, σ.gossip⟩ (.receive c
      (ep.channel.writeFrame key (Msg.ofData .hello d)) clk k) from congrArg (ep.step · _) hlinks,
      step, hread]
    exact handle_foreign_hello (σ := σ) hpass hd hne hforeign
  refine ⟨hfirst, fun es hes => ?_⟩
  have hclosed : (σ₁.gossip.stats.box h.pub).bannedUntil = clk.ban.toInt + 600 := by
    have hstats : σ₁.gossip.stats = σ.gossip.stats.settle clk h.pub (.penalty (-100)) := by
      rw [hfirst]
    rw [hstats]
    exact bannedUntil_settle hscore hlow hban hban'
  exact Run.invariant (I := fun τ => τ.gossip = σ₁.gossip) (E := fun _ => True)
    (fun τ e hτ _ he => (gossip_step_of_banned (hτ ▸ hclosed) he).trans hτ) (fun _ _ => trivial)
    rfl hes _ (Run.foldl_mem_states ..)

/-- A connection that the node has served reads as the peer that its hello names. -/
theorem peerPub_of_handleConn {h : Hello} {c : ℕ} {nonceB : String}
    {s : Session K} (hcheck : h.check ep.env.node.prim = .ok ())
    (hs : (ep.step σ (.handleConn c (some h) nonceB)).links.reading c = some s) :
    s.peerPub = h.pub := by
  rw [step, Links.handleConn_of_check hcheck] at hs
  have hopened := (Function.update_self ..).symm.trans hs
  rw [← Option.some.inj hopened]

end Endpoint

/-! ### A small network -/

namespace Sample

/-- Keys that spell out what they are derived from, and frames that carry their key. -/
def clearChannel : Channel String (String × Msg Payload) (Msg Payload) where
  deriveSessionKey a b c d := a ++ b ++ c ++ d
  writeFrame k m := (k, m)
  readFrame k frame := if frame.1 = k then some (some frame.2) else none
  readFrame_writeFrame _ _ := if_pos rfl

/-- The P2P identity of an account holder. -/
def identity (pub : String) : Identity := ⟨pub, []⟩

theorem check_hello {pub : String} (hpub : (hexDecodeLen 32 pub).isSome) (nonce : String) :
    ((identity pub).hello prim nonce).check prim = .ok () := by
  obtain ⟨key, hkey⟩ := Option.isSome_iff_exists.mp hpub
  have hlen : (hexDecodeLen 64 (hexEncode (List.replicate 64 0))).isSome := by decide +kernel
  obtain ⟨sig, hsig⟩ := Option.isSome_iff_exists.mp hlen
  have hpub' : hexDecodeLen 32 ((identity pub).hello prim nonce).pub = some key := hkey
  have hsig' : hexDecodeLen 64 ((identity pub).hello prim nonce).sig = some sig := hsig
  rw [Hello.check, hpub', if_neg (by exact not_not.mpr rfl)]
  dsimp only
  rw [hsig']
  exact if_pos rfl

theorem decodes_pubs : (hexDecodeLen 32 alice).isSome ∧ (hexDecodeLen 32 bob).isSome := by
  decide +kernel

/-- Two nodes: alice and bob. -/
def twoPeers : PeerNetwork Bool String (String × Msg Payload) (Msg Payload) where
  id v := identity (bif v then alice else bob)
  prim := prim
  channel := clearChannel

end Sample

open Sample

/-- Alice dials and is not answered. Her hello, replayed at bob, gets the messages meant for her. -/
theorem PeerNetwork.session_origin_replayed :
    let w := twoPeers.step PeerNetwork.start (.dial true 0 "01" none)
    let replay := PeerEvent.handleConn false 7 (some ((identity alice).hello
      Sample.prim "01")) "02"
    ((twoPeers.step w replay).links false).sendTo clearChannel alice
      (Msg.ofData .getPeers .none) =
        .ok (7, alice ++ bob ++ "01" ++ "02", Msg.ofData .getPeers .none) := by
  intro w replay
  have hsign : ∀ v nonce, ((twoPeers.id v).hello twoPeers.prim nonce).check
      twoPeers.prim = .ok () := by
    intro v nonce
    cases v with
    | true => exact check_hello decodes_pubs.1 nonce
    | false => exact check_hello decodes_pubs.2 nonce
  have horigin := session_origin twoPeers hsign [.dial true 0 "01" none]
    ⟨fun h hh => absurd hh (by simp [PeerEvent.line]), trivial⟩ w (Run.foldl_mem_states ..)
  exact ((horigin.2 _ (List.mem_singleton.mpr rfl) false 7 "02").2.2 (Msg.ofData .getPeers .none)).2

namespace Sample

/-- Bob, with the handler of `talker`. -/
def bobEndpoint : Endpoint String (String × Msg Payload) ℕ Payload :=
  ⟨identity bob, clearChannel, talker⟩

/-- Bob before the first connection. -/
def unconnected : EndpointState String ℕ := ⟨Links.fresh, listening (node.genesisDB ∅)⟩

end Sample

open Sample

/-- Ten seconds later alice connects herself, and her message is not handled. -/
theorem Endpoint.replayed_hello_bans_alice :
    let frame (nonce nonceB : String) (m : Msg Payload) :=
      (alice ++ bob ++ nonce ++ nonceB, m)
    let hello (nonce : String) := some ((identity alice).hello prim nonce)
    let σ := bobEndpoint.step (bobEndpoint.step unconnected
      (.handleConn 1 (hello "01") "02")) (.receive 1 (frame "01" "02"
        (Msg.ofData .hello (.hello "other" ""))) (atSecond 10) 0)
    ([.handleConn 2 (hello "03") "04", .receive 2 (frame "03" "04" (Msg.ofData .getPeers .none))
      (atSecond 20) 0].foldl bobEndpoint.step σ).gossip = σ.gossip := by
  intro frame hello σ
  have hbans := replayed_hello_bans bobEndpoint unconnected
    ((identity alice).hello prim "01")
    (check_hello decodes_pubs.1 "01") 1 "02" (atSecond 10) 0
    (.hello "other" "") "other" rfl (by decide) (by decide)
    (by decide +kernel) (by decide) (by decide) (by decide) (by decide)
  refine hbans.2 _ ⟨trivial, ⟨fun s hs => ?_, by decide, by decide⟩, trivial⟩
  -- the session of the second connection is the one that alice has opened
  have hcheck : ((identity alice).hello prim "03").check
      bobEndpoint.env.node.prim = .ok () :=
    check_hello decodes_pubs.1 "03"
  dsimp only [hello] at hs
  exact (peerPub_of_handleConn hcheck hs :)

end ReserveOS
