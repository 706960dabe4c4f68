import ReserveOS.Node.Config

/-!
# P2P sessions

The handshake of `session.go` and the table of sessions of `p2p.go`. Each side sends one line, a
`hello` with its public key and a nonce, signed together; the session key is derived from the two
keys and the two nonces. The table keeps the last session for each public key.

`deriveSessionKey`, `readFrame` and `writeFrame` are not defined in the repository. They are
parameters (`Channel`), of which it is assumed that a frame is read as it was written under the
same key. A line that does not parse as JSON is `none`. The `Dial` of `dial.go`, which nobody
calls, opens no session.
-/

namespace ReserveOS

/-- `hello`. -/
structure Hello where
  type : String
  pub : String
  nonce : String
  sig : String
deriving DecidableEq

/-- What `LoadOrGenIdentity` returns. -/
structure Identity where
  pubHex : String
  priv : List UInt8

/-- The bytes that a hello signs. -/
def helloMessage (pub nonce : String) : List UInt8 :=
  stringBytes ("hello|" ++ pub ++ "|" ++ nonce)

/-- The line that a node sends, with the nonce in hexadecimal. -/
def Identity.hello (prim : Primitives) (id : Identity) (nonce : String) : Hello :=
  ⟨"hello", id.pubHex, nonce, hexEncode (prim.ed25519Sign id.priv (helloMessage id.pubHex nonce))⟩

/-- The checks that both sides make on the line of the other. -/
def Hello.check (prim : Primitives) (h : Hello) : Except String Unit :=
  if h.type ≠ "hello" then .error "bad hello"
  else
    match hexDecodeLen 32 h.pub with
    | none => .error "bad peer pub"
    | some pub =>
        match hexDecodeLen 64 h.sig with
        | none => .error "bad peer sig"
        | some sig =>
            if prim.ed25519Verify pub (helloMessage h.pub h.nonce) sig then .ok ()
            else .error "hello verify failed"

/-- The key derivation and the frames, over keys `K`, frames `C` and messages `M`. -/
structure Channel (K C M : Type) where
  /-- the keys of the dialling and the serving side, then their nonces -/
  deriveSessionKey : String → String → String → String → K
  /-- `EncodeMsg` and `writeFrame` -/
  writeFrame : K → M → C
  /-- `readFrame` and `DecodeMsg`: none if the frame is bad, `some none` if the message is -/
  readFrame : K → C → Option (Option M)
  readFrame_writeFrame : ∀ k m, readFrame k (writeFrame k m) = some (some m)

/-- `Session`, without its connection. -/
structure Session (K : Type) where
  peerPub : String
  key : K

section Handshake

variable {K C M : Type} (ch : Channel K C M) (prim : Primitives) (id : Identity)

/-- `DialSession`, behind the line it sends. -/
def dialSession (nonceA : String) (resp : Option Hello) : Except String (Session K) :=
  match resp with
  | none => .error "invalid json"
  | some resp =>
      (resp.check prim).bind fun _ =>
        .ok ⟨resp.pub, ch.deriveSessionKey id.pubHex resp.pub nonceA resp.nonce⟩

/-- `ServeSession`: the line it answers with, and the session. -/
def serveSession (line : Option Hello) (nonceB : String) : Except String (Hello × Session K) :=
  match line with
  | none => .error "invalid json"
  | some h =>
      (h.check prim).bind fun _ =>
        .ok (id.hello prim nonceB, ⟨h.pub, ch.deriveSessionKey h.pub id.pubHex h.nonce nonceB⟩)

end Handshake

/-! ### The sessions of a node -/

/-- The sessions of a node, by connection while their `ReadLoop` runs, and by public key. -/
structure Links (K : Type) where
  reading : ℕ → Option (Session K)
  sessions : String → Option (ℕ × Session K)

namespace Links

variable {K C M : Type} (ch : Channel K C M) (prim : Primitives) (id : Identity) (l : Links K)

/-- A node that has just been started. -/
def fresh : Links K := ⟨fun _ => none, fun _ => none⟩

/-- A session is established on a connection. -/
def opened (c : ℕ) (s : Session K) : Links K where
  reading := Function.update l.reading c (some s)
  sessions := Function.update l.sessions s.peerPub (some (c, s))

/-- `handleConn`, with the line that is answered. -/
def handleConn (c : ℕ) (line : Option Hello) (nonceB : String) : Option Hello × Links K :=
  match serveSession ch prim id line nonceB with
  | .error _ => (none, l)
  | .ok (resp, s) => (some resp, l.opened c s)

/-- `Dial`. -/
def dial (c : ℕ) (nonceA : String) (resp : Option Hello) : Except String Unit × Links K :=
  match dialSession ch prim id nonceA resp with
  | .error msg => (.error msg, l)
  | .ok s => (.ok (), l.opened c s)

/-- One round of `ReadLoop`: the call of the handler, if there is one. A bad frame ends the loop. -/
def receive (c : ℕ) (frame : C) : Option (String × M) × Links K :=
  match l.reading c with
  | none => (none, l)
  | some s =>
      match ch.readFrame s.key frame with
      | none => (none, { l with reading := Function.update l.reading c none })
      | some none => (none, l)
      | some (some m) => (some (s.peerPub, m), l)

/-- `SendTo`: the connection and the frame. -/
def sendTo (peer : String) (m : M) : Except String (ℕ × C) :=
  match l.sessions peer with
  | none => .error "no_session"
  | some (c, s) => .ok (c, ch.writeFrame s.key m)

end Links

end ReserveOS
