import ReserveOS.Crypto.Otap

/-!
# The wallet's automatic claim

The inner body of `pollLoop` in `walletd/server.go`: for one output of a block, the wallet looks
whether the output is its own, reads the memo, and builds and signs the transaction that claims it.
`autoClaim` is what it posts to the node's `/tx/submit`, or `none` when it goes on to the next
output.

The nonce that the node reports, the slot that the memo names and the random bytes of the Schnorr
signature are arguments. Marking the slot as confirmed in the wallet's own store is left out.
-/

namespace ReserveOS

/-- `OTAPContext` of the wallet. -/
def otapContext : String := "default"

/-- The account and the one-time keys of a wallet. -/
structure Wallet where
  chainID : String
  registry : RegistryKeys
  priv : PrivateKeys
  /-- `acct.PubHex` -/
  acctPubHex : String
  /-- `acct.PrivHex` -/
  acctPrivHex : String

/-- What the caller of a Go function sees when it drops the error. -/
def dropError (r : Except String String) : String :=
  match r with
  | .error _ => ""
  | .ok v => v

namespace Wallet

variable (w : Wallet)

/-- `WalletAccount.Sign`. -/
def sign (prim : Primitives) (msg : List UInt8) : Except String String :=
  match hexDecode w.acctPrivHex with
  | none => .error "hex.DecodeString"
  | some b =>
      if b.length ≠ 64 then .error "bad priv size" else .ok (hexEncode (prim.ed25519Sign b msg))

/-- The fee of a claim. -/
def claimFee : Int64 := 1000

/-- The claim of an output, not signed yet. -/
def claimTx (o : TxOut) (nonce : UInt64) : Tx where
  fromId := w.acctPubHex
  pubKey := w.acctPubHex
  sigHex := ""
  type := "otap_claim"
  otapClaim := some ⟨o.P, o.R, o.tag, w.acctPubHex, o.amount, ""⟩
  version := 0
  nonce := nonce
  fee := claimFee
  gasAsset := "USDR"
  outputs := []
  memo := ""

/-- `tx.OTAPClaim.ClaimSigHex = cs`. -/
def withClaimSig (tx : Tx) (cs : String) : Tx :=
  { tx with otapClaim := tx.otapClaim.map fun c => { c with claimSigHex := cs } }

/-- The two signatures of a claim: that of the one-time key, and that of the account. An error of
either leaves an empty signature. -/
def signClaim (prim : Primitives) (lib : CryptoLib) (buf : Option (Vector UInt8 64)) (x : Scalar)
    (P : lib.curve.Point) (tx : Tx) : Tx :=
  let tx := withClaimSig tx (dropError (lib.sign x P tx.signingBytes buf))
  { tx with sigHex := dropError (w.sign prim tx.signingBytes) }

/-- The end of the body: the one-time key is derived, and the claim signed with it. -/
def claimOutput (prim : Primitives) (lib : CryptoLib) (buf : Option (Vector UInt8 64)) (o : TxOut)
    (tx : Tx) : Option Tx :=
  match lib.detectWithK w.chainID otapContext ⟨o.P, o.R, o.tag⟩ w.priv.scanPriv
      w.registry.spendPub with
  | .ok (true, _, some k) =>
      match oneTimePriv w.priv.spendPriv k with
      | .error _ => none
      | .ok x =>
          match lib.decodePoint o.P with
          | .error _ => none
          | .ok P => some (w.signClaim prim lib buf x P tx)
  | _ => none

/-- The transaction that `pollLoop` submits for an output. `slotOf` reads `slot_id` from the JSON of
a memo, and `nonce` is what `StateInfo` returns for the account. -/
def autoClaim (prim : Primitives) (lib : CryptoLib) (slotOf : List UInt8 → Option Int64)
    (nonce : Option UInt64) (buf : Option (Vector UInt8 64)) (o : TxOut) : Option Tx :=
  if o.P = "" ∨ o.R = "" then none
  else
    match
      lib.detect w.chainID otapContext ⟨o.P, o.R, o.tag⟩ w.priv.scanPriv w.registry.spendPub with
    | .error _ => none
    | .ok (matched, K) =>
        if ¬ matched ∨ o.encMemo = "" then none
        else
          match lib.decryptMemo K o.encMemo (stringBytes (o.P ++ o.R)) with
          | .error _ => none
          | .ok plain =>
              match slotOf plain with
              | none => none
              | some slotID =>
                  if slotID ≤ 0 then none
                  else nonce.bind fun cur => w.claimOutput prim lib buf o (w.claimTx o (cur + 1))

end Wallet

end ReserveOS
