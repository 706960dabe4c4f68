import ReserveOS.Crypto.Otap
import ReserveOS.Node.Validate

/-!
# One-time payments can be claimed

Whatever is drawn at random, the recipient recognises an output that was made for the published
keys, derives the same shared secret as the sender, reads the memo, and holds the private key of the
one-time address (`otap_claimable`), because `r (s G) = s (r G)` and `v G + k G = (v + k) G`. A
claim that the recipient signs passes `ValidateBlockBasic` (`checkClaim_of_sign`).
-/

namespace ReserveOS

/-! ### What is encoded can be decoded -/

@[simp] theorem orError_some {α : Type} (call : String) (a : α) :
    orError call (some a) = .ok a := rfl

/-- Randomness gives a scalar. -/
@[simp] theorem randomScalar_some (buf : Vector UInt8 64) :
    randomScalar (some buf) = .ok (leValue buf.toList : Scalar) := by
  simp [randomScalar, bind, Except.bind]

@[simp] theorem decodeScalar_hexEncode (s : Scalar) : decodeScalar (hexEncode s.bytes) = .ok s := by
  simp [decodeScalar, hexDecode_hexEncode, bind, Except.bind]

@[simp] theorem oneTimePriv_hexEncode (v k : Scalar) :
    oneTimePriv (hexEncode v.bytes) k = .ok (v + k) := by
  simp [oneTimePriv, bind, Except.bind, pure, Except.pure]

namespace CryptoLib

variable {lib : CryptoLib}

@[simp] theorem decodePoint_hexEncode (p : lib.curve.Point) :
    lib.decodePoint (hexEncode (lib.curve.bytes p)) = .ok p := by
  simp [decodePoint, hexDecode_hexEncode, lib.curve.length_bytes, lib.curve.setBytes_bytes, bind,
    Except.bind]

/-- A digest always gives a scalar. -/
theorem digestScalar_eq (err : String) (msg : List UInt8) :
    lib.digestScalar err msg = .ok (leValue (lib.sha512 msg).toList : Scalar) := by
  simp [digestScalar]

/-! ### Keys, output and detection -/

/-- Sender and recipient multiply in different order. -/
theorem shared_comm (r s : Scalar) :
    lib.curve.scalarMult r (lib.curve.scalarBaseMult s) =
      lib.curve.scalarMult s (lib.curve.scalarBaseMult r) := by
  rw [← Edwards25519.scalarBaseMult_mul, ← Edwards25519.scalarBaseMult_mul, mul_comm]

variable (lib)

/-- The keys of the recipient with scan scalar `s` and spend scalar `v`. -/
def keysOf (s v : Scalar) : RegistryKeys × PrivateKeys :=
  (⟨hexEncode (lib.curve.bytes (lib.curve.scalarBaseMult s)),
    hexEncode (lib.curve.bytes (lib.curve.scalarBaseMult v))⟩,
    ⟨hexEncode s.bytes, hexEncode v.bytes⟩)

/-- The bytes that sender and recipient share. -/
def secretOf (s r : Scalar) : List UInt8 :=
  lib.curve.bytes (lib.curve.scalarMult r (lib.curve.scalarBaseMult s))

/-- The scalar that makes the spend key a one-time key. -/
def tweakOf (chainID context : String) (s r : Scalar) : Scalar :=
  leValue (lib.sha512 (sharedInput (lib.secretOf s r) chainID context)).toList

/-- The output for the keys of `s` and `v`, made with the ephemeral scalar `r`. -/
def outputOf (chainID context : String) (s v r : Scalar) : OTAPOutput where
  P := hexEncode (lib.curve.bytes (lib.curve.scalarBaseMult (v + lib.tweakOf chainID context s r)))
  R := hexEncode (lib.curve.bytes (lib.curve.scalarBaseMult r))
  tag := lib.tag16 (lib.secretOf s r)

theorem generateKeys_eq (bufS bufV : Vector UInt8 64) :
    lib.generateKeys (some bufS) (some bufV) =
      .ok (lib.keysOf (leValue bufS.toList) (leValue bufV.toList)) := by
  simp [generateKeys, keysOf, bind, Except.bind, pure, Except.pure]

theorem hToScalar_secretOf (chainID context : String) (s r : Scalar) :
    lib.hToScalar (lib.secretOf s r) chainID context = .ok (lib.tweakOf chainID context s r) :=
  digestScalar_eq _ _

/-- The sender adds the multiple of the tweak to the published key. -/
theorem buildOutput_eq (chainID context : String) (s v : Scalar) (bufR : Vector UInt8 64) :
    lib.buildOutput chainID context (lib.keysOf s v).1 (some bufR) =
      .ok (lib.outputOf chainID context s v (leValue bufR.toList),
        lib.secretOf s (leValue bufR.toList)) := by
  have hk := lib.hToScalar_secretOf chainID context s (leValue bufR.toList)
  rw [secretOf] at hk
  simp [buildOutput, keysOf, hk, outputOf, secretOf, Edwards25519.scalarBaseMult_add, bind,
    Except.bind, pure, Except.pure]

/-- The recipient arrives at the same secret, and at the same one-time key. -/
theorem detectSecret_outputOf (chainID context : String) (s v r : Scalar) :
    lib.detectSecret chainID context (lib.outputOf chainID context s v r)
      (lib.keysOf s v).2.scanPriv (lib.keysOf s v).1.spendPub =
      .ok (some (lib.secretOf s r, lib.tweakOf chainID context s r)) := by
  have hsecret : lib.curve.bytes (lib.curve.scalarMult s (lib.curve.scalarBaseMult r)) =
      lib.secretOf s r := by rw [shared_comm, secretOf]
  simp [detectSecret, keysOf, outputOf, hsecret, hToScalar_secretOf,
    Edwards25519.scalarBaseMult_add, bind, Except.bind, pure, Except.pure]

/-! ### Memos and signatures -/

/-- A memo can be read with the secret and the associated data it was encrypted with. -/
theorem decryptMemo_encryptMemo (K plaintext aad : List UInt8) (nonce : Vector UInt8 12) :
    ∃ enc, lib.encryptMemo K plaintext aad (some nonce) = .ok enc ∧
      lib.decryptMemo K enc aad = .ok plaintext := by
  refine ⟨_, rfl, ?_⟩
  have hlen : nonce.toList.length = 12 := by simp
  have hopen := lib.aeadOpen_aeadSeal (lib.deriveMemoKey K) nonce.toList plaintext aad hlen
  -- the nonce is cut off again
  generalize lib.aeadSeal (lib.deriveMemoKey K) nonce.toList plaintext aad = ct at hopen
  have htake : (nonce.toList ++ ct).take 12 = nonce.toList := List.take_left' hlen
  have hdrop : (nonce.toList ++ ct).drop 12 = ct := List.drop_left' hlen
  have hlong : ¬ (nonce.toList ++ ct).length < 12 := by
    rw [List.length_append, hlen]
    omega
  simp only [decryptMemo, String.toList_ofList, Base64.decode_encode, orError_some, bind,
    Except.bind, if_neg hlong, htake, hdrop, hopen]

/-- A signature under the private key of a point verifies under the point. -/
theorem verify_sign (x : Scalar) (msg : List UInt8) (buf : Vector UInt8 64) :
    ∃ sig, lib.sign x (lib.curve.scalarBaseMult x) msg (some buf) = .ok sig ∧
      lib.verify (lib.curve.scalarBaseMult x) msg sig = true := by
  obtain ⟨e, he⟩ : ∃ e, lib.challenge (lib.curve.scalarBaseMult (leValue buf.toList : Scalar))
      (lib.curve.scalarBaseMult x) msg = .ok e := ⟨_, digestScalar_eq _ _⟩
  generalize hk : (leValue buf.toList : Scalar) = k at he
  refine ⟨hexEncode (lib.curve.bytes (lib.curve.scalarBaseMult k) ++ (k + e * x : Scalar).bytes),
    ?_, ?_⟩
  · simp [sign, hk, he, bind, Except.bind, pure, Except.pure]
  · have hlen := lib.curve.length_bytes (lib.curve.scalarBaseMult k)
    unfold verify
    rw [hexDecode_hexEncode]
    dsimp only
    rw [if_neg (by simp [hlen]), List.take_left' hlen, List.drop_left' hlen,
      lib.curve.setBytes_bytes, Scalar.setCanonicalBytes_bytes]
    dsimp only
    rw [he]
    -- `s G = k G + e (x G)`
    simp only [Edwards25519.scalarBaseMult_add, Edwards25519.scalarBaseMult_mul, decide_true]

/-! ### From the keys to the claim -/

/-- For every recipient and all randomness: an output for the published keys is detected, both sides
have the same secret, the memo is read, and the recipient can sign for the one-time key. -/
theorem otap_claimable (bufS bufV bufR bufSig : Vector UInt8 64)
    (nonce : Vector UInt8 12) (chainID context : String) (plaintext aad msg : List UInt8) :
    ∃ reg priv out K enc k x P sig, lib.generateKeys (some bufS) (some bufV) = .ok (reg, priv) ∧
      lib.buildOutput chainID context reg (some bufR) = .ok (out, K) ∧
      lib.detect chainID context out priv.scanPriv reg.spendPub = .ok (true, K) ∧
      lib.detectWithK chainID context out priv.scanPriv reg.spendPub = .ok (true, K, some k) ∧
      lib.encryptMemo K plaintext aad (some nonce) = .ok enc ∧
      lib.decryptMemo K enc aad = .ok plaintext ∧
      oneTimePriv priv.spendPriv k = .ok x ∧
      lib.decodePoint out.P = .ok P ∧
      lib.curve.scalarBaseMult x = P ∧
      lib.sign x P msg (some bufSig) = .ok sig ∧
      lib.verify P msg sig = true := by
  generalize hs : (leValue bufS.toList : Scalar) = s
  generalize hv : (leValue bufV.toList : Scalar) = v
  generalize hr : (leValue bufR.toList : Scalar) = r
  generalize hk : lib.tweakOf chainID context s r = k
  -- the private key of the output is `v + k`, with a tweak `k` that both sides compute
  obtain ⟨enc, henc, hdec⟩ :=
    lib.decryptMemo_encryptMemo (lib.secretOf s r) plaintext aad nonce
  obtain ⟨sig, hsig, hver⟩ := lib.verify_sign (v + k) msg bufSig
  have hkeys := lib.generateKeys_eq bufS bufV
  have hout := lib.buildOutput_eq chainID context s v bufR
  have hdetect := lib.detectSecret_outputOf chainID context s v r
  rw [hs, hv] at hkeys
  rw [hr] at hout
  refine ⟨(lib.keysOf s v).1, (lib.keysOf s v).2, _, _, enc, k, v + k, _, sig, hkeys, hout, ?_, ?_,
    henc, hdec, oneTimePriv_hexEncode v k, ?_, rfl, hsig, hver⟩
  · rw [detect, hdetect, Except.map]
  · rw [detectWithK, hdetect, Except.map, hk]
  · simp only [outputOf, hk, decodePoint_hexEncode]

/-! ### The claim inside a block -/

/-- A node calls this library for the keys and signatures of claims. -/
structure Serves (lib : CryptoLib) (prim : Primitives) : Prop where
  pointSetBytes : ∀ P, prim.pointSetBytes P = (lib.decodePoint P).isOk
  schnorrVerify : ∀ P p msg sig, lib.decodePoint P = .ok p →
    prim.schnorrVerify P msg sig = lib.verify p msg sig

variable {lib}

/-- What verifies is not empty. -/
theorem ne_empty_of_verify {p : lib.curve.Point} {msg : List UInt8} {sig : String}
    (h : lib.verify p msg sig = true) : sig ≠ "" := by
  rintro rfl
  have hdec : hexDecode "" = some [] := by decide
  simp [verify, hdec] at h

/-- The key that `checkClaim` decodes is not empty. -/
theorem ne_empty_of_decodePoint {P : String} {p : lib.curve.Point}
    (h : lib.decodePoint P = .ok p) : P ≠ "" := by
  rintro rfl
  have hdec : hexDecode "" = some [] := by decide
  simp [decodePoint, hdec, bind, Except.bind] at h

/-- The claim of an output passes `ValidateBlockBasic` when it is signed with the one-time key: the
signature is over bytes that leave the signature itself out. -/
theorem checkClaim_of_sign {n : Node} (hn : lib.Serves n.prim) {tx : Tx} {c : OTAPClaim}
    {x : Scalar} (hclaim : tx.otapClaim = some c) (hto : c.toId = tx.fromId)
    (hfrom : tx.fromId ≠ "")
    (hP : lib.decodePoint c.P = .ok (lib.curve.scalarBaseMult x)) (buf : Vector UInt8 64) :
    ∃ sig, lib.sign x (lib.curve.scalarBaseMult x) tx.signingBytes (some buf) = .ok sig ∧
      n.checkClaim { tx with otapClaim := some { c with claimSigHex := sig } } = .ok () := by
  obtain ⟨sig, hsig, hver⟩ := lib.verify_sign x tx.signingBytes buf
  refine ⟨sig, hsig, ?_⟩
  have hbytes : Tx.signingBytes { tx with otapClaim := some { c with claimSigHex := sig } } =
      tx.signingBytes := by
    simp only [Tx.signingBytes, Tx.canonicalTxBytes, hclaim, OTAPClaim.canonicalBytes,
      Bool.false_eq_true, if_false]
  have hset : n.prim.pointSetBytes c.P = true := by
    rw [hn.pointSetBytes, hP]
    rfl
  have hschnorr : n.prim.schnorrVerify c.P tx.signingBytes sig = true := by
    rw [hn.schnorrVerify _ _ _ _ hP, hver]
  simp only [Node.checkClaim, hbytes]
  simp [ne_empty_of_decodePoint hP, hfrom, hto, ne_empty_of_verify hver, hset, hschnorr]

end CryptoLib

/-! ### An instance -/

/-- The scalars themselves are such a group. -/
instance : Inhabited Edwards25519 where
  default :=
    { Point := Scalar
      base := 1
      order_nsmul := by simp [nsmul_eq_mul, Scalar]
      bytes := Scalar.bytes
      setBytes := Scalar.setCanonicalBytes
      length_bytes := Scalar.length_bytes
      setBytes_bytes := Scalar.setCanonicalBytes_bytes }

instance : Inhabited CryptoLib where
  default :=
    { curve := default
      sha256 := fun _ => Hash.zero
      sha512 := fun _ => default
      hkdf := fun _ _ _ => default
      aeadSeal := fun _ _ plaintext _ => plaintext
      aeadOpen := fun _ _ ct _ => some ct
      aeadOpen_aeadSeal := fun _ _ _ _ _ => rfl }

end ReserveOS
