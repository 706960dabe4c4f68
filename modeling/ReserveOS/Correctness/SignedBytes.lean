import ReserveOS.Correctness.HeaderHash
import ReserveOS.Correctness.Simulators

/-!
# What the signatures of a block cover

`ValidateBlockBasic` replaces an empty type by `transfer` in the copy of the loop, and verifies the
signatures over the signing bytes of this copy. The id, the transaction root and the stored block
are computed from the transaction as it stands in the block. The two differ where the type is empty
(`signedAsStored_iff`, `signingBytes_eq_iff`); `signature_covers_stored` says what follows for the
transactions of accepted blocks.
-/

namespace ReserveOS

namespace Tx

/-! ### The type in the signing bytes -/

theorem normalize_of_type_ne {tx : Tx} (h : tx.type ≠ "") : tx.normalize = tx := if_neg h

theorem normalize_of_type_eq {tx : Tx} (h : tx.type = "") :
    tx.normalize = { tx with type := "transfer" } :=
  if_pos h

/-- The bytes before and after the type do not depend on it. -/
theorem exists_signingBytes (tx : Tx) : ∃ r, ∀ ty, ({ tx with type := ty } : Tx).signingBytes =
    (stringBytes "RSVTX1" ++ putU32 tx.version) ++ (putString ty ++ r) := by
  refine ⟨putString tx.fromId ++ (putString tx.pubKey ++ (putU64 tx.nonce ++ (putI64 tx.fee ++
    (putString tx.gasAsset ++ (putU32 (UInt32.ofNat tx.outputs.length) ++
    (tx.outputs.flatMap TxOut.canonicalBytes ++
      (tx.otapClaim.elim [0] (fun c => 1 :: c.canonicalBytes false) ++ putString ""))))))),
    fun ty => ?_⟩
  simp only [signingBytes, canonicalTxBytes, List.append_assoc]
  cases tx.otapClaim <;> rfl

/-- The signing bytes with a type, for a transaction whose type is empty. -/
theorem signingBytes_of_type_eq {tx : Tx} (h : tx.type = "") : ∃ r,
    tx.signingBytes = (stringBytes "RSVTX1" ++ putU32 tx.version) ++ (putString "" ++ r) ∧
    tx.normalize.signingBytes =
      (stringBytes "RSVTX1" ++ putU32 tx.version) ++ (putString "transfer" ++ r) := by
  obtain ⟨r, hr⟩ := tx.exists_signingBytes
  refine ⟨r, ?_, ?_⟩
  · rw [← hr, ← h]
  · rw [← hr, normalize_of_type_eq h]

/-- Normalisation changes the signing bytes where it changes the type. -/
theorem signingBytes_normalize_ne {tx : Tx} (h : tx.type = "") :
    tx.normalize.signingBytes ≠ tx.signingBytes := by
  obtain ⟨r, hstored, hnorm⟩ := signingBytes_of_type_eq h
  intro heq
  rw [hstored, hnorm, List.append_right_inj, List.append_left_inj] at heq
  exact absurd heq (by decide)

/-- Of two transactions with the same normalised bytes, the stored bytes are the same exactly if
both types are empty or none is. -/
theorem signingBytes_eq_iff {t t' : Tx}
    (heq : t.normalize.signingBytes = t'.normalize.signingBytes) :
    t.signingBytes = t'.signingBytes ↔ (t.type = "" ↔ t'.type = "") := by
  by_cases h : t.type = "" <;> by_cases h' : t'.type = ""
  · simp only [h, h', iff_true]
    obtain ⟨r, hstored, hnorm⟩ := signingBytes_of_type_eq h
    obtain ⟨r', hstored', hnorm'⟩ := signingBytes_of_type_eq h'
    rw [hnorm, hnorm'] at heq
    -- both parts around the type are the same
    obtain ⟨hbefore, hafter⟩ := List.append_inj heq (by simp [putU32])
    rw [hstored, hstored', hbefore, List.append_cancel_left hafter]
  · rw [normalize_of_type_ne h'] at heq
    simp only [h, h', iff_false, not_true, iff_false]
    rw [← heq]
    exact (signingBytes_normalize_ne h).symm
  · rw [normalize_of_type_ne h] at heq
    simp only [h, h', iff_true, iff_false]
    rw [heq]
    exact signingBytes_normalize_ne h'
  · rw [normalize_of_type_ne h, normalize_of_type_ne h'] at heq
    simp [h, h', heq]

/-- What is hashed for an id. -/
def idInputs (sha256 : List UInt8 → Hash) (tx : Tx) : List (List UInt8) :=
  [tx.signingBytes, (sha256 tx.signingBytes).bytes.toList]

/-- The id determines the signing bytes. -/
theorem id_eq_iff {sha256 : List UInt8 → Hash} {t t' : Tx}
    (hfree : CollisionFreeOn sha256 (t.idInputs sha256 ++ t'.idInputs sha256)) :
    t.id sha256 = t'.id sha256 ↔ t.signingBytes = t'.signingBytes := by
  constructor
  · intro hid
    exact hfree.eq_of_sha256d_eq (List.subset_append_left _ _) (List.subset_append_right _ _)
      (Hash.toHex_injective hid)
  · intro heq
    rw [id, heq, id]

end Tx

namespace Node

variable {n : Node}

/-! ### Checked transactions -/

variable (n) in
/-- The signatures of a transaction verify over its own signing bytes. -/
structure SignedAsStored (tx : Tx) : Prop where
  account : n.prim.sigVerify tx.pubKey tx.sigHex tx.signingBytes = true
  claim : tx.type = "otap_claim" → ∃ c, tx.otapClaim = some c ∧
    n.prim.schnorrVerify c.P tx.signingBytes c.claimSigHex = true

variable (n) in
/-- A signature is valid for at most one message. -/
def OneMessage (pubKey sigHex : String) : Prop :=
  ∀ m m', n.prim.sigVerify pubKey sigHex m = true → n.prim.sigVerify pubKey sigHex m' = true →
    m = m'

/-- All transactions of an accepted block that are not a coinbase are checked. -/
theorem txChecked_of_validateBlockBasic {b : Block} (h : n.validateBlockBasic b = .ok ()) {tx : Tx}
    (htx : tx ∈ b.txs) (hcb : tx.type ≠ "coinbase") : n.TxChecked tx := by
  have hshape := basicShape_of_validateBlockBasic h
  generalize b.txs = txs at hshape htx
  cases hshape with
  | issuing hon hfirst houts hreward hrest =>
      rcases List.mem_cons.mp htx with rfl | hmem
      · exact absurd hfirst hcb
      · exact hrest tx hmem
  | plain hoff htxs => exact htxs tx htx

/-- The signatures of a checked transaction verify over its own signing bytes exactly if its type is
not empty, or the account signature happens to verify over both. -/
theorem signedAsStored_iff {tx : Tx} (h : n.TxChecked tx) :
    n.SignedAsStored tx ↔
      (tx.type = "" → n.prim.sigVerify tx.pubKey tx.sigHex tx.signingBytes = true) := by
  constructor
  · intro hs _
    exact hs.account
  · intro hempty
    by_cases htype : tx.type = ""
    · refine ⟨hempty htype, fun hclaim => ?_⟩
      rw [htype] at hclaim
      exact absurd hclaim (by decide)
    · -- the checked copy is the transaction itself
      have hself := Tx.normalize_of_type_ne htype
      refine ⟨by rw [← h.sig, hself], fun hclaim => ?_⟩
      obtain ⟨c, hc, -, hschnorr⟩ := h.claim hclaim
      exact ⟨c, hc, by rw [← hschnorr, hself]⟩

/-- Normalising writes the type, which is signed. -/
theorem OneMessage.signedAsStored_iff {tx : Tx} (hone : n.OneMessage tx.pubKey tx.sigHex)
    (h : n.TxChecked tx) : n.SignedAsStored tx ↔ tx.type ≠ "" := by
  rw [Node.signedAsStored_iff h]
  constructor
  · intro hsig htype
    exact Tx.signingBytes_normalize_ne htype (hone _ _ h.sig (hsig htype))
  · intro hne htype
    exact absurd htype hne

/-- The signatures of an accepted transaction cover it as it is stored exactly if its type is not
empty. Two accepted transactions with one signature of one message have the same id exactly if both
types are empty or none is. -/
theorem signature_covers_stored (b₁ b₂ : Block) (h₁ : n.validateBlockBasic b₁ = .ok ())
    (h₂ : n.validateBlockBasic b₂ = .ok ()) (t₁ t₂ : Tx) (ht₁ : t₁ ∈ b₁.txs)
    (ht₂ : t₂ ∈ b₂.txs) (hcb₁ : t₁.type ≠ "coinbase") (hcb₂ : t₂.type ≠ "coinbase") :
    (n.SignedAsStored t₁ ↔
      (t₁.type = "" → n.prim.sigVerify t₁.pubKey t₁.sigHex t₁.signingBytes = true)) ∧
    (n.OneMessage t₁.pubKey t₁.sigHex → (n.SignedAsStored t₁ ↔ t₁.type ≠ "") ∧
      (t₁.pubKey = t₂.pubKey → t₁.sigHex = t₂.sigHex →
        ((t₁.type = "" ↔ t₂.type = "") → t₁.id n.prim.sha256 = t₂.id n.prim.sha256) ∧
        (CollisionFreeOn n.prim.sha256
            (t₁.idInputs n.prim.sha256 ++ t₂.idInputs n.prim.sha256) →
          t₁.id n.prim.sha256 = t₂.id n.prim.sha256 → (t₁.type = "" ↔ t₂.type = "")))) := by
  have hchecked₁ := txChecked_of_validateBlockBasic h₁ ht₁ hcb₁
  have hchecked₂ := txChecked_of_validateBlockBasic h₂ ht₂ hcb₂
  refine ⟨signedAsStored_iff hchecked₁, fun hone => ⟨hone.signedAsStored_iff hchecked₁, ?_⟩⟩
  intro hpub hsig
  have hnorm : t₁.normalize.signingBytes = t₂.normalize.signingBytes := by
    refine hone _ _ hchecked₁.sig ?_
    rw [hpub, hsig]
    exact hchecked₂.sig
  have hiff := Tx.signingBytes_eq_iff hnorm
  constructor
  · intro htypes
    rw [Tx.id, hiff.mpr htypes, Tx.id]
  · intro hfree hid
    exact hiff.mp ((Tx.id_eq_iff hfree).mp hid)

end Node

namespace Sample

/-- The signature of a message is its digest, written twice. -/
def digestSig (m : List UInt8) : List UInt8 :=
  (wideHash m).bytes.toList ++ (wideHash m).bytes.toList

/-- The small node with these signatures. -/
def digestNode : Node :=
  { node with prim := { prim with
      sha256 := wideHash
      ed25519Verify := fun _ m sig => sig = digestSig m } }

/-- A transfer without outputs of a type, with the signature of the normalised transaction. -/
def spelledTx (type : String) : Tx :=
  let tx : Tx := ⟨alice, alice, "", type, none, 1, 1, 0, "", [], ""⟩
  { tx with sigHex := hexEncode (digestSig tx.normalize.signingBytes) }

/-- A block with one such transfer. -/
def spelledBlock (type : String) : Block := { main₁ with txs := [spelledTx type] }

theorem validateBlockBasic_spelledBlock :
    digestNode.validateBlockBasic (spelledBlock "transfer") = .ok () ∧
      digestNode.validateBlockBasic (spelledBlock "") = .ok () := by
  decide +kernel

end Sample

open Sample

/-- The signature of a transfer with its type covers the transfer. -/
theorem signature_covers_stored_transfer :
    digestNode.validateBlockBasic (spelledBlock "transfer") = .ok () ∧
      digestNode.SignedAsStored (spelledTx "transfer") := by
  have hok := validateBlockBasic_spelledBlock.1
  have h := Node.signature_covers_stored _ _ hok hok (spelledTx "transfer")
    (spelledTx "transfer") (List.mem_singleton.mpr rfl) (List.mem_singleton.mpr rfl)
    (by decide) (by decide)
  exact ⟨hok, h.1.mpr fun htype => absurd htype (by decide)⟩

/-- The signature of a transfer without its type does not cover it. The same signature is accepted
with and without the type, under two ids. -/
theorem not_signature_covers_stored_empty :
    digestNode.validateBlockBasic (spelledBlock "") = .ok () ∧
    ¬ digestNode.SignedAsStored (spelledTx "") ∧
    digestNode.validateBlockBasic (spelledBlock "transfer") = .ok () ∧
    (spelledTx "").sigHex = (spelledTx "transfer").sigHex ∧
    (spelledTx "").id wideHash ≠ (spelledTx "transfer").id wideHash := by
  obtain ⟨hok, hok'⟩ := validateBlockBasic_spelledBlock
  refine ⟨hok', fun h => absurd h.account ?_, hok, ?_⟩
  · decide +kernel
  · decide +kernel

end ReserveOS
