import Mathlib.Tactic.IntervalCases
import ReserveOS.Chain.Codec
import ReserveOS.General.Decimal
import ReserveOS.General.SelfDelimiting

/-!
# The canonical transaction encoding is unambiguous

Transaction ids and both signatures of a transaction are computed from `CanonicalTxBytes`. Each part
of its format is self-delimiting, hence so is the whole (`canonicalTxBytes_unambiguous`): the bytes
determine every field that is written, and no encoding is a proper prefix of another. The lengths
are written as `uint32`, so this holds for strings and output lists shorter than `2 ^ 32`.
-/

namespace ReserveOS

open Wire

/-! ### Integers and strings -/

theorem putU32_injective {v w : UInt32} (h : putU32 v = putU32 w) : v = w := by
  have hbyte : ∀ (u : UInt32) (i : ℕ), i < 4 →
      (u >>> (8 * UInt32.ofNat i)).toUInt8.toNat = u.toNat / 256 ^ i % 256 := by
    intro u i hi
    have hshift : (8 * UInt32.ofNat i).toNat % 32 = 8 * i := by
      interval_cases i <;> rfl
    rw [UInt32.toNat_toUInt8, UInt32.toNat_shiftRight, hshift, Nat.shiftRight_eq_div_pow, pow_mul]
    rfl
  apply UInt32.toNat.inj
  refine eq_of_bytes (k := 4) v.toNat_lt w.toNat_lt fun i hi => ?_
  have hi' := List.map_inj_left.mp h i (List.mem_range.mpr hi)
  rw [← hbyte v i hi, ← hbyte w i hi, hi']

theorem putU64_injective {v w : UInt64} (h : putU64 v = putU64 w) : v = w := by
  have hbyte : ∀ (u : UInt64) (i : ℕ), i < 8 →
      (u >>> (8 * UInt64.ofNat i)).toUInt8.toNat = u.toNat / 256 ^ i % 256 := by
    intro u i hi
    have hshift : (8 * UInt64.ofNat i).toNat % 64 = 8 * i := by
      interval_cases i <;> rfl
    rw [UInt64.toNat_toUInt8, UInt64.toNat_shiftRight, hshift, Nat.shiftRight_eq_div_pow, pow_mul]
    rfl
  apply UInt64.toNat.inj
  refine eq_of_bytes (k := 8) v.toNat_lt w.toNat_lt fun i hi => ?_
  have hi' := List.map_inj_left.mp h i (List.mem_range.mpr hi)
  rw [← hbyte v i hi, ← hbyte w i hi, hi']

theorem selfDelimiting_putU32 : SelfDelimiting (fun _ => True) putU32 :=
  selfDelimiting_of_length (k := 4) (fun _ _ => by simp [putU32]) fun _ _ _ _ => putU32_injective

theorem selfDelimiting_putU64 : SelfDelimiting (fun _ => True) putU64 :=
  selfDelimiting_of_length (k := 8) (fun _ _ => by simp [putU64]) fun _ _ _ _ => putU64_injective

theorem selfDelimiting_putI64 : SelfDelimiting (fun _ => True) putI64 := by
  refine selfDelimiting_putU64.comp (fun _ _ => trivial) fun v w _ _ h => ?_
  cases v
  cases w
  exact congrArg Int64.ofUInt64 h

/-- A length or a count, written as a `uint32`. -/
theorem selfDelimiting_putLen :
    SelfDelimiting (fun k => k < 2 ^ 32) fun k => putU32 (UInt32.ofNat k) := by
  refine selfDelimiting_putU32.comp (fun _ _ => trivial) fun k k' hk hk' h => ?_
  have hnat := congrArg UInt32.toNat h
  rwa [UInt32.toNat_ofNat_of_lt' hk, UInt32.toNat_ofNat_of_lt' hk'] at hnat

/-- The bytes of a string determine it. -/
theorem stringBytes_injective {s t : String} (h : stringBytes s = stringBytes t) : s = t :=
  String.toByteArray_inj.mp (ByteArray.ext (Array.toList_inj.mp h))

/-- A number as it is printed. -/
theorem stringBytes_toString (n : ℕ) : stringBytes (toString n) = Decimal.text n := by
  rw [Nat.toString_eq_ofList_toDigits, stringBytes_ofList, Decimal.text]
  intro c hc
  have hrange := Decimal.toNat_of_mem_toDigits hc
  omega

/-- A string whose length in bytes fits a `uint32`. -/
def ShortString (s : String) : Prop := (stringBytes s).length < 2 ^ 32

instance (s : String) : Decidable (ShortString s) :=
  inferInstanceAs (Decidable (_ < _))

theorem shortString_empty : ShortString "" := by decide

theorem selfDelimiting_putString : SelfDelimiting ShortString putString :=
  selfDelimiting_putLen.prefixed.comp (fun _ h => h) fun _ _ _ _ => stringBytes_injective

/-! ### Outputs -/

namespace TxOut

/-- All strings of an output are short. -/
structure Short (o : TxOut) : Prop where
  asset : ShortString o.asset
  address : ShortString o.address
  P : ShortString o.P
  R : ShortString o.R
  tag : ShortString o.tag
  encMemo : ShortString o.encMemo

/-- An output, field by field. -/
theorem selfDelimiting : SelfDelimiting Short canonicalBytes := by
  intro o o' h h' r s heq
  simp only [canonicalBytes, List.append_assoc] at heq
  obtain ⟨hamount, heq⟩ := selfDelimiting_putI64 _ _ trivial trivial _ _ heq
  obtain ⟨hasset, heq⟩ := selfDelimiting_putString _ _ h.asset h'.asset _ _ heq
  obtain ⟨haddress, heq⟩ := selfDelimiting_putString _ _ h.address h'.address _ _ heq
  obtain ⟨hP, heq⟩ := selfDelimiting_putString _ _ h.P h'.P _ _ heq
  obtain ⟨hR, heq⟩ := selfDelimiting_putString _ _ h.R h'.R _ _ heq
  obtain ⟨htag, heq⟩ := selfDelimiting_putString _ _ h.tag h'.tag _ _ heq
  obtain ⟨hmemo, heq⟩ := selfDelimiting_putString _ _ h.encMemo h'.encMemo _ _ heq
  obtain ⟨hpolicy, heq⟩ := selfDelimiting_putU32 _ _ trivial trivial _ _ heq
  refine ⟨?_, heq⟩
  cases o
  cases o'
  simp_all

end TxOut

/-! ### Claims -/

namespace OTAPClaim

/-- All strings of a claim are short. -/
structure Short (c : OTAPClaim) : Prop where
  P : ShortString c.P
  R : ShortString c.R
  tag : ShortString c.tag
  toId : ShortString c.toId
  claimSigHex : ShortString c.claimSigHex

/-- A claim with its signature. -/
theorem selfDelimiting : SelfDelimiting Short fun c => c.canonicalBytes true := by
  intro c c' h h' r s heq
  simp only [canonicalBytes, List.append_assoc, if_true] at heq
  obtain ⟨hP, heq⟩ := selfDelimiting_putString _ _ h.P h'.P _ _ heq
  obtain ⟨hR, heq⟩ := selfDelimiting_putString _ _ h.R h'.R _ _ heq
  obtain ⟨htag, heq⟩ := selfDelimiting_putString _ _ h.tag h'.tag _ _ heq
  obtain ⟨hto, heq⟩ := selfDelimiting_putString _ _ h.toId h'.toId _ _ heq
  obtain ⟨hamount, heq⟩ := selfDelimiting_putI64 _ _ trivial trivial _ _ heq
  obtain ⟨hsig, heq⟩ := selfDelimiting_putString _ _ h.claimSigHex h'.claimSigHex _ _ heq
  refine ⟨?_, heq⟩
  cases c
  cases c'
  simp_all

/-- A claim without its signature. -/
def withoutSig (c : OTAPClaim) : OTAPClaim := { c with claimSigHex := "" }

end OTAPClaim

/-! ### Transactions -/

namespace Tx

/-- All strings that are written and the list of outputs are short. -/
structure Short (tx : Tx) : Prop where
  type : ShortString tx.type
  fromId : ShortString tx.fromId
  pubKey : ShortString tx.pubKey
  gasAsset : ShortString tx.gasAsset
  outputs : tx.outputs.length < 2 ^ 32 ∧ ∀ o ∈ tx.outputs, o.Short
  claim : ∀ c ∈ tx.otapClaim, c.Short
  sigHex : ShortString tx.sigHex

/-- A transaction without its memo. -/
def withoutMemo (tx : Tx) : Tx := { tx with memo := "" }

/-- A transaction without its two signatures. -/
def withoutSigs (tx : Tx) : Tx :=
  { tx with sigHex := "", otapClaim := tx.otapClaim.map OTAPClaim.withoutSig }

/-- Taking out the signatures makes nothing longer. -/
theorem Short.withoutSigs {tx : Tx} (h : tx.Short) : tx.withoutSigs.Short where
  type := h.type
  fromId := h.fromId
  pubKey := h.pubKey
  gasAsset := h.gasAsset
  outputs := h.outputs
  claim := by
    intro c hc
    obtain ⟨c', hc', rfl⟩ := Option.map_eq_some_iff.mp hc
    have hshort := h.claim c' hc'
    exact ⟨hshort.P, hshort.R, hshort.tag, hshort.toId, shortString_empty⟩
  sigHex := shortString_empty

/-- Without signatures, the bytes are those of the transaction whose signatures are empty. -/
theorem canonicalTxBytes_false (tx : Tx) :
    tx.canonicalTxBytes false = tx.withoutSigs.canonicalTxBytes true := by
  unfold canonicalTxBytes withoutSigs
  cases tx.otapClaim <;> rfl

/-- The memo is not written. -/
theorem canonicalTxBytes_withoutMemo (tx : Tx) (includeSigs : Bool) :
    tx.withoutMemo.canonicalTxBytes includeSigs = tx.canonicalTxBytes includeSigs := rfl

/-- The parts of the encoding, in their order. -/
theorem canonicalTxBytes_true (tx : Tx) :
    tx.canonicalTxBytes true = stringBytes "RSVTX1" ++ (putU32 tx.version ++ (putString tx.type ++
      (putString tx.fromId ++ (putString tx.pubKey ++ (putU64 tx.nonce ++ (putI64 tx.fee ++
      (putString tx.gasAsset ++ ((putU32 (UInt32.ofNat tx.outputs.length) ++
      tx.outputs.flatMap TxOut.canonicalBytes) ++ (tx.otapClaim.elim [0]
      (fun c => 1 :: c.canonicalBytes true) ++ putString tx.sigHex))))))))) := by
  unfold canonicalTxBytes
  cases tx.otapClaim <;> simp

/-- The encoding with signatures and what follows it determine the transaction, but for its memo,
and what follows. -/
theorem parse_canonicalTxBytes {t t' : Tx} (h : t.Short) (h' : t'.Short) {r s : List UInt8}
    (heq : t.canonicalTxBytes true ++ r = t'.canonicalTxBytes true ++ s) :
    t.withoutMemo = t'.withoutMemo ∧ r = s := by
  have hlist := selfDelimiting_putLen.counted TxOut.selfDelimiting
  have hclaim := OTAPClaim.selfDelimiting.option (x := (0 : UInt8)) (y := 1) (by decide)
  rw [canonicalTxBytes_true, canonicalTxBytes_true] at heq
  simp only [List.append_assoc, List.append_cancel_left_eq] at heq
  obtain ⟨hversion, heq⟩ := selfDelimiting_putU32 _ _ trivial trivial _ _ heq
  obtain ⟨htype, heq⟩ := selfDelimiting_putString _ _ h.type h'.type _ _ heq
  obtain ⟨hfrom, heq⟩ := selfDelimiting_putString _ _ h.fromId h'.fromId _ _ heq
  obtain ⟨hpub, heq⟩ := selfDelimiting_putString _ _ h.pubKey h'.pubKey _ _ heq
  obtain ⟨hnonce, heq⟩ := selfDelimiting_putU64 _ _ trivial trivial _ _ heq
  obtain ⟨hfee, heq⟩ := selfDelimiting_putI64 _ _ trivial trivial _ _ heq
  obtain ⟨hgas, heq⟩ := selfDelimiting_putString _ _ h.gasAsset h'.gasAsset _ _ heq
  rw [← List.append_assoc, ← List.append_assoc (putU32 (UInt32.ofNat t'.outputs.length))] at heq
  obtain ⟨houts, heq⟩ := hlist _ _ h.outputs h'.outputs _ _ heq
  obtain ⟨hcl, heq⟩ := hclaim _ _ h.claim h'.claim _ _ heq
  obtain ⟨hsig, heq⟩ := selfDelimiting_putString _ _ h.sigHex h'.sigHex _ _ heq
  refine ⟨?_, heq⟩
  unfold withoutMemo
  cases t
  cases t'
  simp_all

/-- Equal bytes in either mode mean agreement in every field that the mode writes, and no encoding
is a proper prefix of another one of the same mode. -/
theorem canonicalTxBytes_unambiguous (t₁ t₂ : Tx) (h₁ : t₁.Short) (h₂ : t₂.Short) :
    (t₁.canonicalTxBytes false = t₂.canonicalTxBytes false ↔
      t₁.withoutSigs.withoutMemo = t₂.withoutSigs.withoutMemo) ∧
    (t₁.canonicalTxBytes true = t₂.canonicalTxBytes true ↔ t₁.withoutMemo = t₂.withoutMemo) ∧
    ∀ includeSigs, t₁.canonicalTxBytes includeSigs <+: t₂.canonicalTxBytes includeSigs →
      t₁.canonicalTxBytes includeSigs = t₂.canonicalTxBytes includeSigs := by
  -- both modes are the encoding with signatures, of the transaction or of its unsigned copy
  have hiff : ∀ t t' : Tx, t.Short → t'.Short →
      (t.canonicalTxBytes true = t'.canonicalTxBytes true ↔ t.withoutMemo = t'.withoutMemo) := by
    intro t t' h h'
    constructor
    · intro heq
      exact (parse_canonicalTxBytes (r := []) (s := []) h h' (by rw [heq])).1
    · intro heq
      rw [← canonicalTxBytes_withoutMemo t, heq, canonicalTxBytes_withoutMemo]
  have hpre : ∀ t t' : Tx, t.Short → t'.Short →
      t.canonicalTxBytes true <+: t'.canonicalTxBytes true →
      t.canonicalTxBytes true = t'.canonicalTxBytes true := by
    rintro t t' h h' ⟨r, hr⟩
    obtain ⟨heq, -⟩ := parse_canonicalTxBytes (s := []) h h' (hr.trans (List.append_nil _).symm)
    exact (hiff t t' h h').mpr heq
  refine ⟨?_, hiff t₁ t₂ h₁ h₂, ?_⟩
  · rw [canonicalTxBytes_false, canonicalTxBytes_false]
    exact hiff _ _ h₁.withoutSigs h₂.withoutSigs
  · intro includeSigs
    cases includeSigs with
    | true => exact hpre t₁ t₂ h₁ h₂
    | false =>
        rw [canonicalTxBytes_false, canonicalTxBytes_false]
        exact hpre _ _ h₁.withoutSigs h₂.withoutSigs

end Tx

namespace Sample

/-- A payment with one output, with or without a signature. -/
def payment (sig : String) : Tx :=
  ⟨"a", "a", sig, "transfer", none, 1, 1, 0, "RSV", [⟨5, "RSV", "b", "", "", "", "", 0⟩], "rent"⟩

theorem short_payment (sig : String) (h : ShortString sig) : (payment sig).Short where
  type := (by decide : ShortString "transfer")
  fromId := (by decide : ShortString "a")
  pubKey := (by decide : ShortString "a")
  gasAsset := (by decide : ShortString "RSV")
  outputs := by
    refine ⟨(by decide : 1 < 2 ^ 32), fun o ho => ?_⟩
    rw [List.mem_singleton.mp ho]
    exact ⟨by decide, by decide, by decide, by decide, by decide, by decide⟩
  claim := by
    intro c hc
    cases hc
  sigHex := h

end Sample

namespace Tx

open Sample

/-- A signature changes the encoding with signatures and not the one without. -/
theorem canonicalTxBytes_payment :
    (payment "").canonicalTxBytes false = (payment "00").canonicalTxBytes false ∧
    (payment "").canonicalTxBytes true ≠ (payment "00").canonicalTxBytes true := by
  have h := canonicalTxBytes_unambiguous (payment "") (payment "00")
    (short_payment _ (by decide)) (short_payment _ (by decide))
  refine ⟨h.1.mpr rfl, fun heq => ?_⟩
  have hsig : (payment "").withoutMemo.sigHex = (payment "00").withoutMemo.sigHex :=
    congrArg Tx.sigHex (h.2.1.mp heq)
  exact absurd hsig (by decide)

end Tx

end ReserveOS
