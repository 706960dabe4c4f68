import ReserveOS.Correctness.Admission
import ReserveOS.Correctness.Otap
import ReserveOS.Wallet.AutoClaim

/-!
# The wallet's claim at the node

For every output that was made for its keys the wallet builds and signs a claim
(`autoClaim_outputOf`). The node refuses each of these claims (`autoClaim_refused`): the claim has
no outputs, which the handler rejects before it looks at the type of the transaction; and where the
bucket holds exactly the amount of the output, the claim asks for all of it and for the fee on
top.
-/

namespace ReserveOS

/-- A transaction without outputs is refused, and nothing changes. -/
theorem Node.txSubmit_of_no_outputs {F : Type} (n : Node) (fl : FeeFloats F) (senderCount : ℤ)
    (now : Int64) (s : DB) (pool : Mempool F) {tx : Tx} (houts : tx.outputs = []) :
    (n.txSubmit fl senderCount now s pool ⟨"POST", some tx⟩).1.status ≠ 200 ∧
      (n.txSubmit fl senderCount now s pool ⟨"POST", some tx⟩).2 = (s, pool) := by
  have hempty : n.admissionChecks s.ledger tx = .error (badRequest "no_outputs") := if_pos houts
  unfold txSubmit
  dsimp only
  rw [hempty]
  split
  · simp
  split
  · simp
  · simp [badRequest]

namespace Wallet

variable {w : Wallet} {prim : Primitives} {lib : CryptoLib} {slotOf : List UInt8 → Option Int64}
  {nonce : Option UInt64} {buf : Option (Vector UInt8 64)} {o : TxOut} {tx : Tx}

/-- What is submitted is a claim of the whole output, without outputs of its own. -/
theorem autoClaim_eq_some (h : w.autoClaim prim lib slotOf nonce buf o = some tx) :
    tx.outputs = [] ∧ tx.type = "otap_claim" ∧ tx.fee = claimFee ∧
      ∃ cs, tx.otapClaim = some ⟨o.P, o.R, o.tag, w.acctPubHex, o.amount, cs⟩ := by
  unfold autoClaim at h
  -- each check either gives the output up or goes on
  split at h
  · cases h
  split at h
  · cases h
  split at h
  · cases h
  split at h
  · cases h
  split at h
  · cases h
  split at h
  · cases h
  obtain ⟨cur, -, h⟩ := Option.bind_eq_some_iff.mp h
  -- past them the claim is built
  unfold claimOutput at h
  split at h
  · split at h
    · cases h
    split at h
    · cases h
    · rw [← Option.some.inj h]
      exact ⟨rfl, rfl, rfl, _, rfl⟩
  · cases h

/-- An empty memo does not decrypt. -/
theorem encMemo_ne_empty {secret plain aad : List UInt8} {enc : String}
    (hdec : lib.decryptMemo secret enc aad = .ok plain) : enc ≠ "" := by
  rintro rfl
  have hdecode : Base64.decode [] = some [] := by decide
  simp [CryptoLib.decryptMemo, hdecode, bind, Except.bind] at hdec

/-- Every output that was made for the keys of the wallet is claimed, if its memo names a slot and
the node reports the nonce of the account. -/
theorem autoClaim_outputOf {s v r : Scalar} {plain : List UInt8} {memoNonce : Vector UInt8 12}
    {slot : Int64} {cur : UInt64} (hreg : w.registry = (lib.keysOf s v).1)
    (hpriv : w.priv = (lib.keysOf s v).2)
    (hout : (⟨o.P, o.R, o.tag⟩ : OTAPOutput) = lib.outputOf w.chainID otapContext s v r)
    (hmemo : lib.encryptMemo (lib.secretOf s r) plain (stringBytes (o.P ++ o.R))
      (some memoNonce) = .ok o.encMemo)
    (hslot : slotOf plain = some slot) (hpos : 0 < slot) :
    ∃ tx, w.autoClaim prim lib slotOf (some cur) buf o = some tx := by
  have hdetect := lib.detectSecret_outputOf w.chainID otapContext s v r
  rw [← hreg, ← hpriv, ← hout] at hdetect
  obtain ⟨enc, henc, hdec⟩ := lib.decryptMemo_encryptMemo (lib.secretOf s r) plain
    (stringBytes (o.P ++ o.R)) memoNonce
  obtain rfl : enc = o.encMemo := Except.ok.inj (henc.symm.trans hmemo)
  have hP : lib.decodePoint o.P = .ok (lib.curve.scalarBaseMult
      (v + lib.tweakOf w.chainID otapContext s r)) := by
    rw [show o.P = (lib.outputOf w.chainID otapContext s v r).P from congrArg OTAPOutput.P hout]
    exact CryptoLib.decodePoint_hexEncode _
  have hR : lib.decodePoint o.R = .ok (lib.curve.scalarBaseMult r) := by
    rw [show o.R = (lib.outputOf w.chainID otapContext s v r).R from congrArg OTAPOutput.R hout]
    exact CryptoLib.decodePoint_hexEncode _
  have hkey : oneTimePriv w.priv.spendPriv (lib.tweakOf w.chainID otapContext s r) =
      .ok (v + lib.tweakOf w.chainID otapContext s r) := by
    rw [hpriv]
    exact oneTimePriv_hexEncode v _
  have hmemo' : o.encMemo ≠ "" := encMemo_ne_empty hdec
  -- every step of the wallet succeeds: it finds the output, reads the memo and derives the key
  unfold autoClaim
  rw [if_neg (not_or.mpr ⟨CryptoLib.ne_empty_of_decodePoint hP,
    CryptoLib.ne_empty_of_decodePoint hR⟩), CryptoLib.detect, hdetect]
  simp only [Except.map, not_true_eq_false, false_or, if_neg hmemo', hdec, hslot,
    if_neg (Int64.not_le.mpr hpos), Option.bind_some]
  unfold claimOutput
  rw [CryptoLib.detectWithK, hdetect]
  simp only [Except.map, hkey, hP]
  exact ⟨_, rfl⟩

/-- A claim of the whole bucket that pays a fee from it is refused, whatever outputs it has and
whatever the account holds. -/
theorem accountChecks_of_whole_bucket {n : Node} {l : Ledger} {c : OTAPClaim}
    (htype : tx.type = "otap_claim") (hclaim : tx.otapClaim = some c) (hfee : tx.fee = claimFee)
    (hbucket : l.getBalance (otapBucket c.P) = c.amount) (hfit : c.amount.toInt + 1000 < 2 ^ 63) :
    n.accountChecks l tx ≠ .ok () := by
  intro hok
  obtain ⟨-, c', hc', hle⟩ :=
    Node.checkClaim_of_claimChecks ((Node.accountChecks_eq_ok_iff.mp hok).2.2.2.2.2 htype)
  obtain rfl := Option.some.inj (hclaim.symm.trans hc')
  -- the bucket would have to hold the fee as well
  have hrange := c.amount.le_toInt
  have hsum : (c.amount + claimFee).toInt = c.amount.toInt + 1000 := by
    rw [Int64.toInt_add, show claimFee.toInt = 1000 from rfl, Int.bmod_eq_of_le] <;> omega
  rw [hbucket, hfee, Int64.le_iff_toInt_le, hsum] at hle
  omega

/-- The node never accepts a claim that the wallet builds: it refuses every transaction without
outputs, and changes nothing. Without that check, and with any outputs, it would refuse a claim of
all that a bucket holds, since the fee is to be paid from the bucket as well. -/
theorem autoClaim_refused {F : Type} (n : Node) (fl : FeeFloats F) (senderCount : ℤ) (now : Int64)
    (s : DB) (pool : Mempool F) (w : Wallet) (prim : Primitives) (lib : CryptoLib)
    (slotOf : List UInt8 → Option Int64) (nonce : Option UInt64)
    (buf : Option (Vector UInt8 64)) (o : TxOut) (tx : Tx)
    (h : w.autoClaim prim lib slotOf nonce buf o = some tx) :
    (n.txSubmit fl senderCount now s pool ⟨"POST", some tx⟩).1.status ≠ 200 ∧
    (n.txSubmit fl senderCount now s pool ⟨"POST", some tx⟩).2 = (s, pool) ∧
    (s.ledger.getBalance (otapBucket o.P) = o.amount → o.amount.toInt + 1000 < 2 ^ 63 →
      ∀ outs, n.accountChecks s.ledger { tx with outputs := outs } ≠ .ok ()) := by
  obtain ⟨houts, htype, hfee, cs, hclaim⟩ := autoClaim_eq_some h
  obtain ⟨hstatus, hsame⟩ := n.txSubmit_of_no_outputs fl senderCount now s pool houts
  refine ⟨hstatus, hsame, fun hbucket hfit outs => ?_⟩
  exact accountChecks_of_whole_bucket htype hclaim hfee hbucket hfit

end Wallet

namespace Sample

/-- Alice's wallet, with one-time keys. -/
def purse : Wallet where
  chainID := "sample"
  registry := ((default : CryptoLib).keysOf 1 1).1
  priv := ((default : CryptoLib).keysOf 1 1).2
  acctPubHex := alice
  acctPrivHex := String.ofList (List.replicate 128 '0')

/-- The one-time destination of an output for this wallet. -/
def destination : OTAPOutput := (default : CryptoLib).outputOf "sample" otapContext 1 1 1

/-- The output, with a memo. -/
def receipt : TxOut where
  amount := 5000
  asset := "USDR"
  address := ""
  P := destination.P
  R := destination.R
  tag := destination.tag
  encMemo := dropError ((default : CryptoLib).encryptMemo ((default : CryptoLib).secretOf 1 1) []
    (stringBytes (destination.P ++ destination.R)) (some default))
  policyBits := 0

/-- Its bucket holds what was paid, and the wallet account has nothing. -/
def receiptDB : DB :=
  { DB.fresh ∅ with ledger := Ledger.empty.setBalance (otapBucket receipt.P) receipt.amount }

/-- The claim of the output. -/
def receiptClaim : Option Tx :=
  purse.autoClaim prim default (fun _ => some 1) (some (receiptDB.ledger.getNonce alice))
    (some default) receipt

theorem receiptClaim_some : ∃ tx, receiptClaim = some tx :=
  Wallet.autoClaim_outputOf rfl rfl rfl rfl rfl (by decide)

theorem bucket_receiptDB :
    receiptDB.ledger.getBalance (otapBucket receipt.P) = receipt.amount := by
  have hnonneg : ¬ receipt.amount < 0 := by
    change ¬ (5000 : Int64) < 0
    decide
  simp [receiptDB, Ledger.getBalance, Ledger.setBalance, hnonneg]

end Sample

namespace Wallet

open Sample

/-- The claim of the output is built, and refused. -/
theorem autoClaim_refused_receipt : ∃ tx, receiptClaim = some tx ∧
    (gateway.txSubmit floats 0 0 receiptDB (Mempool.new poolConfig)
      ⟨"POST", some tx⟩).1.status ≠ 200 := by
  obtain ⟨tx, htx⟩ := receiptClaim_some
  exact ⟨tx, htx, (autoClaim_refused gateway floats 0 0 receiptDB (Mempool.new poolConfig) purse
    prim default _ _ _ receipt tx htx).1⟩

/-- The bucket holds the amount of the output, which is more than the fee, the node has the default
fee policy, and it does not accept the claim. -/
theorem not_admitted_receipt : ∃ tx, receiptClaim = some tx ∧
    receiptDB.ledger.getBalance (otapBucket receipt.P) = receipt.amount ∧
    claimFee ≤ receipt.amount ∧ gateway.cfg.fees = ⟨"USDR", 100, 2, 10, .normal⟩ ∧
    (gateway.txSubmit floats 0 0 receiptDB (Mempool.new poolConfig)
      ⟨"POST", some tx⟩).1.status ≠ 200 := by
  obtain ⟨tx, htx⟩ := receiptClaim_some
  have hfee : claimFee ≤ receipt.amount := by
    change (1000 : Int64) ≤ 5000
    decide
  exact ⟨tx, htx, bucket_receiptDB, hfee, rfl,
    (gateway.txSubmit_of_no_outputs floats 0 0 receiptDB _ (autoClaim_eq_some htx).1).1⟩

end Wallet

end ReserveOS
