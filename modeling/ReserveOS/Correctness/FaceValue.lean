import ReserveOS.Chain.Genesis
import ReserveOS.State.Ledger

/-!
# Balances of the genesis file

The balances of the genesis file are texts. `Genesis.Validate` refuses the empty one and no other,
and `parseInt64` reads every text: it skips what is not a digit and wraps where the digits exceed
`int64` (`parseInt64_eq`). The two together credit a balance at face value exactly when it is a
decimal numeral below `2 ^ 63` (`creditedAtFace_iff`).
-/

namespace ReserveOS

/-- The text is a decimal numeral, and `v` is the number it denotes. -/
def Denotes (b : String) (v : ℕ) : Prop :=
  b ≠ "" ∧ (∀ c ∈ b.toList, c.isDigit) ∧ v = Nat.ofDigitChars 10 b.toList 0

/-- Every accepted genesis file credits a balance with this text at face value: the text denotes a
number within `int64`, and `parseInt64` yields that number. -/
def CreditedAtFace (b : String) : Prop :=
  ∀ g : GenesisFile, g.validate = .ok () → ∀ a ∈ g.allocations, a.balance = b →
    ∃ v : ℕ, Denotes a.balance v ∧ v < 2 ^ 63 ∧ (parseInt64 a.balance).toInt = v

/-! ### The parser -/

theorem isDigit_iff (c : Char) : c.isDigit ↔ ¬ (c < '0' ∨ '9' < c) := by
  simp [Char.isDigit, Char.lt_def, UInt32.not_lt, UInt32.le_iff_toNat_le]

/-- The loop of the parser reads the digits, modulo `2 ^ 64`, and skips everything else. -/
theorem foldl_parseInt64 (cs : List Char) (v : ℕ) :
    cs.foldl (fun (n : Int64) c =>
        if c < '0' ∨ '9' < c then n else n * 10 + Int64.ofNat (c.toNat - 48)) (Int64.ofNat v) =
      Int64.ofNat (Nat.ofDigitChars 10 (cs.filter Char.isDigit) v) := by
  induction cs generalizing v with
  | nil => rfl
  | cons c cs ih =>
      rw [List.foldl_cons]
      by_cases hc : c.isDigit
      · -- one more digit of the numeral, modulo `2 ^ 64`
        have hstep : Int64.ofNat v * 10 + Int64.ofNat (c.toNat - 48) =
            Int64.ofNat (10 * v + (c.toNat - '0'.toNat)) := by
          rw [Int64.ofNat_add, Nat.mul_comm, Int64.ofNat_mul]
          rfl
        rw [if_neg ((isDigit_iff c).mp hc), hstep, ih, List.filter_cons_of_pos hc,
          Nat.ofDigitChars_cons]
      · have hskip : c < '0' ∨ '9' < c := by
          by_contra hnot
          exact hc ((isDigit_iff c).mpr hnot)
        rw [if_pos hskip, ih, List.filter_cons_of_neg hc]

/-- `parseInt64` reads the digits of the text as one numeral, and wraps as `int64` does. -/
theorem parseInt64_eq (b : String) :
    parseInt64 b = Int64.ofNat (Nat.ofDigitChars 10 (b.toList.filter Char.isDigit) 0) :=
  foldl_parseInt64 b.toList 0

/-- A numeral within `int64` is read as the number it denotes. -/
theorem toInt_parseInt64 {b : String} {v : ℕ} (h : Denotes b v) (hv : v < 2 ^ 63) :
    (parseInt64 b).toInt = v := by
  obtain ⟨-, hdigits, rfl⟩ := h
  rw [parseInt64_eq, List.filter_eq_self.mpr hdigits, Int64.toInt_ofNat_of_lt hv]

/-! ### The check -/

/-- No validated allocation has an empty balance. -/
theorem balance_ne_of_validateAllocations {allocs : List Allocation} {i : ℕ}
    (h : validateAllocations i allocs = .ok ()) : ∀ a ∈ allocs, a.balance ≠ "" := by
  induction allocs generalizing i with
  | nil =>
      intro a ha
      exact absurd ha List.not_mem_nil
  | cons a allocs ih =>
      rw [validateAllocations] at h
      obtain ⟨-, h⟩ := Res.ite_error_eq_ok.mp h
      obtain ⟨hbalance, h⟩ := Res.ite_error_eq_ok.mp h
      exact List.forall_mem_cons.mpr ⟨hbalance, ih h⟩

/-- A validated genesis file has no empty balance. -/
theorem GenesisFile.balance_ne_of_validate {g : GenesisFile} (h : g.validate = .ok ()) :
    ∀ a ∈ g.allocations, a.balance ≠ "" := by
  rw [validate] at h
  -- the four checks of the head are passed, and the allocations are checked
  obtain ⟨-, h⟩ := Res.ite_error_eq_ok.mp h
  obtain ⟨-, h⟩ := Res.ite_error_eq_ok.mp h
  obtain ⟨-, h⟩ := Res.ite_error_eq_ok.mp h
  obtain ⟨-, h⟩ := Res.ite_error_eq_ok.mp h
  obtain ⟨hallocs, -⟩ := Res.bind_unit_eq_ok.mp h
  exact balance_ne_of_validateAllocations hallocs

/-- A genesis file with one allocation. -/
def Sample.genesisFile (balance : String) : GenesisFile where
  chainID := "sample"
  genesisTimeUnix := 1
  protocolVersion := 1
  powLeadingZeroBits := 8
  allocations := [⟨"alice", balance⟩]
  finality := none

theorem validate_genesisFile {b : String} (hb : b ≠ "") :
    (Sample.genesisFile b).validate = .ok () := by
  have hallocs : validateAllocations 0 (Sample.genesisFile b).allocations = .ok () := by
    show validateAllocations 0 [⟨"alice", b⟩] = .ok ()
    have halice : "alice" ≠ "" := by decide
    rw [validateAllocations, if_neg halice, if_neg hb, validateAllocations]
  show (validateAllocations 0 (Sample.genesisFile b).allocations).bind _ = .ok ()
  rw [hallocs]
  rfl

/-- A text that is not empty passes the check, so it is at face value only if it is a numeral. -/
theorem CreditedAtFace.denotes {b : String} (h : CreditedAtFace b) (hb : b ≠ "") :
    ∃ v < 2 ^ 63, Denotes b v := by
  obtain ⟨v, hden, hv, -⟩ := h (Sample.genesisFile b) (validate_genesisFile hb) ⟨"alice", b⟩
    List.mem_cons_self rfl
  exact ⟨v, hv, hden⟩

/-- A text is credited at face value in every accepted genesis file if and only if it is empty, so
that no accepted file has it, or it is a decimal numeral below `2 ^ 63`. -/
theorem creditedAtFace_iff (b : String) :
    CreditedAtFace b ↔ b = "" ∨ ∃ v < 2 ^ 63, Denotes b v := by
  constructor
  · intro h
    by_cases hb : b = ""
    · exact .inl hb
    · exact .inr (h.denotes hb)
  · rintro (hb | ⟨v, hv, hden⟩) g hg a ha rfl
    · exact absurd hb (g.balance_ne_of_validate hg a ha)
    · exact ⟨v, hden, hv, toInt_parseInt64 hden hv⟩

/-- A negative number loses its sign, a fraction its point, and a number beyond `int64` wraps; all
three are accepted. -/
theorem not_creditedAtFace_texts :
    ((Sample.genesisFile "-5").validate = .ok () ∧ parseInt64 "-5" = 5 ∧ ¬ CreditedAtFace "-5") ∧
      ((Sample.genesisFile "1.5").validate = .ok () ∧ parseInt64 "1.5" = 15 ∧
        ¬ CreditedAtFace "1.5") ∧
      (Sample.genesisFile "9223372036854775808").validate = .ok () ∧
        parseInt64 "9223372036854775808" = -9223372036854775808 ∧
        ¬ CreditedAtFace "9223372036854775808" := by
  refine ⟨⟨by decide, by decide, fun h => ?_⟩, ⟨by decide, by decide, fun h => ?_⟩, by decide,
    by decide, fun h => ?_⟩
  · obtain ⟨v, -, -, hdigits, -⟩ := h.denotes (by decide)
    exact absurd (hdigits '-' (by decide)) (by decide)
  · obtain ⟨v, -, -, hdigits, -⟩ := h.denotes (by decide)
    exact absurd (hdigits '.' (by decide)) (by decide)
  · obtain ⟨v, hv, -, -, rfl⟩ := h.denotes (by decide)
    exact absurd hv (by decide)

end ReserveOS
