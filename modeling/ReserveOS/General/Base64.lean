import Mathlib.Algebra.Group.Nat.Defs
import Mathlib.Data.List.Basic

/-!
# Base64

The standard alphabet with padding. Three bytes are written as four digits of six bits; a last group
of one or two bytes is filled up with `=`. Decoding skips line breaks, insists on the padding, and
does not look at the unused bits of the last digit.

* `decode_encode`: decoding gives back what was encoded.
-/

namespace Base64

/-- The digit for six bits. -/
def digit (v : ℕ) : Char :=
  if v < 26 then Char.ofNat (65 + v)
  else if v < 52 then Char.ofNat (71 + v)
  else if v < 62 then Char.ofNat (v - 4)
  else if v = 62 then '+'
  else '/'

/-- The six bits of a digit, `none` for a character outside of the alphabet. -/
def value (c : Char) : Option ℕ :=
  if 'A' ≤ c ∧ c ≤ 'Z' then some (c.toNat - 65)
  else if 'a' ≤ c ∧ c ≤ 'z' then some (c.toNat - 71)
  else if '0' ≤ c ∧ c ≤ '9' then some (c.toNat + 4)
  else if c = '+' then some 62
  else if c = '/' then some 63
  else none

/-- The digit at place `i` of a group of 24 bits, the highest first. -/
def digitAt (v i : ℕ) : Char := digit (v / 64 ^ (3 - i) % 64)

/-- The byte at place `i` of a group of 24 bits, the highest first. -/
def byteAt (v i : ℕ) : UInt8 := UInt8.ofNat (v / 256 ^ (2 - i))

/-- `EncodeToString`. -/
def encode : List UInt8 → List Char
  | [] => []
  | [a] =>
      let v := a.toNat * 65536
      [digitAt v 0, digitAt v 1, '=', '=']
  | [a, b] =>
      let v := a.toNat * 65536 + b.toNat * 256
      [digitAt v 0, digitAt v 1, digitAt v 2, '=']
  | a :: b :: c :: rest =>
      let v := a.toNat * 65536 + b.toNat * 256 + c.toNat
      digitAt v 0 :: digitAt v 1 :: digitAt v 2 :: digitAt v 3 :: encode rest

/-- The groups of four digits, without line breaks. Padding ends the input. -/
def decodeGroups : List Char → Option (List UInt8)
  | [] => some []
  | a :: b :: c :: d :: rest =>
      match value a, value b, value c, value d with
      | some x, some y, some z, some w =>
          let v := x * 262144 + y * 4096 + z * 64 + w
          (decodeGroups rest).map fun bs => byteAt v 0 :: byteAt v 1 :: byteAt v 2 :: bs
      | some x, some y, some z, none =>
          let v := x * 262144 + y * 4096 + z * 64
          if d = '=' ∧ rest = [] then some [byteAt v 0, byteAt v 1] else none
      | some x, some y, none, none =>
          let v := x * 262144 + y * 4096
          if c = '=' ∧ d = '=' ∧ rest = [] then some [byteAt v 0] else none
      | _, _, _, _ => none
  | _ => none

/-- `DecodeString`. -/
def decode (cs : List Char) : Option (List UInt8) :=
  decodeGroups (cs.filter fun c => c ≠ '\r' ∧ c ≠ '\n')

/-! ### The digits -/

theorem value_digit : ∀ v < 64, value (digit v) = some v := by decide

theorem digit_not_break : ∀ v < 64, digit v ≠ '\r' ∧ digit v ≠ '\n' := by decide

theorem value_pad : value '=' = none := by decide

@[simp] theorem value_digitAt (v i : ℕ) : value (digitAt v i) = some (v / 64 ^ (3 - i) % 64) :=
  value_digit _ (Nat.mod_lt _ (by omega))

theorem digitAt_not_break (v i : ℕ) : digitAt v i ≠ '\r' ∧ digitAt v i ≠ '\n' :=
  digit_not_break _ (Nat.mod_lt _ (by omega))

/-- The bytes of a group of 24 bits. -/
theorem byteAt_group {v : ℕ} (a b c : UInt8)
    (hv : v = a.toNat * 65536 + b.toNat * 256 + c.toNat) :
    byteAt v 0 = a ∧ byteAt v 1 = b ∧ byteAt v 2 = c := by
  have ha := a.toNat_lt
  have hb := b.toNat_lt
  have hc := c.toNat_lt
  refine ⟨UInt8.toNat.inj ?_, UInt8.toNat.inj ?_, UInt8.toNat.inj ?_⟩
  all_goals
    rw [byteAt, UInt8.toNat_ofNat', hv]
    omega

/-- Encoding writes no line break. -/
theorem filter_encode (bs : List UInt8) :
    (encode bs).filter (fun c => c ≠ '\r' ∧ c ≠ '\n') = encode bs := by
  rw [List.filter_eq_self]
  fun_induction encode bs with
  | case1 => simp
  | case2 a v => simp [digitAt_not_break]
  | case3 a b v => simp [digitAt_not_break]
  | case4 a b c rest v ih => simpa [digitAt_not_break] using ih

/-- Decoding undoes encoding, group by group. -/
theorem decodeGroups_encode (bs : List UInt8) : decodeGroups (encode bs) = some bs := by
  fun_induction encode bs with
  | case1 => rfl
  | case2 a v =>
      have hv : v / 64 ^ (3 - 0) % 64 * 262144 + v / 64 ^ (3 - 1) % 64 * 4096 = v := by
        have ha := a.toNat_lt
        omega
      obtain ⟨h₀, -⟩ := byteAt_group (v := v) a 0 0 (by simp [v])
      rw [decodeGroups]
      simp only [value_digitAt, value_pad, hv, h₀]
      rfl
  | case3 a b v =>
      have hv : v / 64 ^ (3 - 0) % 64 * 262144 + v / 64 ^ (3 - 1) % 64 * 4096 +
          v / 64 ^ (3 - 2) % 64 * 64 = v := by
        have ha := a.toNat_lt
        have hb := b.toNat_lt
        omega
      obtain ⟨h₀, h₁, -⟩ := byteAt_group (v := v) a b 0 (by simp [v])
      rw [decodeGroups]
      simp only [value_digitAt, value_pad, hv, h₀, h₁]
      rfl
  | case4 a b c rest v ih =>
      -- the four digits make up the group again
      have hv : v / 64 ^ (3 - 0) % 64 * 262144 + v / 64 ^ (3 - 1) % 64 * 4096 +
          v / 64 ^ (3 - 2) % 64 * 64 + v / 64 ^ (3 - 3) % 64 = v := by
        have ha := a.toNat_lt
        have hb := b.toNat_lt
        have hc := c.toNat_lt
        omega
      obtain ⟨h₀, h₁, h₂⟩ := byteAt_group (v := v) a b c rfl
      rw [decodeGroups]
      simp only [value_digitAt, hv, h₀, h₁, h₂, ih, Option.map_some]

/-- Decoding gives back what was encoded. -/
theorem decode_encode (bs : List UInt8) : decode (encode bs) = some bs := by
  rw [decode, filter_encode, decodeGroups_encode]

end Base64
