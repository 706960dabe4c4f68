import Mathlib.Data.Nat.Bitwise
import ReserveOS.Consensus.Pow
import ReserveOS.General.LeadingDigits

/-!
# Compact targets

A compact target is a byte of exponent and 23 bits of mantissa (`compactToBig_eq`), and `Work64`
reads the first eight bytes of a target, whatever its length (`toNat_topBytes`).

* `work64_antitone_iff`: `Work64` depends on which of 255 intervals the first three bytes of a
  target lie in, so that a larger target may have more work.
* `roundTrips_iff`: `BigToCompact` loses a byte of every target below `2 ^ 24`, and keeps the first
  two or three bytes of the others.
-/

namespace ReserveOS

open Radix

/-! ### Bytes of a target -/

/-- The length of a number in bytes is that of its digits to the base 256. -/
theorem byteLen_eq (t : ℕ) : byteLen t = (Nat.digits 256 t).length := by
  unfold byteLen
  split
  next h => simp [h]
  next h =>
    have hlog : Nat.log 256 t = t.log2 / 8 := by
      apply (Nat.log_eq_iff (Or.inr ⟨by decide, h⟩)).mpr
      have hlow := Nat.log2_self_le h
      have hhigh : t < 2 ^ (t.log2 + 1) := Nat.lt_log2_self
      rw [show (256 : ℕ) = 2 ^ 8 from rfl, ← pow_mul, ← pow_mul]
      constructor
      · exact (Nat.pow_le_pow_right (by decide) (by omega)).trans hlow
      · exact hhigh.trans_le (Nat.pow_le_pow_right (by decide) (by omega))
    rw [Nat.length_digits 256 t (by decide) h, hlog]

theorem lt_pow_byteLen (t : ℕ) : t < 256 ^ byteLen t := by
  rw [byteLen_eq]
  exact Nat.lt_base_pow_length_digits (by decide)

/-- One byte more. -/
theorem toNat_shift_or (acc : UInt64) (h : acc.toNat < 2 ^ 56) (x : UInt8) :
    (acc <<< 8 ||| x.toUInt64).toNat = acc.toNat * 256 + x.toNat := by
  have hx : x.toNat < 2 ^ 8 := x.toNat_lt
  rw [UInt64.toNat_or, UInt64.toNat_shiftLeft, UInt8.toNat_toUInt64,
    show (8 : UInt64).toNat % 64 = 8 from rfl, Nat.shiftLeft_eq, Nat.mod_eq_of_lt (by omega),
    Nat.mul_comm, ← Nat.two_pow_add_eq_or_of_lt hx]

/-- Up to eight bytes are read as the number they stand for. -/
theorem toNat_beUInt64 {b : List UInt8} (hb : b.length ≤ 8) :
    (beUInt64 b).toNat = (b.map UInt8.toNat).foldl (fun acc d => acc * 256 + d) 0 := by
  -- what has been read leaves room for the bytes to come
  have hread : ∀ (b : List UInt8) (acc : UInt64), (acc.toNat + 1) * 256 ^ b.length ≤ 2 ^ 64 →
      (b.foldl (fun (acc : UInt64) (x : UInt8) => acc <<< 8 ||| x.toUInt64) acc).toNat =
        (b.map UInt8.toNat).foldl (fun acc d => acc * 256 + d) acc.toNat := by
    intro b
    induction b with
    | nil => exact fun acc _ => rfl
    | cons x b ih =>
        intro acc hroom
        have hpos : 0 < 256 ^ b.length := Nat.pow_pos (by decide)
        rw [List.length_cons, pow_succ', ← mul_assoc] at hroom
        have hsmall : (acc.toNat + 1) * 256 ≤ 2 ^ 64 :=
          (Nat.le_mul_of_pos_right _ hpos).trans hroom
        have hx := x.toNat_lt
        have hnext := toNat_shift_or acc (by omega) x
        rw [List.foldl_cons, List.map_cons, List.foldl_cons, ← hnext]
        apply ih
        rw [hnext]
        exact (Nat.mul_le_mul_right _ (by omega)).trans hroom
  refine hread b 0 ?_
  have hpow : 256 ^ b.length ≤ 256 ^ 8 := Nat.pow_le_pow_right (by decide) hb
  simpa using hpow

/-- The first bytes of a target. -/
theorem toNat_take_bigBytes {t k : ℕ} (hk : k ≤ 8) (hlen : k ≤ byteLen t) :
    (beUInt64 ((bigBytes t).take k)).toNat = t / 256 ^ (byteLen t - k) := by
  have hbytes : ((bigBytes t).take k).map UInt8.toNat =
      (List.range k).map fun i => t / 256 ^ (byteLen t - 1 - i) % 256 := by
    unfold bigBytes
    rw [← List.map_take, List.take_range, Nat.min_eq_left hlen, List.map_map]
    refine List.map_congr_left fun i _ => ?_
    show (UInt8.ofNat (t >>> (8 * (byteLen t - 1 - i)))).toNat = _
    rw [UInt8.toNat_ofNat', Nat.shiftRight_eq_div_pow, pow_mul]
    rfl
  rw [toNat_beUInt64 ((List.length_take_le _ _).trans hk), hbytes,
    foldl_digits hlen (lt_pow_byteLen t)]

theorem toNat_bigBytes {t : ℕ} (h : byteLen t ≤ 8) : (beUInt64 (bigBytes t)).toNat = t := by
  have hall := toNat_take_bigBytes h le_rfl
  rwa [List.take_of_length_le (by simp [bigBytes]), Nat.sub_self, pow_zero, Nat.div_one] at hall

/-- What `Work64` reads of a target. -/
theorem toNat_topBytes (t : ℕ) : (topBytes t).toNat = leading 256 8 t := by
  have hlen : (bigBytes t).length = byteLen t := by simp [bigBytes]
  unfold topBytes
  by_cases hlong : 8 ≤ byteLen t
  · rw [List.take_append_of_le_length (by omega), toNat_take_bigBytes le_rfl hlong,
      leading_of_le_length (by decide) (by rwa [← byteLen_eq]), byteLen_eq]
  · -- the zeros behind a short target are read as well
    have hzeros : ∀ k acc, ((List.replicate k (0 : UInt8)).map UInt8.toNat).foldl
        (fun acc d => acc * 256 + d) acc = acc * 256 ^ k := by
      intro k
      induction k with
      | zero => simp
      | succ k ih =>
          intro acc
          rw [List.replicate_succ, List.map_cons, List.foldl_cons, ih, pow_succ']
          simp [mul_assoc]
    have hread := toNat_bigBytes (t := t) (by omega)
    rw [toNat_beUInt64 (by omega)] at hread
    rw [List.take_of_length_le (by simp; omega), toNat_beUInt64 (by simp; omega), List.map_append,
      List.foldl_append, hread, hzeros, leading_of_length_le (by decide)
      (by rw [← byteLen_eq]; omega), byteLen_eq]

/-! ### Exponent and mantissa -/

/-- The exponent of a compact target. -/
def compactExponent (bits : UInt32) : ℕ := bits.toNat / 2 ^ 24

/-- The mantissa of a compact target. The bit between the two is not read. -/
def compactMantissa (bits : UInt32) : ℕ := bits.toNat % 2 ^ 23

theorem compactExponent_lt (bits : UInt32) : compactExponent bits < 256 := by
  have := bits.toNat_lt
  unfold compactExponent
  omega

theorem compactMantissa_lt (bits : UInt32) : compactMantissa bits < 2 ^ 23 :=
  Nat.mod_lt _ (by decide)

/-- The number that an exponent and a mantissa stand for. Above 34 the exponent wraps, for the shift
is a `uint8`. -/
def compactValue (e m : ℕ) : ℕ :=
  if e ≤ 3 then m / 256 ^ (3 - e) else m * 256 ^ ((e - 3) % 32)

/-- The value of a compact target, by exponent and mantissa. -/
theorem compactToBig_eq (bits : UInt32) :
    compactToBig bits = compactValue (compactExponent bits) (compactMantissa bits) := by
  have hlt := compactExponent_lt bits
  have hexp : ((bits >>> 24).toUInt8).toNat = compactExponent bits := by
    rw [UInt32.toNat_toUInt8, UInt32.toNat_shiftRight,
      show (24 : UInt32).toNat % 32 = 24 from rfl, Nat.shiftRight_eq_div_pow]
    exact Nat.mod_eq_of_lt hlt
  have hman : (bits &&& 0x007fffff).toNat = compactMantissa bits := by
    rw [UInt32.toNat_and, show (0x007fffff : UInt32).toNat = 2 ^ 23 - 1 from rfl,
      Nat.and_two_pow_sub_one_eq_mod]
    rfl
  -- the shift is computed in `uint8`, where it wraps for large exponents only
  unfold compactToBig compactValue
  dsimp only
  rw [hman]
  generalize (bits >>> 24).toUInt8 = e at hexp
  by_cases he : e ≤ 3
  · have hle : compactExponent bits ≤ 3 := hexp ▸ UInt8.le_iff_toNat_le.mp he
    have hshift : (8 * (3 - e)).toNat = 8 * (3 - compactExponent bits) := by
      rw [UInt8.toNat_mul, UInt8.toNat_sub_of_le _ _ he, hexp]
      show 8 * (3 - compactExponent bits) % 2 ^ 8 = _
      omega
    rw [if_pos he, if_pos hle, hshift, Nat.shiftRight_eq_div_pow, pow_mul]
    rfl
  · have hlt3 : 3 < e := UInt8.not_le.mp he
    have hgt : ¬ compactExponent bits ≤ 3 := fun h =>
      he (UInt8.le_iff_toNat_le.mpr (hexp.trans_le h))
    have hshift : (8 * (e - 3)).toNat = 8 * ((compactExponent bits - 3) % 32) := by
      rw [UInt8.toNat_mul, UInt8.toNat_sub_of_le _ _ (UInt8.le_of_lt hlt3), hexp]
      show 8 * (compactExponent bits - 3) % 2 ^ 8 = _
      omega
    rw [if_neg he, if_neg hgt, hshift, Nat.shiftLeft_eq, pow_mul]
    rfl

/-- A compact target has at most three bytes that are not zero. -/
theorem exists_significand (bits : UInt32) :
    ∃ c < 2 ^ 24, ∃ s, compactToBig bits = c * 256 ^ s := by
  have hm := compactMantissa_lt bits
  rw [compactToBig_eq, compactValue]
  split
  · have hle := Nat.div_le_self (compactMantissa bits) (256 ^ (3 - compactExponent bits))
    exact ⟨_, hle.trans_lt (hm.trans (by decide)), 0, (mul_one _).symm⟩
  · exact ⟨_, hm.trans (by decide), _, rfl⟩

/-! ### Work -/

/-- The first three bytes of a compact target, which has no others. -/
def compactLead (bits : UInt32) : ℕ := leading 256 3 (compactToBig bits)

theorem compactLead_lt (bits : UInt32) : compactLead bits < 2 ^ 24 :=
  leading_lt (b := 256) (by decide) 3 _

theorem le_compactLead {bits : UInt32} (h : 0 < compactToBig bits) : 2 ^ 16 ≤ compactLead bits :=
  pow_le_leading (b := 256) (by decide) 2 h.ne'

/-- The first eight bytes of a compact target are its first three and zeros. -/
theorem toNat_topBytes_compact {bits : UInt32} (h : 0 < compactToBig bits) :
    (topBytes (compactToBig bits)).toNat = compactLead bits * 2 ^ 40 := by
  obtain ⟨c, hc, s, heq⟩ := exists_significand bits
  have hne : c ≠ 0 := by
    rintro rfl
    rw [heq, zero_mul] at h
    exact lt_irrefl 0 h
  have hlen : (Nat.digits 256 c).length ≤ 3 := by
    have hlow := Nat.base_pow_length_digits_le 256 c (by decide) hne
    by_contra hlong
    have hpow : 256 ^ 4 ≤ 256 ^ (Nat.digits 256 c).length :=
      Nat.pow_le_pow_right (by decide) (by omega)
    omega
  rw [compactLead, toNat_topBytes, heq, leading_mul_pow (by decide) _ _ hne,
    leading_mul_pow (by decide) _ _ hne]
  exact leading_add_of_length_le (by decide) hlen 5

/-- The work of a target is determined by its first three bytes. -/
theorem toNat_work64 {bits : UInt32} (h : 0 < compactToBig bits) :
    (work64 bits).toNat = (2 ^ 24 - 1) / compactLead bits := by
  have hlow := le_compactLead h
  have hhigh := compactLead_lt bits
  have htop := toNat_topBytes_compact h
  have hne : topBytes (compactToBig bits) ≠ 0 := fun h0 => by
    rw [h0] at htop
    have : (0 : UInt64).toNat = 0 := rfl
    omega
  have hsucc : (topBytes (compactToBig bits) + 1).toNat = compactLead bits * 2 ^ 40 + 1 := by
    rw [toNat_succ_of_lt (by omega), htop]
  unfold work64
  dsimp only
  rw [if_neg h.ne', if_neg hne, UInt64.toNat_div, hsucc]
  show (2 ^ 64 - 1) / _ = _
  -- the quotient of the first three bytes, for the other five are zero
  generalize compactLead bits = a at hlow hhigh
  have hdiv : (2 ^ 24 - 1) / a * a ≤ 2 ^ 24 - 1 := Nat.div_mul_le_self _ _
  have hlt : 2 ^ 24 - 1 < ((2 ^ 24 - 1) / a + 1) * a := by
    rw [Nat.mul_comm]
    exact Nat.lt_mul_div_succ _ (by omega)
  have hq : (2 ^ 24 - 1) / a ≤ 2 ^ 8 := by
    apply Nat.div_le_of_le_mul
    omega
  generalize (2 ^ 24 - 1) / a = q at hdiv hlt hq
  apply Nat.div_eq_of_lt_le
  · have hexp : q * (a * 2 ^ 40 + 1) = q * a * 2 ^ 40 + q := by ring
    omega
  · have hexp : (q + 1) * (a * 2 ^ 40 + 1) = (q + 1) * a * 2 ^ 40 + (q + 1) := by ring
    omega

/-- The largest three bytes that a target with work `k` can begin with. -/
def workBound (k : ℕ) : ℕ := (2 ^ 24 - 1) / k

/-- Quotients are compared by the bounds between their arguments. -/
theorem quotient_le_iff {x y : ℕ} (hx : 2 ^ 16 ≤ x) (hlt : x < 2 ^ 24) (hy : 0 < y) :
    (2 ^ 24 - 1) / x ≤ (2 ^ 24 - 1) / y ↔
      ∀ k, 1 ≤ k → k ≤ 255 → x ≤ workBound k → y ≤ workBound k := by
  -- a number is below the bound of `k` if `k` is below its quotient
  have hswap : ∀ {k z : ℕ}, 0 < k → 0 < z → (z ≤ workBound k ↔ k ≤ (2 ^ 24 - 1) / z) := by
    intro k z hk hz
    rw [workBound, Nat.le_div_iff_mul_le hk, Nat.le_div_iff_mul_le hz, Nat.mul_comm]
  have hxpos : 0 < x := by omega
  constructor
  · intro h k hk _ hxk
    exact (hswap hk hy).mpr (((hswap hk hxpos).mp hxk).trans h)
  · intro h
    have hone : 1 ≤ (2 ^ 24 - 1) / x := (Nat.one_le_div_iff hxpos).mpr (by omega)
    have hmax : (2 ^ 24 - 1) / x ≤ 255 :=
      Nat.le_of_lt_succ (Nat.div_lt_of_lt_mul (by omega))
    exact (hswap hone hy).mp (h _ hone hmax ((hswap hone hxpos).mpr le_rfl))

/-- For targets in order, `Work64` is ordered the other way round exactly if they have the same
length, or no bound separates their first three bytes in the wrong order and, if the second target
is at least 256 times the first, one separates them in the right order. -/
theorem work64_antitone_iff (b₁ b₂ : UInt32) (hpos : 0 < compactToBig b₁)
    (hle : compactToBig b₁ ≤ compactToBig b₂) :
    (work64 b₂ ≤ work64 b₁ ∧ (256 * compactToBig b₁ ≤ compactToBig b₂ → work64 b₂ < work64 b₁)) ↔
      byteLen (compactToBig b₁) = byteLen (compactToBig b₂) ∨
      (∀ k, 1 ≤ k → k ≤ 255 → compactLead b₂ ≤ workBound k → compactLead b₁ ≤ workBound k) ∧
        (256 * compactToBig b₁ ≤ compactToBig b₂ →
          ∃ k, 1 ≤ k ∧ k ≤ 255 ∧ compactLead b₁ ≤ workBound k ∧ workBound k < compactLead b₂) := by
  have hlow₁ := le_compactLead hpos
  have hlow₂ := le_compactLead (hpos.trans_le hle)
  have hbounds : (work64 b₂ ≤ work64 b₁ ↔
      ∀ k, 1 ≤ k → k ≤ 255 → compactLead b₂ ≤ workBound k → compactLead b₁ ≤ workBound k) ∧
      (work64 b₂ < work64 b₁ ↔
        ∃ k, 1 ≤ k ∧ k ≤ 255 ∧ compactLead b₁ ≤ workBound k ∧ workBound k < compactLead b₂) := by
    rw [← UInt64.not_le, UInt64.le_iff_toNat_le, UInt64.le_iff_toNat_le, toNat_work64 hpos,
      toNat_work64 (hpos.trans_le hle), quotient_le_iff hlow₂ (compactLead_lt b₂) (by omega),
      quotient_le_iff hlow₁ (compactLead_lt b₁) (by omega)]
    refine ⟨Iff.rfl, ?_⟩
    push Not
    rfl
  rw [hbounds.1, hbounds.2]
  refine ⟨Or.inr, fun h => h.elim (fun hlen => ⟨fun k _ _ hk => ?_, fun hfar => ?_⟩) id⟩
  · -- at one length the first bytes are ordered as the targets are
    refine le_trans ?_ hk
    unfold compactLead leading
    rw [← byteLen_eq, ← byteLen_eq, hlen]
    exact Nat.div_le_div_right (Nat.mul_le_mul_right _ hle)
  · -- and the targets are less than 256 times apart
    have hlow := Nat.base_pow_length_digits_le 256 _ (by decide) hpos.ne'
    have hhigh := lt_pow_byteLen (compactToBig b₂)
    rw [← byteLen_eq, hlen] at hlow
    omega

/-- Two targets of two bytes. -/
theorem work64_antitone_near :
    0 < compactToBig 0x0300ff00 ∧ compactToBig 0x0300ff00 ≤ compactToBig 0x0300ffff ∧
      work64 0x0300ffff ≤ work64 0x0300ff00 := by
  have hpos : 0 < compactToBig 0x0300ff00 := by decide
  have hle : compactToBig 0x0300ff00 ≤ compactToBig 0x0300ffff := by decide
  exact ⟨hpos, hle, ((work64_antitone_iff 0x0300ff00 0x0300ffff hpos hle).mpr (.inl rfl)).1⟩

/-- The target 256 is above 255 and has 255 times its work; `0xff00` is 256 times as large and has
the same work. -/
theorem not_work64_antitone_length :
    (compactToBig 0x030000ff = 0xff ∧ compactToBig 0x03000100 = 0x100 ∧
      compactToBig 0x0300ff00 = 256 * 0xff) ∧
    work64 0x030000ff = 1 ∧ work64 0x03000100 = 255 ∧ work64 0x0300ff00 = 1 := by
  decide

/-! ### The round trip -/

/-- A compact value from its exponent and mantissa. -/
def compactOf (e m : ℕ) : UInt32 := UInt32.ofNat (e * 2 ^ 24 + m)

variable {e m t : ℕ}

theorem toNat_compactOf (he : e < 256) (hm : m < 2 ^ 23) :
    (compactOf e m).toNat = e * 2 ^ 24 + m := by
  apply UInt32.toNat_ofNat_of_lt'
  show _ < 2 ^ 32
  omega

theorem compactExponent_compactOf (he : e < 256) (hm : m < 2 ^ 23) :
    compactExponent (compactOf e m) = e := by
  rw [compactExponent, toNat_compactOf he hm]
  omega

theorem compactMantissa_compactOf (he : e < 256) (hm : m < 2 ^ 23) :
    compactMantissa (compactOf e m) = m := by
  rw [compactMantissa, toNat_compactOf he hm]
  omega

/-- Exponent and mantissa are put together as the source does. -/
theorem shift_or_eq_compactOf (he : e < 256) {x : UInt32} (hx : x.toNat < 2 ^ 23) :
    (UInt32.ofNat e <<< 24) ||| x = compactOf e x.toNat := by
  apply UInt32.toNat.inj
  have hexp : (UInt32.ofNat e).toNat = e := UInt32.toNat_ofNat_of_lt' (he.trans (by decide))
  rw [toNat_compactOf he hx, UInt32.toNat_or, UInt32.toNat_shiftLeft, hexp,
    show (24 : UInt32).toNat % 32 = 24 from rfl, Nat.shiftLeft_eq, Nat.mod_eq_of_lt (by omega),
    Nat.mul_comm, Nat.two_pow_add_eq_or_of_lt (hx.trans (by decide))]

/-- The mask of the mantissa does nothing to a mantissa that fits. -/
theorem and_mantissa_mask {x : UInt32} (hx : x.toNat < 2 ^ 23) : x &&& 0x007fffff = x := by
  apply UInt32.toNat.inj
  rw [UInt32.toNat_and, show (0x007fffff : UInt32).toNat = 2 ^ 23 - 1 from rfl,
    Nat.and_two_pow_sub_one_eq_mod, Nat.mod_eq_of_lt hx]

/-- The test of the high bit. -/
theorem and_sign_ne_zero_iff {x : UInt32} (hx : x.toNat < 2 ^ 24) :
    x &&& 0x00800000 ≠ 0 ↔ 2 ^ 23 ≤ x.toNat := by
  rw [ne_eq, ← UInt32.toNat_inj, UInt32.toNat_and,
    show (0x00800000 : UInt32).toNat = 2 ^ 23 from rfl, show (0 : UInt32).toNat = 0 from rfl,
    Nat.and_two_pow, Nat.testBit_eq_decide_div_mod_eq]
  simp
  omega

/-- The last lines of `BigToCompact`: a mantissa whose high bit is set loses its lowest byte. -/
theorem normalized_eq (he : e < 255) {x : UInt32} (hx : x.toNat < 2 ^ 24) :
    (if x &&& 0x00800000 ≠ 0 then
        ((UInt32.ofNat e + 1) <<< 24) ||| ((x >>> 8) &&& 0x007fffff)
      else (UInt32.ofNat e <<< 24) ||| (x &&& 0x007fffff)) =
      if 2 ^ 23 ≤ x.toNat then compactOf (e + 1) (x.toNat / 256) else compactOf e x.toNat := by
  have hshift : (x >>> 8).toNat = x.toNat / 256 := by
    rw [UInt32.toNat_shiftRight, show (8 : UInt32).toNat % 32 = 8 from rfl,
      Nat.shiftRight_eq_div_pow]
  have hsucc : UInt32.ofNat e + 1 = UInt32.ofNat (e + 1) := by
    rw [UInt32.ofNat_add]
    rfl
  have hshort : (x >>> 8).toNat < 2 ^ 23 := by omega
  by_cases hsign : 2 ^ 23 ≤ x.toNat
  · rw [if_pos ((and_sign_ne_zero_iff hx).mpr hsign), if_pos hsign, hsucc,
      and_mantissa_mask hshort, shift_or_eq_compactOf (by omega) hshort, hshift]
  · rw [if_neg fun h => hsign ((and_sign_ne_zero_iff hx).mp h), if_neg hsign,
      and_mantissa_mask (not_le.mp hsign), shift_or_eq_compactOf (by omega) (not_le.mp hsign)]

theorem byteLen_le {k : ℕ} (h : t < 256 ^ k) : byteLen t ≤ k := by
  rw [byteLen_eq]
  exact (Nat.digits_length_le_iff (by decide) t).mpr h

theorem lt_byteLen {k : ℕ} (h : 256 ^ k ≤ t) : k < byteLen t := by
  rw [byteLen_eq]
  exact (Nat.lt_digits_length_iff (by decide) t).mpr h

/-- `BigToCompact` of more than three bytes. -/
theorem bigToCompact_of_long (hlen : 3 < byteLen t) (h : t < 2 ^ 256) :
    bigToCompact t =
      if 2 ^ 23 ≤ leading 256 3 t then compactOf (byteLen t + 1) (leading 256 3 t / 256)
      else compactOf (byteLen t) (leading 256 3 t) := by
  have hmax : byteLen t ≤ 32 := byteLen_le h
  have hne : t ≠ 0 := by
    rintro rfl
    exact absurd hlen (by decide)
  have hbytes : (bigBytes t).length = byteLen t := by simp [bigBytes]
  have hexp : ¬ UInt32.ofNat (byteLen t) ≤ 3 := by
    rw [UInt32.le_iff_toNat_le, UInt32.toNat_ofNat_of_lt' (hmax.trans_lt (by decide))]
    exact not_le.mpr hlen
  have hlead := leading_lt (b := 256) (by decide) 3 t
  have hman : (beUInt64 ((bigBytes t).take 3)).toUInt32.toNat = leading 256 3 t := by
    rw [UInt64.toNat_toUInt32, toNat_take_bigBytes (by decide) hlen.le, byteLen_eq,
      ← leading_of_le_length (by decide) (by rw [← byteLen_eq]; exact hlen.le)]
    exact Nat.mod_eq_of_lt (hlead.trans (by decide))
  unfold bigToCompact
  dsimp only
  rw [if_neg hne, hbytes, if_neg hexp, normalized_eq (by omega) (by rwa [hman]), hman]

/-- `BigToCompact` of at most three bytes drops the last one. -/
theorem bigToCompact_of_short (hlen : byteLen t ≤ 3) (hne : t ≠ 0) :
    bigToCompact t = compactOf (byteLen t) (t / 256) := by
  have hlt := lt_pow_byteLen t
  have hpow : 256 ^ byteLen t ≤ 256 ^ 3 := Nat.pow_le_pow_right (by decide) hlen
  have hbytes : (bigBytes t).length = byteLen t := by simp [bigBytes]
  have hexp : UInt32.ofNat (byteLen t) ≤ 3 := by
    rw [UInt32.le_iff_toNat_le, UInt32.toNat_ofNat_of_lt' (hlen.trans_lt (by decide))]
    exact hlen
  have hread := toNat_bigBytes (hlen.trans (by decide))
  have hman : ((beUInt64 (bigBytes t)).toUInt32 >>> 8).toNat = t / 256 := by
    rw [UInt32.toNat_shiftRight, UInt64.toNat_toUInt32, hread,
      show (8 : UInt32).toNat % 32 = 8 from rfl, Nat.shiftRight_eq_div_pow,
      Nat.mod_eq_of_lt (by omega)]
  have hsmall : t / 256 < 2 ^ 23 := by omega
  unfold bigToCompact
  dsimp only
  rw [if_neg hne, hbytes, if_pos hexp, normalized_eq (by omega) (by omega), hman,
    if_neg (not_le.mpr hsmall)]

/-- The round trip of a target: it loses less than the last bytes but two, and happens once. -/
structure RoundTrips (t : ℕ) : Prop where
  pos : 0 < compactToBig (bigToCompact t)
  le : compactToBig (bigToCompact t) ≤ t
  close : t - compactToBig (bigToCompact t) < 2 ^ (8 * (byteLen t - 2))
  short : byteLen t ≤ 2 → compactToBig (bigToCompact t) = t
  again : bigToCompact (compactToBig (bigToCompact t)) = bigToCompact t

/-- The decoded target is the first digits in their places. -/
theorem compactToBig_compactOf_long (he : 3 < e) (he' : e ≤ 34) (hm : m < 2 ^ 23) :
    compactToBig (compactOf e m) = m * 256 ^ (e - 3) := by
  rw [compactToBig_eq, compactExponent_compactOf (by omega) hm,
    compactMantissa_compactOf (by omega) hm, compactValue, if_neg (by omega),
    Nat.mod_eq_of_lt (by omega)]

/-- The digits that are dropped. -/
theorem sub_div_mul_pow_lt (k : ℕ) : t - t / 256 ^ k * 256 ^ k < 256 ^ k := by
  have hmod := Nat.mod_lt t (show 0 < 256 ^ k from Nat.pow_pos (by decide))
  have heq := Nat.div_add_mod' t (256 ^ k)
  omega

/-- `BigToCompact` of a number of two or three bytes, moved up. -/
theorem bigToCompact_mul_pow {d k s : ℕ} (hd : byteLen d = k) (hne : d ≠ 0) (hk : k ≤ 3)
    (hlong : 3 < k + s) (h : d * 256 ^ s < 2 ^ 256) :
    bigToCompact (d * 256 ^ s) =
      if 2 ^ 23 ≤ d * 256 ^ (3 - k) then compactOf (k + s + 1) (d * 256 ^ (3 - k) / 256)
      else compactOf (k + s) (d * 256 ^ (3 - k)) := by
  have hlen : byteLen (d * 256 ^ s) = k + s := by
    rw [byteLen_eq, length_digits_mul_pow (by decide) s hne, ← byteLen_eq, hd]
  have hlead : leading 256 3 (d * 256 ^ s) = d * 256 ^ (3 - k) := by
    rw [byteLen_eq] at hd
    rw [leading_mul_pow (by decide) 3 s hne, leading_of_length_le (by decide) (hd.trans_le hk), hd]
  rw [bigToCompact_of_long (hlen ▸ hlong) h, hlen, hlead]

/-- Keeping the first bytes, at least two of them, is a round trip if it happens once. -/
theorem roundTrips_of_kept {k : ℕ} (hlen : 3 < byteLen t) (hk : 2 ≤ k)
    (hne : t / 256 ^ (byteLen t - k) ≠ 0)
    (hu : compactToBig (bigToCompact t) = t / 256 ^ (byteLen t - k) * 256 ^ (byteLen t - k))
    (hagain : bigToCompact (t / 256 ^ (byteLen t - k) * 256 ^ (byteLen t - k)) = bigToCompact t) :
    RoundTrips t where
  pos := by
    rw [hu]
    exact Nat.mul_pos (Nat.pos_of_ne_zero hne) (Nat.pow_pos (by decide))
  le := by
    rw [hu]
    exact Nat.div_mul_le_self t _
  close := by
    have hpow : (256 : ℕ) ^ (byteLen t - k) ≤ 256 ^ (byteLen t - 2) :=
      Nat.pow_le_pow_right (by decide) (by omega)
    rw [hu, pow_mul]
    exact (sub_div_mul_pow_lt _).trans_le hpow
  short hshort := absurd hlen (by omega)
  again := by rw [hu, hagain]

theorem leading_three (hlen : 3 < byteLen t) : leading 256 3 t = t / 256 ^ (byteLen t - 3) := by
  rw [byteLen_eq] at hlen ⊢
  exact leading_of_le_length (by decide) hlen.le

/-- A first byte with its highest bit set: two bytes are kept. -/
theorem roundTrips_of_sign (hlen : 3 < byteLen t) (h : t < 2 ^ 256)
    (hsign : 2 ^ 23 ≤ leading 256 3 t) : RoundTrips t := by
  have hmax : byteLen t ≤ 32 := byteLen_le h
  have hhigh := leading_lt (b := 256) (by decide) 3 t
  have hcompact := bigToCompact_of_long hlen h
  have hdiv : leading 256 3 t / 256 = t / 256 ^ (byteLen t - 2) := by
    rw [leading_three hlen, Nat.div_div_eq_div_mul, ← pow_succ]
    congr 2
    omega
  have hplace : byteLen t + 1 - 3 = byteLen t - 2 := by omega
  have hexp : 2 + (byteLen t - 2) + 1 = byteLen t + 1 := by omega
  rw [if_pos hsign, hdiv] at hcompact
  have hle := Nat.div_mul_le_self t (256 ^ (byteLen t - 2))
  have hsize : 2 ^ 15 ≤ t / 256 ^ (byteLen t - 2) ∧ t / 256 ^ (byteLen t - 2) < 2 ^ 16 := by omega
  generalize hd : t / 256 ^ (byteLen t - 2) = d at hcompact hle hsize
  have hbytes : byteLen d = 2 := le_antisymm (byteLen_le (by omega)) (lt_byteLen (by omega))
  -- moved up by a byte, the two bytes have their highest bit set again
  have hsign' : 2 ^ 23 ≤ d * 256 ^ (3 - 2) := by omega
  have hback : d * 256 ^ (3 - 2) / 256 = d := by omega
  apply roundTrips_of_kept hlen le_rfl
  · omega
  · rw [hcompact, compactToBig_compactOf_long (by omega) (by omega) (by omega), hplace, hd]
  · rw [hd, bigToCompact_mul_pow hbytes (by omega) (by decide) (by omega) (hle.trans_lt h),
      if_pos hsign', hcompact, hexp, hback]

/-- Otherwise three bytes are kept. -/
theorem roundTrips_of_not_sign (hlen : 3 < byteLen t) (h : t < 2 ^ 256)
    (hsign : ¬ 2 ^ 23 ≤ leading 256 3 t) : RoundTrips t := by
  have hmax : byteLen t ≤ 32 := byteLen_le h
  have hne : t ≠ 0 := by
    rintro rfl
    exact absurd hlen (by decide)
  have hlow : 2 ^ 16 ≤ leading 256 3 t := pow_le_leading (b := 256) (by decide) 2 hne
  have hhigh := leading_lt (b := 256) (by decide) 3 t
  have hcompact := bigToCompact_of_long hlen h
  have hexp : 3 + (byteLen t - 3) = byteLen t := by omega
  rw [if_neg hsign, leading_three hlen] at hcompact
  rw [leading_three hlen] at hsign hlow hhigh
  have hle := Nat.div_mul_le_self t (256 ^ (byteLen t - 3))
  generalize hd : t / 256 ^ (byteLen t - 3) = d at hcompact hle hsign hlow hhigh
  have hbytes : byteLen d = 3 := le_antisymm (byteLen_le hhigh) (lt_byteLen hlow)
  have hsign' : ¬ 2 ^ 23 ≤ d * 256 ^ (3 - 3) := by omega
  have hback : d * 256 ^ (3 - 3) = d := by omega
  apply roundTrips_of_kept (k := 3) hlen (by decide)
  · omega
  · rw [hcompact, compactToBig_compactOf_long (by omega) (by omega) (by omega), hd]
  · rw [hd, bigToCompact_mul_pow hbytes (by omega) (by decide) (by omega) (hle.trans_lt h),
      if_neg hsign', hcompact, hexp, hback]

/-- A target of more than three bytes makes the round trip. -/
theorem roundTrips_of_long (hlen : 3 < byteLen t) (h : t < 2 ^ 256) : RoundTrips t := by
  by_cases hsign : 2 ^ 23 ≤ leading 256 3 t
  · exact roundTrips_of_sign hlen h hsign
  · exact roundTrips_of_not_sign hlen h hsign

/-- `BigToCompact` and back keeps a target up to its first two bytes exactly if it has more than
three. -/
theorem roundTrips_iff (t : ℕ) (hpos : 0 < t) (h : t < 2 ^ 256) : RoundTrips t ↔ 2 ^ 24 ≤ t := by
  constructor
  · intro hround
    by_contra hlt
    have hlen : byteLen t ≤ 3 := byteLen_le (not_le.mp hlt)
    have hu : compactToBig (bigToCompact t) = t / 256 / 256 ^ (3 - byteLen t) := by
      rw [bigToCompact_of_short hlen hpos.ne', compactToBig_eq,
        compactExponent_compactOf (by omega) (by omega),
        compactMantissa_compactOf (by omega) (by omega), compactValue, if_pos hlen]
    have hone := hround.pos
    have hclose := hround.close
    rw [hu] at hone hclose
    by_cases hthree : byteLen t = 3
    · -- of three bytes two are left, two places too low
      have hlow := Nat.base_pow_length_digits_le 256 t (by decide) hpos.ne'
      rw [← byteLen_eq, hthree] at hlow
      rw [hthree, Nat.sub_self, pow_zero, Nat.div_one] at hclose
      omega
    · -- of one or two bytes nothing is left
      have hlt₂ : t < 256 ^ 2 := (lt_pow_byteLen t).trans_le
        (Nat.pow_le_pow_right (by decide) (by omega))
      have hpow : 256 ^ 1 ≤ 256 ^ (3 - byteLen t) := Nat.pow_le_pow_right (by decide) (by omega)
      rw [Nat.div_eq_of_lt (by omega)] at hone
      exact lt_irrefl 0 hone
  · exact fun hle => roundTrips_of_long (lt_byteLen hle) h

/-- The largest target that a hash can meet. -/
theorem roundTrips_max : 0 < 2 ^ 256 - 1 ∧ RoundTrips (2 ^ 256 - 1) :=
  ⟨by decide, (roundTrips_iff (2 ^ 256 - 1) (by decide) (by decide)).mpr (by decide)⟩

/-- The target that genesis gets for 248 leading zero bits is lost. -/
theorem not_roundTrips_byte : leadingZerosToTarget 248 = 255 ∧
    compactToBig (bigToCompact 255) = 0 ∧ ¬ RoundTrips 255 := by
  have hzero : compactToBig (bigToCompact 255) = 0 := by decide
  exact ⟨by decide, hzero, fun h => h.pos.ne' hzero⟩

end ReserveOS
