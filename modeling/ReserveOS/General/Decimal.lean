import Mathlib.Data.Nat.Log
import Mathlib.Tactic.Ring

/-!
# Decimal texts

Numbers as they are printed in decimal, in ASCII bytes. `text n` is read back by `value`, and holds
nothing but digits. Texts of one length are ordered as their numbers are. Among texts of different
lengths byte order compares the shorter one with the first digits of the longer one, so a smaller
number need not come first: `compare_text_eq_lt_iff` says when it does.
-/

/-! ### Byte order -/

namespace Lexicographic

variable {α : Type*} [Ord α]

/-- A common beginning does not count. -/
theorem compare_append_left [Std.ReflOrd α] (p l m : List α) :
    compare (p ++ l) (p ++ m) = compare l m := by
  induction p with
  | nil => rfl
  | cons x p ih =>
      rw [List.compare_eq_compareLex] at ih ⊢
      rw [List.cons_append, List.cons_append, List.compareLex_cons_cons,
        Std.ReflOrd.compare_self, Ordering.eq_then, ih]

/-- What follows counts only where the beginnings agree. -/
theorem compare_append_of_length_eq {l m : List α} (h : l.length = m.length) (r : List α) :
    compare l (m ++ r) = (compare l m).then (compare [] r) := by
  induction l generalizing m with
  | nil =>
      obtain rfl : m = [] := List.length_eq_zero_iff.mp h.symm
      rw [List.nil_append, List.compare_eq_compareLex, List.compareLex_nil_nil, Ordering.eq_then]
  | cons x l ih =>
      cases m with
      | nil => cases h
      | cons y m =>
          have ih := ih (Nat.succ.inj h)
          rw [List.compare_eq_compareLex] at ih ⊢
          rw [List.cons_append, List.compareLex_cons_cons, List.compareLex_cons_cons, ih,
            Ordering.then_assoc]

end Lexicographic

namespace Decimal

open Lexicographic

/-- The digits of a number, the most significant one first. -/
def text (n : ℕ) : List UInt8 := (Nat.toDigits 10 n).map fun c => UInt8.ofNat c.toNat

/-- The number that a list of digits denotes. -/
def value (l : List UInt8) : ℕ := l.foldl (fun v c => v * 10 + (c.toNat - 48)) 0

/-- The bytes from `0` to `9`. -/
def IsDigit (c : UInt8) : Prop := 48 ≤ c.toNat ∧ c.toNat ≤ 57

/-! ### Values -/

theorem foldl_value (l : List UInt8) (v : ℕ) :
    l.foldl (fun v c => v * 10 + (c.toNat - 48)) v = v * 10 ^ l.length + value l := by
  unfold value
  induction l generalizing v with
  | nil => simp
  | cons c l ih =>
      rw [List.foldl_cons, List.foldl_cons, ih, ih (0 * 10 + (c.toNat - 48)), List.length_cons,
        Nat.pow_succ]
      ring

theorem value_cons (c : UInt8) (l : List UInt8) :
    value (c :: l) = (c.toNat - 48) * 10 ^ l.length + value l := by
  rw [value, List.foldl_cons, foldl_value, Nat.zero_mul, Nat.zero_add]

theorem value_append (l m : List UInt8) : value (l ++ m) = value l * 10 ^ m.length + value m := by
  conv_lhs => rw [value, List.foldl_append]
  exact foldl_value m (value l)

/-- A number is less than the power of ten of its length. -/
theorem value_lt_pow {l : List UInt8} (h : ∀ c ∈ l, IsDigit c) : value l < 10 ^ l.length := by
  induction l with
  | nil => exact Nat.one_pos
  | cons c l ih =>
      obtain ⟨hc, hl⟩ := List.forall_mem_cons.mp h
      have htail := ih hl
      have hdigit : c.toNat - 48 ≤ 9 := by have := hc.2; omega
      rw [value_cons, List.length_cons, Nat.pow_succ]
      calc (c.toNat - 48) * 10 ^ l.length + value l
          < 9 * 10 ^ l.length + 10 ^ l.length :=
            Nat.add_lt_add_of_le_of_lt (Nat.mul_le_mul_right _ hdigit) htail
        _ = 10 ^ l.length * 10 := by ring

/-- A larger digit outweighs everything behind it. -/
theorem add_lt_add_of_digit_lt {x y a p : ℕ} (h : x < y) (ha : a < p) (b : ℕ) :
    x * p + a < y * p + b :=
  calc x * p + a < x * p + p := Nat.add_lt_add_left ha _
    _ = (x + 1) * p := (Nat.succ_mul x p).symm
    _ ≤ y * p := Nat.mul_le_mul_right p h
    _ ≤ y * p + b := Nat.le_add_right _ _

/-- Digits of one length are ordered as their values are. -/
theorem compare_eq_compare_value {l m : List UInt8} (hlen : l.length = m.length)
    (hl : ∀ c ∈ l, IsDigit c) (hm : ∀ c ∈ m, IsDigit c) :
    compare l m = compare (value l) (value m) := by
  induction l generalizing m with
  | nil =>
      obtain rfl : m = [] := List.length_eq_zero_iff.mp hlen.symm
      rfl
  | cons x l ih =>
      cases m with
      | nil => cases hlen
      | cons y m =>
          have hlen : l.length = m.length := Nat.succ.inj hlen
          obtain ⟨hx, hl⟩ := List.forall_mem_cons.mp hl
          obtain ⟨hy, hm⟩ := List.forall_mem_cons.mp hm
          have ih := ih hlen hl hm
          have hltail := value_lt_pow hl
          have hmtail := value_lt_pow hm
          have hx := hx.1
          have hy := hy.1
          rw [List.compare_eq_compareLex] at ih ⊢
          rw [List.compareLex_cons_cons, ih, value_cons, value_cons, ← hlen]
          rw [← hlen] at hmtail
          -- the first digits decide, and where they agree the tails do
          rcases Nat.lt_trichotomy x.toNat y.toNat with hlt | heq | hgt
          · rw [Std.compare_eq_lt.mpr (UInt8.lt_iff_toNat_lt.mpr hlt), Ordering.lt_then, eq_comm,
              Nat.compare_eq_lt]
            exact add_lt_add_of_digit_lt (by omega) hltail _
          · obtain rfl := UInt8.toNat.inj heq
            rw [Std.ReflOrd.compare_self, Ordering.eq_then]
            simp [Nat.compare_eq_ite_lt]
          · rw [Std.compare_eq_gt.mpr (UInt8.lt_iff_toNat_lt.mpr hgt), Ordering.gt_then, eq_comm,
              Nat.compare_eq_gt]
            exact add_lt_add_of_digit_lt (by omega) hmtail _

/-! ### Texts -/

theorem text_of_lt {n : ℕ} (h : n < 10) : text n = [UInt8.ofNat (48 + n)] := by
  rw [text, Nat.toDigits_of_lt_base h, List.map_singleton, Nat.toNat_digitChar_of_lt_ten h]

theorem text_of_le {n : ℕ} (h : 10 ≤ n) :
    text n = text (n / 10) ++ [UInt8.ofNat (48 + n % 10)] := by
  rw [text, Nat.toDigits_of_base_le (by decide) h, List.map_append, List.map_singleton,
    Nat.toNat_digitChar_of_lt_ten (Nat.mod_lt n (by decide)), text]

/-- The number of decimal digits. -/
theorem length_text (n : ℕ) : (text n).length = Nat.log 10 n + 1 := by
  rw [text, List.length_map]
  apply Nat.le_antisymm
  · exact (Nat.length_toDigits_le_iff (by decide) (Nat.succ_pos _)).mpr
      (Nat.lt_pow_succ_log_self (by decide) n)
  · apply Nat.succ_le_of_lt
    by_contra hnot
    have hle : (Nat.toDigits 10 n).length ≤ Nat.log 10 n := Nat.le_of_not_lt hnot
    have hpos : 0 < Nat.log 10 n := Nat.lt_of_lt_of_le Nat.length_toDigits_pos hle
    have hlt : n < 10 ^ Nat.log 10 n := (Nat.length_toDigits_le_iff (by decide) hpos).mp hle
    have hne : n ≠ 0 := by
      rintro rfl
      simp at hpos
    exact absurd (Nat.pow_log_le_self 10 hne) (Nat.not_le.mpr hlt)

/-- The characters of a number are those from `0` to `9`. -/
theorem toNat_of_mem_toDigits {n : ℕ} {d : Char} (h : d ∈ Nat.toDigits 10 n) :
    48 ≤ d.toNat ∧ d.toNat ≤ 57 := by
  have hdigit := Nat.isDigit_of_mem_toDigits (by decide) (by decide) h
  simpa [Char.isDigit, UInt32.le_iff_toNat_le] using hdigit

theorem isDigit_of_mem_text {n : ℕ} {c : UInt8} (h : c ∈ text n) : IsDigit c := by
  obtain ⟨d, hd, rfl⟩ := List.mem_map.mp h
  have hrange := toNat_of_mem_toDigits hd
  have hsize : d.toNat < 2 ^ 8 := by omega
  rw [IsDigit, UInt8.toNat_ofNat_of_lt' hsize]
  exact hrange

theorem value_digit {d : ℕ} (h : d < 10) : value [UInt8.ofNat (48 + d)] = d := by
  have hsize : 48 + d < 2 ^ 8 := by omega
  rw [value_cons, UInt8.toNat_ofNat_of_lt' hsize, List.length_nil, value, List.foldl_nil]
  omega

/-- A number is read back from its text. -/
theorem value_text (n : ℕ) : value (text n) = n := by
  induction n using Nat.strong_induction_on with
  | _ n ih =>
      rcases Nat.lt_or_ge n 10 with hlt | hge
      · rw [text_of_lt hlt, value_digit hlt]
      · rw [text_of_le hge, value_append, ih (n / 10) (by omega),
          value_digit (Nat.mod_lt n (by decide)), List.length_singleton]
        omega

theorem text_injective : Function.Injective text := fun a b h => by
  rw [← value_text a, h, value_text]

/-- The first digits of a text. -/
theorem value_take_text (n k : ℕ) :
    value ((text n).take k) = n / 10 ^ ((text n).length - k) := by
  have hsplit := value_append ((text n).take k) ((text n).drop k)
  rw [List.take_append_drop, value_text, List.length_drop] at hsplit
  have hrest : value ((text n).drop k) < 10 ^ ((text n).length - k) := by
    rw [← List.length_drop]
    exact value_lt_pow fun c hc => isDigit_of_mem_text (List.mem_of_mem_drop hc)
  refine (Nat.div_eq_of_lt_le ?_ ?_).symm
  · omega
  · rw [Nat.add_mul, Nat.one_mul]
    omega

/-- The text of a smaller number comes first exactly when the number is at most what the text of the
larger one begins with, to the same number of digits. -/
theorem compare_text_eq_lt_iff {a b : ℕ} (h : a < b) :
    compare (text a) (text b) = .lt ↔ a ≤ b / 10 ^ (Nat.log 10 b - Nat.log 10 a) := by
  have hlen : (text a).length ≤ (text b).length := by
    rw [length_text, length_text]
    exact Nat.succ_le_succ (Nat.log_mono_right h.le)
  have hdigits : ∀ n, ∀ c ∈ text n, IsDigit c := fun n c => isDigit_of_mem_text
  have htake : (text a).length = ((text b).take (text a).length).length :=
    (List.length_take_of_le hlen).symm
  have hfirst : value ((text b).take (text a).length) = b / 10 ^ (Nat.log 10 b - Nat.log 10 a) := by
    rw [value_take_text, length_text, length_text, Nat.add_sub_add_right]
  have hcompare := compare_append_of_length_eq htake ((text b).drop (text a).length)
  rw [List.take_append_drop, compare_eq_compare_value htake (hdigits a)
    fun c hc => hdigits b c (List.mem_of_mem_take hc), value_text, hfirst] at hcompare
  rw [hcompare, Ordering.then_eq_lt, Nat.compare_eq_lt, Nat.compare_eq_eq, Nat.le_iff_lt_or_eq]
  refine or_congr_right (and_iff_left_of_imp fun heq => ?_)
  -- the texts differ, so the longer one goes on
  cases hrest : (text b).drop (text a).length with
  | nil =>
      have hall : (text b).length ≤ (text a).length := List.drop_eq_nil_iff.mp hrest
      rw [length_text, length_text] at hall
      have hzero : Nat.log 10 b - Nat.log 10 a = 0 := by omega
      rw [hzero, Nat.pow_zero, Nat.div_one] at heq
      omega
  | cons c r => rw [List.compare_eq_compareLex, List.compareLex_nil_cons]

end Decimal
