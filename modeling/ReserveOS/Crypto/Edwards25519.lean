import Mathlib.Data.ZMod.Basic
import ReserveOS.Node.Config

/-!
# The group behind one-time addresses

The repository computes with `filippo.io/edwards25519`. Scalars are integers modulo the group order,
encoded as 32 little-endian bytes, and are defined here. Points are a parameter: `Edwards25519` is a
commutative group with a base point whose order divides the group order, and with a 32-byte encoding
that decodes to the point it was made from.
-/

namespace ReserveOS

/-! ### Hexadecimal strings -/

theorem hexValue_hexDigit : ∀ v < 16,
    hexValue (UInt8.ofNat (Hash.hexDigit v).toNat) = some (UInt8.ofNat v) ∧
      (Hash.hexDigit v).toNat < 128 := by
  decide

/-- What is written in hexadecimal can be read back. -/
theorem hexDecode_hexEncode (b : List UInt8) : hexDecode (hexEncode b) = some b := by
  have hdiv : ∀ x : UInt8, x.toNat / 16 < 16 := fun x => by
    have := x.toNat_lt
    omega
  have hmod : ∀ x : UInt8, x.toNat % 16 < 16 := fun x => Nat.mod_lt _ (by omega)
  unfold hexDecode hexEncode
  rw [stringBytes_ofList]
  · induction b with
    | nil => rfl
    | cons x b ih =>
        have hx : UInt8.ofNat (x.toNat / 16) * 16 + UInt8.ofNat (x.toNat % 16) = x := by
          apply UInt8.toNat.inj
          have h16 : (16 : UInt8).toNat = 16 := rfl
          have hlt := x.toNat_lt
          rw [UInt8.toNat_add, UInt8.toNat_mul, UInt8.toNat_ofNat', UInt8.toNat_ofNat', h16]
          omega
        simp only [List.flatMap_cons, List.cons_append, List.nil_append, List.map_cons,
          hexDecodeBytes, (hexValue_hexDigit _ (hdiv x)).1, (hexValue_hexDigit _ (hmod x)).1, ih,
          hx]
  · intro c hc
    obtain ⟨x, -, hx⟩ := List.mem_flatMap.mp hc
    rcases List.mem_pair.mp hx with rfl | rfl
    · exact (hexValue_hexDigit _ (hdiv x)).2
    · exact (hexValue_hexDigit _ (hmod x)).2

/-! ### Little-endian numbers -/

/-- The lowest bytes of a number, lowest first. -/
def leBytes : ℕ → ℕ → List UInt8
  | 0, _ => []
  | len + 1, v => UInt8.ofNat v :: leBytes len (v / 256)

/-- The number that bytes encode, lowest first. -/
def leValue (b : List UInt8) : ℕ := b.foldr (fun x v => x.toNat + 256 * v) 0

@[simp] theorem length_leBytes (len v : ℕ) : (leBytes len v).length = len := by
  induction len generalizing v with
  | zero => rfl
  | succ len ih => simp [leBytes, ih]

theorem leValue_leBytes {len v : ℕ} (h : v < 256 ^ len) : leValue (leBytes len v) = v := by
  induction len generalizing v with
  | zero =>
      have hv : v = 0 := by simpa using h
      rw [hv]
      rfl
  | succ len ih =>
      have hrest : leValue (leBytes len (v / 256)) = v / 256 :=
        ih (Nat.div_lt_of_lt_mul (by rwa [← pow_succ']))
      show (UInt8.ofNat v).toNat + 256 * leValue (leBytes len (v / 256)) = v
      rw [hrest, UInt8.toNat_ofNat']
      omega

/-! ### Scalars -/

/-- The order of the base point. -/
def groupOrder : ℕ := 2 ^ 252 + 27742317777372353535851937790883648493

instance : NeZero groupOrder := ⟨by decide⟩

/-- `edwards25519.Scalar`. -/
abbrev Scalar : Type := ZMod groupOrder

namespace Scalar

/-- `Scalar.Bytes`. -/
def bytes (s : Scalar) : List UInt8 := leBytes 32 s.val

/-- `Scalar.SetCanonicalBytes`: an error on another length and on a value that is not reduced. -/
def setCanonicalBytes (b : List UInt8) : Option Scalar :=
  if b.length = 32 ∧ leValue b < groupOrder then some (leValue b) else none

/-- `Scalar.SetUniformBytes`: 64 bytes, reduced. -/
def setUniformBytes (b : List UInt8) : Option Scalar :=
  if b.length = 64 then some (leValue b) else none

@[simp] theorem length_bytes (s : Scalar) : s.bytes.length = 32 := length_leBytes 32 _

@[simp] theorem setCanonicalBytes_bytes (s : Scalar) : setCanonicalBytes s.bytes = some s := by
  have hlt : s.val < groupOrder := s.val_lt
  have hval : leValue s.bytes = s.val := leValue_leBytes (lt_trans hlt (by decide))
  rw [setCanonicalBytes, hval, if_pos ⟨length_bytes s, hlt⟩, ZMod.natCast_zmod_val]

@[simp] theorem setUniformBytes_vector (b : Vector UInt8 64) :
    setUniformBytes b.toList = some (leValue b.toList : Scalar) := by
  simp [setUniformBytes]

end Scalar

/-! ### Points -/

/-- `edwards25519.Point`, modelled as a group. Points outside the subgroup of the base point may
have any order. -/
structure Edwards25519 where
  Point : Type
  [group : AddCommGroup Point]
  [decEq : DecidableEq Point]
  /-- the base point -/
  base : Point
  order_nsmul : groupOrder • base = 0
  /-- `Point.Bytes` -/
  bytes : Point → List UInt8
  /-- `Point.SetBytes` -/
  setBytes : List UInt8 → Option Point
  length_bytes : ∀ p, (bytes p).length = 32
  setBytes_bytes : ∀ p, setBytes (bytes p) = some p

namespace Edwards25519

attribute [instance] Edwards25519.group Edwards25519.decEq

variable (E : Edwards25519)

/-- `Point.ScalarMult`. -/
def scalarMult (s : Scalar) (p : E.Point) : E.Point := s.val • p

/-- `Point.ScalarBaseMult`. -/
def scalarBaseMult (s : Scalar) : E.Point := E.scalarMult s E.base

variable {E}

/-- Multiples of the base point are taken modulo the group order. -/
theorem mod_nsmul (m : ℕ) : (m % groupOrder) • E.base = m • E.base := by
  conv_rhs => rw [← Nat.mod_add_div m groupOrder, add_nsmul, mul_comm, mul_nsmul', E.order_nsmul,
    nsmul_zero, add_zero]

theorem scalarBaseMult_add (s t : Scalar) :
    E.scalarBaseMult (s + t) = E.scalarBaseMult s + E.scalarBaseMult t := by
  show (s + t).val • E.base = s.val • E.base + t.val • E.base
  rw [ZMod.val_add, mod_nsmul, add_nsmul]

theorem scalarBaseMult_mul (s t : Scalar) :
    E.scalarBaseMult (s * t) = E.scalarMult s (E.scalarBaseMult t) := by
  show (s * t).val • E.base = s.val • t.val • E.base
  rw [ZMod.val_mul, mod_nsmul, mul_nsmul']

end Edwards25519

end ReserveOS
