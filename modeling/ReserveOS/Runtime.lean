import Mathlib.Algebra.Order.Ring.Int

/-!
# Tables, errors and panics

What the Go code gets from its run time and from LevelDB. A key range that the code iterates is a
`Table`, a finite map sorted by key. A call ends with a value, with an error, or with a run-time
panic; an error or a panic does not undo the writes made before it, so stateful functions return
the state beside their result.
-/

namespace ReserveOS

/-- A LevelDB key range that the code iterates: a finite map sorted by key. -/
abbrev Table (V : Type) : Type := Std.ExtTreeMap String V

namespace Table

variable {V : Type}

/-- Reading a table after one write. -/
theorem getElem?_put (t : Table V) (k a : String) (v : V) :
    (t.insert k v)[a]? = if k = a then some v else t[a]? := by
  simp [Std.ExtTreeMap.getElem?_insert]

/-- The keys of a table are listed in strictly increasing order, so each key once. -/
theorem nodup_keys_toList (t : Table V) : (t.toList.map Prod.fst).Nodup := by
  rw [List.nodup_iff_pairwise_ne, List.pairwise_map]
  refine (Std.ExtTreeMap.distinct_keys_toList (t := t)).imp fun h heq => h ?_
  simp [heq]

/-- An entry is listed exactly when reading its key returns its value. -/
theorem mem_toList_iff (t : Table V) (k : String) (v : V) : (k, v) ∈ t.toList ↔ t[k]? = some v :=
  Std.ExtTreeMap.mem_toList_iff_getElem?_eq_some

end Table

/-- How a call fails: with an `error` value, or with a run-time panic. -/
inductive Fault where
  | error (msg : String)
  | panic (msg : String)
deriving DecidableEq

/-- The result of a call. -/
abbrev Res (α : Type) : Type := Except Fault α

namespace Res

variable {α β : Type}

/-- `err == nil`. -/
def isNil (r : Res α) : Bool :=
  match r with
  | .ok _ => true
  | .error _ => false

theorem isNil_iff {r : Res α} : r.isNil = true ↔ ∃ a, r = .ok a := by
  cases r with
  | error e => simp [isNil]
  | ok a => simp [isNil]

/-- A bind succeeds exactly when both halves do. -/
theorem bind_eq_ok {x : Res α} {f : α → Res β} {b : β} :
    x.bind f = .ok b ↔ ∃ a, x = .ok a ∧ f a = .ok b := by
  cases x with
  | error e => simp [Except.bind]
  | ok a => simp [Except.bind]

/-- The same for a first half that only checks. -/
theorem bind_unit_eq_ok {x : Res Unit} {f : Unit → Res β} {b : β} :
    x.bind f = .ok b ↔ x = .ok () ∧ f () = .ok b := by
  rw [bind_eq_ok]
  exact ⟨fun ⟨_, h⟩ => h, fun h => ⟨(), h⟩⟩

/-- Where a call succeeds, each check on the way was passed. -/
theorem ite_error_eq_ok {ε : Type} {c : Prop} [Decidable c] {e : ε} {x : Except ε α} {a : α} :
    (if c then .error e else x) = .ok a ↔ ¬ c ∧ x = .ok a := by
  by_cases h : c
  · simp [h]
  · simp [h]

end Res

/-- A `uint64` counter after `++`. -/
theorem toNat_succ (h : UInt64) : (h + 1).toNat = (h.toNat + 1) % 2 ^ 64 :=
  UInt64.toNat_add h 1

/-- A `uint64` counter that does not wrap. -/
theorem toNat_succ_of_lt {h : UInt64} (hfit : h.toNat + 1 < 2 ^ 64) :
    (h + 1).toNat = h.toNat + 1 := by
  rw [toNat_succ, Nat.mod_eq_of_lt hfit]

/-- An `int64` sum that does not wrap. -/
theorem toInt_add_of_bounds {x d : Int64} (hlow : -2 ^ 63 ≤ x.toInt + d.toInt)
    (hhigh : x.toInt + d.toInt < 2 ^ 63) : (x + d).toInt = x.toInt + d.toInt := by
  rw [Int64.toInt_add]
  exact Int.bmod_eq_of_le (by omega) (by omega)

end ReserveOS
