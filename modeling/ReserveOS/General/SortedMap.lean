import Mathlib.Algebra.BigOperators.Group.List.Basic
import Mathlib.Algebra.Ring.Nat
import Mathlib.Data.List.Nodup

/-!
# Sums over the entries of a sorted map

A map that is listed in key order lists each key once. So the listing of a map after a deletion or
an insertion is, up to order, the old listing without the key, and a sum over the entries changes by
the value of one entry. The last part is about maps of maps: `leaves` lists the values of all inner
maps.
-/

namespace SortedMap

variable {κ V : Type*} {cmp : κ → κ → Ordering} [Std.TransCmp cmp] [Std.LawfulEqCmp cmp]

/-- No key is listed twice. -/
theorem nodup_keys (t : Std.ExtTreeMap κ V cmp) : (t.toList.map Prod.fst).Nodup := by
  rw [List.nodup_iff_pairwise_ne, List.pairwise_map]
  refine (Std.ExtTreeMap.distinct_keys_toList (t := t)).imp fun h heq => h ?_
  rw [heq]
  exact Std.ReflCmp.compare_self

/-- The listing has no duplicates. -/
theorem nodup_toList (t : Std.ExtTreeMap κ V cmp) : t.toList.Nodup := (nodup_keys t).of_map _

/-- The sum of a quantity over the entries. -/
def total (f : V → ℕ) (t : Std.ExtTreeMap κ V cmp) : ℕ := (t.toList.map fun p => f p.2).sum

variable [DecidableEq κ]

/-- A deletion, up to order. -/
theorem toList_erase_perm (t : Std.ExtTreeMap κ V cmp) (k : κ) :
    (t.erase k).toList.Perm (t.toList.filter fun p => p.1 ≠ k) := by
  refine (List.perm_ext_iff_of_nodup (nodup_toList _) ((nodup_toList t).filter _)).mpr ?_
  rintro ⟨a, v⟩
  rw [List.mem_filter, Std.ExtTreeMap.mem_toList_iff_getElem?_eq_some,
    Std.ExtTreeMap.mem_toList_iff_getElem?_eq_some, Std.ExtTreeMap.getElem?_erase]
  by_cases ha : k = a
  · simp [ha]
  · simp [ha, Ne.symm ha]

/-- An insertion, up to order. -/
theorem toList_insert_perm (t : Std.ExtTreeMap κ V cmp) (k : κ) (v : V) :
    (t.insert k v).toList.Perm ((k, v) :: t.toList.filter fun p => p.1 ≠ k) := by
  have hnodup : ((k, v) :: t.toList.filter fun p => p.1 ≠ k).Nodup := by
    refine List.nodup_cons.mpr ⟨fun hmem => ?_, (nodup_toList t).filter _⟩
    simpa using (List.mem_filter.mp hmem).2
  refine (List.perm_ext_iff_of_nodup (nodup_toList _) hnodup).mpr ?_
  rintro ⟨a, w⟩
  rw [List.mem_cons, List.mem_filter, Std.ExtTreeMap.mem_toList_iff_getElem?_eq_some,
    Std.ExtTreeMap.mem_toList_iff_getElem?_eq_some, Std.ExtTreeMap.getElem?_insert]
  by_cases ha : k = a
  · subst ha
    simp [eq_comm (a := v)]
  · simp [ha, Ne.symm ha]

/-- Writing the value that a key has changes nothing. -/
theorem insert_eq_self {t : Std.ExtTreeMap κ V cmp} {k : κ} {v : V} (h : t[k]? = some v) :
    t.insert k v = t := by
  apply Std.ExtTreeMap.ext_getElem?
  intro a
  rw [Std.ExtTreeMap.getElem?_insert]
  by_cases ha : k = a
  · rw [if_pos (by rw [ha]; exact Std.ReflCmp.compare_self), ← ha, h]
  · rw [if_neg fun hcmp => ha (Std.LawfulEqCmp.eq_of_compare hcmp)]

/-- Deleting a key that has no value changes nothing. -/
theorem erase_eq_self {t : Std.ExtTreeMap κ V cmp} {k : κ} (h : t[k]? = none) : t.erase k = t := by
  apply Std.ExtTreeMap.ext_getElem?
  intro a
  rw [Std.ExtTreeMap.getElem?_erase]
  by_cases ha : k = a
  · rw [if_pos (by rw [ha]; exact Std.ReflCmp.compare_self), ← ha, h]
  · rw [if_neg fun hcmp => ha (Std.LawfulEqCmp.eq_of_compare hcmp)]

variable (f : V → ℕ)

/-- The entries other than `k`, and `k`. -/
theorem total_eq_add {t : Std.ExtTreeMap κ V cmp} {k : κ} {v : V} (h : t[k]? = some v) :
    total f t = f v + total f (t.erase k) := by
  unfold total
  rw [((toList_erase_perm t k).map fun p => f p.2).sum_eq]
  conv_lhs => rw [← insert_eq_self h]
  rw [((toList_insert_perm t k v).map fun p => f p.2).sum_eq, List.map_cons, List.sum_cons]

theorem total_insert (t : Std.ExtTreeMap κ V cmp) (k : κ) (v : V) :
    total f (t.insert k v) = f v + total f (t.erase k) := by
  unfold total
  rw [((toList_erase_perm t k).map fun p => f p.2).sum_eq,
    ((toList_insert_perm t k v).map fun p => f p.2).sum_eq, List.map_cons, List.sum_cons]

/-! ### Values -/

/-- The values, in key order. -/
def vals (t : Std.ExtTreeMap κ V cmp) : List V := t.toList.map Prod.snd

theorem vals_insert_perm (t : Std.ExtTreeMap κ V cmp) (k : κ) (v : V) :
    (vals (t.insert k v)).Perm (v :: vals (t.erase k)) := by
  unfold vals
  refine ((toList_insert_perm t k v).map Prod.snd).trans ?_
  rw [List.map_cons]
  exact ((toList_erase_perm t k).map Prod.snd).symm.cons v

/-- The value of a key comes first, the others after it. -/
theorem vals_perm_cons {t : Std.ExtTreeMap κ V cmp} {k : κ} {v : V} (h : t[k]? = some v) :
    (vals t).Perm (v :: vals (t.erase k)) := by
  conv_lhs => rw [← insert_eq_self h]
  exact vals_insert_perm t k v

omit [DecidableEq κ] in
theorem mem_vals_iff {t : Std.ExtTreeMap κ V cmp} {v : V} :
    v ∈ vals t ↔ ∃ k : κ, t[k]? = some v := by
  simp [vals, Std.ExtTreeMap.mem_toList_iff_getElem?_eq_some]

omit [Std.LawfulEqCmp cmp] [DecidableEq κ] in
theorem vals_filter (t : Std.ExtTreeMap κ V cmp) (p : V → Bool) :
    vals (t.filter fun _ v => p v) = (vals t).filter p := by
  simp [vals, Std.ExtTreeMap.toList_filter, List.filter_map, Function.comp_def]

/-! ### Writes and deletions in a row -/

section Folds

variable {α : Type*} {key : α → κ} {val : α → V}

omit [DecidableEq κ] in
/-- A key that all writes give the same value has it afterwards, if it is written or had it
before. -/
theorem getElem?_foldl_insert {l : List α} {t : Std.ExtTreeMap κ V cmp} {k : κ} {v : V}
    (hval : ∀ e ∈ l, key e = k → val e = v) (hk : k ∈ l.map key ∨ t[k]? = some v) :
    (l.foldl (fun t e => t.insert (key e) (val e)) t)[k]? = some v := by
  induction l generalizing t with
  | nil => exact hk.resolve_left (List.not_mem_nil)
  | cons e l ih =>
      rw [List.foldl_cons]
      apply ih fun e' he' => hval e' (List.mem_cons_of_mem e he')
      by_cases heq : key e = k
      · -- written now, and with the value in question
        refine .inr ?_
        rw [heq, Std.ExtTreeMap.getElem?_insert_self, hval e List.mem_cons_self heq]
      · refine hk.imp (fun hmem => ?_) fun ht => ?_
        · exact (List.mem_cons.mp hmem).resolve_left (Ne.symm heq)
        · rw [Std.ExtTreeMap.getElem?_insert,
            if_neg fun hcmp => heq (Std.LawfulEqCmp.eq_of_compare hcmp), ht]

omit [DecidableEq κ] in
/-- A key that is not written keeps its value. -/
theorem getElem?_foldl_insert_of_notMem {l : List α} (t : Std.ExtTreeMap κ V cmp) {k : κ}
    (hk : k ∉ l.map key) : (l.foldl (fun t e => t.insert (key e) (val e)) t)[k]? = t[k]? := by
  induction l generalizing t with
  | nil => rfl
  | cons e l ih =>
      obtain ⟨hne, hk⟩ := not_or.mp fun h => hk (List.mem_cons.mpr h)
      rw [List.foldl_cons, ih _ hk, Std.ExtTreeMap.getElem?_insert,
        if_neg fun hcmp => hne (Std.LawfulEqCmp.eq_of_compare hcmp).symm]

omit [DecidableEq κ] in
/-- The entries of a map, written in any order under keys that `g` keeps apart. -/
theorem getElem?_foldl_insert_entries {ι W : Type*} {cmp' : ι → ι → Ordering} [Std.TransCmp cmp']
    [Std.LawfulEqCmp cmp'] {m : Std.ExtTreeMap ι W cmp'} {l : List (ι × W)}
    (hl : l.Perm m.toList) {g : ι → κ} (hg : Function.Injective g) (f : W → V)
    (t : Std.ExtTreeMap κ V cmp) (k : ι) :
    (l.foldl (fun t e => t.insert (g e.1) (f e.2)) t)[g k]? = (m[k]?.map f).or t[g k]? := by
  have hmem : ∀ e : ι × W, e ∈ l ↔ m[e.1]? = some e.2 := fun e => by
    rw [hl.mem_iff, Std.ExtTreeMap.mem_toList_iff_getElem?_eq_some]
  cases hk : m[k]? with
  | some w =>
      apply getElem?_foldl_insert
      · intro e he hkey
        obtain rfl := hg hkey
        rw [Option.some.inj (((hmem e).mp he).symm.trans hk)]
      · exact .inl (List.mem_map.mpr ⟨(k, w), (hmem (k, w)).mpr hk, rfl⟩)
  | none =>
      apply getElem?_foldl_insert_of_notMem
      intro hwritten
      obtain ⟨e, he, hkey⟩ := List.mem_map.mp hwritten
      obtain rfl := hg hkey
      exact absurd (((hmem e).mp he).symm.trans hk) (by simp)

omit [DecidableEq κ] in
theorem getElem?_foldl_erase_eq_some_iff {l : List κ} {t : Std.ExtTreeMap κ V cmp} {k : κ} {v : V} :
    (l.foldl (fun t a => t.erase a) t)[k]? = some v ↔ k ∉ l ∧ t[k]? = some v := by
  induction l generalizing t with
  | nil => simp
  | cons a l ih =>
      rw [List.foldl_cons, ih, Std.ExtTreeMap.getElem?_erase]
      by_cases ha : a = k
      · simp [ha]
      · simp [ha, Ne.symm ha]

end Folds

/-! ### Maps of maps -/

section Leaves

variable {ι : Type*} {cmp' : ι → ι → Ordering} [Std.TransCmp cmp']
  {t : Std.ExtTreeMap κ (Std.ExtTreeMap ι V cmp') cmp}

/-- The values of all inner maps. -/
def leaves (t : Std.ExtTreeMap κ (Std.ExtTreeMap ι V cmp') cmp) : List V := (vals t).flatMap vals

theorem leaves_insert_perm (t : Std.ExtTreeMap κ (Std.ExtTreeMap ι V cmp') cmp) (k : κ)
    (u : Std.ExtTreeMap ι V cmp') : (leaves (t.insert k u)).Perm (vals u ++ leaves (t.erase k)) :=
  (vals_insert_perm t k u).flatMap_right vals

/-- The values below one key come first, those below the other keys after them. -/
theorem leaves_perm_append {k : κ} {u : Std.ExtTreeMap ι V cmp'} (h : t[k]? = some u) :
    (leaves t).Perm (vals u ++ leaves (t.erase k)) :=
  (vals_perm_cons h).flatMap_right vals

/-- The same for an inner map that may be missing. -/
theorem leaves_perm_getD (t : Std.ExtTreeMap κ (Std.ExtTreeMap ι V cmp') cmp) (k : κ) :
    (leaves t).Perm (vals (t[k]?.getD ∅) ++ leaves (t.erase k)) := by
  cases h : t[k]? with
  | some u => exact leaves_perm_append h
  | none =>
      rw [erase_eq_self h]
      exact List.Perm.refl _

omit [Std.LawfulEqCmp cmp] [DecidableEq κ] in
/-- A filter on all inner maps, which also drops those that become empty. -/
theorem leaves_filterMap (t : Std.ExtTreeMap κ (Std.ExtTreeMap ι V cmp') cmp) (p : V → Bool) :
    leaves (t.filterMap fun _ u =>
      if (u.filter fun _ v => p v).isEmpty then none else some (u.filter fun _ v => p v)) =
      (leaves t).filter p := by
  unfold leaves
  rw [List.filter_flatMap, vals, Std.ExtTreeMap.toList_filterMap, vals]
  induction t.toList with
  | nil => rfl
  | cons e l ih =>
      rw [List.filterMap_cons, List.map_cons, List.flatMap_cons, ← vals_filter]
      by_cases hempty : (e.2.filter fun _ v => p v) = ∅
      · have hnil : vals (∅ : Std.ExtTreeMap ι V cmp') = [] := rfl
        rw [hempty, hnil, List.nil_append]
        simpa using ih
      · simp only [Std.ExtTreeMap.isEmpty_iff, hempty, if_false, Option.map_some, List.map_cons,
          List.flatMap_cons, ih]

end Leaves

end SortedMap
