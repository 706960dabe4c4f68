import Mathlib.Algebra.Group.Nat.Defs
import Mathlib.Data.List.Infix
import Mathlib.Data.List.Perm.Subperm
import Mathlib.Data.Set.Function

/-!
# Trees that are built level by level

A list is joined in pairs, neighbour with neighbour, until one element is left. A last element
without a neighbour is joined with itself. Every way of joining is an evaluation of one perfect tree
over the list (`map_top`), whose leaves are the list with some of its last elements repeated, its
completion. A way of joining that can be undone on the pairs that are joined, and never gives a
leaf, determines the completion and nothing more (`top_eq_iff`).
-/

namespace LevelTree

variable {α β : Type*}

/-! ### Levels -/

/-- The neighbours on a level. -/
def pairs : List α → List (α × α)
  | [] => []
  | [a] => [(a, a)]
  | a :: b :: rest => (a, b) :: pairs rest

/-- The level above a level. -/
def pairUp (comb : α → α → α) (level : List α) : List α := (pairs level).map fun p => comb p.1 p.2

/-- The element that is left after enough levels. -/
def top (comb : α → α → α) : ℕ → List α → Option α
  | 0, level => level.head?
  | fuel + 1, level => if 1 < level.length then top comb fuel (pairUp comb level) else level.head?

/-- All pairs that are joined on the way. -/
def joined (comb : α → α → α) : ℕ → List α → List (α × α)
  | 0, _ => []
  | fuel + 1, level =>
      if 1 < level.length then pairs level ++ joined comb fuel (pairUp comb level) else []

theorem pairs_map (f : α → β) (level : List α) :
    pairs (level.map f) = (pairs level).map (Prod.map f f) := by
  fun_induction pairs level with
  | case1 => rfl
  | case2 a => rfl
  | case3 a b rest ih => simp [pairs, ih]

theorem length_pairs (level : List α) : (pairs level).length = (level.length + 1) / 2 := by
  fun_induction pairs level with
  | case1 => simp
  | case2 a => simp
  | case3 a b rest ih =>
      rw [List.length_cons, ih, List.length_cons, List.length_cons]
      omega

/-- Both parts of a pair are on the level. -/
theorem mem_of_mem_pairs {level : List α} {p : α × α} (h : p ∈ pairs level) :
    p.1 ∈ level ∧ p.2 ∈ level := by
  fun_induction pairs level with
  | case1 => simp at h
  | case2 a =>
      rw [List.mem_singleton.mp h]
      simp
  | case3 a b rest ih =>
      rcases List.mem_cons.mp h with rfl | h
      · simp
      · simp [ih h]

section Comb

variable {comb : α → α → α}

theorem length_pairUp (level : List α) : (pairUp comb level).length = (level.length + 1) / 2 := by
  rw [pairUp, List.length_map, length_pairs]

/-- Every element of the next level is joined from two elements of a level. -/
theorem exists_of_mem_pairUp {level : List α} {c : α} (h : c ∈ pairUp comb level) :
    ∃ a ∈ level, ∃ b ∈ level, (a, b) ∈ pairs level ∧ c = comb a b := by
  obtain ⟨p, hp, rfl⟩ := List.mem_map.mp h
  obtain ⟨h₁, h₂⟩ := mem_of_mem_pairs hp
  exact ⟨p.1, h₁, p.2, h₂, hp, rfl⟩

/-- What holds of a level and goes over to the next one holds of the element that is left. -/
theorem exists_top {P : List α → Prop} (hstep : ∀ level, P level → P (pairUp comb level)) {n : ℕ}
    {level : List α} (hne : level ≠ []) (hn : level.length ≤ n) (h : P level) :
    ∃ a, top comb n level = some a ∧ P [a] := by
  -- on the number of levels; a level of more than one element has a shorter one above it
  induction n generalizing level with
  | zero => exact absurd (List.length_eq_zero_iff.mp (Nat.le_zero.mp hn)) hne
  | succ n ih =>
      have hpos := List.length_pos_iff.mpr hne
      rw [top]
      split
      next hlong =>
        have hlen : (pairUp comb level).length = _ := length_pairUp level
        refine ih (fun hnil => ?_) (by omega) (hstep _ h)
        rw [hnil, List.length_nil] at hlen
        omega
      next hshort =>
        obtain ⟨a, rfl⟩ := List.length_eq_one_iff.mp (show level.length = 1 by omega)
        exact ⟨a, rfl, h⟩

/-- The element that is left was there at the start, or is joined from a pair. -/
theorem mem_or_exists_joined {n : ℕ} {level : List α} {a : α} (h : top comb n level = some a) :
    a ∈ level ∨ ∃ p ∈ joined comb n level, a = comb p.1 p.2 := by
  induction n generalizing level with
  | zero => exact .inl (List.mem_of_head? h)
  | succ n ih =>
      rw [top] at h
      rw [joined]
      split at h
      next hlong =>
        rw [if_pos hlong]
        right
        rcases ih h with hmem | ⟨p, hp, ha⟩
        · obtain ⟨x, -, y, -, hp, ha⟩ := exists_of_mem_pairUp hmem
          exact ⟨(x, y), List.mem_append_left _ hp, ha⟩
        · exact ⟨p, List.mem_append_right _ hp, ha⟩
      next => exact .inl (List.mem_of_head? h)

/-- What holds of the pairs of a level and goes over to the next one holds of all pairs. -/
theorem forall_joined {P : List α → Prop} {Q : α × α → Prop}
    (hstep : ∀ level, P level → P (pairUp comb level))
    (hpairs : ∀ level, P level → ∀ p ∈ pairs level, Q p) {n : ℕ} {level : List α}
    (h : P level) : ∀ p ∈ joined comb n level, Q p := by
  induction n generalizing level with
  | zero => simp [joined]
  | succ n ih =>
      intro p hp
      rw [joined] at hp
      split at hp
      · rcases List.mem_append.mp hp with hp | hp
        · exact hpairs level h p hp
        · exact ih (hstep level h) p hp
      · simp at hp

end Comb

section Map

variable {comb : α → α → α} {comb' : β → β → β} {f : α → β}

theorem map_pairUp (hf : ∀ a b, f (comb a b) = comb' (f a) (f b)) (level : List α) :
    (pairUp comb level).map f = pairUp comb' (level.map f) := by
  rw [pairUp, pairUp, pairs_map, List.map_map, List.map_map]
  exact List.map_congr_left fun p _ => hf p.1 p.2

/-- A map that respects joining takes the last element to the last element. -/
theorem map_top (hf : ∀ a b, f (comb a b) = comb' (f a) (f b)) (n : ℕ) (level : List α) :
    (top comb n level).map f = top comb' n (level.map f) := by
  induction n generalizing level with
  | zero => simp [top]
  | succ n ih =>
      rw [top, top, List.length_map]
      split
      · rw [ih, map_pairUp hf]
      · simp

end Map

/-! ### Trees -/

/-- A binary tree with its elements at the leaves. -/
inductive Tree (α : Type*) where
  | leaf (a : α)
  | node (l r : Tree α)

namespace Tree

/-- The value of a tree. -/
def eval (comb : β → β → β) (f : α → β) : Tree α → β
  | leaf a => f a
  | node l r => comb (l.eval comb f) (r.eval comb f)

/-- The leaves from left to right. -/
def leaves (t : Tree α) : List α := t.eval (· ++ ·) fun a => [a]

theorem eval_node (comb : β → β → β) (f : α → β) (l r : Tree α) :
    (node l r).eval comb f = comb (l.eval comb f) (r.eval comb f) := rfl

theorem leaves_node (l r : Tree α) : (node l r).leaves = l.leaves ++ r.leaves := rfl

/-- All leaves have the same depth. -/
def Perfect : ℕ → Tree α → Prop
  | 0, leaf _ => True
  | d + 1, node l r => l.Perfect d ∧ r.Perfect d
  | _, _ => False

/-- The leaves are in `A`, and the values that are joined are pairs in `S`. -/
def Within (comb : β → β → β) (f : α → β) (A : Set α) (S : Set (β × β)) : Tree α → Prop
  | leaf a => a ∈ A
  | node l r => (l.eval comb f, r.eval comb f) ∈ S ∧ l.Within comb f A S ∧ r.Within comb f A S

/-- The number of leaves. -/
theorem Perfect.length_leaves {d : ℕ} {t : Tree α} (h : t.Perfect d) :
    t.leaves.length = 2 ^ d := by
  induction d generalizing t with
  | zero =>
      match t, h with
      | leaf a, _ => rfl
  | succ d ih =>
      match t, h with
      | node l r, h =>
          rw [leaves_node, List.length_append, ih h.1, ih h.2, Nat.pow_succ, Nat.mul_two]

/-- A perfect tree is determined by its leaves. -/
theorem Perfect.eq_of_leaves_eq {d d' : ℕ} {t t' : Tree α} (h : t.Perfect d) (h' : t'.Perfect d')
    (heq : t.leaves = t'.leaves) : t = t' := by
  -- the number of leaves gives the depth
  obtain rfl : d = d' := by
    have hlen := congrArg List.length heq
    rw [h.length_leaves, h'.length_leaves] at hlen
    exact Nat.pow_right_injective le_rfl hlen
  induction d generalizing t t' with
  | zero =>
      match t, t', h, h' with
      | leaf a, leaf b, _, _ => rw [List.singleton_inj.mp heq]
  | succ d ih =>
      match t, t', h, h' with
      | node l r, node l' r', h, h' =>
          have hlen : l.leaves.length = l'.leaves.length := by
            rw [h.1.length_leaves, h'.1.length_leaves]
          obtain ⟨hl, hr⟩ := List.append_inj heq hlen
          rw [ih h.1 hl h'.1, ih h.2 hr h'.2]

/-- The value of a tree determines it, if joining can be undone on the pairs in `S` and never gives
the value of a leaf in `A`. -/
theorem Within.eq_of_eval_eq {comb : β → β → β} {f : α → β} {A : Set α} {S : Set (β × β)}
    (hf : A.InjOn f) (hcomb : S.InjOn fun p => comb p.1 p.2)
    (hleaf : ∀ a ∈ A, ∀ p ∈ S, f a ≠ comb p.1 p.2) {t t' : Tree α} (h : t.Within comb f A S)
    (h' : t'.Within comb f A S) (heq : t.eval comb f = t'.eval comb f) : t = t' := by
  induction t generalizing t' with
  | leaf a =>
      match t', h' with
      | leaf b, h' => rw [hf h h' heq]
      | node l' r', h' => exact absurd heq (hleaf a h _ h'.1)
  | node l r ihl ihr =>
      match t', h' with
      | leaf b, h' => exact absurd heq.symm (hleaf b h' _ h.1)
      | node l' r', h' =>
          obtain ⟨hl, hr⟩ := Prod.mk.inj (hcomb h.1 h'.1 heq)
          rw [ihl h.2.1 h'.2.1 hl, ihr h.2.2 h'.2.2 hr]

end Tree

/-! ### The tree over a list -/

/-- A list that is not empty has a perfect tree. -/
theorem exists_perfect_top {l : List α} (hne : l ≠ []) :
    ∃ t d, top Tree.node l.length (l.map .leaf) = some t ∧ t.Perfect d := by
  have hstep : ∀ level : List (Tree α), (∃ d, ∀ t ∈ level, t.Perfect d) →
      ∃ d, ∀ t ∈ pairUp Tree.node level, t.Perfect d := by
    rintro level ⟨d, hd⟩
    refine ⟨d + 1, fun t ht => ?_⟩
    obtain ⟨l, hl, r, hr, -, rfl⟩ := exists_of_mem_pairUp ht
    exact ⟨hd l hl, hd r hr⟩
  have hleaves : ∃ d, ∀ t ∈ l.map Tree.leaf, t.Perfect d := by
    refine ⟨0, fun t ht => ?_⟩
    obtain ⟨a, -, rfl⟩ := List.mem_map.mp ht
    trivial
  obtain ⟨t, htop, d, ht⟩ := exists_top hstep (n := l.length) (by simpa using hne) (by simp) hleaves
  exact ⟨t, d, htop, ht t List.mem_cons_self⟩

/-- The pairs that are joined in the tree are among those of the levels. -/
theorem within_top {comb : β → β → β} {f : α → β} {A : Set α} {S : Set (β × β)} {n : ℕ}
    {level : List (Tree α)} (hlevel : ∀ t ∈ level, t.Within comb f A S)
    (hS : ∀ p ∈ joined comb n (level.map (Tree.eval comb f)), p ∈ S) {t : Tree α}
    (h : top Tree.node n level = some t) : t.Within comb f A S := by
  -- the values of the next level of trees are the next level of values
  induction n generalizing level with
  | zero => exact hlevel t (List.mem_of_head? h)
  | succ n ih =>
      rw [top] at h
      rw [joined, List.length_map, pairs_map, ← map_pairUp (Tree.eval_node comb f)] at hS
      split at h
      next hlong =>
        rw [if_pos hlong] at hS
        refine ih (fun c hc => ?_) (fun p hp => hS p (List.mem_append_right _ hp)) h
        obtain ⟨l, hl, r, hr, hp, rfl⟩ := exists_of_mem_pairUp hc
        refine ⟨hS _ (List.mem_append_left _ ?_), hlevel l hl, hlevel r hr⟩
        exact List.mem_map_of_mem (f := Prod.map (Tree.eval comb f) (Tree.eval comb f)) hp
      next => exact hlevel t (List.mem_of_head? h)

/-- The list with its last elements repeated, as the tree has them at its leaves. -/
def completed (l : List α) : List α :=
  (top (· ++ ·) l.length (l.map fun a => [a])).getD []

theorem completed_eq {l : List α} {t : Tree α}
    (h : top Tree.node l.length (l.map .leaf) = some t) : completed l = t.leaves := by
  have hmap := map_top Tree.leaves_node l.length (l.map .leaf)
  rw [h, List.map_map] at hmap
  show (top (· ++ ·) l.length (l.map (Tree.leaves ∘ .leaf))).getD [] = _
  rw [← hmap]
  rfl

/-- The last element is determined by the completion, and determines it if joining can be undone on
the pairs that are joined and never gives a leaf. -/
theorem top_eq_iff {comb : β → β → β} {f : α → β} {l l' : List α} {S : Set (β × β)}
    (hf : f.Injective) (hcomb : S.InjOn fun p => comb p.1 p.2)
    (hleaf : ∀ a ∈ l ++ l', ∀ p ∈ S, f a ≠ comb p.1 p.2) (hne : l ≠ []) (hne' : l' ≠ [])
    (hl : ∀ p ∈ joined comb l.length (l.map f), p ∈ S)
    (hl' : ∀ p ∈ joined comb l'.length (l'.map f), p ∈ S) :
    top comb l.length (l.map f) = top comb l'.length (l'.map f) ↔ completed l = completed l' := by
  -- the value at the top is that of the tree which records the joins
  have hval : ∀ k : List α, top comb k.length (k.map f) =
      (top Tree.node k.length (k.map .leaf)).map (Tree.eval comb f) := by
    intro k
    rw [map_top (Tree.eval_node comb f), List.map_map]
    rfl
  have hwithin : ∀ k : List α, k ⊆ l ++ l' → (∀ p ∈ joined comb k.length (k.map f), p ∈ S) →
      ∀ t, top Tree.node k.length (k.map .leaf) = some t → t.Within comb f {a | a ∈ l ++ l'} S := by
    intro k hsub hk t ht
    refine within_top (n := k.length) (fun u hu => ?_) ?_ ht
    · obtain ⟨a, ha, rfl⟩ := List.mem_map.mp hu
      exact hsub ha
    · rw [List.map_map]
      exact hk
  obtain ⟨t, d, ht, hd⟩ := exists_perfect_top hne
  obtain ⟨t', d', ht', hd'⟩ := exists_perfect_top hne'
  rw [hval, hval, ht, ht', completed_eq ht, completed_eq ht', Option.map_some, Option.map_some,
    Option.some_inj]
  constructor
  · intro heq
    have hw := hwithin l (List.subset_append_left _ _) hl t ht
    have hw' := hwithin l' (List.subset_append_right _ _) hl' t' ht'
    rw [hw.eq_of_eval_eq hf.injOn hcomb hleaf hw' heq]
  · intro heq
    rw [hd.eq_of_leaves_eq hd' heq]

/-! ### Completions -/

theorem flatten_prefix_pairUp (level : List (List α)) :
    level.flatten <+: (pairUp (· ++ ·) level).flatten := by
  unfold pairUp
  fun_induction pairs level with
  | case1 => simp
  | case2 a => simp
  | case3 a b rest ih => simpa using ih

theorem mem_flatten_pairUp {level : List (List α)} {a : α}
    (h : a ∈ (pairUp (· ++ ·) level).flatten) : a ∈ level.flatten := by
  obtain ⟨c, hc, ha⟩ := List.mem_flatten.mp h
  obtain ⟨x, hx, y, hy, -, rfl⟩ := exists_of_mem_pairUp hc
  rcases List.mem_append.mp ha with ha | ha
  · exact List.mem_flatten_of_mem hx ha
  · exact List.mem_flatten_of_mem hy ha

/-- A list is the beginning of its completion, which has no other elements. -/
theorem prefix_completed (l : List α) : l <+: completed l ∧ ∀ a ∈ completed l, a ∈ l := by
  rcases eq_or_ne l [] with rfl | hne
  · exact ⟨List.nil_prefix, fun a ha => ha⟩
  · have hstep : ∀ level : List (List α), (l <+: level.flatten ∧ ∀ a ∈ level.flatten, a ∈ l) →
        l <+: (pairUp (· ++ ·) level).flatten ∧ ∀ a ∈ (pairUp (· ++ ·) level).flatten, a ∈ l := by
      rintro level ⟨hpre, hmem⟩
      exact ⟨hpre.trans (flatten_prefix_pairUp level), fun a ha => hmem a (mem_flatten_pairUp ha)⟩
    have hleaves : l <+: (l.map fun a => [a]).flatten ∧
        ∀ a ∈ (l.map fun a => [a]).flatten, a ∈ l := by
      rw [← List.flatMap_def, List.flatMap_singleton']
      exact ⟨List.prefix_rfl, fun a ha => ha⟩
    obtain ⟨c, htop, hpre, hmem⟩ :=
      exists_top hstep (n := l.length) (by simpa using hne) (by simp) hleaves
    rw [completed, htop, Option.getD_some]
    rw [List.flatten_cons, List.flatten_nil, List.append_nil] at hpre hmem
    exact ⟨hpre, hmem⟩

theorem completed_eq_nil_iff {l : List α} : completed l = [] ↔ l = [] := by
  constructor
  · intro h
    have hpre := (prefix_completed l).1
    rw [h] at hpre
    exact List.prefix_nil.mp hpre
  · rintro rfl
    rfl

/-- Lists with one completion are equal if they have the same length, or no element twice. -/
theorem eq_of_completed_eq {l l' : List α} (h : completed l = completed l')
    (hcase : l.length = l'.length ∨ l.Nodup ∧ l'.Nodup) : l = l' := by
  obtain ⟨hpre, hmem⟩ := prefix_completed l
  obtain ⟨hpre', hmem'⟩ := prefix_completed l'
  rw [h] at hpre hmem
  -- one list is the beginning of the other, so it is enough to compare lengths
  have hlen : l.length = l'.length := by
    rcases hcase with hlen | ⟨hnd, hnd'⟩
    · exact hlen
    · apply le_antisymm
      · exact (List.subperm_of_subset hnd fun a ha => hmem' a (hpre.subset ha)).length_le
      · exact (List.subperm_of_subset hnd' fun a ha => hmem a (hpre'.subset ha)).length_le
  exact (List.prefix_of_prefix_length_le hpre hpre' hlen.le).eq_of_length hlen

end LevelTree
