import Mathlib.Order.Basic

/-!
# Trees stored by parent pointers

A partial map `node` stores nodes under keys; each node names the key of its parent and carries a
height, and the nodes of height zero are roots.

* In a `Linked` store, where the parent of every non-root is stored one height below, the ancestor
  at every height below exists (`exists_ancestorAt`) and is unique (`ancestorAt_unique`), and two
  ancestors of one key are ancestors of each other (`AncestorAt.restrict`).
* Ancestry survives every change of the store that keeps parents and heights (`AncestorAt.mono`).
* A linked key has exactly one path from the root (`exists_rootPath`, `rootPath_unique`), with one
  node for each height.
-/

namespace Ancestry

variable {α β : Type*} (node : α → Option β) (parent : β → α) (height : β → ℕ)

/-- Following parent pointers from the stored key `c` reaches the stored key `a`. -/
inductive IsAncestor : α → α → Prop
  | refl {a : α} {x : β} (ha : node a = some x) : IsAncestor a a
  | step {a c : α} {x : β} (hc : node c = some x) (hpos : height x ≠ 0)
      (h : IsAncestor a (parent x)) : IsAncestor a c

/-- `a` is the ancestor of `c` at height `k`. -/
def AncestorAt (c : α) (k : ℕ) (a : α) : Prop :=
  IsAncestor node parent height a c ∧ ∃ x, node a = some x ∧ height x = k

/-- The parent of every node above height zero is stored, one height below. -/
def Linked : Prop :=
  ∀ a x, node a = some x → height x ≠ 0 → ∃ p, node (parent x) = some p ∧ height x = height p + 1

/-- The nodes from above the root up to the key, in height order. -/
inductive RootPath : α → List β → Prop
  | root {a : α} {x : β} (ha : node a = some x) (h0 : height x = 0) : RootPath a []
  | snoc {a : α} {x : β} {l : List β} (ha : node a = some x) (hpos : height x ≠ 0)
      (h : RootPath (parent x) l) : RootPath a (l ++ [x])

variable {node parent height}

namespace IsAncestor

/-- An ancestor of a stored key is the key itself or an ancestor of its parent. -/
theorem eq_or_parent {a c : α} (h : IsAncestor node parent height a c) {x : β}
    (hc : node c = some x) :
    a = c ∨ height x ≠ 0 ∧ IsAncestor node parent height a (parent x) := by
  cases h with
  | refl _ => exact Or.inl rfl
  | step hc' hpos h' =>
      rw [hc] at hc'
      cases hc'
      exact Or.inr ⟨hpos, h'⟩

/-- Ancestry is transitive. -/
theorem trans {a c d : α} (h₁ : IsAncestor node parent height a c)
    (h₂ : IsAncestor node parent height c d) : IsAncestor node parent height a d := by
  induction h₂ with
  | refl _ => exact h₁
  | step hd hpos _ ih => exact .step hd hpos ih

/-- Ancestry survives a change of the store that keeps every stored node's parent and height. -/
theorem mono {node' : α → Option β}
    (hkeep : ∀ a x, node a = some x →
      ∃ x', node' a = some x' ∧ parent x' = parent x ∧ height x' = height x)
    {a c : α} (h : IsAncestor node parent height a c) : IsAncestor node' parent height a c := by
  induction h with
  | refl ha =>
      obtain ⟨x', hx', -, -⟩ := hkeep _ _ ha
      exact .refl hx'
  | step hc hpos _ ih =>
      obtain ⟨x', hx', hp, hh⟩ := hkeep _ _ hc
      refine .step hx' (by rwa [hh]) ?_
      rwa [hp]

end IsAncestor

/-- In a linked store an ancestor is not above its descendant, and at the same height it is the
descendant itself. -/
theorem IsAncestor.height_le (hlink : Linked node parent height) {a c : α}
    (h : IsAncestor node parent height a c) {x y : β} (ha : node a = some x)
    (hc : node c = some y) : height x ≤ height y ∧ (height x = height y → a = c) := by
  induction h generalizing y with
  | refl _ =>
      rw [ha] at hc
      cases hc
      exact ⟨Nat.le_refl _, fun _ => rfl⟩
  | step hz hpos _ ih =>
      rw [hz] at hc
      cases hc
      obtain ⟨p, hp, hstep⟩ := hlink _ _ hz hpos
      have hle := (ih hp).1
      constructor
      · omega
      · intro heq
        omega

/-- The descendant of `AncestorAt` is stored, not below the given height. -/
theorem AncestorAt.le_height (hlink : Linked node parent height) {c a : α} {k : ℕ}
    (h : AncestorAt node parent height c k a) {y : β} (hc : node c = some y) : k ≤ height y := by
  obtain ⟨hanc, x, ha, rfl⟩ := h
  exact (hanc.height_le hlink ha hc).1

/-- A stored key is its own ancestor at its height. -/
theorem ancestorAt_self {c : α} {y : β} (hc : node c = some y) :
    AncestorAt node parent height c (height y) c :=
  ⟨.refl hc, y, hc, rfl⟩

/-- One step below a stored key, the ancestors are those of its parent. -/
theorem AncestorAt.of_parent {c a : α} {k : ℕ} {y : β} (hc : node c = some y)
    (hpos : height y ≠ 0) (h : AncestorAt node parent height (parent y) k a) :
    AncestorAt node parent height c k a :=
  ⟨.step hc hpos h.1, h.2⟩

/-- An ancestor strictly below a stored key is an ancestor of its parent. -/
theorem AncestorAt.to_parent {c a : α} {k : ℕ} {y : β} (hc : node c = some y) (hk : k < height y)
    (h : AncestorAt node parent height c k a) : AncestorAt node parent height (parent y) k a := by
  obtain ⟨hanc, x, ha, hx⟩ := h
  cases hanc with
  | refl ha' =>
      rw [hc] at ha
      cases ha
      omega
  | step hz hpos h' =>
      rw [hc] at hz
      cases hz
      exact ⟨h', x, ha, hx⟩

/-- Ancestors of ancestors are ancestors. -/
theorem AncestorAt.trans {c a d : α} {k j : ℕ} (h₁ : AncestorAt node parent height c k a)
    (h₂ : AncestorAt node parent height a j d) : AncestorAt node parent height c j d :=
  ⟨h₂.1.trans h₁.1, h₂.2⟩

/-- The parent of an ancestor is the ancestor one height below. -/
theorem AncestorAt.pred (hlink : Linked node parent height) {c a : α} {k : ℕ} {y : β}
    (h : AncestorAt node parent height c (k + 1) a) (ha : node a = some y) :
    AncestorAt node parent height c k (parent y) := by
  obtain ⟨x, hx, hkx⟩ := h.2
  obtain rfl : x = y := Option.some.inj (hx.symm.trans ha)
  have hpos : height x ≠ 0 := by omega
  obtain ⟨p, hp, hstep⟩ := hlink a x hx hpos
  have hself : AncestorAt node parent height (parent x) (height p) (parent x) := ancestorAt_self hp
  rw [show height p = k by omega] at hself
  exact h.trans (hself.of_parent hx hpos)

/-- A linked key has an ancestor at every height not above its own. -/
theorem exists_ancestorAt (hlink : Linked node parent height) {k : ℕ} {c : α} {y : β}
    (hc : node c = some y) (hk : k ≤ height y) : ∃ a, AncestorAt node parent height c k a := by
  -- induction on the distance of `c` above `k`
  obtain ⟨d, hd⟩ : ∃ d, height y = k + d := ⟨height y - k, by omega⟩
  induction d generalizing c y with
  | zero =>
      refine ⟨c, ?_⟩
      have hself : AncestorAt node parent height c (height y) c := ancestorAt_self hc
      rwa [hd, Nat.add_zero] at hself
  | succ d ih =>
      have hpos : height y ≠ 0 := by omega
      obtain ⟨p, hp, hstep⟩ := hlink _ _ hc hpos
      obtain ⟨a, ha⟩ := ih hp (by omega) (by omega)
      exact ⟨a, ha.of_parent hc hpos⟩

/-- Of two ancestors of one key, the lower one is an ancestor of the higher one. -/
theorem AncestorAt.restrict (hlink : Linked node parent height) {c a d : α} {k j : ℕ}
    (ha : AncestorAt node parent height c k a) (hd : AncestorAt node parent height c j d)
    (hjk : j ≤ k) : AncestorAt node parent height a j d := by
  obtain ⟨hanc, x, hx, hkx⟩ := ha
  induction hanc with
  | refl _ => exact hd
  | step hz hpos h' ih =>
      obtain ⟨p, hp, hstep⟩ := hlink _ _ hz hpos
      have hle := (h'.height_le hlink hx hp).1
      exact ih (hd.to_parent hz (by omega))

/-- The ancestor at a height is unique. -/
theorem ancestorAt_unique (hlink : Linked node parent height) {c a a' : α} {k : ℕ}
    (h : AncestorAt node parent height c k a) (h' : AncestorAt node parent height c k a') :
    a = a' := by
  obtain ⟨hanc, x, hx, hkx⟩ := AncestorAt.restrict hlink h h' (Nat.le_refl k)
  obtain ⟨-, y, hy, hky⟩ := h
  exact ((hanc.height_le hlink hx hy).2 (by omega)).symm

/-- Ancestors survive a change of the store that keeps every stored node's parent and height. -/
theorem AncestorAt.mono {node' : α → Option β}
    (hkeep : ∀ a x, node a = some x →
      ∃ x', node' a = some x' ∧ parent x' = parent x ∧ height x' = height x)
    {c a : α} {k : ℕ} (h : AncestorAt node parent height c k a) :
    AncestorAt node' parent height c k a := by
  obtain ⟨hanc, x, hx, hk⟩ := h
  obtain ⟨x', hx', -, hh⟩ := hkeep _ _ hx
  exact ⟨hanc.mono hkeep, x', hx', hh.trans hk⟩

/-! ### Paths from the root -/

/-- The path from the root is unique. -/
theorem rootPath_unique {c : α} {l l' : List β} (h : RootPath node parent height c l)
    (h' : RootPath node parent height c l') : l = l' := by
  induction h generalizing l' with
  | root ha h0 =>
      cases h' with
      | root _ _ => rfl
      | snoc ha' hpos _ =>
          rw [ha] at ha'
          cases ha'
          exact absurd h0 hpos
  | snoc ha hpos _ ih =>
      cases h' with
      | root ha' h0 =>
          rw [ha] at ha'
          cases ha'
          exact absurd h0 hpos
      | snoc ha' _ hl' =>
          rw [ha] at ha'
          cases ha'
          rw [ih hl']

/-- A linked key has a path from the root. -/
theorem exists_rootPath (hlink : Linked node parent height) {c : α} {y : β}
    (hc : node c = some y) : ∃ l, RootPath node parent height c l := by
  induction hy : height y generalizing c y with
  | zero => exact ⟨[], .root hc hy⟩
  | succ k ih =>
      have hpos : height y ≠ 0 := by omega
      obtain ⟨p, hp, hstep⟩ := hlink _ _ hc hpos
      obtain ⟨l, hl⟩ := ih hp (by omega)
      exact ⟨l ++ [y], .snoc hc hpos hl⟩

/-- Writing a node under a new key keeps the paths of the stored keys. -/
theorem RootPath.mono {node' : α → Option β} (hkeep : ∀ a x, node a = some x → node' a = some x)
    {c : α} {l : List β} (h : RootPath node parent height c l) :
    RootPath node' parent height c l := by
  induction h with
  | root ha h0 => exact .root (hkeep _ _ ha) h0
  | snoc ha hpos _ ih => exact .snoc (hkeep _ _ ha) hpos ih

/-- The path to a key has one node for each height above the root. -/
theorem RootPath.length_eq (hlink : Linked node parent height) {c : α} {l : List β}
    (h : RootPath node parent height c l) {y : β} (hc : node c = some y) :
    l.length = height y := by
  induction h generalizing y with
  | root ha h0 =>
      rw [ha] at hc
      cases hc
      exact h0.symm
  | snoc ha hpos _ ih =>
      rw [ha] at hc
      cases hc
      obtain ⟨p, hp, hstep⟩ := hlink _ _ ha hpos
      rw [List.length_append, ih hp, hstep, List.length_singleton]

/-- The `i`-th node of the path to a key is its ancestor at height `i + 1`. -/
theorem RootPath.ancestorAt (hlink : Linked node parent height) {c : α} {l : List β}
    (h : RootPath node parent height c l) {i : ℕ} {x : β} (hx : l[i]? = some x) :
    ∃ a, node a = some x ∧ AncestorAt node parent height c (i + 1) a := by
  induction h with
  | root _ _ => simp at hx
  | snoc ha hpos hl ih =>
      obtain ⟨p, hp, hstep⟩ := hlink _ _ ha hpos
      have hlen := hl.length_eq hlink hp
      rcases Nat.lt_trichotomy i (height p) with hlt | heq | hgt
      · rw [List.getElem?_append_left (by omega)] at hx
        obtain ⟨a, hax, hanc⟩ := ih hx
        exact ⟨a, hax, hanc.of_parent ha hpos⟩
      · -- the last node of the path is the key's own
        rw [← hlen] at heq
        rw [heq, List.getElem?_concat_length] at hx
        cases hx
        refine ⟨_, ha, ?_⟩
        rw [heq, hlen, ← hstep]
        exact ancestorAt_self ha
      · rw [List.getElem?_eq_none (by rw [List.length_append, List.length_singleton]; omega)] at hx
        cases hx

/-- The path to an ancestor is the beginning of the path. -/
theorem RootPath.take (hlink : Linked node parent height) {c a : α} {k : ℕ} {l : List β}
    (h : RootPath node parent height c l) (hanc : AncestorAt node parent height c k a) :
    RootPath node parent height a (l.take k) := by
  induction h with
  | root ha h0 =>
      rcases hanc.1.eq_or_parent ha with rfl | ⟨hpos, -⟩
      · simpa using RootPath.root ha h0
      · exact absurd h0 hpos
  | @snoc c x l ha hpos hl ih =>
      obtain ⟨p, hp, hstep⟩ := hlink _ _ ha hpos
      have hlen := hl.length_eq hlink hp
      obtain ⟨hanc, y, hy, rfl⟩ := hanc
      rcases hanc.eq_or_parent ha with rfl | ⟨-, hparent⟩
      · -- the key itself
        rw [ha] at hy
        cases hy
        rw [List.take_of_length_le (by rw [List.length_append, List.length_singleton]; omega)]
        exact .snoc ha hpos hl
      · have hle := (hparent.height_le hlink hy hp).1
        rw [List.take_append_of_le_length (by omega)]
        exact ih ⟨hparent, y, hy, rfl⟩

end Ancestry
