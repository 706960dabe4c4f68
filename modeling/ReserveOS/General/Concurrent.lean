import Mathlib.Order.Defs.Unbundled

/-!
# Two programs on one memory

A `Prog` works on a shared memory by single atomic accesses. An access has a label, updates the
memory, and the program goes on depending on the memory that it found. `run` executes a program
alone, and `exec` two programs under a schedule, with the trace of the accesses, newest first.

The rules are those of rely and guarantee. `Triple` says of one program: whatever the environment
does within `R` before, between and after its accesses, each of its own accesses is within `G`, and
if it starts in `A` it ends in `B`. Two programs, each of which keeps to what the other one relies
on, keep their triples under every schedule (`Triple.exec`).
-/

namespace Concurrent

/-- A program of atomic accesses with labels `τ` to a memory `σ`. -/
inductive Prog (τ σ α : Type) : Type
  | ret (a : α) : Prog τ σ α
  | access (tag : τ) (act : σ → σ) (next : σ → Prog τ σ α) : Prog τ σ α

namespace Prog

variable {τ σ α β γ : Type}

/-- Sequential composition. -/
def bind : Prog τ σ α → (α → Prog τ σ β) → Prog τ σ β
  | ret a, f => f a
  | access tag act next, f => access tag act fun s => (next s).bind f

instance : Monad (Prog τ σ) where
  pure := ret
  bind := bind

/-- An access that reads. -/
def read (tag : τ) (f : σ → α) : Prog τ σ α := access tag id fun s => ret (f s)

/-- An access that writes. -/
def write (tag : τ) (f : σ → σ) : Prog τ σ Unit := access tag f fun _ => ret ()

/-- The execution of a program alone. -/
def run : Prog τ σ α → σ → α × σ
  | ret a, s => (a, s)
  | access _ act next, s => (next s).run (act s)

@[simp] theorem run_pure (a : α) (s : σ) : (pure a : Prog τ σ α).run s = (a, s) := rfl

@[simp] theorem run_read (tag : τ) (f : σ → α) (s : σ) : (read tag f).run s = (f s, s) := rfl

@[simp] theorem run_write (tag : τ) (f : σ → σ) (s : σ) : (write tag f).run s = ((), f s) := rfl

@[simp] theorem run_bind (p : Prog τ σ α) (f : α → Prog τ σ β) (s : σ) :
    (p >>= f).run s = (f (p.run s).1).run (p.run s).2 := by
  show (p.bind f).run s = _
  induction p generalizing s with
  | ret a => rfl
  | access tag act next ih => exact ih s (act s)

/-! ### Schedules -/

/-- The accesses made so far, newest first; the flag names the program. -/
abbrev Trace (τ : Type) : Type := List (Bool × τ)

/-- Two programs under a schedule. There is a result when the schedule ends both and never names a
program that has ended. -/
def exec : List Bool → Prog τ σ α → Prog τ σ β → σ × Trace τ → Option ((α × β) × σ × Trace τ)
  | [], ret a, ret b, m => some ((a, b), m)
  | true :: sched, access tag act next, q, m =>
      exec sched (next m.1) q (act m.1, (true, tag) :: m.2)
  | false :: sched, p, access tag act next, m =>
      exec sched p (next m.1) (act m.1, (false, tag) :: m.2)
  | _, _, _, _ => none

/-! ### Rely and guarantee -/

section Rules

variable (me : Bool) (R G : σ × Trace τ → σ × Trace τ → Prop)

/-- From the memory `m` on, and whatever the environment does within `R`, every access of the
program is within `G`, and the program ends in `Q`. -/
def Safe (Q : α → σ × Trace τ → Prop) : Prog τ σ α → σ × Trace τ → Prop
  | ret a, m => ∀ m', R m m' → Q a m'
  | access tag act next, m => ∀ m', R m m' →
      G m' (act m'.1, (me, tag) :: m'.2) ∧ Safe Q (next m'.1) (act m'.1, (me, tag) :: m'.2)

/-- An assertion that the environment keeps. -/
def Stable (A : σ × Trace τ → Prop) : Prop := ∀ m m', A m → R m m' → A m'

/-- From every memory in `A` the program is safe and ends in `B`. -/
def Triple (A : σ × Trace τ → Prop) (p : Prog τ σ α) (B : α → σ × Trace τ → Prop) : Prop :=
  ∀ m, A m → Safe me R G B p m

variable {me R G} {A A' : σ × Trace τ → Prop} {B B' : α → σ × Trace τ → Prop}
  {C : β → σ × Trace τ → Prop}

theorem Safe.mono {p : Prog τ σ α} {m : σ × Trace τ} (h : Safe me R G B p m)
    (hB : ∀ a m', B a m' → B' a m') : Safe me R G B' p m := by
  induction p generalizing m with
  | ret a => exact fun m' hm' => hB a m' (h m' hm')
  | access tag act next ih => exact fun m' hm' => ⟨(h m' hm').1, ih m'.1 (h m' hm').2⟩

/-- The environment may move before a safe program goes on. -/
theorem Safe.rely [IsTrans _ R] {p : Prog τ σ α} {m m' : σ × Trace τ} (h : Safe me R G B p m)
    (hR : R m m') : Safe me R G B p m' := by
  cases p with
  | ret a => exact fun m'' hm'' => h m'' (trans_of R hR hm'')
  | access tag act next => exact fun m'' hm'' => h m'' (trans_of R hR hm'')

theorem Safe.bind [Std.Refl R] {p : Prog τ σ α} {f : α → Prog τ σ β} {m : σ × Trace τ}
    (h : Safe me R G (fun a m' => Safe me R G C (f a) m') p m) : Safe me R G C (p >>= f) m := by
  show Safe me R G C (p.bind f) m
  induction p generalizing m with
  | ret a => exact h m (refl_of R m)
  | access tag act next ih => exact fun m' hm' => ⟨(h m' hm').1, ih m'.1 (h m' hm').2⟩

theorem triple_pure {a : α} (hB : Stable R (B a)) (h : ∀ m, A m → B a m) :
    Triple me R G A (pure a) B :=
  fun m hm m' hR => hB m m' (h m hm) hR

theorem Triple.bind [Std.Refl R] {p : Prog τ σ α} {f : α → Prog τ σ β} (hp : Triple me R G A p B)
    (hf : ∀ a, Triple me R G (B a) (f a) C) : Triple me R G A (p >>= f) C :=
  fun m hm => ((hp m hm).mono fun a m' ha => hf a m' ha).bind

theorem Triple.weaken {p : Prog τ σ α} (h : Triple me R G A p B) (hA : ∀ m, A' m → A m)
    (hB : ∀ a m, B a m → B' a m) : Triple me R G A' p B' :=
  fun m hm => (h m (hA m hm)).mono hB

theorem triple_read {tag : τ} {f : σ → α} (hA : Stable R A) (hB : ∀ a, Stable R (B a))
    (h : ∀ m, A m → G m (m.1, (me, tag) :: m.2) ∧ B (f m.1) (m.1, (me, tag) :: m.2)) :
    Triple me R G A (read tag f) B := by
  intro m hm m' hR
  obtain ⟨hG, hpost⟩ := h m' (hA m m' hm hR)
  exact ⟨hG, fun m'' hR' => hB _ _ m'' hpost hR'⟩

theorem triple_write {tag : τ} {f : σ → σ} {B : Unit → σ × Trace τ → Prop} (hA : Stable R A)
    (hB : Stable R (B ()))
    (h : ∀ m, A m → G m (f m.1, (me, tag) :: m.2) ∧ B () (f m.1, (me, tag) :: m.2)) :
    Triple me R G A (write tag f) B := by
  intro m hm m' hR
  obtain ⟨hG, hpost⟩ := h m' (hA m m' hm hR)
  exact ⟨hG, fun m'' hR' => hB _ m'' hpost hR'⟩

/-! ### Programs whose accesses are all of one kind -/

/-- Every access that the program can make is of the kind `W`. -/
def EveryAccess (W : τ → (σ → σ) → Prop) : Prog τ σ α → Prop
  | ret _ => True
  | access tag act next => W tag act ∧ ∀ s, EveryAccess W (next s)

variable {W : τ → (σ → σ) → Prop}

theorem everyAccess_pure (a : α) : EveryAccess W (pure a : Prog τ σ α) := trivial

theorem EveryAccess.bind {p : Prog τ σ α} {f : α → Prog τ σ β} (hp : EveryAccess W p)
    (hf : ∀ a, EveryAccess W (f a)) : EveryAccess W (p >>= f) := by
  show EveryAccess W (p.bind f)
  induction p with
  | ret a => exact hf a
  | access tag act next ih => exact ⟨hp.1, fun s => ih s (hp.2 s)⟩

theorem EveryAccess.mono {W' : τ → (σ → σ) → Prop} (hW : ∀ tag act, W tag act → W' tag act)
    {p : Prog τ σ α} (hp : EveryAccess W p) : EveryAccess W' p := by
  induction p with
  | ret a => trivial
  | access tag act next ih => exact ⟨hW tag act hp.1, fun s => ih s (hp.2 s)⟩

theorem everyAccess_read {tag : τ} {f : σ → α} (h : W tag id) : EveryAccess W (read tag f) :=
  ⟨h, fun _ => trivial⟩

theorem everyAccess_write {tag : τ} {f : σ → σ} (h : W tag f) : EveryAccess W (write tag f) :=
  ⟨h, fun _ => trivial⟩

/-- A program all of whose accesses keep a stable assertion keeps it. -/
theorem triple_of_everyAccess {p : Prog τ σ α} (hp : EveryAccess W p) (hA : Stable R A)
    (h : ∀ tag act m, W tag act → A m →
      G m (act m.1, (me, tag) :: m.2) ∧ A (act m.1, (me, tag) :: m.2)) :
    Triple me R G A p fun _ => A := by
  intro m hm
  induction p generalizing m with
  | ret a => exact fun m' hR => hA m m' hm hR
  | access tag act next ih =>
      intro m' hR
      obtain ⟨hG, hpost⟩ := h tag act m' hp.1 (hA m m' hm hR)
      exact ⟨hG, ih m'.1 (hp.2 m'.1) _ hpost⟩

end Rules

/-! ### Two programs -/

section Parallel

variable {R₁ G₁ R₂ G₂ : σ × Trace τ → σ × Trace τ → Prop} {A : σ × Trace τ → Prop}
  {B : α → σ × Trace τ → Prop} {C : β → σ × Trace τ → Prop} {p : Prog τ σ α} {q : Prog τ σ β}

/-- Two programs that run safely beside each other both end as they should, under every schedule. -/
theorem Safe.exec [Std.Refl R₁] [IsTrans _ R₁] [Std.Refl R₂] [IsTrans _ R₂]
    (h₁ : ∀ m m', G₁ m m' → R₂ m m') (h₂ : ∀ m m', G₂ m m' → R₁ m m') {sched : List Bool}
    {m : σ × Trace τ} (hp : Safe true R₁ G₁ B p m) (hq : Safe false R₂ G₂ C q m)
    {r : (α × β) × σ × Trace τ} (hr : exec sched p q m = some r) : B r.1.1 r.2 ∧ C r.1.2 r.2 := by
  -- induction on the schedule: the program that moves keeps to its guarantee, which the other one
  -- relies on
  induction sched generalizing p q m with
  | nil =>
      match p, q with
      | ret a, ret b =>
          cases hr
          exact ⟨hp m (refl_of R₁ m), hq m (refl_of R₂ m)⟩
      | ret _, access _ _ _ => simp [Prog.exec] at hr
      | access _ _ _, _ => simp [Prog.exec] at hr
  | cons turn sched ih =>
      match turn, p, q with
      | true, access tag act next, q =>
          obtain ⟨hG, hrest⟩ := hp m (refl_of R₁ m)
          exact ih hrest (hq.rely (h₁ _ _ hG)) hr
      | true, ret _, _ => simp [Prog.exec] at hr
      | false, p, access tag act next =>
          obtain ⟨hG, hrest⟩ := hq m (refl_of R₂ m)
          exact ih (hp.rely (h₂ _ _ hG)) hrest (by simpa [Prog.exec] using hr)
      | false, ret _, ret _ => simp [Prog.exec] at hr
      | false, access _ _ _, ret _ => simp [Prog.exec] at hr

/-- Two programs that keep to what the other one relies on keep their triples under every schedule.
-/
theorem Triple.exec [Std.Refl R₁] [IsTrans _ R₁] [Std.Refl R₂] [IsTrans _ R₂]
    (h₁ : ∀ m m', G₁ m m' → R₂ m m') (h₂ : ∀ m m', G₂ m m' → R₁ m m')
    {A' : σ × Trace τ → Prop} (hp : Triple true R₁ G₁ A p B) (hq : Triple false R₂ G₂ A' q C)
    {sched : List Bool} {m : σ × Trace τ} (hA : A m) (hA' : A' m) {r : (α × β) × σ × Trace τ}
    (hr : Prog.exec sched p q m = some r) : B r.1.1 r.2 ∧ C r.1.2 r.2 :=
  (hp m hA).exec h₁ h₂ (hq m hA') hr

end Parallel

end Prog

end Concurrent
