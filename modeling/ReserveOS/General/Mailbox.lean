import Mathlib.Data.List.Perm.Basic
import ReserveOS.General.Run

/-!
# Networks with messages in flight

Parties with states pass messages. A `World` holds the state of each party and the messages in
flight, and a delivery takes one of them, at any position: so a list of deliveries is any order in
which messages arrive. What a party does with a message may depend on something `ε` from outside,
such as a clock.

`World.Local` is what every handler keeps, of its own state and of the messages.
-/

namespace Mailbox

variable {ι σ μ ε : Type*}

/-- The states of the parties, and the messages in flight with their receivers. -/
structure World (ι σ μ : Type*) where
  state : ι → σ
  posts : List (ι × μ)

/-- What a party does with a message: the state it leaves, and what it sends. -/
abbrev Handler (ι σ μ ε : Type*) : Type _ := ι → σ → ε → μ → σ × List (ι × μ)

variable [DecidableEq ι] (handle : Handler ι σ μ ε)

namespace World

/-- The delivery of the message at a position. -/
def deliver (w : World ι σ μ) (d : ℕ × ε) : World ι σ μ :=
  match w.posts[d.1]? with
  | none => w
  | some (v, m) =>
      let r := handle v (w.state v) d.2 m
      ⟨Function.update w.state v r.1, w.posts.eraseIdx d.1 ++ r.2⟩

/-- There is a message at the position. -/
def Effective (w : World ι σ μ) (d : ℕ × ε) : Prop := d.1 < w.posts.length

instance (w : World ι σ μ) (d : ℕ × ε) : Decidable (w.Effective d) :=
  inferInstanceAs (Decidable (d.1 < w.posts.length))

variable {handle} {w : World ι σ μ} {d : ℕ × ε} {ds : List (ℕ × ε)}

variable (handle) in
/-- What an effective delivery does. -/
theorem Effective.inversion (h : w.Effective d) :
    ∃ v m rest, w.posts.Perm ((v, m) :: rest) ∧
      (w.deliver handle d).state = Function.update w.state v (handle v (w.state v) d.2 m).1 ∧
      (w.deliver handle d).posts.Perm (rest ++ (handle v (w.state v) d.2 m).2) := by
  have hget : w.posts[d.1]? = some (w.posts.get ⟨d.1, h⟩) := List.getElem?_eq_getElem h
  refine ⟨(w.posts.get ⟨d.1, h⟩).1, (w.posts.get ⟨d.1, h⟩).2, w.posts.eraseIdx d.1, ?_, ?_, ?_⟩
  · exact (List.getElem_cons_eraseIdx_perm h).symm
  · rw [deliver, hget]
  · rw [deliver, hget]

/-! ### Local invariants -/

section LocalInvariant

variable {P : ι → σ → Prop} {M : ι → μ → Prop}

/-- Every party has a state that meets `P`, and every message in flight meets `M`. -/
def Local (P : ι → σ → Prop) (M : ι → μ → Prop) (w : World ι σ μ) : Prop :=
  (∀ v, P v (w.state v)) ∧ ∀ x ∈ w.posts, M x.1 x.2

/-- A party takes a step of its own. -/
theorem Local.update (h : w.Local P M) {v : ι} {s : σ} (hs : P v s) (sent : List (ι × μ))
    (hsent : ∀ x ∈ sent, M x.1 x.2) :
    Local P M ⟨Function.update w.state v s, w.posts ++ sent⟩ := by
  refine ⟨(Function.forall_update_iff _ _).mpr ⟨hs, fun u _ => h.1 u⟩, fun x hx => ?_⟩
  rcases List.mem_append.mp hx with hx | hx
  · exact h.2 x hx
  · exact hsent x hx

/-- A delivery keeps a local invariant if its handler does. -/
theorem Local.deliver (h : w.Local P M) (hd : w.Effective d)
    (hstep : ∀ v s m, P v s → M v m → P v (handle v s d.2 m).1 ∧
      ∀ x ∈ (handle v s d.2 m).2, M x.1 x.2) : (w.deliver handle d).Local P M := by
  obtain ⟨v, m, rest, hposts, hstate, hposts'⟩ := hd.inversion handle
  have hm : M v m := h.2 (v, m) (hposts.mem_iff.mpr List.mem_cons_self)
  obtain ⟨hP, hM⟩ := hstep v _ m (h.1 v) hm
  refine ⟨?_, fun x hx => ?_⟩
  · rw [hstate]
    exact (Function.forall_update_iff _ _).mpr ⟨hP, fun u _ => h.1 u⟩
  · rcases List.mem_append.mp (hposts'.mem_iff.mp hx) with hx | hx
    · exact h.2 x (hposts.mem_iff.mpr (List.mem_cons_of_mem _ hx))
    · exact hM x hx

end LocalInvariant

end World

end Mailbox
