import ReserveOS.Network.Agreement
import ReserveOS.Node.Registry

/-!
# Slashed validators

Both finalization routines skip slashed records, so a slashed key has no weight
(`uncounted_of_isSlashed`). `SlashValidator` keeps a key slashed, but `/pos/register` writes a whole
new record without looking at the old one, and anyone may send it. A run of the two keeps every
slashed key slashed exactly if no accepted registration names a key that is slashed at that moment
(`slashingPermanent_iff`).
-/

namespace ReserveOS

namespace DB

/-- Every record is stored under its own key, as `PutValidator` does. -/
def RegistryKeyed (s : DB) : Prop :=
  ∀ (pub : String) (v : RegValidator), s.validators[pub]? = some v → v.pubkeyHex = pub

/-- The record of the key says that it is slashed. -/
def IsSlashed (s : DB) (pub : String) : Prop :=
  ∃ v, s.getValidator pub = some v ∧ v.slashed = true

/-- The registry with another weight for the key. -/
def reweigh (s : DB) (pub : String) (w : Int64) : DB :=
  { s with
    validators := s.validators.map fun _ v =>
      if v.pubkeyHex = pub then { v with weight := w } else v }

/-- The weight of the key is in no total and in no tally: the counting loop of `tryFinalizeHeight`
and the live weights of `TryFinalizeHeight` come out the same with any other weight in the registry,
and the configured weights are not read. -/
def Uncounted (s : DB) (pub : String) : Prop :=
  (∀ (w : Int64) (n : Node) (h : UInt64) (x : String),
    n.tallyVotes (s.reweigh pub w) h x = n.tallyVotes s h x) ∧
  (∀ w : Int64, Node.liveWeights ((s.reweigh pub w).listValidators 5000) =
    Node.liveWeights (s.listValidators 5000)) ∧
  ∀ (n : Node) (vs : List Validator) (h : UInt64) (x : String),
    { n with validators := vs }.tallyVotes s h x = n.tallyVotes s h x

variable {s : DB} {pub : String}

instance : Decidable (s.IsSlashed pub) :=
  decidable_of_iff ((s.getValidator pub).any RegValidator.slashed = true) (Option.any_eq_true _ _)

/-- Reweighing changes the listed records one by one. -/
theorem listValidators_reweigh (w : Int64) : (s.reweigh pub w).listValidators 5000 =
    (s.listValidators 5000).map fun v =>
      if v.pubkeyHex = pub then { v with weight := w } else v := by
  unfold listValidators reweigh
  rw [Std.ExtTreeMap.toList_map, List.map_map, ← List.map_take, ← List.map_take, List.map_map]
  rfl

theorem mem_listValidators {v : RegValidator} (hv : v ∈ s.listValidators 5000) :
    ∃ key : String, s.validators[key]? = some v := by
  unfold listValidators at hv
  obtain ⟨e, he, rfl⟩ := List.mem_map.mp (List.mem_of_mem_take hv)
  exact ⟨e.1, (Table.mem_toList_iff _ e.1 e.2).mp he⟩

/-- All listed records of a slashed key are slashed. -/
theorem IsSlashed.listed (hk : s.RegistryKeyed) (hs : s.IsSlashed pub) {v : RegValidator}
    (hv : v ∈ s.listValidators 5000) (hpub : v.pubkeyHex = pub) : v.slashed = true := by
  obtain ⟨key, hkey⟩ := mem_listValidators hv
  obtain ⟨v', hget, hslashed⟩ := hs
  rw [← hk key v hkey, hpub] at hkey
  rw [getValidator, hkey] at hget
  rwa [Option.some.inj hget]

/-- Where a key is slashed, the registry is not empty. -/
theorem IsSlashed.listValidators_ne_nil (hs : s.IsSlashed pub) : s.listValidators 5000 ≠ [] := by
  obtain ⟨v, hget, -⟩ := hs
  have hmem := (Table.mem_toList_iff s.validators pub v).mpr hget
  unfold listValidators
  intro hnil
  rw [if_neg (by omega), List.take_eq_nil_iff, List.map_eq_nil_iff] at hnil
  rcases hnil with hzero | hnil
  · omega
  · rw [hnil] at hmem
    exact List.not_mem_nil hmem

/-- A fold over the listed records that skips slashed ones does not see the weight of a slashed
key. -/
theorem IsSlashed.foldl_reweigh {α : Type} (hk : s.RegistryKeyed) (hs : s.IsSlashed pub)
    (w : Int64) {f : α → RegValidator → α} (hskip : ∀ a v, v.slashed = true → f a v = a) (a : α) :
    ((s.reweigh pub w).listValidators 5000).foldl f a = (s.listValidators 5000).foldl f a := by
  rw [listValidators_reweigh, List.foldl_map]
  refine List.foldl_ext _ _ a fun b v hv => ?_
  split
  next hpub =>
    have hslashed := hs.listed hk hv hpub
    rw [hskip b v hslashed, hskip b { v with weight := w } hslashed]
  next => rfl

/-- The weight of a slashed key is not counted. -/
theorem uncounted_of_isSlashed (hk : s.RegistryKeyed) (hs : s.IsSlashed pub) :
    s.Uncounted pub := by
  have hne := hs.listValidators_ne_nil
  refine ⟨fun w n h x => ?_, fun w => ?_, fun n vs h x => ?_⟩
  · have hne' : (s.reweigh pub w).listValidators 5000 ≠ [] := by
      rwa [listValidators_reweigh, ne_eq, List.map_eq_nil_iff]
    unfold Node.tallyVotes
    -- each vote goes over the whole registry
    refine List.foldl_ext _ _ _ fun acc vr _ => ?_
    rw [if_pos hne, if_pos hne']
    refine congrArg _ ?_
    exact hs.foldl_reweigh hk w (fun a v hv => if_pos hv) acc
  · exact hs.foldl_reweigh hk w (fun a v hv => if_pos (Or.inl hv)) _
  · unfold Node.tallyVotes
    refine List.foldl_ext _ _ _ fun acc vr _ => ?_
    rw [if_pos hne, if_pos hne]
    rfl

end DB

/-! ### Runs -/

/-- Once slashed, a key stays slashed, and where it is slashed its weight is not counted. -/
def SlashingPermanent (ts : List DB) : Prop :=
  ts.Pairwise (fun s t => ∀ pub, s.IsSlashed pub → t.IsSlashed pub) ∧
    ∀ t ∈ ts, ∀ pub, t.IsSlashed pub → t.Uncounted pub

/-- The event is not an accepted registration of a slashed key. -/
def KeepsSlashed (s : DB) : RegistryEvent → Prop
  | .slash _ _ => True
  | .register _ req => ∀ body, req.method = "POST" → req.body = some body → body.pubkeyHex ≠ "" →
      ¬ s.IsSlashed body.pubkeyHex

namespace DB

variable {s : DB} {now : Int64}

/-- What is slashed after a record has been written. -/
theorem isSlashed_putValidator {v : RegValidator} {pub : String} :
    (s.putValidator now v).IsSlashed pub ↔
      if v.pubkeyHex = pub then v.slashed = true else s.IsSlashed pub := by
  unfold IsSlashed getValidator
  rw [validators_putValidator]
  split
  · simp
  · rfl

/-- An entry is stored under its own key. -/
theorem RegistryKeyed.putValidator (hk : s.RegistryKeyed) (v : RegValidator) :
    (s.putValidator now v).RegistryKeyed := by
  intro pub v' hget
  rw [validators_putValidator] at hget
  split at hget
  next hpub =>
    rw [← Option.some.inj hget]
    exact hpub
  next => exact hk pub v' hget

/-- `SlashValidator` slashes the key. -/
theorem RegistryKeyed.isSlashed_slashValidator (hk : s.RegistryKeyed) (now : Int64)
    (pub : String) : (s.slashValidator now pub).IsSlashed pub := by
  -- the record that is written back is that of the key
  have hpub : ((s.getValidator pub).getD ⟨pub, "unknown", 0, 0, false⟩).pubkeyHex = pub := by
    cases hget : s.getValidator pub with
    | none => rfl
    | some v => exact hk pub v hget
  rw [slashValidator, isSlashed_putValidator, if_pos hpub]

end DB

/-- An accepted registration writes a record, any other request nothing. -/
theorem posRegister_cases (now : Int64) (s : DB) (req : RegisterRequest) :
    (∃ body, req.method = "POST" ∧ req.body = some body ∧ body.pubkeyHex ≠ "" ∧
      (posRegister now s req).2 = s.putValidator now body.record) ∨
    ((∀ body, req.method = "POST" → req.body = some body → body.pubkeyHex = "") ∧
      (posRegister now s req).2 = s) := by
  unfold posRegister
  split
  next hmethod => exact Or.inr ⟨fun _ hpost => absurd hpost hmethod, rfl⟩
  next hpost =>
    cases hbody : req.body with
    | none => exact Or.inr ⟨fun _ _ hsome => (nomatch hsome), rfl⟩
    | some body =>
        dsimp only
        split
        next hempty => exact Or.inr ⟨fun _ _ hsome => Option.some.inj hsome ▸ hempty, rfl⟩
        next hpub => exact Or.inl ⟨body, not_not.mp hpost, rfl, hpub, rfl⟩

/-- Every record stays under its own key. -/
theorem registryKeyed_registryStep {s : DB} (hk : s.RegistryKeyed) (e : RegistryEvent) :
    (registryStep s e).RegistryKeyed := by
  cases e with
  | slash now pub => exact hk.putValidator _
  | register now req =>
      rw [registryStep]
      rcases posRegister_cases now s req with ⟨body, -, -, -, heq⟩ | ⟨-, heq⟩
      · rw [heq]
        exact hk.putValidator _
      · rwa [heq]

/-- An event keeps every slashed key slashed exactly if it is not an accepted registration of one.
-/
theorem isSlashed_registryStep_iff (s : DB) (e : RegistryEvent) :
    (∀ pub, s.IsSlashed pub → (registryStep s e).IsSlashed pub) ↔ KeepsSlashed s e := by
  cases e with
  | slash now key =>
      refine iff_of_true (fun pub hs => ?_) trivial
      rw [registryStep, DB.slashValidator, DB.isSlashed_putValidator]
      split
      · rfl
      · exact hs
  | register now req =>
      rw [registryStep, KeepsSlashed]
      rcases posRegister_cases now s req with ⟨body, hpost, hbody, hpub, heq⟩ | ⟨hnone, heq⟩
      · rw [heq]
        constructor
        · -- the new record of the key is not slashed
          intro hstay body' _ hbody' _ hs
          obtain rfl := Option.some.inj (hbody.symm.trans hbody')
          have hslashed := hstay body.pubkeyHex hs
          rw [DB.isSlashed_putValidator] at hslashed
          simp [RegisterBody.record] at hslashed
        · -- the registration writes no other key
          intro hkeep pub hs
          rw [DB.isSlashed_putValidator, if_neg]
          · exact hs
          · rintro rfl
            exact hkeep body hpost hbody hpub hs
      · rw [heq]
        exact iff_of_true (fun _ => id) fun body hpost hbody hpub _ =>
          hpub (hnone body hpost hbody)

/-- Slashing is permanent in a run exactly if no accepted registration of the run names a key that
is slashed at that moment. -/
theorem slashingPermanent_iff (s : DB) (hk : s.RegistryKeyed) (es : List RegistryEvent) :
    SlashingPermanent (Run.states registryStep s es) ↔
      Run.Admitted registryStep KeepsSlashed s es := by
  have hall : Run.Admitted registryStep (fun _ _ => True) s es :=
    Run.admitted_of_forall s fun _ _ _ => trivial
  have hkeyed : ∀ t ∈ Run.states registryStep s es, t.RegistryKeyed :=
    Run.invariant (E := fun _ => True) (fun t e ht _ _ => registryKeyed_registryStep ht e)
      (fun _ _ => trivial) hk hall
  have hstays : (Run.states registryStep s es).Pairwise
      (fun s t => ∀ pub, s.IsSlashed pub → t.IsSlashed pub) ↔
      Run.Admitted registryStep KeepsSlashed s es :=
    Run.pairwise_states_iff (I := fun _ => True) (E := fun _ => True) (fun _ _ _ _ => trivial)
      (fun t e _ _ => isSlashed_registryStep_iff t e)
      (fun _ _ _ hst htu pub hs => htu pub (hst pub hs)) (fun _ _ => trivial) trivial
  rw [SlashingPermanent, hstays]
  exact and_iff_left fun t ht pub hs => DB.uncounted_of_isSlashed (hkeyed t ht) hs

namespace Sample

/-- A registration. -/
def registration (key : String) : RegistryEvent := .register 1 ⟨"POST", some ⟨key, "", 5⟩⟩

theorem registryKeyed_fresh : (DB.fresh ∅).RegistryKeyed := by
  intro pub v hget
  have hnone : (DB.fresh ∅).validators[pub]? = none := by simp [DB.fresh]
  rw [hnone] at hget
  cases hget

end Sample

open Sample

/-- Alice registers and is slashed, then bob registers. -/
theorem slashingPermanent_bob : (DB.fresh ∅).RegistryKeyed ∧
    SlashingPermanent (Run.states registryStep (DB.fresh ∅)
      [registration alice, .slash 2 alice, registration bob]) := by
  refine ⟨registryKeyed_fresh,
    (slashingPermanent_iff _ registryKeyed_fresh _).mpr ⟨?_, trivial, ?_, trivial⟩⟩
  · intro body _ hbody _
    obtain rfl := Option.some.inj hbody
    decide
  · intro body _ hbody _
    obtain rfl := Option.some.inj hbody
    decide

/-- Alice is slashed and registers again: she is no longer slashed, and her weight is counted. -/
theorem not_slashingPermanent_again : (DB.fresh ∅).RegistryKeyed ∧
    ¬ SlashingPermanent (Run.states registryStep (DB.fresh ∅)
      [.slash 2 alice, registration alice]) ∧
    (Node.liveWeights ((registryStep (registryStep (DB.fresh ∅) (.slash 2 alice))
      (registration alice)).listValidators 5000)).2 = 5 := by
  refine ⟨registryKeyed_fresh, ?_, by rfl⟩
  rintro ⟨hpair, -⟩
  have hafter := (List.pairwise_cons.mp (List.pairwise_cons.mp hpair).2).1 _ List.mem_cons_self
  have hslashed := registryKeyed_fresh.isSlashed_slashValidator 2 alice
  exact absurd (hafter alice hslashed) (by decide)

end ReserveOS
