import ReserveOS.General.Run
import ReserveOS.Node.Inventory

/-!
# The lock of the announcement handler

The handler takes `seenMu`, and if the database knows the ID it returns without giving the mutex
back. From then on every announcement that gets as far as the mutex waits for it. Since the database
remembers what the handler has asked for, the second announcement of an ID is enough
(`orderly_iff`).
-/

namespace ReserveOS

/-- The announcement gets as far as the mutex. -/
def Announcement.Reaches (allowlist : List String) (m : Announcement) : Prop :=
  passesGates allowlist m = true ∧ m.id ≠ ""

instance (allowlist : List String) : DecidablePred (Announcement.Reaches allowlist) := fun _ =>
  inferInstanceAs (Decidable (_ ∧ _))

/-- What an announcement is about. -/
def Announcement.key (m : Announcement) : InvKind × String := (m.kind, m.id)

/-- The announcements that get as far as the mutex. -/
def reaching (allowlist : List String) (ms : List Announcement) : List Announcement :=
  ms.filter fun m => m.Reaches allowlist

namespace Inventory

/-- The call does not find a known ID under the mutex. -/
def FindsNew (allowlist : List String) (s : Inventory) (m : Announcement) : Prop :=
  m.Reaches allowlist → s.hasSeen m.kind m.id = false

/-- The mutex is free, and nothing has been asked for twice. -/
def Orderly (s : Inventory) : Prop := s.locked = false ∧ (s.requests.map Prod.snd).Nodup

/-- The database knows what the map in memory knows, and what has been asked for. -/
structure Known (s : Inventory) : Prop where
  inMemory : ∀ kind id, (s.inMemory kind id).isSome = true → s.hasSeen kind id = true
  requested : ∀ r ∈ s.requests, s.hasSeen r.2.1 r.2.2 = true
  once : (s.requests.map Prod.snd).Nodup

theorem known_new (persistent : InvKind → String → Option Int64) : (new persistent).Known :=
  ⟨nofun, nofun, List.Pairwise.nil⟩

/-- One assignment to a map of seen IDs. -/
theorem isSome_mark (f : InvKind → String → Option Int64) (now : Int64) (kind kind' : InvKind)
    (id id' : String) :
    (Function.update f kind (Function.update (f kind) id (some now)) kind' id').isSome = true ↔
      (kind', id') = (kind, id) ∨ (f kind' id').isSome = true := by
  by_cases hkind : kind' = kind
  · subst hkind
    by_cases hid : id' = id
    · simp [hid]
    · simp [hid]
  · simp [hkind]

/-! ### One call -/

/-- The variables after an announcement of an ID that the database knows: the mutex stays locked. -/
def held (s : Inventory) : Inventory := { s with locked := true }

/-- The variables after an announcement of a new ID. -/
def asked (s : Inventory) (m : Announcement) : Inventory :=
  { s.markSeen m.now m.kind m.id with requests := (m.peer, m.kind, m.id) :: s.requests }

variable {allowlist : List String} {s : Inventory} {m : Announcement}

theorem handle_of_reaches (hm : m.Reaches allowlist) :
    s.handle allowlist m = s.announce m.kind m := by
  unfold handle invTx invBlock
  rw [if_pos hm.1]
  cases m.kind with
  | tx => rfl
  | block => rfl

/-- What the handler does, if the mutex is free. -/
theorem handle_cases (hs : s.Known) (hfree : s.locked = false) (allowlist : List String)
    (m : Announcement) :
    (¬ m.Reaches allowlist ∧ s.handle allowlist m = (true, s)) ∨
    (m.Reaches allowlist ∧ s.hasSeen m.kind m.id = true ∧ s.handle allowlist m = (true, s.held)) ∨
    (m.Reaches allowlist ∧ s.hasSeen m.kind m.id = false ∧
      s.handle allowlist m = (true, s.asked m)) := by
  by_cases hm : m.Reaches allowlist
  · refine Or.inr ?_
    rw [handle_of_reaches hm]
    unfold announce
    rw [if_neg hm.2, hfree]
    cases hseen : s.hasSeen m.kind m.id with
    | true => exact Or.inl ⟨hm, rfl, if_pos hseen⟩
    | false =>
        -- the map in memory does not know the ID either
        have hmiss : (s.inMemory m.kind m.id).isSome = false :=
          Bool.eq_false_iff.mpr fun hsome => by
            rw [hs.inMemory m.kind m.id hsome] at hseen
            cases hseen
        refine Or.inr ⟨hm, rfl, ?_⟩
        have hseen' : ({ s with locked := true } : Inventory).hasSeen m.kind m.id = false := hseen
        simp only [hseen', hmiss, Bool.false_eq_true, if_false]
        rw [asked, markSeen, ← hfree]
        rfl
  · refine Or.inl ⟨hm, ?_⟩
    unfold handle invTx invBlock announce
    by_cases hgates : passesGates allowlist m = true
    · have hid : m.id = "" := not_not.mp fun hne => hm ⟨hgates, hne⟩
      rw [if_pos hgates]
      cases m.kind with
      | tx => exact if_pos hid
      | block => exact if_pos hid
    · exact if_neg hgates

/-- A call that finds the mutex locked changes nothing. -/
theorem step_of_locked (hlocked : s.locked = true) : s.step allowlist m = s := by
  have hwait : ∀ kind, (s.announce kind m).2 = s := by
    intro kind
    unfold announce
    rw [if_pos hlocked]
    split <;> rfl
  unfold step handle
  split
  · cases m.kind with
    | tx => exact hwait .tx
    | block => exact hwait .block
  · rfl

/-- What the database knows after an announcement of a new ID. -/
theorem hasSeen_asked (kind : InvKind) (id : String) :
    (s.asked m).hasSeen kind id = true ↔ (kind, id) = m.key ∨ s.hasSeen kind id = true :=
  isSome_mark s.persistent m.now m.kind kind m.id id

/-- A new ID is asked for once, and is known from then on. -/
theorem Known.asked (hs : s.Known) (hnew : s.hasSeen m.kind m.id = false) : (s.asked m).Known := by
  refine ⟨fun kind name hsome => ?_, fun r hr => ?_, ?_⟩
  · rw [hasSeen_asked]
    exact ((isSome_mark s.inMemory m.now m.kind kind m.id name).mp hsome).imp_right
      (hs.inMemory kind name)
  · rw [hasSeen_asked]
    rcases List.mem_cons.mp hr with rfl | hr
    · exact Or.inl rfl
    · exact Or.inr (hs.requested r hr)
  · refine List.nodup_cons.mpr ⟨fun hmem => ?_, hs.once⟩
    -- what has been asked for is known
    obtain ⟨r, hr, hkey⟩ := List.mem_map.mp hmem
    have hseen := hs.requested r hr
    rw [hkey, hnew] at hseen
    cases hseen

/-- An announcement keeps the invariant. -/
theorem Known.step (hs : s.Known) : (s.step allowlist m).Known := by
  cases hlocked : s.locked with
  | true => rwa [step_of_locked hlocked]
  | false =>
      unfold Inventory.step
      rcases handle_cases hs hlocked allowlist m with ⟨-, heq⟩ | ⟨-, -, heq⟩ | ⟨-, hnew, heq⟩
      · rwa [heq]
      · rw [heq]
        exact ⟨hs.inMemory, hs.requested, hs.once⟩
      · rw [heq]
        exact hs.asked hnew

/-- The mutex is free after a call exactly if the call did not find a known ID. -/
theorem locked_step_iff (hs : s.Known) (hfree : s.locked = false) :
    (s.step allowlist m).locked = false ↔ FindsNew allowlist s m := by
  unfold step FindsNew
  rcases handle_cases hs hfree allowlist m with ⟨hm, heq⟩ | ⟨hm, hseen, heq⟩ | ⟨hm, hnew, heq⟩
  · rw [heq]
    exact iff_of_true hfree fun hm' => absurd hm' hm
  · rw [heq, hseen]
    exact iff_of_false nofun fun himp => nomatch himp hm
  · rw [heq]
    exact iff_of_true hfree fun _ => hnew

/-! ### Sequences of calls -/

theorem reaching_cons_of_reaches {m : Announcement} (hm : m.Reaches allowlist)
    (ms : List Announcement) : reaching allowlist (m :: ms) = m :: reaching allowlist ms := by
  simp [reaching, hm]

theorem reaching_cons_of_not {m : Announcement} (hm : ¬ m.Reaches allowlist)
    (ms : List Announcement) : reaching allowlist (m :: ms) = reaching allowlist ms := by
  simp [reaching, hm]

/-- The condition on each call, for the whole sequence: no ID comes twice, and none is known at the
start. -/
theorem admitted_iff (hs : s.Known) (hfree : s.locked = false) (ms : List Announcement) :
    Run.Admitted (step allowlist) (FindsNew allowlist) s ms ↔
      ((reaching allowlist ms).map Announcement.key).Nodup ∧
        ∀ m ∈ reaching allowlist ms, s.hasSeen m.kind m.id = false := by
  induction ms generalizing s with
  | nil => exact iff_of_true trivial ⟨List.Pairwise.nil, nofun⟩
  | cons m ms ih =>
      rw [Run.Admitted, step, FindsNew]
      rcases handle_cases hs hfree allowlist m with ⟨hm, heq⟩ | ⟨hm, hseen, heq⟩ | ⟨hm, hnew, heq⟩
      · -- the call does not get to the mutex
        rw [heq, reaching_cons_of_not hm, ih hs hfree]
        exact and_iff_right fun hm' => absurd hm' hm
      · -- the database knows the ID, so neither side holds
        rw [reaching_cons_of_reaches hm]
        refine iff_of_false (fun hadm => ?_) fun hall => ?_
        · rw [hadm.1 hm] at hseen
          cases hseen
        · rw [hall.2 m List.mem_cons_self] at hseen
          cases hseen
      · -- the call asks for the ID, and the database knows it from now on
        have hlater : ∀ m' : Announcement, (s.asked m).hasSeen m'.kind m'.id = false ↔
            m'.key ≠ m.key ∧ s.hasSeen m'.kind m'.id = false := by
          intro m'
          rw [← Bool.not_eq_true, hasSeen_asked, not_or, Bool.not_eq_true]
          rfl
        rw [heq, reaching_cons_of_reaches hm, ih (hs.asked hnew) hfree, List.map_cons,
          List.nodup_cons]
        simp only [hlater, List.mem_cons, forall_eq_or_imp, hnew, List.mem_map, not_exists, not_and,
          true_and]
        constructor
        · rintro ⟨-, hnodup, hall⟩
          exact ⟨⟨fun m' hm' => (hall m' hm').1, hnodup⟩, fun m' hm' => (hall m' hm').2⟩
        · rintro ⟨⟨hne, hnodup⟩, hall⟩
          exact ⟨fun _ => trivial, hnodup, fun m' hm' => ⟨hne m' hm', hall m' hm'⟩⟩

/-- In a sequence of announcements to a new handler, the mutex is free after every call and nothing
is asked for twice, exactly if the announcements that reach the mutex name pairwise distinct IDs
that the database did not know. -/
theorem orderly_iff (allowlist : List String) (persistent : InvKind → String → Option Int64)
    (ms : List Announcement) :
    (∀ t ∈ Run.states (step allowlist) (new persistent) ms, t.Orderly) ↔
      ((reaching allowlist ms).map Announcement.key).Nodup ∧
        ∀ m ∈ reaching allowlist ms, persistent m.kind m.id = none := by
  have hrun : (∀ t ∈ Run.states (step allowlist) (new persistent) ms, t.Orderly) ↔
      Run.Admitted (step allowlist) (FindsNew allowlist) (new persistent) ms := by
    refine Run.forall_states_iff (I := Known) (E := fun _ => True) (fun s m hs _ => hs.step)
      (fun s m hs _ hord => ?_) (fun _ _ => trivial) (known_new persistent)
      ⟨rfl, List.Pairwise.nil⟩
    rw [← locked_step_iff hs hord.1]
    exact and_iff_left hs.step.once
  rw [hrun, admitted_iff (known_new persistent) rfl]
  simp [hasSeen, new]

end Inventory

namespace Sample

/-- A peer announces a transaction. -/
def announcement (id : String) : Announcement := ⟨"peer", .tx, id, fun _ => none, 0, true⟩

/-- The handler after the same transaction has been announced twice. -/
def announcedTwice : Inventory :=
  [announcement "ab", announcement "ab"].foldl (Inventory.step []) (.new fun _ _ => none)

end Sample

namespace Inventory

open Sample

/-- The second announcement of an ID leaves the mutex locked, and the next call does not return. -/
theorem not_orderly_twice :
    (¬ ∀ t ∈ Run.states (step []) (new fun _ _ => none)
      [announcement "ab", announcement "ab"], t.Orderly) ∧
    (announcedTwice.handle [] (announcement "cd")).1 = false := by
  refine ⟨fun hall => ?_, by decide⟩
  have hlocked : announcedTwice.locked = true := by decide
  have hfree : announcedTwice.locked = false := (hall _ (Run.foldl_mem_states _ _ _)).1
  simp [hfree] at hlocked

end Inventory

end ReserveOS
