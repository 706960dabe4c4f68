import Mathlib.Data.List.Basic
import Mathlib.Data.List.Induction
import ReserveOS.Storage.AddressSlots

/-!
# Allocation of address slots

A sequence of requests is served as it should be (each one gets a slot of its own, numbered by the
earlier requests of the same account and purpose) exactly if no two of its requests with different
account or purpose share the purpose or the name of the counter, and the row ids do not run out
(`allocatesAll_iff`). `Consistent` is the invariant: counters and rows as counts over the requests
served so far.
-/

namespace ReserveOS

/-- A `POST /alloc_slot` with the clock reading of its handler. -/
structure AllocCall where
  now : Int64
  req : AllocSlotReq

namespace AllocSlotReq

/-- What a slot is allocated for. -/
def key (req : AllocSlotReq) : Option String × String := (req.accountID, req.purpose)

theorem purpose_eq_of_key_eq {r r' : AllocSlotReq} (h : r.key = r'.key) : r.purpose = r'.purpose :=
  congrArg Prod.snd h

theorem counterName_eq_of_key_eq {r r' : AllocSlotReq} (h : r.key = r'.key) :
    r.counterName = r'.counterName := by
  have haccount : r.accountID = r'.accountID := congrArg Prod.fst h
  rw [counterName, counterName, haccount, purpose_eq_of_key_eq h]

end AllocSlotReq

namespace SlotDB

/-- The answer to a request, and the tables after it. -/
def post (db : SlotDB) (c : AllocCall) : AllocAnswer × SlotDB :=
  db.handleAllocSlot c.now "POST" (some c.req)

/-- The tables after a sequence of requests. -/
def after (cs : List AllocCall) : SlotDB := cs.foldl (fun db c => (db.post c).2) empty

/-- How many requests have a property. -/
def count {α : Type*} [DecidableEq α] (f : AllocSlotReq → α) (cs : List AllocCall) (a : α) : ℕ :=
  cs.countP fun c => f c.req = a

/-- Every request of a sequence gets a slot whose index is the number of earlier requests with the
same account and purpose, and no two get the same slot. -/
def AllocatesAll (cs : List AllocCall) : Prop :=
  ∃ slotID : ℕ → ℕ,
    (∀ i c, cs[i]? = some c →
      ((after (cs.take i)).post c).1 =
        .allocated ⟨slotID i, count AllocSlotReq.key (cs.take i) c.req.key, c.req.expiresAt⟩) ∧
    ∀ i j, i < cs.length → j < cs.length → slotID i = slotID j → i = j

/-- Requests that share their purpose or their counter agree on account and purpose. -/
def Separate (r r' : AllocSlotReq) : Prop :=
  (r.purpose = r'.purpose ∨ r.counterName = r'.counterName) → r.key = r'.key

/-! ### Counting requests -/

section

variable {α β : Type*} [DecidableEq α] [DecidableEq β] {f : AllocSlotReq → α} {g : AllocSlotReq → β}

theorem count_append_singleton (cs : List AllocCall) (c : AllocCall) (a : α) :
    count f (cs ++ [c]) a = count f cs a + if f c.req = a then 1 else 0 := by
  simp [count, List.countP_append, List.countP_singleton]

/-- A coarser property is had by more requests. -/
theorem count_le_count (h : ∀ r r', f r = f r' → g r = g r') (cs : List AllocCall)
    (r : AllocSlotReq) : count f cs (f r) ≤ count g cs (g r) := by
  refine List.countP_mono_left fun c _ hc => ?_
  simpa using h _ _ (of_decide_eq_true hc)

/-- It is had by no more requests only if it is not coarser on the requests at hand. -/
theorem count_le_count_iff (h : ∀ r r', f r = f r' → g r = g r') (cs : List AllocCall)
    (r : AllocSlotReq) :
    count g cs (g r) ≤ count f cs (f r) ↔ ∀ c ∈ cs, g c.req = g r → f c.req = f r := by
  constructor
  · intro hle c hc hg
    have hsub : (cs.filter fun c => f c.req = f r).Sublist (cs.filter fun c => g c.req = g r) := by
      refine List.monotone_filter_right cs fun c hc => ?_
      simpa using h _ _ (of_decide_eq_true hc)
    have heq := hsub.eq_of_length_le (by simpa [count, List.countP_eq_length_filter] using hle)
    have hmem : c ∈ cs.filter fun c => f c.req = f r := by simp [heq, hc, hg]
    simpa using (List.mem_filter.mp hmem).2
  · intro hall
    refine List.countP_mono_left fun c hc hg => ?_
    simpa using hall c hc (of_decide_eq_true hg)

end

/-! ### One request -/

/-- What the tables hold once the requests `past` have been served. -/
structure Consistent (db : SlotDB) (past : List AllocCall) : Prop where
  seq : db.seq = past.length
  current : ∀ name, db.current name = count AllocSlotReq.counterName past name
  taken : ∀ purpose index,
    db.taken purpose index = true ↔ index < count AllocSlotReq.purpose past purpose

theorem consistent_empty : Consistent empty [] where
  seq := rfl
  current _ := rfl
  taken _ _ := by simp [SlotDB.taken, empty, count]

/-- An index that is free is given out, as long as there are row ids. -/
theorem post_of_free {db : SlotDB} {c : AllocCall} (hpurpose : c.req.purpose ≠ "")
    (hfree : ¬ db.taken c.req.purpose (db.current c.req.counterName) = true)
    (hseq : db.seq < maxRowID) :
    (db.post c).1 =
        .allocated ⟨db.seq + 1, db.current c.req.counterName, c.req.expiresAt⟩ ∧
      (db.post c).2 =
        { counters := Function.update db.counters c.req.counterName
            (some (db.current c.req.counterName + 1))
          slots := ⟨db.seq + 1, c.req.accountID, c.req.purpose, db.current c.req.counterName, c.now,
            c.req.expiresAt, "allocated"⟩ :: db.slots
          seq := db.seq + 1 } := by
  have htaken : ¬ (db.bump c.req.counterName).taken c.req.purpose
      (db.current c.req.counterName) = true := hfree
  have hseq' : (db.bump c.req.counterName).seq < maxRowID := hseq
  simp only [post, handleAllocSlot, ne_eq, not_true_eq_false, if_false, hpurpose, insertSlot,
    htaken, if_pos hseq']
  exact ⟨rfl, rfl⟩

/-- Any other request is refused. -/
theorem post_of_not_free {db : SlotDB} {c : AllocCall} (hpurpose : c.req.purpose ≠ "")
    (h : db.taken c.req.purpose (db.current c.req.counterName) = true ∨ ¬ db.seq < maxRowID) :
    (db.post c).1 = .refused 500 "" := by
  have hinsert : (db.bump c.req.counterName).insertSlot c.now c.req
      (db.current c.req.counterName) = none := by
    rcases h with htaken | hseq
    · exact if_pos htaken
    · show (if db.taken _ _ = true then none else if db.seq < maxRowID then _ else none) = none
      rw [if_neg hseq, ite_self]
  simp [post, handleAllocSlot, hpurpose, hinsert]

/-- The requests before a request are separate from it exactly if they give its purpose and its
counter the same count as its key. -/
theorem forall_separate_iff (past : List AllocCall) (r : AllocSlotReq) :
    (∀ c ∈ past, Separate c.req r) ↔
      count AllocSlotReq.purpose past r.purpose ≤ count AllocSlotReq.key past r.key ∧
      count AllocSlotReq.counterName past r.counterName ≤ count AllocSlotReq.key past r.key := by
  rw [count_le_count_iff (fun _ _ => AllocSlotReq.purpose_eq_of_key_eq),
    count_le_count_iff (fun _ _ => AllocSlotReq.counterName_eq_of_key_eq)]
  constructor
  · intro hsep
    exact ⟨fun c hc hp => hsep c hc (.inl hp), fun c hc hn => hsep c hc (.inr hn)⟩
  · rintro ⟨hpurpose, hname⟩ c hc (hp | hn)
    · exact hpurpose c hc hp
    · exact hname c hc hn

namespace Consistent

variable {db : SlotDB} {past : List AllocCall} {c : AllocCall}

/-- A request that is separate from the earlier ones gets the next slot, and the tables stay
consistent. -/
theorem post (h : Consistent db past) (hpurpose : c.req.purpose ≠ "")
    (hlen : past.length < maxRowID) (hsep : ∀ q ∈ past, Separate q.req c.req) :
    (db.post c).1 = .allocated
        ⟨past.length + 1, count AllocSlotReq.key past c.req.key, c.req.expiresAt⟩ ∧
      Consistent (db.post c).2 (past ++ [c]) := by
  obtain ⟨hp, hn⟩ := (forall_separate_iff past c.req).mp hsep
  have hp' : count AllocSlotReq.key past c.req.key ≤
      count AllocSlotReq.purpose past c.req.purpose :=
    count_le_count (fun _ _ => AllocSlotReq.purpose_eq_of_key_eq) past c.req
  have hn' : count AllocSlotReq.key past c.req.key ≤
      count AllocSlotReq.counterName past c.req.counterName :=
    count_le_count (fun _ _ => AllocSlotReq.counterName_eq_of_key_eq) past c.req
  -- all three counts agree, so the index of the counter is the next one of the purpose
  have hkey : db.current c.req.counterName = count AllocSlotReq.key past c.req.key := by
    rw [h.current]
    omega
  have hnext : count AllocSlotReq.purpose past c.req.purpose =
      count AllocSlotReq.key past c.req.key := by omega
  have hfree : ¬ db.taken c.req.purpose (db.current c.req.counterName) = true := by
    rw [h.taken, hkey, hnext]
    omega
  obtain ⟨hanswer, htables⟩ := post_of_free hpurpose hfree (by rw [h.seq]; exact hlen)
  refine ⟨by rw [hanswer, hkey, h.seq], ?_⟩
  rw [htables]
  constructor
  · simp [h.seq]
  · -- the call moves its own counter only
    intro name
    rw [count_append_singleton, ← h.current name]
    by_cases hname : name = c.req.counterName
    · subst hname
      simp [SlotDB.current]
    · have hne : c.req.counterName ≠ name := fun heq => hname heq.symm
      simp [SlotDB.current, hname, hne]
  · -- and takes one index more of its own purpose
    intro purpose index
    rw [count_append_singleton]
    by_cases hsame : c.req.purpose = purpose
    · subst hsame
      have hold := h.taken c.req.purpose index
      simp only [SlotDB.taken, List.any_cons, Bool.or_eq_true, if_true] at hold ⊢
      rw [hold, hkey, hnext]
      simp
      omega
    · have hold := h.taken purpose index
      simp only [SlotDB.taken, List.any_cons, Bool.or_eq_true, hsame, if_false] at hold ⊢
      rw [hold]
      simp

/-- A request that gets the index it should get is separate from the earlier ones. -/
theorem separate_of_allocated (h : Consistent db past) (hpurpose : c.req.purpose ≠ "") {id : ℕ}
    (hpost : (db.post c).1 =
      .allocated ⟨id, count AllocSlotReq.key past c.req.key, c.req.expiresAt⟩) :
    past.length < maxRowID ∧ ∀ q ∈ past, Separate q.req c.req := by
  by_cases hfree : db.taken c.req.purpose (db.current c.req.counterName) = true ∨
      ¬ db.seq < maxRowID
  · rw [post_of_not_free hpurpose hfree] at hpost
    cases hpost
  · obtain ⟨htaken, hseq⟩ := not_or.mp hfree
    rw [not_not] at hseq
    rw [(post_of_free hpurpose htaken hseq).1] at hpost
    have hindex : db.current c.req.counterName = count AllocSlotReq.key past c.req.key := by
      injection hpost with hresp
      injection hresp
    rw [h.taken, not_lt, hindex] at htaken
    rw [h.current] at hindex
    exact ⟨h.seq ▸ hseq, (forall_separate_iff past c.req).mpr ⟨htaken, hindex.le⟩⟩

end Consistent

/-! ### A sequence of requests -/

theorem after_append_singleton (cs : List AllocCall) (c : AllocCall) :
    after (cs ++ [c]) = ((after cs).post c).2 := by
  simp [after]

/-- As long as all requests are separate, the tables are consistent. -/
theorem consistent_after (cs : List AllocCall) (hpurpose : ∀ c ∈ cs, c.req.purpose ≠ "")
    (hlen : cs.length ≤ maxRowID) (hsep : cs.Pairwise fun c c' => Separate c.req c'.req) :
    Consistent (after cs) cs := by
  induction cs using List.reverseRecOn with
  | nil => exact consistent_empty
  | append_singleton cs c ih =>
      obtain ⟨hold, -, hnew⟩ := List.pairwise_append.mp hsep
      rw [List.length_append, List.length_singleton] at hlen
      have hcons := ih (fun q hq => hpurpose q (List.mem_append_left _ hq)) (by omega) hold
      rw [after_append_singleton]
      exact (hcons.post (hpurpose c (by simp)) (by omega)
        fun q hq => hnew q hq c (List.mem_singleton_self c)).2

/-- The first requests of a sequence are served as they are without the last one. -/
theorem AllocatesAll.init {cs : List AllocCall} {c : AllocCall} (h : AllocatesAll (cs ++ [c])) :
    AllocatesAll cs := by
  obtain ⟨slotID, hanswer, hinj⟩ := h
  refine ⟨slotID, fun i q hq => ?_, fun i j hi hj => hinj i j ?_ ?_⟩
  · have hi : i < cs.length := (List.getElem?_eq_some_iff.mp hq).1
    have htake : (cs ++ [c]).take i = cs.take i := List.take_append_of_le_length hi.le
    rw [← htake]
    exact hanswer i q (by rw [List.getElem?_append_left hi]; exact hq)
  · rw [List.length_append]
    omega
  · rw [List.length_append]
    omega

/-- Every request of a sequence is served as it should be exactly if any two of its requests are
separate and there are row ids for all of them. -/
theorem allocatesAll_iff (cs : List AllocCall) (hpurpose : ∀ c ∈ cs, c.req.purpose ≠ "") :
    AllocatesAll cs ↔
      cs.length ≤ maxRowID ∧ cs.Pairwise fun c c' => Separate c.req c'.req := by
  constructor
  · intro hall
    -- the last request is the first one that can be refused
    induction cs using List.reverseRecOn with
    | nil => exact ⟨Nat.zero_le _, List.Pairwise.nil⟩
    | append_singleton cs c ih =>
        obtain ⟨hlen, hsep⟩ := ih (fun q hq => hpurpose q (List.mem_append_left _ hq)) hall.init
        have hcons := consistent_after cs (fun q hq => hpurpose q (List.mem_append_left _ hq))
          hlen hsep
        obtain ⟨slotID, hanswer, -⟩ := hall
        have hlast := hanswer cs.length c (by simp)
        rw [List.take_left] at hlast
        obtain ⟨hroom, hnew⟩ := hcons.separate_of_allocated (hpurpose c (by simp)) hlast
        refine ⟨?_, List.pairwise_append.mpr ⟨hsep, by simp, fun q hq q' hq' => ?_⟩⟩
        · rw [List.length_append, List.length_singleton]
          exact hroom
        · rw [List.mem_singleton.mp hq']
          exact hnew q hq
  · rintro ⟨hlen, hsep⟩
    refine ⟨fun i => i + 1, fun i c hc => ?_, fun i j _ _ h => Nat.succ_injective h⟩
    obtain ⟨hi, rfl⟩ := List.getElem?_eq_some_iff.mp hc
    have hsplit : cs.take (i + 1) = cs.take i ++ [cs[i]] := by
      rw [List.take_add_one, hc, Option.toList_some]
    have hsub : (cs.take i).length = i := by simp [hi.le]
    -- the first `i + 1` requests are separate, the last of them from those before it
    have hfirst := hsep.sublist (List.take_sublist (i + 1) cs)
    rw [hsplit] at hfirst
    obtain ⟨hold, -, hnew⟩ := List.pairwise_append.mp hfirst
    have hcons := consistent_after (cs.take i) (fun q hq => hpurpose q (List.mem_of_mem_take hq))
      (by omega) hold
    have hpost := (hcons.post (hpurpose cs[i] (List.getElem_mem hi)) (by omega)
      fun q hq => hnew q hq cs[i] (List.mem_singleton_self _)).1
    rw [hsub] at hpost
    exact hpost

end SlotDB

namespace Sample

/-- A request for an address to be paid at. -/
def allocCall (account : String) : AllocCall := ⟨0, some account, "pay", none⟩

/-- Two accounts ask for an address. -/
def twoAccounts : List AllocCall := [allocCall "alice", allocCall "bob"]

/-- One account asks twice. -/
def oneAccount : List AllocCall := [allocCall "alice", allocCall "alice"]

end Sample

namespace SlotDB

open Sample

/-- One account is served. -/
theorem allocatesAll_oneAccount : AllocatesAll oneAccount := by
  refine (allocatesAll_iff oneAccount ?_).mpr ⟨?_, ?_⟩
  · decide
  · decide
  · simp [oneAccount, Separate]

/-- The second account is answered with status 500. -/
theorem not_allocatesAll_twoAccounts :
    ¬ AllocatesAll twoAccounts ∧
    ((after [allocCall "alice"]).post (allocCall "bob")).1 = .refused 500 "" := by
  have hrefused : ((after [allocCall "alice"]).post (allocCall "bob")).1 =
      .refused 500 "" := by decide
  refine ⟨?_, hrefused⟩
  rintro ⟨slotID, hanswer, -⟩
  have hbob := hanswer 1 (allocCall "bob") rfl
  rw [show twoAccounts.take 1 = [allocCall "alice"] from rfl, hrefused] at hbob
  cases hbob

end SlotDB

end ReserveOS
