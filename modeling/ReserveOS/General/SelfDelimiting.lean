import Mathlib.Tactic.Ring

/-!
# Self-delimiting encodings

An encoding is self-delimiting if from a message and whatever follows it both the value and what
follows can be read off. Such encodings can be written one after another without separators.

The rules build them up: fixed width, a count before a list, a length before raw symbols, and a tag
before an optional part. `P` is the set of values for which this holds.

A separator delimits only fields in which it does not occur. For three fields of which only the one
in the middle is known to be without it, `separated_eq_iff` says what else can be read.
-/

namespace Wire

variable {σ α β : Type*}

/-- A message and what follows it determine the value and what follows. -/
def SelfDelimiting (P : α → Prop) (enc : α → List σ) : Prop :=
  ∀ a b, P a → P b → ∀ r s, enc a ++ r = enc b ++ s → a = b ∧ r = s

variable {P : α → Prop} {enc : α → List σ}

/-- Messages of one width that determine the value. -/
theorem selfDelimiting_of_length {k : ℕ} (hlen : ∀ a, P a → (enc a).length = k)
    (hinj : ∀ a b, P a → P b → enc a = enc b → a = b) : SelfDelimiting P enc := by
  intro a b ha hb r s h
  obtain ⟨henc, hrest⟩ := List.append_inj h ((hlen a ha).trans (hlen b hb).symm)
  exact ⟨hinj a b ha hb henc, hrest⟩

namespace SelfDelimiting

/-- A value is encoded by way of another one that determines it. -/
theorem comp (h : SelfDelimiting P enc) {f : β → α} {Q : β → Prop} (hQ : ∀ b, Q b → P (f b))
    (hf : ∀ b b', Q b → Q b' → f b = f b' → b = b') : SelfDelimiting Q fun b => enc (f b) := by
  intro b b' hb hb' r s heq
  obtain ⟨hfb, hrest⟩ := h _ _ (hQ b hb) (hQ b' hb') r s heq
  exact ⟨hf b b' hb hb' hfb, hrest⟩

/-- Lists of the same length, element by element. -/
theorem flatMap (h : SelfDelimiting P enc) {l l' : List α} (hlen : l.length = l'.length)
    (hl : ∀ a ∈ l, P a) (hl' : ∀ a ∈ l', P a) {r s : List σ}
    (heq : l.flatMap enc ++ r = l'.flatMap enc ++ s) : l = l' ∧ r = s := by
  induction l generalizing l' with
  | nil =>
      obtain rfl : l' = [] := List.length_eq_zero_iff.mp hlen.symm
      exact ⟨rfl, heq⟩
  | cons a l ih =>
      cases l' with
      | nil => simp at hlen
      | cons b l' =>
          rw [List.flatMap_cons, List.flatMap_cons, List.append_assoc, List.append_assoc] at heq
          -- the first elements agree, and the rest follows by induction
          obtain ⟨rfl, htail⟩ := h a b (hl a List.mem_cons_self) (hl' b List.mem_cons_self) _ _ heq
          obtain ⟨rfl, hrest⟩ := ih (by simpa using hlen)
            (fun x hx => hl x (List.mem_cons_of_mem _ hx))
            (fun x hx => hl' x (List.mem_cons_of_mem _ hx)) htail
          exact ⟨rfl, hrest⟩

variable {N : ℕ → Prop} {count : ℕ → List σ}

/-- The number of elements, then the elements. -/
theorem counted (hcount : SelfDelimiting N count) (h : SelfDelimiting P enc) :
    SelfDelimiting (fun l : List α => N l.length ∧ ∀ a ∈ l, P a)
      fun l => count l.length ++ l.flatMap enc := by
  rintro l l' ⟨hN, hl⟩ ⟨hN', hl'⟩ r s heq
  rw [List.append_assoc, List.append_assoc] at heq
  obtain ⟨hlen, heq⟩ := hcount _ _ hN hN' _ _ heq
  exact h.flatMap hlen hl hl' heq

/-- The length, then the symbols as they are. -/
theorem prefixed (hcount : SelfDelimiting N count) :
    SelfDelimiting (fun l : List σ => N l.length) fun l => count l.length ++ l := by
  have hone : SelfDelimiting (fun _ => True) fun x : σ => [x] :=
    selfDelimiting_of_length (fun _ _ => rfl) fun _ _ _ _ h => List.singleton_inj.mp h
  intro l l' hN hN' r s heq
  refine hcount.counted hone l l' ⟨hN, fun _ _ => trivial⟩ ⟨hN', fun _ _ => trivial⟩ r s ?_
  simpa only [List.flatMap_singleton'] using heq

/-- A tag that tells whether a value follows. -/
theorem option (h : SelfDelimiting P enc) {x y : σ} (hxy : x ≠ y) :
    SelfDelimiting (fun o : Option α => ∀ a ∈ o, P a) fun o => o.elim [x] fun a => y :: enc a := by
  intro o o' ho ho' r s heq
  cases o with
  | none =>
      cases o' with
      | none => exact ⟨rfl, by simpa using heq⟩
      | some b => exact absurd (List.cons.inj heq).1 hxy
  | some a =>
      cases o' with
      | none => exact absurd (List.cons.inj heq).1 hxy.symm
      | some b =>
          obtain ⟨rfl, hrest⟩ := h a b (ho a rfl) (ho' b rfl) r s (List.cons.inj heq).2
          exact ⟨rfl, hrest⟩

end SelfDelimiting

/-! ### Little-endian bytes -/

/-- A number below `256 ^ k` is determined by its `k` low bytes. -/
theorem eq_of_bytes {k a b : ℕ} (ha : a < 256 ^ k) (hb : b < 256 ^ k)
    (h : ∀ i < k, a / 256 ^ i % 256 = b / 256 ^ i % 256) : a = b := by
  induction k generalizing a b with
  | zero =>
      rw [pow_zero] at ha hb
      omega
  | succ k ih =>
      rw [pow_succ] at ha hb
      have hlow := h 0 (Nat.succ_pos k)
      rw [pow_zero, Nat.div_one, Nat.div_one] at hlow
      -- the other bytes are those of the quotients
      have hhigh : a / 256 = b / 256 := by
        refine ih (by omega) (by omega) fun i hi => ?_
        have hbyte := h (i + 1) (Nat.succ_lt_succ hi)
        rwa [pow_succ', ← Nat.div_div_eq_div_mul, ← Nat.div_div_eq_div_mul] at hbyte
      omega

/-! ### Fields with a separator -/

/-- The field before the first separator, read from a field that may contain separators. -/
theorem split_at_separator {sep : σ} {n w x y : List σ} (hn : sep ∉ n)
    (h : n ++ sep :: x = w ++ sep :: y) :
    (w = n ∧ x = y) ∨ ∃ v, w = n ++ sep :: v ∧ x = v ++ sep :: y := by
  rcases List.append_eq_append_iff.mp h with ⟨a, hw, hx⟩ | ⟨a, hn', hy⟩
  · rcases a with _ | ⟨s, v⟩
    · exact .inl ⟨by rw [hw, List.append_nil], (List.cons.inj hx).2⟩
    · obtain ⟨rfl, hrest⟩ := List.cons.inj hx
      exact .inr ⟨v, hw, hrest⟩
  · rcases a with _ | ⟨s, v⟩
    · exact .inl ⟨by rw [hn', List.append_nil], (List.cons.inj hy).2.symm⟩
    · obtain ⟨rfl, -⟩ := List.cons.inj hy
      exact absurd (hn' ▸ List.mem_append_right w List.mem_cons_self) hn

/-- The first field of a triple and what follows it up to a separator of the third field are the
first field of the other triple, and the rest of the third field holds its other two fields. -/
def Shifted (sep : σ) (c n x c' n' x' : List σ) : Prop :=
  ∃ u, c' ++ [sep] = c ++ sep :: (n ++ sep :: u) ∧ x = u ++ (n' ++ sep :: x')

theorem Shifted.append_eq {sep : σ} {c n x c' n' x' : List σ} (h : Shifted sep c n x c' n' x') :
    c ++ sep :: (n ++ sep :: x) = c' ++ sep :: (n' ++ sep :: x') := by
  obtain ⟨u, hc, rfl⟩ := h
  rw [List.append_cons c', hc]
  simp

/-- The case in which the first field is not longer than the other one. -/
theorem eq_or_shifted {sep : σ} {c n x c' n' x' a : List σ} (hn : sep ∉ n) (hn' : sep ∉ n')
    (hc : c' ++ [sep] = (c ++ [sep]) ++ a) (hx : n ++ sep :: x = a ++ (n' ++ sep :: x')) :
    (c = c' ∧ n = n' ∧ x = x') ∨ Shifted sep c n x c' n' x' := by
  rcases List.eq_nil_or_concat a with rfl | ⟨w, s, rfl⟩
  · rw [List.append_nil, List.append_left_inj] at hc
    rcases split_at_separator hn hx with ⟨rfl, rfl⟩ | ⟨v, rfl, -⟩
    · exact .inl ⟨hc.symm, rfl, rfl⟩
    · exact absurd (List.mem_append_right n List.mem_cons_self) hn'
  · -- what lies between the ends of the first fields ends with a separator
    rw [List.concat_eq_append] at hc hx
    rw [← List.append_assoc, List.append_assoc c] at hc
    obtain ⟨hc, hs⟩ := List.append_inj' hc rfl
    obtain rfl := List.singleton_inj.mp hs
    rw [List.append_assoc] at hx
    right
    rcases split_at_separator hn hx with ⟨rfl, rfl⟩ | ⟨v, rfl, rfl⟩
    · exact ⟨[], by simp [hc], rfl⟩
    · exact ⟨v ++ [sep], by simp [hc], by simp⟩

/-- Three fields, of which the one in the middle has no separator, are read back up to a shift. -/
theorem separated_eq_iff {sep : σ} {c n x c' n' x' : List σ} (hn : sep ∉ n) (hn' : sep ∉ n') :
    c ++ sep :: (n ++ sep :: x) = c' ++ sep :: (n' ++ sep :: x') ↔
      (c = c' ∧ n = n' ∧ x = x') ∨ Shifted sep c n x c' n' x' ∨ Shifted sep c' n' x' c n x := by
  constructor
  · intro h
    rw [List.append_cons c, List.append_cons c'] at h
    rcases List.append_eq_append_iff.mp h with ⟨a, hc, hx⟩ | ⟨a, hc, hx⟩
    · rcases eq_or_shifted hn hn' hc hx with heq | hs
      · exact .inl heq
      · exact .inr (.inl hs)
    · rcases eq_or_shifted hn' hn hc hx with ⟨rfl, rfl, rfl⟩ | hs
      · exact .inl ⟨rfl, rfl, rfl⟩
      · exact .inr (.inr hs)
  · rintro (⟨rfl, rfl, rfl⟩ | hs | hs)
    · rfl
    · exact hs.append_eq
    · exact hs.append_eq.symm

end Wire
