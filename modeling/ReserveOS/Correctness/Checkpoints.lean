import Mathlib.Logic.Equiv.List
import ReserveOS.Correctness.Snapshot
import ReserveOS.Storage.Checkpoints

/-!
# The order of the checkpoint listing

`ListCheckpoints` returns what `PutCheckpoint` stored, in byte order of the keys
(`listCheckpoints_store`). This is the order of the heights exactly when of any two heights the
smaller one is at most the number that the larger one begins with, to the same number of digits
(`byHeight_iff`): so for heights with one number of digits, but not for 9 and 10.
-/

namespace ReserveOS

/-! ### Keys -/

theorem keyCheckpoint_eq (height : UInt64) :
    keyCheckpoint height = checkpointPrefix ++ Decimal.text height.toNat := by
  rw [keyCheckpoint, stringBytes_toString]

theorem keyCheckpoint_injective : Function.Injective keyCheckpoint := by
  intro h h' heq
  rw [keyCheckpoint_eq, keyCheckpoint_eq] at heq
  exact UInt64.toNat.inj (Decimal.text_injective (List.append_cancel_left heq))

theorem compare_keyCheckpoint (h h' : UInt64) :
    compare (keyCheckpoint h) (keyCheckpoint h') =
      compare (Decimal.text h.toNat) (Decimal.text h'.toNat) := by
  rw [keyCheckpoint_eq, keyCheckpoint_eq, Lexicographic.compare_append_left]

/-- The key of the smaller height comes first. -/
def KeysInOrder (a b : UInt64) : Prop :=
  a.toNat ≤ b.toNat / 10 ^ (Nat.log 10 b.toNat - Nat.log 10 a.toNat)

namespace CheckpointCodec

variable (c : CheckpointCodec)

/-- `PutCheckpoint` for one checkpoint after the other, each at its height. -/
def store (cps : List Checkpoint) (db : KV) : KV :=
  cps.foldl (fun db cp => c.putCheckpoint db cp.height cp) db

/-- What the listing of checkpoints is for: it has all of them by height, the last one is the
latest, and a page holds the earliest ones from its start on. -/
structure ByHeight (db : KV) (cps : List Checkpoint) : Prop where
  listed : ∃ out, c.listCheckpoints db 5000 = .ok out ∧ out.Perm cps ∧
    out.Pairwise fun a b => a.height < b.height
  latest : ∀ finalized, ∀ cp ∈ cps,
    cp.height ≤ (c.finalityStatus finalized db).latestCheckpointHeight
  earliest : ∀ fromQ countQ fromH count page,
    c.finalityCheckpoints db "GET" fromQ countQ = .page fromH count page →
      ∀ cp ∈ page, ∀ cp' ∈ cps, fromH ≤ cp'.height → cp' ∉ page → cp.height < cp'.height

/-- The database holds the checkpoint table of the node's model. -/
def Represents (db : KV) (s : DB) : Prop :=
  ∀ height, db[keyCheckpoint height]? = (s.checkpoints height).map c.marshal

variable {c} {db : KV} {cps : List Checkpoint}

/-- `PutCheckpoint` writes what the model of the node writes. -/
theorem Represents.putCheckpoint {s : DB} (h : c.Represents db s) (height : UInt64)
    (cp : Checkpoint) :
    c.Represents (c.putCheckpoint db height cp) (s.putCheckpoint height cp) := by
  intro height'
  rw [CheckpointCodec.putCheckpoint, DB.putCheckpoint, Std.ExtTreeMap.getElem?_insert]
  by_cases heq : height = height'
  · simp [heq]
  · simp [Ne.symm heq, keyCheckpoint_injective.ne heq, h height']

/-! ### The listing -/

/-- The entries below the prefix are those of the stored checkpoints. -/
theorem mem_iterator_store (hfresh : db.iterator checkpointPrefix = [])
    (hdistinct : (cps.map Checkpoint.height).Nodup) {k v : List UInt8} :
    (k, v) ∈ (c.store cps db).iterator checkpointPrefix ↔
      ∃ cp ∈ cps, k = keyCheckpoint cp.height ∧ v = c.marshal cp := by
  -- each stored checkpoint is read back, since no later one has its key
  have hread : ∀ cp ∈ cps, (c.store cps db)[keyCheckpoint cp.height]? = some (c.marshal cp) := by
    intro cp hcp
    refine SortedMap.getElem?_foldl_insert (fun cp' hcp' hkey => ?_)
      (.inl (List.mem_map_of_mem hcp))
    rw [List.inj_on_of_nodup_map hdistinct hcp' hcp (keyCheckpoint_injective hkey)]
  rw [KV.mem_iterator]
  constructor
  · rintro ⟨hv, hpref⟩
    by_cases hk : k ∈ cps.map fun cp => keyCheckpoint cp.height
    · obtain ⟨cp, hcp, rfl⟩ := List.mem_map.mp hk
      rw [hread cp hcp] at hv
      exact ⟨cp, hcp, rfl, (Option.some.inj hv).symm⟩
    · have hold : (c.store cps db)[k]? = db[k]? := SortedMap.getElem?_foldl_insert_of_notMem db hk
      have hmem : (k, v) ∈ db.iterator checkpointPrefix := KV.mem_iterator.mpr ⟨hold ▸ hv, hpref⟩
      rw [hfresh] at hmem
      exact absurd hmem List.not_mem_nil
  · rintro ⟨cp, hcp, rfl, rfl⟩
    exact ⟨hread cp hcp, List.prefix_append _ _⟩

/-- Values that decode one by one decode together. -/
theorem unmarshalAll_of_forall {es : List (List UInt8 × List UInt8)}
    (h : ∀ e ∈ es, ∃ cp, c.unmarshal e.2 = some cp) :
    c.unmarshalAll (es.map Prod.snd) = .ok (es.filterMap fun e => c.unmarshal e.2) := by
  induction es with
  | nil => rfl
  | cons e es ih =>
      obtain ⟨⟨cp, hcp⟩, hrest⟩ := List.forall_mem_cons.mp h
      have hhead : (e :: es).filterMap (fun e => c.unmarshal e.2) =
          cp :: es.filterMap fun e => c.unmarshal e.2 := List.filterMap_cons_some hcp
      rw [List.map_cons, unmarshalAll, hcp, ih hrest, hhead]
      rfl

/-- Up to 5000 stored checkpoints are all listed, in byte order of the keys. -/
theorem listCheckpoints_store (hfresh : db.iterator checkpointPrefix = [])
    (hdistinct : (cps.map Checkpoint.height).Nodup) (hfew : cps.length ≤ 5000) :
    ∃ out, c.listCheckpoints (c.store cps db) 5000 = .ok out ∧ out.Perm cps ∧
      out.Pairwise fun a b => compare (keyCheckpoint a.height) (keyCheckpoint b.height) = .lt := by
  have hmem := fun k v => mem_iterator_store (c := c) hfresh hdistinct (k := k) (v := v)
  generalize hes : (c.store cps db).iterator checkpointPrefix = es at hmem
  have hnodup : es.Nodup := hes ▸ KV.nodup_iterator _ _
  have horder : es.Pairwise fun e e' => compare e.1 e'.1 = .lt := hes ▸ KV.ordered_iterator _ _
  -- the entries are the pairs of keys and values, in some order
  have hperm : es.Perm (cps.map fun cp => (keyCheckpoint cp.height, c.marshal cp)) := by
    refine (List.perm_ext_iff_of_nodup hnodup ?_).mpr ?_
    · have hkeys := hdistinct.map keyCheckpoint_injective
      rw [List.map_map] at hkeys
      apply List.Nodup.of_map Prod.fst
      rwa [List.map_map]
    · rintro ⟨k, v⟩
      rw [hmem, List.mem_map]
      simp only [Prod.mk.injEq, eq_comm]
  have hdecode : ∀ e ∈ es, ∃ cp, c.unmarshal e.2 = some cp ∧ e.1 = keyCheckpoint cp.height := by
    rintro ⟨k, v⟩ he
    obtain ⟨cp, -, rfl, rfl⟩ := (hmem k v).mp he
    exact ⟨cp, c.unmarshal_marshal cp, rfl⟩
  refine ⟨es.filterMap fun e => c.unmarshal e.2, ?_, ?_, ?_⟩
  · have hlen : (es.map Prod.snd).length ≤ 5000 := by
      rw [List.length_map, hperm.length_eq, List.length_map]
      exact hfew
    have hlimit :
        (if (5000 : ℤ) ≤ 0 ∨ (5000 : ℤ) < 5000 then 5000 else (5000 : ℤ).toNat) = 5000 := rfl
    rw [listCheckpoints, hes, hlimit, List.take_of_length_le hlen]
    exact unmarshalAll_of_forall fun e he => (hdecode e he).imp fun cp h => h.1
  · refine (hperm.filterMap _).trans ?_
    have hsome : ((fun e => c.unmarshal e.2) ∘ fun cp : Checkpoint =>
        (keyCheckpoint cp.height, c.marshal cp)) = some := funext c.unmarshal_marshal
    rw [List.filterMap_map, hsome, List.filterMap_some]
  · rw [List.pairwise_filterMap]
    refine horder.imp_of_mem fun {e e'} he he' hlt cp hcp cp' hcp' => ?_
    obtain ⟨x, hx, hkey⟩ := hdecode e he
    obtain ⟨x', hx', hkey'⟩ := hdecode e' he'
    obtain rfl := Option.some.inj (hx.symm.trans hcp)
    obtain rfl := Option.some.inj (hx'.symm.trans hcp')
    rwa [← hkey, ← hkey']

/-! ### The order of heights -/

theorem compare_keyCheckpoint_eq_lt_iff {a b : UInt64} (h : a < b) :
    compare (keyCheckpoint a) (keyCheckpoint b) = .lt ↔ KeysInOrder a b := by
  rw [compare_keyCheckpoint]
  exact Decimal.compare_text_eq_lt_iff (UInt64.lt_iff_toNat_lt.mp h)

/-- A listing in byte order of the keys is one by height exactly when the keys of any two heights
are in the order of the heights. -/
theorem pairwise_height_iff {out : List Checkpoint}
    (hout : out.Pairwise fun a b =>
      compare (keyCheckpoint a.height) (keyCheckpoint b.height) = .lt) :
    (out.Pairwise fun a b => a.height < b.height) ↔
      ∀ a ∈ out, ∀ b ∈ out, a.height < b.height → KeysInOrder a.height b.height := by
  constructor
  · intro hheights
    -- of two entries the first one has the smaller height and the smaller key
    have hforward := (hheights.and hout).imp fun {a b} hab (hlt : a.height < b.height) =>
      (compare_keyCheckpoint_eq_lt_iff hlt).mp hab.2
    have hbackward := hheights.imp fun {a b} hab (hgt : b.height < a.height) =>
      (absurd hgt (UInt64.lt_asymm hab) : KeysInOrder b.height a.height)
    intro a ha b hb
    refine hforward.forall_of_forall_of_flip (fun x _ hlt => ?_) hbackward ha hb
    exact absurd hlt (UInt64.lt_irrefl _)
  · intro hkeys
    refine hout.imp_of_mem fun {a b} ha hb hcmp => ?_
    by_contra hnot
    rcases UInt64.lt_or_eq_of_le (UInt64.not_lt.mp hnot) with hlt | heq
    · -- the key of the smaller height would come first
      have hback := (compare_keyCheckpoint_eq_lt_iff hlt).mpr (hkeys b hb a ha hlt)
      rw [Std.OrientedOrd.eq_swap, hcmp] at hback
      cases hback
    · rw [heq, Std.ReflOrd.compare_self] at hcmp
      cases hcmp

/-! ### The handlers -/

/-- `/finality/status` reports the highest of the listed checkpoints. -/
theorem height_le_latest {out : List Checkpoint} (hlist : c.listCheckpoints db 5000 = .ok out)
    (hheights : out.Pairwise fun a b => a.height < b.height) (finalized : Option UInt64)
    {cp : Checkpoint} (hcp : cp ∈ out) :
    cp.height ≤ (c.finalityStatus finalized db).latestCheckpointHeight := by
  obtain ⟨front, last, hsplit⟩ :=
    (List.eq_nil_or_concat out).resolve_left (List.ne_nil_of_mem hcp)
  rw [List.concat_eq_append] at hsplit
  subst hsplit
  have hlatest : (c.finalityStatus finalized db).latestCheckpointHeight = last.height := by
    rw [finalityStatus, hlist]
    dsimp only
    rw [List.getLast?_concat, Option.map_some, Option.getD_some]
  rw [hlatest]
  rcases List.mem_append.mp hcp with hfront | hlast
  · have hlt := (List.pairwise_append.mp hheights).2.2 cp hfront last (List.mem_singleton_self last)
    exact UInt64.le_of_lt hlt
  · rw [List.mem_singleton.mp hlast]
    exact UInt64.le_rfl

/-- A page of `/finality/checkpoints` is in the order of the listing. -/
theorem height_lt_of_page {out : List Checkpoint} (hlist : c.listCheckpoints db 5000 = .ok out)
    (hheights : out.Pairwise fun a b => a.height < b.height) {fromQ countQ : String}
    {fromH : UInt64} {count : ℕ} {page : List Checkpoint}
    (hpage : c.finalityCheckpoints db "GET" fromQ countQ = .page fromH count page)
    {cp cp' : Checkpoint} (hcp : cp ∈ page) (hcp' : cp' ∈ out) (hfrom : fromH ≤ cp'.height)
    (hnot : cp' ∉ page) : cp.height < cp'.height := by
  rw [finalityCheckpoints, if_neg (by decide), hlist] at hpage
  dsimp only at hpage
  obtain ⟨rfl, -, rfl⟩ := CheckpointsReply.page.inj hpage
  generalize (parseUint fromQ.toList).getD 0 = fromH at *
  -- the entries that the page is cut from
  generalize hrest : (if 0 < fromH then out.filter fun cp => fromH ≤ cp.height else out) = rest at *
  have hmem : cp' ∈ rest := by
    rw [← hrest]
    split
    · exact List.mem_filter.mpr ⟨hcp', decide_eq_true hfrom⟩
    · exact hcp'
  have horder : rest.Pairwise fun a b => a.height < b.height := by
    rw [← hrest]
    split
    · exact hheights.filter _
    · exact hheights
  rw [← List.take_append_drop (pageSize countQ) rest] at hmem horder
  have hdrop := (List.mem_append.mp hmem).resolve_left hnot
  exact (List.pairwise_append.mp horder).2.2 cp hcp cp' hdrop

/-- For every database without checkpoints and every set of at most 5000 checkpoints stored in it:
they are listed by height if and only if for any two heights `a < b` the number `a` is at most what
`b` begins with, to as many digits as `a` has. -/
theorem byHeight_iff (hfresh : db.iterator checkpointPrefix = [])
    (hdistinct : (cps.map Checkpoint.height).Nodup) (hfew : cps.length ≤ 5000) :
    c.ByHeight (c.store cps db) cps ↔
      ∀ a ∈ cps, ∀ b ∈ cps, a.height < b.height → KeysInOrder a.height b.height := by
  obtain ⟨out, hlist, hperm, hout⟩ := listCheckpoints_store (c := c) hfresh hdistinct hfew
  have hiff := pairwise_height_iff hout
  simp only [hperm.mem_iff] at hiff
  rw [← hiff]
  constructor
  · rintro ⟨⟨out', hlist', -, hheights⟩, -, -⟩
    obtain rfl := Except.ok.inj (hlist.symm.trans hlist')
    exact hheights
  · intro hheights
    refine ⟨⟨out, hlist, hperm, hheights⟩, fun finalized cp hcp => ?_, ?_⟩
    · exact height_le_latest hlist hheights finalized (hperm.mem_iff.mpr hcp)
    · intro fromQ countQ fromH count page hpage cp hcp cp' hcp' hfrom hnot
      exact height_lt_of_page hlist hheights hpage hcp (hperm.mem_iff.mpr hcp') hfrom hnot

end CheckpointCodec

/-! ### Concrete listings -/

namespace Sample

/-- A codec for checkpoints: the fields as one number, in decimal. -/
def checkpointCodec : CheckpointCodec where
  marshal cp := Decimal.text
    (Encodable.encode (cp.height.toNat, cp.hashHex.toList.map Char.toNat, cp.timeUnix.toInt))
  unmarshal v := (Encodable.decode (α := ℕ × List ℕ × ℤ) (Decimal.value v)).map fun e =>
    ⟨UInt64.ofNat e.1, String.ofList (e.2.1.map Char.ofNat), Int64.ofInt e.2.2⟩
  unmarshal_marshal cp := by
    rw [Decimal.value_text, Encodable.encodek]
    simp [Function.comp_def]

/-- A checkpoint. -/
def checkpointAt (height : UInt64) : Checkpoint := ⟨height, "", 0⟩

theorem iterator_empty (pref : List UInt8) : (∅ : KV).iterator pref = [] := rfl

end Sample

namespace CheckpointCodec

open Sample

/-- Two heights of two digits are listed in their order. -/
theorem byHeight_twenty :
    checkpointCodec.ByHeight (checkpointCodec.store [checkpointAt 20, checkpointAt 10] ∅)
      [checkpointAt 20, checkpointAt 10] := by
  refine (byHeight_iff (iterator_empty _) (by decide) (by decide)).mpr ?_
  -- both heights have two digits
  have hlog : ∀ h : UInt64, 10 ≤ h.toNat → h.toNat < 100 → Nat.log 10 h.toNat = 1 := fun h h₁ h₂ =>
    (Nat.log_eq_iff (Or.inl one_ne_zero)).mpr ⟨h₁, h₂⟩
  intro a ha b hb hlt
  have hrange : ∀ cp ∈ [checkpointAt 20, checkpointAt 10],
      10 ≤ cp.height.toNat ∧ cp.height.toNat < 100 := by decide
  rw [KeysInOrder, hlog _ (hrange a ha).1 (hrange a ha).2, hlog _ (hrange b hb).1 (hrange b hb).2,
    Nat.sub_self, Nat.pow_zero, Nat.div_one]
  exact UInt64.le_iff_toNat_le.mp (UInt64.le_of_lt hlt)

/-- The heights 9 and 10 are listed the other way round: 9 is reported as the latest checkpoint, and
10 is the first one of a page. -/
theorem not_byHeight_ten :
    checkpointCodec.listCheckpoints
          (checkpointCodec.store [checkpointAt 9, checkpointAt 10] ∅) 5000 =
        .ok [checkpointAt 10, checkpointAt 9] ∧
      (checkpointCodec.finalityStatus none
        (checkpointCodec.store [checkpointAt 9, checkpointAt 10] ∅)).latestCheckpointHeight = 9 ∧
      checkpointCodec.finalityCheckpoints
          (checkpointCodec.store [checkpointAt 9, checkpointAt 10] ∅) "GET" "" "1" =
        .page 0 1 [checkpointAt 10] ∧
      ¬ checkpointCodec.ByHeight (checkpointCodec.store [checkpointAt 9, checkpointAt 10] ∅)
        [checkpointAt 9, checkpointAt 10] := by
  have hlist : checkpointCodec.listCheckpoints
      (checkpointCodec.store [checkpointAt 9, checkpointAt 10] ∅) 5000 =
        .ok [checkpointAt 10, checkpointAt 9] := by
    obtain ⟨out, hok, hperm, hout⟩ := checkpointCodec.listCheckpoints_store
      (iterator_empty checkpointPrefix) (show ([checkpointAt 9, checkpointAt 10].map
        Checkpoint.height).Nodup by decide) (by decide)
    rw [hok]
    obtain ⟨a, b, rfl⟩ := List.length_eq_two.mp hperm.length_eq
    have hlt := (List.pairwise_cons.mp hout).1 b (List.mem_singleton_self b)
    have ha := hperm.mem_iff.mp List.mem_cons_self
    have hb := hperm.mem_iff.mp (List.mem_cons_of_mem a List.mem_cons_self)
    -- of the two keys that of 10 is the smaller one
    have hself : ∀ h, compare (keyCheckpoint h) (keyCheckpoint h) ≠ .lt := by
      intro h
      rw [Std.ReflOrd.compare_self]
      decide
    have hcmp : compare (keyCheckpoint 9) (keyCheckpoint 10) ≠ .lt := by decide +kernel
    rcases List.mem_pair.mp ha with rfl | rfl <;> rcases List.mem_pair.mp hb with rfl | rfl
    · exact absurd hlt (hself 9)
    · exact absurd hlt hcmp
    · rfl
    · exact absurd hlt (hself 10)
  refine ⟨hlist, ?_, ?_, ?_⟩
  · rw [finalityStatus, hlist]
    rfl
  · rw [finalityCheckpoints, if_neg (by decide), hlist]
    rfl
  · rintro ⟨⟨out, hok, -, hheights⟩, -, -⟩
    obtain rfl := Except.ok.inj (hlist.symm.trans hok)
    exact absurd ((List.pairwise_cons.mp hheights).1 _ (List.mem_singleton_self _)) (by decide)

end CheckpointCodec

end ReserveOS
