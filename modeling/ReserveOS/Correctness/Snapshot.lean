import ReserveOS.Correctness.Encoding
import ReserveOS.General.SortedMap
import ReserveOS.State.Snapshot

/-!
# Snapshots restore the state they were taken from

A snapshot is written by a scan of the two state prefixes and loaded by a write for each entry.
`KV.getElem?_scan` says what the scan collects, `KV.restores_load` what the writes leave behind, and
`Codecs.snapshots_restore` puts them together for both file formats and both ways to load: below
the state prefixes the target agrees with the source, everywhere else it is what it was.

`KV.Represents` relates the stored bytes to the `Ledger` that the node's model works with.
-/

namespace ReserveOS

/-! ### Eight-byte values -/

/-- Joining one more byte to shifted bytes. -/
theorem shiftLeft_or_byte (a k : ℕ) (x : UInt8) :
    a <<< (k + 8) ||| x.toNat <<< k = (a * 256 + x.toNat) <<< k := by
  have h8 : a <<< 8 ||| x.toNat = a * 256 + x.toNat := by
    rw [← Nat.shiftLeft_add_eq_or_of_lt (i := 8) x.toNat_lt, Nat.shiftLeft_eq]
  rw [Nat.add_comm k 8, Nat.shiftLeft_add, ← Nat.shiftLeft_or_distrib, h8]

/-- A byte shifted inside 64 bits loses nothing. -/
theorem toNat_byte_shiftLeft (x : UInt8) (s : UInt64) (hs : s.toNat ≤ 56) :
    (x.toUInt64 <<< s).toNat = x.toNat <<< s.toNat := by
  have hmod : s.toNat % 64 = s.toNat := by omega
  rw [UInt64.toNat_shiftLeft, hmod, UInt8.toNat_toUInt64, Nat.mod_eq_of_lt]
  rw [Nat.shiftLeft_eq]
  calc x.toNat * 2 ^ s.toNat
      < 2 ^ 8 * 2 ^ s.toNat := Nat.mul_lt_mul_of_pos_right x.toNat_lt (Nat.two_pow_pos _)
    _ = 2 ^ (8 + s.toNat) := (Nat.pow_add 2 8 _).symm
    _ ≤ 2 ^ 64 := Nat.pow_le_pow_right (by decide) (by omega)

/-- The joined bytes as a number. -/
theorem toNat_join (v0 v1 v2 v3 v4 v5 v6 v7 : UInt8) :
    (v0.toUInt64 <<< 56 ||| v1.toUInt64 <<< 48 ||| v2.toUInt64 <<< 40 ||| v3.toUInt64 <<< 32 |||
      v4.toUInt64 <<< 24 ||| v5.toUInt64 <<< 16 ||| v6.toUInt64 <<< 8 ||| v7.toUInt64).toNat =
      ((((((v0.toNat * 256 + v1.toNat) * 256 + v2.toNat) * 256 + v3.toNat) * 256 + v4.toNat) * 256
        + v5.toNat) * 256 + v6.toNat) * 256 + v7.toNat := by
  simp (disch := decide) only [UInt64.toNat_or, UInt8.toNat_toUInt64, toNat_byte_shiftLeft,
    UInt64.reduceToNat]
  rw [shiftLeft_or_byte _ 48, shiftLeft_or_byte _ 40, shiftLeft_or_byte _ 32,
    shiftLeft_or_byte _ 24, shiftLeft_or_byte _ 16, shiftLeft_or_byte _ 8]
  exact shiftLeft_or_byte _ 0 v7

/-- What `PutUint64` writes is read back. -/
@[simp] theorem entryValue_putUint64 (v : UInt64) : entryValue (putUint64 v) = some v := by
  have hv := v.toNat_lt
  simp only [entryValue, putUint64, Option.some.injEq]
  apply UInt64.toNat.inj
  rw [toNat_join]
  -- the eight digits to base 256 of a 64-bit number
  simp only [UInt64.toNat_toUInt8, UInt64.toNat_shiftRight, Nat.shiftRight_eq_div_pow,
    UInt64.reduceToNat, Nat.reduceMod, Nat.reducePow]
  omega

/-! ### Keys -/

/-- A key that holds part of the state. -/
def isStateKey (k : List UInt8) : Bool := balPrefix.isPrefixOf k || noncePrefix.isPrefixOf k

@[simp] theorem trimPrefix_append (pref id : List UInt8) : trimPrefix (pref ++ id) pref = id := by
  simp [trimPrefix]

theorem balPrefix_eq : balPrefix = [98, 97, 108, 58] := by decide

theorem noncePrefix_eq : noncePrefix = [110, 111, 110, 99, 101, 58] := by decide

/-- Balance keys and nonce keys differ in their first byte. -/
theorem not_noncePrefix_bal (id : List UInt8) : ¬ noncePrefix <+: balPrefix ++ id := by
  simp [balPrefix_eq, noncePrefix_eq]

theorem not_balPrefix_nonce (id : List UInt8) : ¬ balPrefix <+: noncePrefix ++ id := by
  simp [balPrefix_eq, noncePrefix_eq]

namespace KV

variable {V : Type}

theorem mem_iterator {db : KV} {pref k v : List UInt8} :
    (k, v) ∈ db.iterator pref ↔ db[k]? = some v ∧ pref <+: k := by
  rw [iterator, List.mem_filter, Std.ExtTreeMap.mem_toList_iff_getElem?_eq_some,
    List.isPrefixOf_iff_prefix]

theorem mem_keys_iterator {db : KV} {pref k : List UInt8} :
    k ∈ (db.iterator pref).map Prod.fst ↔ (∃ v, db[k]? = some v) ∧ pref <+: k := by
  simp [mem_iterator]

theorem nodup_iterator (db : KV) (pref : List UInt8) : (db.iterator pref).Nodup :=
  (SortedMap.nodup_toList db).filter _

/-- The entries are visited in byte order of their keys. -/
theorem ordered_iterator (db : KV) (pref : List UInt8) :
    (db.iterator pref).Pairwise fun e e' => compare e.1 e'.1 = .lt :=
  Std.ExtTreeMap.ordered_keys_toList.filter _

/-- The scan collects what is stored below the prefix, under the key without it. -/
theorem getElem?_scan (db : KV) (pref : List UInt8) (conv : UInt64 → V) (id : List UInt8) :
    (db.scan pref conv)[id]? = (db[pref ++ id]?.bind entryValue).map conv := by
  -- the entries that the loop writes
  let f : List UInt8 × List UInt8 → Option (List UInt8 × V) := fun e =>
    (entryValue e.2).map fun u => (trimPrefix e.1 pref, conv u)
  have hscan : db.scan pref conv =
      ((db.iterator pref).filterMap f).foldl (fun m e => m.insert e.1 e.2) ∅ := by
    rw [List.foldl_filterMap, scan]
    congr 1
    funext m e
    simp only [f]
    cases entryValue e.2 <;> rfl
  have hmem : ∀ e : List UInt8 × V, e ∈ (db.iterator pref).filterMap f ↔
      (db[pref ++ e.1]?.bind entryValue).map conv = some e.2 := by
    rintro ⟨i, w⟩
    rw [List.mem_filterMap]
    constructor
    · rintro ⟨⟨k, b⟩, hkb, hf⟩
      obtain ⟨hb, i', rfl⟩ := mem_iterator.mp hkb
      obtain ⟨u, hu, heq⟩ := Option.map_eq_some_iff.mp hf
      rw [trimPrefix_append] at heq
      obtain ⟨rfl, rfl⟩ := Prod.mk.inj heq
      rw [hb, Option.bind_some, hu, Option.map_some]
    · intro h
      obtain ⟨u, hu, rfl⟩ := Option.map_eq_some_iff.mp h
      obtain ⟨b, hb, hu⟩ := Option.bind_eq_some_iff.mp hu
      refine ⟨(pref ++ i, b), mem_iterator.mpr ⟨hb, List.prefix_append pref i⟩, ?_⟩
      simp only [f, hu, Option.map_some, trimPrefix_append]
  rw [hscan]
  cases hid : (db[pref ++ id]?.bind entryValue).map conv with
  | some w =>
      apply SortedMap.getElem?_foldl_insert
      · rintro e he rfl
        exact Option.some.inj (((hmem e).mp he).symm.trans hid)
      · exact .inl (List.mem_map.mpr ⟨(id, w), (hmem (id, w)).mpr hid, rfl⟩)
  | none =>
      rw [SortedMap.getElem?_foldl_insert_of_notMem, Std.ExtTreeMap.getElem?_empty]
      intro hk
      obtain ⟨e, he, rfl⟩ := List.mem_map.mp hk
      exact absurd (((hmem e).mp he).symm.trans hid) (by simp)

/-! ### Clearing the state -/

/-- Deleting the keys that an iterator lists. -/
theorem getElem?_deleteAll_iterator {db : KV} {pref k v : List UInt8} :
    (db.deleteAll ((db.iterator pref).map Prod.fst))[k]? = some v ↔
      ¬ pref <+: k ∧ db[k]? = some v := by
  rw [deleteAll, SortedMap.getElem?_foldl_erase_eq_some_iff, mem_keys_iterator]
  apply and_congr_left
  intro hv
  simp [hv]

/-- Outside the two prefixes nothing is deleted. -/
theorem getElem?_resetState (db : KV) (k : List UInt8) :
    db.resetState[k]? = if isStateKey k then none else db[k]? := by
  ext v
  rw [resetState, deleteAll, SortedMap.getElem?_foldl_erase_eq_some_iff, List.mem_append,
    mem_keys_iterator, mem_keys_iterator, ← List.isPrefixOf_iff_prefix,
    ← List.isPrefixOf_iff_prefix]
  by_cases hk : isStateKey k = true
  · rw [if_pos hk]
    simp only [isStateKey, Bool.or_eq_true] at hk
    constructor
    · rintro ⟨hmem, hv⟩
      exact absurd (hk.imp (fun h => ⟨⟨v, hv⟩, h⟩) fun h => ⟨⟨v, hv⟩, h⟩) hmem
    · simp
  · rw [if_neg hk]
    simp only [isStateKey, Bool.or_eq_true, not_or] at hk
    simp [hk]

/-- Both ways to clear the state delete the same keys. -/
theorem wipeStatePrefixes_eq (db : KV) : db.wipeStatePrefixes = db.resetState := by
  apply Std.ExtTreeMap.ext_getElem?
  intro k
  ext v
  rw [wipeStatePrefixes, getElem?_deleteAll_iterator, getElem?_deleteAll_iterator,
    getElem?_resetState, isStateKey, ← List.isPrefixOf_iff_prefix, ← List.isPrefixOf_iff_prefix]
  by_cases hb : balPrefix.isPrefixOf k <;> by_cases hn : noncePrefix.isPrefixOf k <;> simp [hb, hn]

/-! ### Loading a snapshot -/

/-- The writes of a loaded map leave other keys alone. -/
theorem getElem?_foldl_put_of_outside {l : List (List UInt8 × V)} {pref k : List UInt8}
    (enc : V → List UInt8) (db : KV) (hk : ¬ pref <+: k) :
    (l.foldl (fun db e => db.insert (pref ++ e.1) (enc e.2)) db)[k]? = db[k]? := by
  apply SortedMap.getElem?_foldl_insert_of_notMem
  intro hmem
  obtain ⟨e, -, rfl⟩ := List.mem_map.mp hmem
  exact hk (List.prefix_append pref e.1)

/-! ### Reading after a write -/

section Writes

variable (db : KV) (id id' : List UInt8)

theorem keyBal_ne_keyNonce : keyBal id ≠ keyNonce id' := by
  simp [keyBal, keyNonce, balPrefix_eq, noncePrefix_eq]

@[simp] theorem getElem?_setBalance_keyBal (v : Int64) : (db.setBalance id v)[keyBal id']? =
    if id = id' then some (putUint64 (if v < 0 then 0 else v).toUInt64) else db[keyBal id']? := by
  rw [setBalance, Std.ExtTreeMap.getElem?_insert]
  simp [keyBal]

@[simp] theorem getElem?_setBalance_keyNonce (v : Int64) :
    (db.setBalance id v)[keyNonce id']? = db[keyNonce id']? := by
  rw [setBalance, Std.ExtTreeMap.getElem?_insert, if_neg]
  simp [keyBal_ne_keyNonce]

@[simp] theorem getElem?_setNonce_keyNonce (u : UInt64) : (db.setNonce id u)[keyNonce id']? =
    if id = id' then some (putUint64 u) else db[keyNonce id']? := by
  rw [setNonce, Std.ExtTreeMap.getElem?_insert]
  simp [keyNonce]

@[simp] theorem getElem?_setNonce_keyBal (u : UInt64) :
    (db.setNonce id u)[keyBal id']? = db[keyBal id']? := by
  rw [setNonce, Std.ExtTreeMap.getElem?_insert, if_neg]
  simp [(keyBal_ne_keyNonce id' id).symm]

end Writes

/-- Every balance is an eight-byte encoding of a non-negative `int64`, and every nonce one of a
`uint64`. -/
structure Encodes (db : KV) : Prop where
  bal : ∀ {id b : List UInt8}, db[keyBal id]? = some b →
    ∃ v : Int64, ¬ v < 0 ∧ b = putUint64 v.toUInt64
  nonce : ∀ {id b : List UInt8}, db[keyNonce id]? = some b → ∃ u : UInt64, b = putUint64 u

namespace Encodes

variable {db : KV}

theorem empty : Encodes ∅ where
  bal h := by simp at h
  nonce h := by simp at h

/-- What `SetBalance` stores is not negative. -/
theorem setBalance (h : db.Encodes) (id : List UInt8) (v : Int64) :
    (db.setBalance id v).Encodes where
  bal {id' b} hb := by
    rw [getElem?_setBalance_keyBal] at hb
    split at hb
    · refine ⟨_, ?_, (Option.some.inj hb).symm⟩
      split
      · decide
      · assumption
    · exact h.bal hb
  nonce hb := h.nonce (by simpa using hb)

theorem setNonce (h : db.Encodes) (id : List UInt8) (u : UInt64) : (db.setNonce id u).Encodes where
  bal hb := h.bal (by simpa using hb)
  nonce {id' b} hb := by
    rw [getElem?_setNonce_keyNonce] at hb
    split at hb
    · exact ⟨u, (Option.some.inj hb).symm⟩
    · exact h.nonce hb

end Encodes

/-- `res` is `tgt` with the state of `src`. -/
def Restores (src tgt res : KV) : Prop :=
  ∀ k, res[k]? = if isStateKey k then src[k]? else tgt[k]?

/-- The exported balances, written back with an encoding that is right where they are. -/
theorem map_export_bal {src : KV} (hsrc : src.Encodes) {enc : Int64 → List UInt8}
    (henc : ∀ v : Int64, ¬ v < 0 → enc v = putUint64 v.toUInt64) (id : List UInt8) :
    src.exportStateMaps.1[id]?.map enc = src[balPrefix ++ id]? := by
  rw [exportStateMaps, getElem?_scan]
  cases hb : src[balPrefix ++ id]? with
  | none => simp
  | some b =>
      obtain ⟨v, hv, rfl⟩ := hsrc.bal hb
      simp [henc v hv]

/-- The exported nonces, written back. -/
theorem map_export_nonce {src : KV} (hsrc : src.Encodes) (id : List UInt8) :
    src.exportStateMaps.2[id]?.map putUint64 = src[noncePrefix ++ id]? := by
  rw [exportStateMaps, getElem?_scan]
  cases hb : src[noncePrefix ++ id]? with
  | none => simp
  | some b =>
      obtain ⟨u, rfl⟩ := hsrc.nonce hb
      simp

/-- Loading the exported maps into a database whose state has been cleared. -/
theorem restores_load {src : KV} (hsrc : src.Encodes) (tgt : KV)
    {enc : Int64 → List UInt8} (henc : ∀ v : Int64, ¬ v < 0 → enc v = putUint64 v.toUInt64)
    {bal : List (List UInt8 × Int64)} {non : List (List UInt8 × UInt64)}
    (hbal : bal.Perm src.exportStateMaps.1.toList) (hnon : non.Perm src.exportStateMaps.2.toList) :
    Restores src tgt (non.foldl (fun db e => db.insert (noncePrefix ++ e.1) (putUint64 e.2))
      (bal.foldl (fun db e => db.insert (balPrefix ++ e.1) (enc e.2)) tgt.resetState)) := by
  intro k
  by_cases hb : balPrefix <+: k
  · obtain ⟨id, rfl⟩ := hb
    have hk : isStateKey (balPrefix ++ id) = true := by simp [isStateKey]
    rw [getElem?_foldl_put_of_outside _ _ (not_noncePrefix_bal id),
      SortedMap.getElem?_foldl_insert_entries hbal (List.append_right_injective _),
      map_export_bal hsrc henc, getElem?_resetState, if_pos hk, Option.or_none, if_pos hk]
  by_cases hn : noncePrefix <+: k
  · obtain ⟨id, rfl⟩ := hn
    have hk : isStateKey (noncePrefix ++ id) = true := by simp [isStateKey]
    rw [SortedMap.getElem?_foldl_insert_entries hnon (List.append_right_injective _),
      map_export_nonce hsrc, getElem?_foldl_put_of_outside _ _ (not_balPrefix_nonce id),
      getElem?_resetState, if_pos hk, Option.or_none, if_pos hk]
  · -- a key outside both prefixes
    have hk : ¬ isStateKey k = true := by
      rw [isStateKey, Bool.or_eq_true, List.isPrefixOf_iff_prefix, List.isPrefixOf_iff_prefix]
      exact not_or.mpr ⟨hb, hn⟩
    rw [getElem?_foldl_put_of_outside _ _ hn, getElem?_foldl_put_of_outside _ _ hb,
      getElem?_resetState, if_neg hk, if_neg hk]

/-- Whatever the order of iteration, both ways to load the snapshot restore the state of `src`. -/
def RestoredBy (src : KV) (ss : RawSnapshot) : Prop :=
  ∀ (tgt : KV) (bal : List (List UInt8 × Int64)) (non : List (List UInt8 × UInt64)),
    bal.Perm ss.balances.toList → non.Perm ss.nonces.toList →
      Restores src tgt (tgt.restoreSnapshot bal non) ∧
        Restores src tgt (tgt.wipeStatePrefixes.importStateMaps bal non)

/-- A snapshot of the exported maps restores the state they were taken from. -/
theorem restoredBy_export {src : KV} (hsrc : src.Encodes) {ss : RawSnapshot}
    (hbal : ss.balances = src.exportStateMaps.1) (hnon : ss.nonces = src.exportStateMaps.2) :
    src.RestoredBy ss := by
  intro tgt bal non hb hn
  rw [hbal] at hb
  rw [hnon] at hn
  constructor
  · -- the clamp of `SetBalance` does nothing here
    let enc : Int64 → List UInt8 := fun v => putUint64 (if v < 0 then 0 else v).toUInt64
    have henc : ∀ v, ¬ v < 0 → enc v = putUint64 v.toUInt64 := fun v hv => by
      simp only [enc, if_neg hv]
    exact restores_load hsrc tgt henc hb hn
  · rw [wipeStatePrefixes_eq]
    exact restores_load hsrc tgt (fun _ _ => rfl) hb hn

end KV

/-! ### Snapshot files -/

namespace Codecs

variable {Plain Packed : Type} (c : Codecs Plain Packed)

/-- The file name tells the two formats apart. -/
theorem hasSuffix_json (s : String) : hasSuffix (s ++ ".json.gz") ".gob.gz" = false := by
  rw [hasSuffix, Bool.eq_false_iff, ne_eq, List.isSuffixOf_iff_suffix, String.toList_append]
  intro h
  -- the last seven characters are `json.gz`
  have hlast : "json.gz".toList <:+ s.toList ++ ".json.gz".toList :=
    (List.suffix_append (s.toList ++ ['.']) _).trans (by simp)
  have heq := (List.suffix_of_suffix_length_le h hlast (by decide)).eq_of_length (by decide)
  revert heq
  decide

theorem hasSuffix_gob (s : String) : hasSuffix (s ++ ".gob.gz") ".gob.gz" = true := by
  simp [hasSuffix]

/-- A snapshot of the state, written in either format, read back and loaded in either way, gives the
target the balances and nonces of the source and leaves its other keys alone. -/
theorem snapshots_restore {src : KV} (hsrc : src.Encodes) (dir : Table Packed) (height : UInt64)
    (tipHash : String) (now : Int64) :
    (∃ ss, c.readSnapshot (c.writeSnapshot src dir height tipHash now).2
        (c.writeSnapshot src dir height tipHash now).1 = some ss ∧
      c.readSnapshotAuto (c.writeSnapshot src dir height tipHash now).2
        (c.writeSnapshot src dir height tipHash now).1 = some ss ∧ src.RestoredBy ss) ∧
    (∃ ss, c.readSnapshotBin (c.writeSnapshotBin src dir height tipHash now).2
        (c.writeSnapshotBin src dir height tipHash now).1 = some ss ∧
      c.readSnapshotAuto (c.writeSnapshotBin src dir height tipHash now).2
        (c.writeSnapshotBin src dir height tipHash now).1 = some ss ∧ src.RestoredBy ss) := by
  constructor
  · have hread : c.readSnapshot (c.writeSnapshot src dir height tipHash now).2
        (c.writeSnapshot src dir height tipHash now).1 =
          some (src.snapshot 1 height tipHash now) := by
      simp [readSnapshot, writeSnapshot, c.gunzip_gzip, c.jsonDecode_jsonEncode]
    refine ⟨_, hread, ?_, KV.restoredBy_export hsrc rfl rfl⟩
    rw [readSnapshotAuto, if_neg (by simp [writeSnapshot, hasSuffix_json]), hread]
  · have hread : c.readSnapshotBin (c.writeSnapshotBin src dir height tipHash now).2
        (c.writeSnapshotBin src dir height tipHash now).1 =
          some (src.snapshot 2 height tipHash now) := by
      simp [readSnapshotBin, writeSnapshotBin, c.gunzip_gzip, c.gobDecode_gobEncode]
    refine ⟨_, hread, ?_, KV.restoredBy_export hsrc rfl rfl⟩
    rw [readSnapshotAuto, if_pos (by simp [writeSnapshotBin, hasSuffix_gob]), hread]

/-- A database with one account. -/
def Sample.oneAccount : KV :=
  (KV.setBalance ∅ (stringBytes "alice") 5).setNonce (stringBytes "alice") 1

/-- Codecs that store a snapshot as it is. -/
def Sample.identityCodecs : Codecs RawSnapshot RawSnapshot where
  jsonEncode := id
  jsonDecode := some
  gobEncode := id
  gobDecode := some
  gzip := id
  gunzip := some
  jsonDecode_jsonEncode _ := rfl
  gobDecode_gobEncode _ := rfl
  gunzip_gzip _ := rfl

/-- Snapshots of one account at height 3, with these codecs. -/
theorem snapshots_restore_oneAccount : Sample.oneAccount.Encodes ∧
    (∃ ss, Sample.identityCodecs.readSnapshot
        (Sample.identityCodecs.writeSnapshot Sample.oneAccount ∅ 3 "tip" 0).2 "state_3.json.gz" =
          some ss ∧ Sample.oneAccount.RestoredBy ss) ∧
    (∃ ss, Sample.identityCodecs.readSnapshotBin
        (Sample.identityCodecs.writeSnapshotBin Sample.oneAccount ∅ 3 "tip" 0).2 "state_3.gob.gz" =
          some ss ∧ Sample.oneAccount.RestoredBy ss) := by
  have hsrc : Sample.oneAccount.Encodes := (KV.Encodes.empty.setBalance _ _).setNonce _ _
  obtain ⟨⟨ss, hread, -, hss⟩, ⟨ss', hread', -, hss'⟩⟩ :=
    Sample.identityCodecs.snapshots_restore hsrc ∅ 3 "tip" 0
  exact ⟨hsrc, ⟨ss, hread, hss⟩, ⟨ss', hread', hss'⟩⟩

end Codecs

/-! ### The ledger behind the bytes -/

namespace KV

/-- The stored entries of text ids are those of a ledger. -/
structure Represents (db : KV) (l : Ledger) : Prop where
  bal : ∀ id, db[keyBal (stringBytes id)]? = l.bal[id]?.map fun v => putUint64 v.toUInt64
  nonce : ∀ id, db[keyNonce (stringBytes id)]? = l.nonce[id]?.map putUint64

namespace Represents

variable {db : KV} {l : Ledger}

theorem resetState (db : KV) : db.resetState.Represents Ledger.empty where
  bal id := by
    have hkey : isStateKey (keyBal (stringBytes id)) = true := by simp [isStateKey, keyBal]
    simp [getElem?_resetState, hkey, Ledger.empty]
  nonce id := by
    have hkey : isStateKey (keyNonce (stringBytes id)) = true := by simp [isStateKey, keyNonce]
    simp [getElem?_resetState, hkey, Ledger.empty]

theorem setBalance (h : db.Represents l) (id : String) (v : Int64) :
    (db.setBalance (stringBytes id) v).Represents (l.setBalance id v) where
  bal id' := by
    rw [getElem?_setBalance_keyBal, Ledger.setBalance, Table.getElem?_put, h.bal]
    by_cases hid : id = id'
    · simp [hid]
    · simp [hid, stringBytes_injective.mt hid]
  nonce id' := by simp [h.nonce, Ledger.setBalance]

theorem setNonce (h : db.Represents l) (id : String) (u : UInt64) :
    (db.setNonce (stringBytes id) u).Represents (l.setNonce id u) where
  bal id' := by simp [h.bal, Ledger.setNonce]
  nonce id' := by
    rw [getElem?_setNonce_keyNonce, Ledger.setNonce, Table.getElem?_put, h.nonce]
    by_cases hid : id = id'
    · simp [hid]
    · simp [hid, stringBytes_injective.mt hid]

/-- Entries of a snapshot with text ids, as byte strings. -/
def rawEntries {V : Type} (m : Table V) : List (List UInt8 × V) :=
  m.toList.map fun e => (stringBytes e.1, e.2)

/-- `RestoreSnapshot` on the bytes is `RestoreSnapshot` on the ledger. -/
theorem restoreSnapshot (db : KV) (ss : Snapshot) :
    (db.restoreSnapshot (rawEntries ss.balances) (rawEntries ss.nonces)).Represents
      (ReserveOS.restoreSnapshot ss) := by
  have hbal : ∀ (es : List (String × Int64)) (db : KV) (l : Ledger), db.Represents l →
      (es.foldl (fun db e => db.setBalance (stringBytes e.1) e.2) db).Represents
        (es.foldl (fun l e => l.setBalance e.1 e.2) l) := by
    intro es
    induction es with
    | nil => exact fun _ _ h => h
    | cons e es ih => exact fun db l h => ih _ _ (h.setBalance e.1 e.2)
  have hnonce : ∀ (es : List (String × UInt64)) (db : KV) (l : Ledger), db.Represents l →
      (es.foldl (fun db e => db.setNonce (stringBytes e.1) e.2) db).Represents
        (es.foldl (fun l e => l.setNonce e.1 e.2) l) := by
    intro es
    induction es with
    | nil => exact fun _ _ h => h
    | cons e es ih => exact fun db l h => ih _ _ (h.setNonce e.1 e.2)
  rw [KV.restoreSnapshot, rawEntries, rawEntries, List.foldl_map, List.foldl_map]
  exact hnonce _ _ _ (hbal _ _ _ (resetState db))

end Represents

end KV

end ReserveOS
