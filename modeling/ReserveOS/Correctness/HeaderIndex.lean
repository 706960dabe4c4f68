import Mathlib.Data.Set.Card
import ReserveOS.Correctness.Snapshot
import ReserveOS.Node.Headers
import ReserveOS.Storage.HeaderIndex

/-!
# The header index by height

An entry of the header index is a key that holds a height in decimal and a hash of any bytes, with
a colon between them. There is no colon in a decimal number, so the key is split where it was
joined (`splitN_keyHdrAtHeight`), whatever the hash. On this rests what the two calls do to the
entries, and by induction what any run of calls leaves in the index (`hasHeader_run`): for each
height the hashes put since the last pruning above it. Pruning leaves the records of the headers
themselves alone.
-/

namespace ReserveOS

/-! ### Keys -/

/-- A field without the separator is split off as it is. -/
theorem splitN_append {sep : UInt8} {part : List UInt8} (h : sep ∉ part) (n : ℕ)
    (rest : List UInt8) :
    splitN sep (n + 2) (part ++ sep :: rest) = part :: splitN sep (n + 1) rest := by
  have hpart : ∀ x ∈ part, decide (x ≠ sep) = true := fun x hx =>
    decide_eq_true fun heq => h (heq ▸ hx)
  have hspan : (part ++ sep :: rest).span (· ≠ sep) = (part, sep :: rest) := by
    rw [List.span_eq_takeWhile_dropWhile, List.takeWhile_append_of_pos hpart,
      List.dropWhile_append_of_pos hpart]
    simp
  rw [splitN, hspan]

theorem colon_notMem_text (n : ℕ) : colon ∉ Decimal.text n := by
  intro hmem
  have hdigit := (Decimal.isDigit_of_mem_text hmem).2
  exact absurd hdigit (by decide)

theorem heightPrefix_eq (h : UInt64) :
    heightPrefix h = stringBytes "hdrh" ++ colon :: (Decimal.text h.toNat ++ [colon]) := by
  have hfirst : stringBytes "hdrh:" = stringBytes "hdrh" ++ [colon] := by decide
  have hlast : stringBytes ":" = [colon] := by decide
  rw [heightPrefix, stringBytes_append, stringBytes_append, stringBytes_toString, hfirst, hlast]
  simp

/-- The key of an entry is split into its three parts. -/
theorem splitN_keyHdrAtHeight (h : UInt64) (hash : List UInt8) :
    splitN colon 3 (keyHdrAtHeight h hash) = [stringBytes "hdrh", Decimal.text h.toNat, hash] := by
  have hkey : keyHdrAtHeight h hash =
      stringBytes "hdrh" ++ colon :: (Decimal.text h.toNat ++ colon :: hash) := by
    rw [keyHdrAtHeight, heightPrefix_eq]
    simp
  rw [hkey, splitN_append (by decide), splitN_append (colon_notMem_text _), splitN]

/-- The key determines height and hash. -/
theorem keyHdrAtHeight_inj {h h' : UInt64} {hash hash' : List UInt8} :
    keyHdrAtHeight h hash = keyHdrAtHeight h' hash' ↔ h = h' ∧ hash = hash' := by
  refine ⟨fun heq => ?_, fun heq => by rw [heq.1, heq.2]⟩
  have hsplit := congrArg (splitN colon 3) heq
  rw [splitN_keyHdrAtHeight, splitN_keyHdrAtHeight] at hsplit
  injection hsplit with _ htail
  injection htail with hheight hrest
  injection hrest with hhash _
  exact ⟨UInt64.toNat.inj (Decimal.text_injective hheight), hhash⟩

/-- Records and entries have different keys. -/
theorem keyHdrHash_ne_keyHdrAtHeight (hash hash' : List UInt8) (h : UInt64) :
    keyHdrHash hash ≠ keyHdrAtHeight h hash' := by
  have hrecord : stringBytes "hdr:" = [104, 100, 114, 58] := by decide
  have hentry : stringBytes "hdrh" = [104, 100, 114, 104] := by decide
  rw [keyHdrHash, keyHdrAtHeight, heightPrefix_eq, hrecord, hentry]
  simp

/-- The loop of the parser computes the value of the digits, modulo `2 ^ 64`. -/
theorem foldl_parseU64 {l : List UInt8} (hl : ∀ c ∈ l, Decimal.IsDigit c) (v : ℕ) :
    l.foldl (fun n c => n * 10 + (c - 48).toUInt64) (UInt64.ofNat v) =
      UInt64.ofNat (l.foldl (fun v c => v * 10 + (c.toNat - 48)) v) := by
  induction l generalizing v with
  | nil => rfl
  | cons c l ih =>
      obtain ⟨hc, hl⟩ := List.forall_mem_cons.mp hl
      have hdigit : (c - 48).toUInt64 = UInt64.ofNat (c.toNat - 48) := by
        apply UInt64.toNat.inj
        have hle : (48 : UInt8) ≤ c := UInt8.le_iff_toNat_le.mpr hc.1
        have hlt : c.toNat - 48 < 2 ^ 64 := by have := hc.2; omega
        rw [UInt8.toNat_toUInt64, UInt8.toNat_sub_of_le _ _ hle, UInt64.toNat_ofNat_of_lt' hlt]
        rfl
      have hstep : UInt64.ofNat v * 10 + (c - 48).toUInt64 =
          UInt64.ofNat (v * 10 + (c.toNat - 48)) := by
        rw [hdigit, UInt64.ofNat_add, UInt64.ofNat_mul]
        rfl
      rw [List.foldl_cons, List.foldl_cons, hstep]
      exact ih hl _

/-- `parseU64` reads a decimal `uint64` back. -/
theorem parseU64_text (h : UInt64) : parseU64 (Decimal.text h.toNat) = h := by
  have hdigits : ∀ c ∈ Decimal.text h.toNat, Decimal.IsDigit c := fun c =>
    Decimal.isDigit_of_mem_text
  have hall : (Decimal.text h.toNat).takeWhile (fun c => 48 ≤ c ∧ c ≤ 57) =
      Decimal.text h.toNat := by
    have htake : (Decimal.text h.toNat ++ []).takeWhile (fun c => 48 ≤ c ∧ c ≤ 57) = _ :=
      List.takeWhile_append_of_pos fun c hc => decide_eq_true (hdigits c hc)
    simpa using htake
  rw [parseU64, hall]
  refine (foldl_parseU64 hdigits 0).trans ?_
  show UInt64.ofNat (Decimal.value (Decimal.text h.toNat)) = h
  rw [Decimal.value_text, UInt64.ofNat_toNat]

namespace KV

variable {db : KV} {h : UInt64} {hash : List UInt8}

/-- The index holds the hash at the height. -/
def HasHeader (db : KV) (h : UInt64) (hash : List UInt8) : Prop :=
  (db[keyHdrAtHeight h hash]?).isSome

@[simp] theorem hashOfKey_keyHdrAtHeight (h : UInt64) (hash : List UInt8) :
    hashOfKey (keyHdrAtHeight h hash) = some hash := by
  rw [hashOfKey, splitN_keyHdrAtHeight]

@[simp] theorem keyIsBelow_keyHdrAtHeight (hLimit h : UInt64) (hash : List UInt8) :
    keyIsBelow hLimit (keyHdrAtHeight h hash) = decide (h < hLimit) := by
  rw [keyIsBelow, splitN_keyHdrAtHeight]
  dsimp only
  rw [parseU64_text]

/-! ### The calls -/

/-- `PutHeader` adds one entry. -/
theorem hasHeader_putHeader (marshal : BlockHeader → List UInt8) (header : BlockHeader)
    (hash' : List UInt8) :
    (db.putHeader marshal header hash').HasHeader h hash ↔
      (header.height = h ∧ hash' = hash) ∨ db.HasHeader h hash := by
  rw [HasHeader, putHeader, Std.ExtTreeMap.getElem?_insert, Std.ExtTreeMap.getElem?_insert]
  simp only [Std.LawfulEqCmp.compare_eq_iff_eq, keyHdrAtHeight_inj, keyHdrHash_ne_keyHdrAtHeight,
    if_false]
  by_cases hsame : header.height = h ∧ hash' = hash
  · simp [hsame]
  · rw [if_neg hsame, or_iff_right hsame, HasHeader]

/-- Pruning deletes the entries below the limit, and no other. -/
theorem hasHeader_deleteHeadersBelowHeight (hLimit : UInt64) :
    (db.deleteHeadersBelowHeight hLimit).HasHeader h hash ↔ db.HasHeader h hash ∧ hLimit ≤ h := by
  have hpref : stringBytes "hdrh:" <+: keyHdrAtHeight h hash := by
    have hfirst : stringBytes "hdrh:" = stringBytes "hdrh" ++ [colon] := by decide
    rw [keyHdrAtHeight, heightPrefix_eq, hfirst]
    exact ⟨Decimal.text h.toNat ++ colon :: hash, by simp⟩
  have hdeleted : keyHdrAtHeight h hash ∈
      ((db.iterator (stringBytes "hdrh:")).map Prod.fst).filter (keyIsBelow hLimit) ↔
        db.HasHeader h hash ∧ h < hLimit := by
    rw [List.mem_filter, mem_keys_iterator, keyIsBelow_keyHdrAtHeight, decide_eq_true_iff,
      HasHeader, Option.isSome_iff_exists]
    exact and_congr_left fun _ => and_iff_left hpref
  -- an entry stays if it was there and is not among the deleted ones
  have hread : (db.deleteHeadersBelowHeight hLimit).HasHeader h hash ↔ ∃ v, keyHdrAtHeight h hash ∉
        ((db.iterator (stringBytes "hdrh:")).map Prod.fst).filter (keyIsBelow hLimit) ∧
          db[keyHdrAtHeight h hash]? = some v := by
    rw [HasHeader, Option.isSome_iff_exists]
    exact exists_congr fun v => SortedMap.getElem?_foldl_erase_eq_some_iff
  rw [hread, hdeleted, ← UInt64.not_lt, HasHeader, Option.isSome_iff_exists]
  constructor
  · rintro ⟨v, hnot, hv⟩
    exact ⟨⟨v, hv⟩, fun hlt => hnot ⟨⟨v, hv⟩, hlt⟩⟩
  · rintro ⟨⟨v, hv⟩, hnot⟩
    exact ⟨v, fun hdel => hnot hdel.2, hv⟩

/-! ### The records -/

/-- The records of the database are the header index of the node's model. -/
def HoldsRecords (marshal : BlockHeader → List UInt8) (db : KV) (kv : HeaderRecords) : Prop :=
  ∀ hash : String, db[keyHdrHash (stringBytes hash)]? =
    (kv (HeaderRecords.keyHdrHash hash)).map marshal

variable {marshal : BlockHeader → List UInt8} {kv : HeaderRecords}

/-- `PutHeader` writes the record that the model of the node writes. -/
theorem HoldsRecords.putHeader (hdb : db.HoldsRecords marshal kv) (header : BlockHeader)
    (hash : String) :
    (db.putHeader marshal header (stringBytes hash)).HoldsRecords marshal
      (kv.putIndexHeader header hash) := by
  intro hash'
  have hentry := fun x y => (keyHdrHash_ne_keyHdrAtHeight x y header.height).symm
  rw [KV.putHeader, HeaderRecords.putIndexHeader, Std.ExtTreeMap.getElem?_insert,
    Std.ExtTreeMap.getElem?_insert]
  simp only [Std.LawfulEqCmp.compare_eq_iff_eq, hentry, if_false]
  by_cases heq : hash = hash'
  · simp [heq]
  · have hkey : keyHdrHash (stringBytes hash) ≠ keyHdrHash (stringBytes hash') := fun h =>
      heq (stringBytes_injective (List.append_cancel_left h))
    have htext : HeaderRecords.keyHdrHash hash' ≠ HeaderRecords.keyHdrHash hash := fun h =>
      heq ((String.append_right_inj _).mp h).symm
    rw [if_neg hkey, Function.update_of_ne htext, hdb hash']

/-- Pruning removes no record, only the entries by height. -/
theorem HoldsRecords.deleteHeadersBelowHeight (hdb : db.HoldsRecords marshal kv)
    (hLimit : UInt64) : (db.deleteHeadersBelowHeight hLimit).HoldsRecords marshal kv := by
  intro hash
  have hnot : keyHdrHash (stringBytes hash) ∉
      ((db.iterator (stringBytes "hdrh:")).map Prod.fst).filter (keyIsBelow hLimit) := by
    rw [List.mem_filter, mem_keys_iterator]
    rintro ⟨⟨-, hpref⟩, -⟩
    have hrecord : stringBytes "hdr:" = [104, 100, 114, 58] := by decide
    have hentry : stringBytes "hdrh:" = [104, 100, 114, 104, 58] := by decide
    rw [keyHdrHash, hrecord, hentry] at hpref
    simp at hpref
  rw [← hdb hash]
  apply Option.ext
  intro v
  exact SortedMap.getElem?_foldl_erase_eq_some_iff.trans (and_iff_right hnot)

/-! ### The listing -/

/-- All hashes of a height, in key order. -/
def hashesAt (db : KV) (h : UInt64) : List (List UInt8) :=
  (db.iterator (heightPrefix h)).filterMap fun e => hashOfKey e.1

theorem listHeaderHashesAtHeight_eq (db : KV) (h : UInt64) :
    db.listHeaderHashesAtHeight h 5000 = (db.hashesAt h).take 5000 := rfl

/-- Every key below the first bytes of a height is the key of an entry. -/
theorem exists_key_of_mem_iterator {e : List UInt8 × List UInt8}
    (he : e ∈ db.iterator (heightPrefix h)) : ∃ hash, e.1 = keyHdrAtHeight h hash := by
  obtain ⟨-, hash, hkey⟩ := mem_iterator.mp he
  exact ⟨hash, hkey.symm⟩

/-- The listing of a height has the hashes of its entries. -/
theorem mem_hashesAt : hash ∈ db.hashesAt h ↔ db.HasHeader h hash := by
  rw [hashesAt, List.mem_filterMap, HasHeader, Option.isSome_iff_exists]
  constructor
  · rintro ⟨⟨k, v⟩, he, hhash⟩
    obtain ⟨hash', rfl⟩ := exists_key_of_mem_iterator he
    rw [hashOfKey_keyHdrAtHeight] at hhash
    obtain rfl := Option.some.inj hhash
    exact ⟨v, (mem_iterator.mp he).1⟩
  · rintro ⟨v, hv⟩
    exact ⟨(keyHdrAtHeight h hash, v), mem_iterator.mpr ⟨hv, List.prefix_append _ _⟩,
      hashOfKey_keyHdrAtHeight h hash⟩

/-- No hash is listed twice. -/
theorem nodup_hashesAt (db : KV) (h : UInt64) : (db.hashesAt h).Nodup := by
  rw [hashesAt, List.nodup_iff_pairwise_ne, List.pairwise_filterMap]
  refine (db.ordered_iterator _).imp_of_mem fun {e e'} he he' hlt hash hhash hash' hhash' heq => ?_
  obtain ⟨x, hx⟩ := exists_key_of_mem_iterator he
  obtain ⟨x', hx'⟩ := exists_key_of_mem_iterator he'
  rw [hx, hashOfKey_keyHdrAtHeight] at hhash
  rw [hx', hashOfKey_keyHdrAtHeight] at hhash'
  -- two entries with one hash would have one key
  obtain rfl : x = x' := (Option.some.inj hhash).trans (heq.trans (Option.some.inj hhash').symm)
  rw [hx, hx', Std.ReflOrd.compare_self] at hlt
  cases hlt

/-- The entries below a prefix, seen by their keys. -/
theorem iterator_congr {db' : KV} {pref : List UInt8}
    (hsame : ∀ k v, pref <+: k → (db[k]? = some v ↔ db'[k]? = some v)) :
    db.iterator pref = db'.iterator pref := by
  have hperm : (db.iterator pref).Perm (db'.iterator pref) := by
    refine (List.perm_ext_iff_of_nodup (nodup_iterator _ _) (nodup_iterator _ _)).mpr ?_
    rintro ⟨k, v⟩
    rw [mem_iterator, mem_iterator]
    exact and_congr_left (hsame k v)
  refine hperm.eq_of_pairwise (fun e e' _ _ hlt hgt => ?_) (ordered_iterator _ _)
    (ordered_iterator _ _)
  rw [Std.OrientedOrd.eq_swap, hlt] at hgt
  cases hgt

/-- Pruning below `hLimit` leaves the entries of a height from `hLimit` on as they are. -/
theorem hashesAt_deleteHeadersBelowHeight {hLimit : UInt64} (hle : hLimit ≤ h) :
    (db.deleteHeadersBelowHeight hLimit).hashesAt h = db.hashesAt h := by
  rw [hashesAt, hashesAt]
  congr 1
  apply iterator_congr
  rintro k v ⟨hash, rfl⟩
  rw [deleteHeadersBelowHeight, deleteAll, SortedMap.getElem?_foldl_erase_eq_some_iff,
    List.mem_filter]
  refine and_iff_right fun hdel => ?_
  have hbelow : h < hLimit :=
    of_decide_eq_true ((keyIsBelow_keyHdrAtHeight hLimit h hash).symm.trans hdel.2)
  exact absurd hbelow (UInt64.not_lt.mpr hle)

end KV

/-! ### Runs of calls -/

/-- The hash was put at the height, and no later call deleted above it. -/
def Listed (calls : List HeaderCall) (h : UInt64) (hash : List UInt8) : Prop :=
  ∃ before header after, calls = before ++ HeaderCall.put header hash :: after ∧
    header.height = h ∧ ∀ hLimit, HeaderCall.delete hLimit ∈ after → hLimit ≤ h

variable {calls : List HeaderCall} {h : UInt64} {hash : List UInt8}

/-- What one more call does to the hashes of a height. -/
theorem listed_concat (c : HeaderCall) :
    Listed (calls ++ [c]) h hash ↔ (∃ header, c = .put header hash ∧ header.height = h) ∨
      (Listed calls h hash ∧ ∀ hLimit, c = .delete hLimit → hLimit ≤ h) := by
  constructor
  · rintro ⟨before, header, after, heq, hheight, hafter⟩
    rcases List.eq_nil_or_concat after with rfl | ⟨after, last, rfl⟩
    · obtain ⟨-, hlast⟩ := List.append_inj' heq rfl
      exact .inl ⟨header, List.singleton_inj.mp hlast, hheight⟩
    · rw [List.concat_eq_append] at heq hafter
      rw [← List.cons_append, ← List.append_assoc] at heq
      obtain ⟨hcalls, hlast⟩ := List.append_inj' heq rfl
      obtain rfl := List.singleton_inj.mp hlast
      refine .inr ⟨⟨before, header, after, hcalls, hheight, fun L hL => ?_⟩, ?_⟩
      · exact hafter L (List.mem_append_left _ hL)
      · rintro L rfl
        exact hafter L (List.mem_append_right _ (List.mem_singleton_self _))
  · rintro (⟨header, rfl, hheight⟩ | ⟨⟨before, header, after, rfl, hheight, hafter⟩, hc⟩)
    · exact ⟨calls, header, [], rfl, hheight, fun L hL => absurd hL List.not_mem_nil⟩
    · refine ⟨before, header, after ++ [c], by simp, hheight, fun L hL => ?_⟩
      rcases List.mem_append.mp hL with hL | hL
      · exact hafter L hL
      · exact hc L (List.mem_singleton.mp hL).symm

namespace KV

variable {db : KV}

/-- In a database without entries, a run of calls leaves the hashes that were put at each height and
not deleted since. -/
theorem hasHeader_run (marshal : BlockHeader → List UInt8)
    (hfresh : ∀ h hash, ¬ db.HasHeader h hash) :
    (calls.foldl (headerStep marshal) db).HasHeader h hash ↔ Listed calls h hash := by
  -- the last call is the one whose effect is known
  induction calls using List.reverseRecOn with
  | nil =>
      refine iff_of_false (hfresh h hash) ?_
      rintro ⟨before, header, after, heq, -⟩
      simp at heq
  | append_singleton calls c ih =>
      rw [List.foldl_append, List.foldl_cons, List.foldl_nil, listed_concat, ← ih]
      cases c with
      | put header hash' =>
          rw [headerStep, hasHeader_putHeader]
          simp [and_comm]
      | delete hLimit =>
          rw [headerStep, hasHeader_deleteHeadersBelowHeight]
          simp

/-- Fork-aware header index. For every run of `PutHeader` and `DeleteHeadersBelowHeight` on a
database without entries: the listing of each height has no duplicates, and if at most 5000 hashes
were put at the height since the last deletion above it, it has exactly these. A further deletion
leaves the listing of each height from its limit on unchanged. -/
theorem headerIndex_spec (marshal : BlockHeader → List UInt8)
    (hfresh : ∀ h hash, ¬ db.HasHeader h hash) (calls : List HeaderCall) (h : UInt64) :
    ((calls.foldl (headerStep marshal) db).listHeaderHashesAtHeight h 5000).Nodup ∧
      ({hash | Listed calls h hash}.encard ≤ 5000 → ∀ hash,
        hash ∈ (calls.foldl (headerStep marshal) db).listHeaderHashesAtHeight h 5000 ↔
          Listed calls h hash) ∧
      ∀ hLimit ≤ h, ((calls.foldl (headerStep marshal) db).deleteHeadersBelowHeight
          hLimit).listHeaderHashesAtHeight h 5000 =
            (calls.foldl (headerStep marshal) db).listHeaderHashesAtHeight h 5000 := by
  have hmem : ∀ hash, hash ∈ (calls.foldl (headerStep marshal) db).hashesAt h ↔
      Listed calls h hash := fun hash => mem_hashesAt.trans (hasHeader_run marshal hfresh)
  generalize calls.foldl (headerStep marshal) db = db' at hmem ⊢
  refine ⟨?_, fun hfew => ?_, fun hLimit hle => ?_⟩
  · exact (nodup_hashesAt db' h).sublist (List.take_sublist _ _)
  · -- the listing is cut after 5000 hashes, and there are no more
    have hset : {hash | Listed calls h hash} = ((db'.hashesAt h).toFinset : Set (List UInt8)) := by
      ext hash
      simp [hmem]
    have hlen : (db'.hashesAt h).length ≤ 5000 := by
      rw [hset, Set.encard_coe_eq_coe_finsetCard,
        List.toFinset_card_of_nodup (nodup_hashesAt db' h)] at hfew
      exact_mod_cast hfew
    rwa [listHeaderHashesAtHeight_eq, List.take_of_length_le hlen]
  · rw [listHeaderHashesAtHeight_eq, listHeaderHashesAtHeight_eq,
      hashesAt_deleteHeadersBelowHeight hle]

end KV

namespace Sample

/-- A header at height five. -/
def headerFive : BlockHeader where
  version := 1
  chainID := ""
  height := 5
  timeUnix := 1
  prevHash := Hash.zero
  stateRoot := Hash.zero
  txRoot := Hash.zero
  bits := 1
  nonce := 0

/-- Two forks at one height, and a deletion below it. -/
def forkCalls : List HeaderCall :=
  [.put headerFive (stringBytes "h1"), .put headerFive (stringBytes "h2"), .delete 5]

end Sample

namespace KV

open Sample

/-- Both forks are listed. -/
theorem headerIndex_spec_forks :
    (∀ h hash, ¬ (∅ : KV).HasHeader h hash) ∧ {hash | Listed forkCalls 5 hash}.encard ≤ 5000 ∧
      ∀ hash, hash ∈ (forkCalls.foldl (headerStep fun _ => []) ∅).listHeaderHashesAtHeight
        5 5000 ↔ Listed forkCalls 5 hash := by
  have hfresh : ∀ h hash, ¬ (∅ : KV).HasHeader h hash := by
    intro h hash
    simp [HasHeader]
  have hpair : {hash | Listed forkCalls 5 hash} ⊆ {stringBytes "h1", stringBytes "h2"} := by
    rintro hash ⟨before, header, after, heq, -, -⟩
    have hput : HeaderCall.put header hash ∈ forkCalls :=
      heq ▸ List.mem_append_right _ List.mem_cons_self
    rw [forkCalls] at hput
    simp only [List.mem_cons, HeaderCall.put.injEq, reduceCtorEq, List.not_mem_nil,
      or_false] at hput
    exact hput.imp And.right And.right
  have hfew : {hash | Listed forkCalls 5 hash}.encard ≤ 5000 :=
    calc {hash | Listed forkCalls 5 hash}.encard
        ≤ ({stringBytes "h1", stringBytes "h2"} : Set (List UInt8)).encard :=
          Set.encard_le_encard hpair
      _ ≤ ({stringBytes "h2"} : Set (List UInt8)).encard + 1 := Set.encard_insert_le _ _
      _ ≤ 5000 := by
        rw [Set.encard_singleton]
        exact_mod_cast (by decide : 1 + 1 ≤ 5000)
  exact ⟨hfresh, hfew, (headerIndex_spec (fun _ => []) hfresh forkCalls 5).2.1 hfew⟩

end KV

end ReserveOS
