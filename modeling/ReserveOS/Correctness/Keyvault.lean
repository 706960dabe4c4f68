import Mathlib.Data.Countable.Basic
import Mathlib.Logic.Equiv.List
import ReserveOS.General.SharedCell
import ReserveOS.Storage.Keyvault

/-!
# Keys written by several `Vault` objects

Reopening the file gives the last value that was set for every key exactly if each `SetString` is
made by an object whose map agrees with the file on all other keys, and each file is started while
it holds no keys (`keyvault_kept_iff`). An object never reads the file again, so two objects that
are open at the same time lose each other's keys.
-/

namespace ReserveOS

/-! ### The file -/

namespace VaultData

/-- A map after `SetString`. -/
theorem getString_setString (d : VaultData) (key value : String) :
    (d.setString key value).getString = Function.update d.getString key (some value) := by
  ext1 key'
  by_cases hkey : key' = key
  · subst hkey
    simp [getString, setString]
  · have hne : key ≠ key' := fun h => hkey h.symm
    rw [Function.update_of_ne hkey]
    cases hkv : d.kv <;> simp [getString, setString, hkv, Table.getElem?_put, hne]

end VaultData

namespace VaultCodec

variable (c : VaultCodec) (kek : String)

/-- The value that an object opened now would return for a key. -/
def content (file : Option (List UInt8)) (key : String) : Option String :=
  match c.reopen kek file with
  | .ok d => d.getString key
  | .error _ => none

theorem length_vaultHeader : vaultHeader.length = 8 := by decide

/-- What `persistLocked` writes, `readDecrypted` reads. -/
theorem readDecrypted_persisted (nonce : Nonce) (d : VaultData) :
    c.readDecrypted kek (some (c.persisted kek nonce d)) = .ok (c.marshal d) := by
  have hlen := length_vaultHeader
  have htake : (c.persisted kek nonce d).take 8 = vaultHeader := by
    rw [persisted, List.append_assoc, List.take_left' hlen]
  have hdrop : (c.persisted kek nonce d).drop 8 =
      nonce ++ c.sealBytes (c.deriveKey kek "k1") nonce (c.marshal d) := by
    rw [persisted, List.append_assoc, List.drop_left' hlen]
  have hnonce : ((c.persisted kek nonce d).drop 8).take 12 = nonce := by
    rw [hdrop, List.take_left' nonce.2]
  have hct : (c.persisted kek nonce d).drop 20 =
      c.sealBytes (c.deriveKey kek "k1") nonce (c.marshal d) := by
    rw [show 20 = 8 + 12 from rfl, ← List.drop_drop, hdrop, List.drop_left' nonce.2]
  have hlong : ¬ (c.persisted kek nonce d).length < vaultHeader.length + 12 := by
    simp only [persisted, List.length_append, nonce.2]
    omega
  simp only [readDecrypted, hlong, htake, hnonce, hct, ne_eq, not_true_eq_false, if_false]
  exact c.openBytes_sealBytes _ nonce _

theorem openVault_persisted (nonce : Nonce) (d : VaultData) :
    c.openVault kek (some (c.persisted kek nonce d)) = .ok ⟨some (d.kv.getD ∅)⟩ := by
  simp [openVault, readDecrypted_persisted, c.unmarshal_marshal, Except.bind]

theorem content_persisted (nonce : Nonce) (d : VaultData) :
    c.content kek (some (c.persisted kek nonce d)) = d.getString := by
  ext1 key
  cases hkv : d.kv <;> simp [content, reopen, openVault_persisted, VaultData.getString, hkv]

end VaultCodec

/-! ### One event -/

/-- A map from keys to values after a call of `SetString`; `none` is no call. -/
def setIn (call : Option (String × String)) (f : String → Option String) : String → Option String :=
  match call with
  | none => f
  | some (key, value) => Function.update f key (some value)

/-- Two maps become equal exactly if they agree on all keys that are not set. -/
theorem setIn_eq_iff (call : Option (String × String)) (f g : String → Option String) :
    setIn call f = setIn call g ↔ ∀ key, (∀ p ∈ call, p.1 ≠ key) → f key = g key := by
  cases call with
  | none => simp [setIn, funext_iff]
  | some p =>
      constructor
      · intro heq key hkey
        have hne : key ≠ p.1 := fun h => hkey p rfl h.symm
        simpa [setIn, hne] using congrFun heq key
      · intro hother
        ext1 key
        by_cases hkey : key = p.1
        · subst hkey
          simp [setIn]
        · simp [setIn, hkey, hother key fun q hq => by cases hq; exact fun h => hkey h.symm]

/-- All calls of a log, oldest first: the newest value of each key stands. -/
theorem foldr_setIn (log : List (String × String)) (f : String → Option String) (key : String) :
    log.foldr (fun p => setIn (some p)) f key = (log.lookup key).or (f key) := by
  induction log with
  | nil => rfl
  | cons p log ih =>
      rw [List.foldr_cons, List.lookup_cons]
      by_cases hkey : key = p.1
      · subst hkey
        simp [setIn]
      · have hbeq : (key == p.1) = false := beq_false_of_ne hkey
        simp [setIn, hkey, ih, hbeq]

namespace VaultData

/-- The map that an object writes: its own, with the call of `SetString` that writes it. -/
def after (d : VaultData) (call : Option (String × String)) : VaultData :=
  match call with
  | none => d
  | some (key, value) => d.setString key value

theorem getString_after (d : VaultData) (call : Option (String × String)) :
    (d.after call).getString = setIn call d.getString := by
  cases call with
  | none => rfl
  | some p => exact d.getString_setString p.1 p.2

end VaultData

namespace VaultRun

variable {ι : Type*} [DecidableEq ι] (c : VaultCodec) (kekEnv kek : String)

omit [DecidableEq ι] in
/-- The map that an event writes to the file, with the key and value that it has set in it. -/
def written (s : VaultRun ι) (e : VaultEvent ι) : Option (VaultData × Option (String × String)) :=
  match e with
  | .stat _ => none
  | .openOrInit i write =>
      match s.object i, write with
      | .found false, .ok _ => some (.empty, none)
      | _, _ => none
  | .setString i key value write =>
      match s.object i, write with
      | .opened d, .ok _ => some (d, some (key, value))
      | _, _ => none

/-- A written map is in the file, and its call in the log. -/
theorem step_of_written {s : VaultRun ι} {e : VaultEvent ι} {d : VaultData}
    {call : Option (String × String)} (h : s.written e = some (d, call)) :
    ∃ i nonce, s.step c kekEnv kek e =
      s.persist c kek i nonce (d.after call) (call.toList ++ s.log) := by
  cases e with
  | stat i => cases h
  | openOrInit i write =>
      simp only [written] at h
      split at h
      · next nonce hobj =>
          cases h
          exact ⟨i, nonce, by simp [step, openOrInit, hobj, VaultData.after]⟩
      · cases h
  | setString i key value write =>
      simp only [written] at h
      split at h
      · next d nonce hobj =>
          cases h
          exact ⟨i, nonce, by simp [step, setString, hobj, VaultData.after]⟩
      · cases h

/-- Any other event leaves the file and the log as they are. -/
theorem step_of_unwritten {s : VaultRun ι} {e : VaultEvent ι} (h : s.written e = none) :
    (s.step c kekEnv kek e).file = s.file ∧ (s.step c kekEnv kek e).log = s.log := by
  cases e with
  | stat i =>
      show (s.stat kekEnv kek i).file = _ ∧ (s.stat kekEnv kek i).log = _
      unfold VaultRun.stat
      split
      · split <;> exact ⟨rfl, rfl⟩
      · exact ⟨rfl, rfl⟩
  | openOrInit i write =>
      show (s.openOrInit c kek i write).file = _ ∧ (s.openOrInit c kek i write).log = _
      unfold VaultRun.openOrInit
      split
      case h_1 hobj => simp [written, hobj] at h
      case h_3 => split <;> exact ⟨rfl, rfl⟩
      all_goals exact ⟨rfl, rfl⟩
  | setString i key value write =>
      show (s.setString c kek i key value write).file = _ ∧
        (s.setString c kek i key value write).log = _
      unfold VaultRun.setString
      split
      case h_1 hobj => simp [written, hobj] at h
      all_goals exact ⟨rfl, rfl⟩

/-- The map in the file, and the map without lost calls. -/
def sharedCell (f : String → Option String) :
    SharedCell (VaultRun ι) (VaultEvent ι) (String → Option String) where
  step := step c kekEnv kek
  cell s := c.content kek s.file
  intended s := s.log.foldr (fun p => setIn (some p)) f
  writes s e := (s.written e).map fun w => (w.1.getString, setIn w.2)
  cell_of_write s e copy f h := by
    obtain ⟨⟨d, call⟩, hw, hcf⟩ := Option.map_eq_some_iff.mp h
    obtain ⟨i, nonce, hstep⟩ := step_of_written c kekEnv kek hw
    cases hcf
    rw [hstep]
    show c.content kek (some (c.persisted kek nonce (d.after call))) = _
    rw [c.content_persisted, VaultData.getString_after]
  cell_of_idle s e h := by
    rw [(step_of_unwritten c kekEnv kek (Option.map_eq_none_iff.mp h)).1]
  intended_of_write s e copy f h := by
    obtain ⟨⟨d, call⟩, hw, hcf⟩ := Option.map_eq_some_iff.mp h
    obtain ⟨i, nonce, hstep⟩ := step_of_written c kekEnv kek hw
    cases hcf
    rw [hstep]
    cases call <;> rfl
  intended_of_idle s e h := by
    rw [(step_of_unwritten c kekEnv kek (Option.map_eq_none_iff.mp h)).2]

omit [DecidableEq ι] in
/-- If the event writes, the object's map agrees with the file on every key that the event does not
set. -/
def UpToDate (s : VaultRun ι) (e : VaultEvent ι) : Prop :=
  ∀ w ∈ s.written e, ∀ key, (∀ p ∈ w.2, p.1 ≠ key) → w.1.getString key = c.content kek s.file key

/-- A write is fresh if its object agrees with the file on the other keys. -/
theorem fresh_iff (f : String → Option String) (s : VaultRun ι) (e : VaultEvent ι) :
    (sharedCell c kekEnv kek f).Fresh s e ↔ s.UpToDate c kek e := by
  constructor
  · intro hfresh w hw
    rw [← setIn_eq_iff]
    refine hfresh _ _ ?_
    simp [sharedCell, Option.mem_def.mp hw]
  · intro hupto copy g hcopy
    obtain ⟨w, hw, heq⟩ := Option.map_eq_some_iff.mp hcopy
    cases heq
    exact (setIn_eq_iff _ _ _).mpr (hupto w hw)

omit [DecidableEq ι] in
/-- Reopening the file gives for every key the value of the last call of `SetString` that has
returned `nil`, and what `file` held for a key that no such call has set. -/
def Kept (file : Option (List UInt8)) (s : VaultRun ι) : Prop :=
  ∀ key, c.content kek s.file key = (s.log.lookup key).or (c.content kek file key)

theorem current_iff_kept (file : Option (List UInt8)) (s : VaultRun ι) :
    (sharedCell c kekEnv kek (c.content kek file)).Current s ↔ s.Kept c kek file := by
  show c.content kek s.file = s.log.foldr (fun p => setIn (some p)) (c.content kek file) ↔ _
  simp only [funext_iff, foldr_setIn]
  rfl

/-- No key is lost in a run exactly if every map that is written is up to date. -/
theorem keyvault_kept_iff (file : Option (List UInt8)) (es : List (VaultEvent ι)) :
    (∀ t ∈ Run.states (step c kekEnv kek) (start file) es, t.Kept c kek file) ↔
      Run.Admitted (step c kekEnv kek) (UpToDate c kek) (start file) es := by
  have hstart : (sharedCell c kekEnv kek (c.content kek file)).Current
      (start file : VaultRun ι) := rfl
  exact SharedCell.forall_current_iff (current_iff_kept c kekEnv kek file)
    (fresh_iff c kekEnv kek _) hstart es

end VaultRun

namespace Sample

/-- There are only countably many maps, so that they can be numbered. -/
theorem exists_numbering : ∃ f : VaultData → ℕ, Function.Injective f := by
  have hchar : Countable Char := Function.Injective.countable (f := Char.toNat) fun a b h => by
    exact Char.toNat_inj.mp h
  have hstring : Countable String :=
    Function.Injective.countable (f := String.toList) fun a b h => String.toList_injective h
  have htable : Countable (Table String) :=
    Function.Injective.countable (f := fun t : Table String => t.toList) fun a b h =>
      Std.ExtTreeMap.toList_inj.mp h
  have hdata : Countable VaultData :=
    Function.Injective.countable (f := VaultData.kv) fun a b h => by cases a; cases b; simp_all
  exact hdata.exists_injective_nat

/-- A codec that writes the number of a map in unary, and a cipher that changes nothing. -/
noncomputable def vaultCodec : VaultCodec where
  sha256 _ := Hash.zero
  marshal d := List.replicate (exists_numbering.choose d) 0
  unmarshal bytes :=
    match Function.partialInv exists_numbering.choose bytes.length with
    | some d => .ok d
    | none => .error (.error "bad JSON")
  sealBytes _ _ plain := plain
  openBytes _ _ ct := .ok ct
  unmarshal_marshal d := by
    simp [Function.partialInv_left exists_numbering.choose_spec]
  openBytes_sealBytes _ _ _ := rfl

/-- The node (`false`) and its P2P layer (`true`) open the vault, and then each stores its key. -/
def twoVaults : List (VaultEvent Bool) :=
  let nonce : Nonce := ⟨List.replicate 12 0, rfl⟩
  [.stat false, .openOrInit false (.ok nonce), .stat true, .openOrInit true (.ok nonce),
    .setString false "pos.ed25519_priv" "aa" (.ok nonce),
    .setString true "p2p.ed25519_priv" "bb" (.ok nonce)]

end Sample

namespace VaultRun

open Sample

/-- After `Sample.twoVaults` the validator key, which `SetString` has stored, is gone. -/
theorem not_keyvault_kept_twoVaults :
    (twoVaults.foldl (step vaultCodec "KEYMASTER" "kek") (start none)).log.lookup
      "pos.ed25519_priv" = some "aa" ∧
    vaultCodec.content "kek"
      (twoVaults.foldl (step vaultCodec "KEYMASTER" "kek") (start none)).file
      "pos.ed25519_priv" = none := by
  have hkek : ¬ ("kek" : String) = "" := by decide
  constructor
  · simp [twoVaults, step, stat, openOrInit, setString, start, become, persist, hkek,
      VaultCodec.openVault_persisted, List.lookup_cons]
  · simp [twoVaults, step, stat, openOrInit, setString, start, become, persist, hkek,
      VaultCodec.openVault_persisted, VaultCodec.content_persisted, VaultData.getString_setString]
    simp [VaultData.getString, VaultData.empty]

end VaultRun

end ReserveOS
