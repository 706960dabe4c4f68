import ReserveOS.Correctness.HeaderHash
import ReserveOS.Correctness.Rewind
import ReserveOS.Node.Headers

/-!
# Which headers are checked

Two results about headers that the node trusts.

* `storedMatch_iff`: the header that `SubmitBlock` writes is not the one that
  `BlockMatchesStoredHeader` reads. A stored block passes this check exactly if the header index had
  a header for it before, from another source.
* `headersLinked_iff`: a batch with claimed hashes that `validateHeadersChain` accepts is linked
  exactly if the claimed hashes are the real ones. Without claimed hashes nothing is read of the
  later headers, and a batch of more than one header need not be linked.
-/

namespace ReserveOS

/-! ### The two kinds of keys -/

namespace HeaderRecords

/-- No block hash starts like the key of the other kind. -/
theorem toHex_ne_append (h : Hash) (x : String) : h.toHex ≠ "hash:" ++ x := by
  intro heq
  have hchars := congrArg String.toList heq
  rw [Hash.toHex, String.toList_ofList, String.toList_append] at hchars
  cases hbytes : h.bytes.toList with
  | nil =>
      have hlen := congrArg List.length hbytes
      simp at hlen
  | cons b bs =>
      rw [hbytes, List.flatMap_cons] at hchars
      have hfirst : Hash.hexDigit (b.toNat / 16) = 'h' := (List.cons.inj hchars).1
      have hdigit : ∀ v < 16, Hash.hexDigit v ≠ 'h' := by decide
      have hlt := b.toNat_lt
      exact hdigit _ (by omega) hfirst

/-- What `SubmitBlock` writes is not seen in the header index. -/
theorem index_putHeader (kv : HeaderRecords) (tip : Option (UInt64 × String)) (x : String)
    (hd : BlockHeader) (h : Hash) :
    ((kv.putHeader x hd).index tip).header h.toHex = (kv.index tip).header h.toHex := by
  have hne : keyHdrHash h.toHex ≠ keyHeaderByHash x := by
    intro heq
    have hsplit : keyHeaderByHash x = "hdr:" ++ ("hash:" ++ x) := by
      rw [keyHeaderByHash, ← String.append_assoc]
      rfl
    rw [hsplit, keyHdrHash] at heq
    exact toHex_ne_append h x ((String.append_right_inj "hdr:").mp heq)
  exact Function.update_of_ne hne _ _

end HeaderRecords

/-! ### Runs of `SubmitBlock` -/

namespace Node

variable (n : Node)

/-- Every stored block but genesis passes `BlockMatchesStoredHeader`. -/
def StoredMatch (tip : Option (UInt64 × String)) (st : DB × HeaderRecords) : Prop :=
  ∀ x b, st.1.blockByHash x = some b → x ≠ n.genesisHash →
    n.blockMatchesStoredHeader (st.2.index tip) b = .ok ()

/-- A call that stores its block has a block that the header index describes. -/
def Announced (hs : HeaderIndex) (st : DB × HeaderRecords) (c : Int64 × Block) : Prop :=
  n.preStore st.1 c.2 = .ok true → n.hashHex c.2.header ≠ n.genesisHash →
    hs.Describes (n.hashHex c.2.header) c.2

/-- Blocks are stored under their own hashes, and the header index shows for every hash what it
showed in `kv`. -/
structure IndexUntouched (kv : HeaderRecords) (tip : Option (UInt64 × String))
    (st : DB × HeaderRecords) : Prop where
  key : ∀ x b, st.1.blockByHash x = some b → x = n.hashHex b.header
  index : ∀ h : Hash, (st.2.index tip).header h.toHex = (kv.index tip).header h.toHex

variable {n} {kv : HeaderRecords} {tip : Option (UInt64 × String)} {st : DB × HeaderRecords}

/-! ### The records and the header table -/

/-- Finality code writes no header. -/
theorem FinSteps.headerByHash {signs target : UInt64 → String → Prop}
    {delivered : VoteRecord → Prop} {s t : DB} (h : n.FinSteps signs target delivered s t) :
    t.headerByHash = s.headerByHash :=
  Run.closure_invariant (I := fun t => t.headerByHash = s.headerByHash)
    (fun _ _ hstep hst => by cases hstep <;> exact hst) h rfl

theorem headerByHash_advanceTip (now : Int64) (s : DB) (b : Block) (cum : UInt64) :
    (n.advanceTip now s b cum).headerByHash = s.headerByHash := by
  unfold advanceTip
  dsimp only
  split
  · have hfin (t : DB) (cp : Checkpoint) : n.FinSteps (fun _ _ => True) (fun _ _ => True)
        (fun _ => False) t (n.processCheckpointVotes now t cp) :=
      finSteps_processCheckpointVotes now t trivial trivial
    exact (hfin _ _).headerByHash
  · rfl

theorem headerByHash_rewriteIndex (s : DB) (h : UInt64) (path : List String) :
    (s.rewriteIndex h path).headerByHash = s.headerByHash := by
  induction path generalizing s h with
  | nil => rfl
  | cons x path ih => exact ih (s.putHashByHeightOverwrite h x) (h + 1)

/-- The header table after a call of `SubmitBlock`. -/
theorem headerByHash_submitBlock (now : Int64) (s : DB) (b : Block) :
    (n.submitBlock now s b).2.headerByHash = if n.preStore s b = .ok true then
        Function.update s.headerByHash (n.hashHex b.header) (some b.header)
      else s.headerByHash := by
  have hout := n.submitBlock_outcome now s b
  generalize n.submitBlock now s b = res at hout
  cases hout with
  | rejected e hpre => rw [if_neg (by simp [hpre])]
  | ignored hpre => rw [if_neg (by simp [hpre])]
  | invalidTip e hpre hext hval =>
      rw [if_pos hpre]
      rfl
  | extended hpre hext hval =>
      rw [if_pos hpre, headerByHash_advanceTip]
      rfl
  | forkStored r hpre hext hkeep =>
      rw [if_pos hpre]
      rfl
  | switched finH path hpre hext hwork hpath =>
      rw [if_pos hpre, rebuildStateFromFinalized_eq]
      exact headerByHash_rewriteIndex _ _ _

/-- Throughout a run the records under `hdr:hash:` are the header table of the database. -/
theorem records_eq_headerByHash (registry : Table RegValidator)
    (hkv : ∀ x, kv (HeaderRecords.keyHeaderByHash x) = none) (calls : List (Int64 × Block)) :
    ∀ t ∈ Run.states n.submitKeyed (n.genesisDB registry, kv) calls, ∀ x,
      t.2 (HeaderRecords.keyHeaderByHash x) = t.1.headerByHash x := by
  refine Run.invariant (E := fun _ => True) ?_ (fun _ _ => trivial) hkv
    (Run.admitted_of_forall _ fun _ _ _ => trivial)
  intro st c h _ _ x
  show (n.submitKeyed st c).2 _ = (n.submitBlock c.1 st.1 c.2).2.headerByHash x
  rw [headerByHash_submitBlock, submitKeyed]
  dsimp only
  split
  · have hkey : HeaderRecords.keyHeaderByHash x = HeaderRecords.keyHeaderByHash
        (n.hashHex c.2.header) ↔ x = n.hashHex c.2.header := String.append_right_inj "hdr:hash:"
    rw [HeaderRecords.putHeader, Function.update_apply, Function.update_apply, h x]
    simp only [hkey]
  · exact h x

/-! ### Stored blocks and the index -/

/-- The blocks after a call. -/
theorem blockByHash_submitKeyed (st : DB × HeaderRecords) (c : Int64 × Block) (x : String) :
    (n.submitKeyed st c).1.blockByHash x =
      if n.preStore st.1 c.2 = .ok true ∧ x = n.hashHex c.2.header then some c.2
      else st.1.blockByHash x := by
  show (n.submitBlock c.1 st.1 c.2).2.blockByHash x = _
  rcases n.blockByHash_submitBlock c.1 st.1 c.2 with ⟨hpre, hsame⟩ | ⟨hpre, hblk⟩
  · rw [hsame, if_neg fun h => hpre h.1]
  · rw [hblk, blockByHash_stored]
    simp only [hpre, true_and]

/-- A call of `SubmitBlock` does not touch what the header index shows. -/
theorem IndexUntouched.submitKeyed (h : n.IndexUntouched kv tip st) (c : Int64 × Block) :
    n.IndexUntouched kv tip (n.submitKeyed st c) where
  key := by
    intro x b hb
    rw [blockByHash_submitKeyed] at hb
    split at hb
    next hnew =>
      rw [← Option.some.inj hb]
      exact hnew.2
    next => exact h.key x b hb
  index := by
    intro hash
    rw [← h.index hash, Node.submitKeyed]
    dsimp only
    split
    · exact HeaderRecords.index_putHeader _ _ _ _ _
    · rfl

/-- In an untouched index the check of a stored block is about the header that was there. -/
theorem IndexUntouched.matches_iff (h : n.IndexUntouched kv tip st) {x : String} {b : Block}
    (hb : st.1.blockByHash x = some b) :
    n.blockMatchesStoredHeader (st.2.index tip) b = .ok () ↔ (kv.index tip).Describes x b := by
  have hsame : (st.2.index tip).Describes (n.hashHex b.header) b ↔
      (kv.index tip).Describes (n.hashHex b.header) b := by
    unfold HeaderIndex.Describes
    rw [show n.hashHex b.header = (b.header.hash n.prim.sha256).toHex from rfl, h.index]
  rw [h.key x b hb, ← hsame]
  rcases blockMatchesStoredHeader_cases (n := n) (st.2.index tip) b with ⟨hok, hd⟩ | ⟨msg, herr, hd⟩
  · exact iff_of_true hok hd
  · refine iff_of_false (fun hok => ?_) hd
    rw [herr] at hok
    cases hok

/-- In a run of `SubmitBlock` calls every stored block passes `BlockMatchesStoredHeader` throughout
exactly if the header index described each of them before the run. -/
theorem storedMatch_iff (n : Node) (registry : Table RegValidator) (kv : HeaderRecords)
    (tip : Option (UInt64 × String)) (calls : List (Int64 × Block)) :
    (∀ t ∈ Run.states n.submitKeyed (n.genesisDB registry, kv) calls, n.StoredMatch tip t) ↔
      Run.Admitted n.submitKeyed (n.Announced (kv.index tip)) (n.genesisDB registry, kv) calls := by
  -- the only block of a new node is genesis
  have hfirst : ∀ x b, (n.genesisDB registry).blockByHash x = some b →
      x = n.genesisHash ∧ b = n.genesisBlock := by
    intro x b hb
    rw [blockByHash_genesisDB, Function.update_apply] at hb
    split at hb
    next hx => exact ⟨hx, (Option.some.inj hb).symm⟩
    next => cases hb
  refine Run.forall_states_iff (I := n.IndexUntouched kv tip) (E := fun _ => True)
    (fun st c h _ => h.submitKeyed c) ?_ (fun _ _ => trivial) ?_ ?_
  · intro st c h _ hmatch
    have hnext := h.submitKeyed c
    constructor
    · intro hall hpre hne
      have hb : (n.submitKeyed st c).1.blockByHash (n.hashHex c.2.header) = some c.2 := by
        rw [blockByHash_submitKeyed, if_pos ⟨hpre, rfl⟩]
      exact (hnext.matches_iff hb).mp (hall _ _ hb hne)
    · intro hann x b hb hne
      rw [hnext.matches_iff hb]
      rw [blockByHash_submitKeyed] at hb
      split at hb
      next hnew =>
        obtain rfl := Option.some.inj hb
        rw [hnew.2] at hne ⊢
        exact hann hnew.1 hne
      next => exact (h.matches_iff hb).mp (hmatch x b hb hne)
  · refine ⟨fun x b hb => ?_, fun _ => rfl⟩
    obtain ⟨rfl, rfl⟩ := hfirst x b hb
    rfl
  · intro x b hb hne
    exact absurd (hfirst x b hb).1 hne

end Node

open Sample in
/-- A new node without header records stores a block, and the check of this block finds no header.
-/
theorem Node.not_storedMatch_first :
    node.preStore (node.genesisDB ∅) main₁ = .ok true ∧
      (node.submitKeyed (node.genesisDB ∅, fun _ => none) (0, main₁)).1.blockByHash
        (node.hashHex main₁.header) = some main₁ ∧
      node.hashHex main₁.header ≠ node.genesisHash ∧
      node.blockMatchesStoredHeader
        ((node.submitKeyed (node.genesisDB ∅, fun _ => none) (0, main₁)).2.index none) main₁ =
          .error (.error "missing_header") := by
  obtain ⟨hpre, hne⟩ : node.preStore (node.genesisDB ∅) main₁ = .ok true ∧
      node.hashHex main₁.header ≠ node.genesisHash := by decide +kernel
  refine ⟨hpre, ?_, hne, ?_⟩
  · rw [blockByHash_submitKeyed, if_pos ⟨hpre, rfl⟩]
  · have hnone : ((node.submitKeyed (node.genesisDB ∅, fun _ => none) (0, main₁)).2.index
        none).header (node.hashHex main₁.header) = none := by
      rw [submitKeyed, if_pos hpre, hashHex, HeaderRecords.index_putHeader]
      rfl
    rw [blockMatchesStoredHeader, hnone]

/-! ### Batches of headers -/

/-- The first header follows the tip, and every later one follows the header before it. -/
structure HeadersLinked (n : Node) (tipHash : String) (headers : List BlockHeader) : Prop where
  first : ∀ hd, headers[0]? = some hd → hd.prevHash.toHex = tipHash
  next : ∀ i hd hd', headers[i]? = some hd → headers[i + 1]? = some hd' →
    hd'.prevHash.toHex = n.hashHex hd

/-- The claimed hashes are the real ones, except perhaps for the last header. -/
def RealHashes (n : Node) (headers : List BlockHeader) (hashes : List String) : Prop :=
  ∀ i hd, headers[i]? = some hd → i + 1 < headers.length → hashes[i]? = some (n.hashHex hd)

/-- What `validateHeadersChain` refuses: claimed hashes, but not one for each header; a first header
that does not follow the tip; or a later one that does not follow the claimed hash before it. -/
def Refused (tipHash : String) (headers : List BlockHeader) (hashes : List String) : Prop :=
  headers ≠ [] ∧ ((hashes ≠ [] ∧ hashes.length ≠ headers.length) ∨
    (∃ hd, headers[0]? = some hd ∧ hd.prevHash.toHex ≠ tipHash) ∨
    ∃ i hd x, headers[i + 1]? = some hd ∧ hashes[i]? = some x ∧ hd.prevHash.toHex ≠ x)

/-- When a batch is refused. -/
theorem validateHeadersChain_eq_false_iff {tipHash : String} {headers : List BlockHeader}
    {hashes : List String} :
    validateHeadersChain tipHash headers hashes = false ↔ Refused tipHash headers hashes := by
  cases headers with
  | nil => simp [validateHeadersChain, Refused]
  | cons first rest =>
      -- the loop compares the headers and the hashes of one position
      have hloop : (rest.zip hashes).all (fun e => e.1.prevHash.toHex = e.2) = false ↔
          ∃ i hd x, (first :: rest)[i + 1]? = some hd ∧ hashes[i]? = some x ∧
            hd.prevHash.toHex ≠ x := by
        simp only [List.all_eq_false, List.mem_iff_getElem?, Prod.exists, List.getElem?_zip_eq_some,
          List.getElem?_cons_succ, decide_eq_true_eq]
        grind
      rw [validateHeadersChain, Refused]
      by_cases hnil : hashes = []
      · simp [hnil]
      · simp [hnil, hloop]
        grind

/-- What an accepted batch is known to satisfy. -/
theorem validateHeadersChain_spec {tipHash : String} {headers : List BlockHeader}
    {hashes : List String} (h : ¬ Refused tipHash headers hashes) :
    (∀ hd, headers[0]? = some hd → hd.prevHash.toHex = tipHash) ∧ (hashes ≠ [] →
      ∀ i hd', headers[i + 1]? = some hd' → hashes[i]? = some hd'.prevHash.toHex) := by
  rw [Refused, not_and_or, not_or, not_or, not_and_or, not_not, not_not, not_not] at h
  refine ⟨fun hd hhd => ?_, fun hne i hd' hhd' => ?_⟩
  · rcases h with rfl | ⟨-, hfirst, -⟩
    · cases hhd
    · by_contra hother
      exact hfirst ⟨hd, hhd, hother⟩
  · have hlt := (List.getElem?_eq_some_iff.mp hhd').1
    obtain ⟨hlen, -, hlater⟩ := h.resolve_left (List.ne_nil_of_length_pos (by omega))
    have hsame := hlen.resolve_left hne
    -- there is a claimed hash at this position, and it is the one that was compared
    have hx : hashes[i]? = some hashes[i] := List.getElem?_eq_getElem (by omega)
    rw [hx]
    by_contra hother
    exact hlater ⟨i, hd', _, hhd', hx, fun heq => hother (congrArg some heq.symm)⟩

/-- A batch is refused or linked exactly if it is refused, or the claimed hashes are the real ones,
or there are none and the later headers follow their predecessors all the same. -/
theorem headersLinked_iff (n : Node) (tipHash : String) (headers : List BlockHeader)
    (hashes : List String) :
    (validateHeadersChain tipHash headers hashes = true → HeadersLinked n tipHash headers) ↔
      Refused tipHash headers hashes ∨ RealHashes n headers hashes ∨
        (hashes = [] ∧ ∀ i hd hd', headers[i]? = some hd → headers[i + 1]? = some hd' →
          hd'.prevHash.toHex = n.hashHex hd) := by
  rw [← Bool.not_eq_false, validateHeadersChain_eq_false_iff]
  by_cases hrefused : Refused tipHash headers hashes
  · exact iff_of_true (fun haccept => absurd hrefused haccept) (.inl hrefused)
  obtain ⟨hfirst, hnext⟩ := validateHeadersChain_spec hrefused
  constructor
  · intro hlinked
    have hfollow := (hlinked hrefused).next
    by_cases hnil : hashes = []
    · exact .inr (.inr ⟨hnil, hfollow⟩)
    · refine .inr (.inl fun i hd hhd hlt => ?_)
      obtain ⟨hd', hhd'⟩ : ∃ hd', headers[i + 1]? = some hd' := ⟨_, List.getElem?_eq_getElem hlt⟩
      rw [hnext hnil i hd' hhd', hfollow i hd hd' hhd hhd']
  · rintro (hyes | hreal | ⟨-, hfollow⟩) -
    · exact absurd hyes hrefused
    · refine ⟨hfirst, fun i hd hd' hhd hhd' => ?_⟩
      have hclaim := hreal i hd hhd (List.getElem?_eq_some_iff.mp hhd').1
      have hnil : hashes ≠ [] := by
        rintro rfl
        cases hclaim
      rw [hnext hnil i hd' hhd'] at hclaim
      exact Option.some.inj hclaim
    · exact ⟨hfirst, hfollow⟩

open Sample in
/-- A batch without hashes is accepted although its second header does not follow the first, and so
is one with a false hash. -/
theorem not_headersLinked_unclaimed :
    validateHeadersChain node.genesisHash [main₁.header, fork₁.header] [] = true ∧
      validateHeadersChain node.genesisHash [main₁.header, fork₁.header]
        [node.genesisHash, ""] = true ∧
      ¬ HeadersLinked node node.genesisHash [main₁.header, fork₁.header] := by
  have hread : validateHeadersChain node.genesisHash [main₁.header, fork₁.header] [] = true ∧
      validateHeadersChain node.genesisHash [main₁.header, fork₁.header]
        [node.genesisHash, ""] = true ∧
      fork₁.header.prevHash.toHex ≠ node.hashHex main₁.header := by decide +kernel
  refine ⟨hread.1, hread.2.1, fun h => ?_⟩
  exact hread.2.2 (h.next 0 main₁.header fork₁.header rfl rfl)

end ReserveOS
