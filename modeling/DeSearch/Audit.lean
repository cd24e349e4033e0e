import DeSearch.AuditorProof
import DeSearch.Epochs

/-!
# What an audit is worth on an untrusted store

Kanban is untrusted but for the ledger: whoever runs it may delete, alter and misfile whatever
else it holds. What cannot be done is to forge a signature. Two questions follow.

* Can tampering shrink what the auditor expects? `do_local_verify` passes over an epoch whose keys
  do not match the root hash, and over a key without a witness. So it can, and
  `pass_expects_committed_iff` says when it cannot: when no committed crawler witness was deleted or
  altered.
* Can tampering let the auditor retrieve what no signed witness leads to? A witness is looked up
  by the field it is filed under, and the `OUT` inside it is never compared. So it can, and
  `retrieved_reachable` says when it cannot: when every witness that the walk comes to is filed
  under its own `OUT`.
-/

namespace DeSearch

open JSON Relation

variable {R : Runtime} {C : Crypto} {L : LastCharSort} {kb : Kanban}

/-! ## What is expected -/

/-- The ledger is what the manager wrote: the epoch is `E`, and the root hash of every audited
epoch is that of its committed keys. -/
structure LedgerAt (R : Runtime) (C : Crypto) (L : LastCharSort) (kb : Kanban) (E : Int)
    (committed : Int → List Bytes) : Prop where
  epoch : getEpochInt R C kb = some E
  roots : ∀ k, 1 ≤ k → k ≤ E - 2 → kb.get (.rootHash k) = some (rootHashOf C L (committed k))

/-- A signed crawler witness whose key an audited epoch has committed to. -/
structure CommittedAt (C : Crypto) (Signed : WitnessContext → Prop) (E : Int)
    (committed : Int → List Bytes) (k : Int) (context : WitnessContext) : Prop where
  audited : 1 ≤ k ∧ k ≤ E - 2
  signed : Signed context
  crawler : context.bin = crawlerFunc C
  key : context.out ∈ committed k

/-- A committed crawler witness lists `h`. -/
def Committed (C : Crypto) (Signed : WitnessContext → Prop) (E : Int)
    (committed : Int → List Bytes) (h : Bytes) : Prop :=
  ∃ k context, CommittedAt C Signed E committed k context ∧ h ∈ context.ins

/-- Nothing of a committed witness was deleted or altered: the keys of the epoch still hash to what
was committed, the key of the witness is among them, and the record under it is a crawler's and
lists what the witness lists. -/
structure Kept (R : Runtime) (C : Crypto) (L : LastCharSort) (kb : Kanban)
    (committed : Int → List Bytes) (k : Int) (context : WitnessContext) : Prop where
  root : rootHashOf C L (committed k) = rootHashOf C L (kb.smembers k)
  key : context.out ∈ kb.smembers k
  record : ∃ w ins, kb.hget context.out = some w ∧ crawlerFunc C <:+: w ∧
    readIn R w = some ins ∧ context.ins ⊆ ins

/-- Every committed witness that lists anything is kept. -/
def AllKept (R : Runtime) (C : Crypto) (L : LastCharSort) (Signed : WitnessContext → Prop)
    (kb : Kanban) (E : Int) (committed : Int → List Bytes) : Prop :=
  ∀ k context, CommittedAt C Signed E committed k context → context.ins ≠ [] →
    Kept R C L kb committed k context

/-- What a committed witness lists is listed in the store under its key only, and its key stands in
the set of its epoch only. -/
def ListedOnce (R : Runtime) (C : Crypto) (Signed : WitnessContext → Prop) (kb : Kanban) (E : Int)
    (committed : Int → List Bytes) : Prop :=
  ∀ k context h, CommittedAt C Signed E committed k context → h ∈ context.ins →
    (∀ key w ins, kb.hget key = some w → crawlerFunc C <:+: w → readIn R w = some ins → h ∈ ins →
      key = context.out) ∧
    ∀ e, 1 ≤ e → e ≤ E - 2 → context.out ∈ kb.smembers e → e = k

/-- Whatever the auditor is asked: if it passes, it expected all that the committed crawler
witnesses list. -/
def PassExpects (R : Runtime) (C : Crypto) (L : LastCharSort) (Signed : WitnessContext → Prop)
    (kb : Kanban) (E : Int) (committed : Int → List Bytes) : Prop :=
  ∀ fuel needs scratchPad, readIn R needs = some scratchPad →
    slowPath R C L kb fuel E scratchPad = some true →
    ∃ items, expectedSet R C L kb E = some items ∧
      ∀ h, Committed C Signed E committed h → h ∈ items

section

variable {E : Int} {committed : Int → List Bytes} {Signed : WitnessContext → Prop}

theorem LedgerAt.exists_checkRootHash (hled : LedgerAt R C L kb E committed) (e : Int)
    (h1 : 1 ≤ e) (h2 : e ≤ E - 2) : ∃ well, checkRootHash C L kb e = some well :=
  ⟨_, checkRootHash_eq (hled.roots e h1 h2)⟩

/-- The auditor reads the request of `go_verify` back, escaped once more. -/
theorem readIn_verifyIn (us : List Bytes) : readIn R (verifyIn us) = some (us.map escape) := by
  have hplain : Plain (object [(ascii "IN", array (us.map string))]) := by
    refine ⟨⟨⟨ascii "IN", rfl⟩, plainElems_strings us, trivial⟩, ?_⟩
    exact List.pairwise_singleton _ _
  have hload : load R (verifyIn us) = some (object [(ascii "IN", array (us.map string))]) :=
    load_dump hplain 1
  have hmap : (us.map string).map toStr = us.map escape := by
    rw [List.map_map]
    rfl
  rw [readIn, hload, Option.map_some, ← hmap]
  rfl

theorem LedgerAt.checkRootHash_iff (hled : LedgerAt R C L kb E committed) {k : Int} (h1 : 1 ≤ k)
    (h2 : k ≤ E - 2) : checkRootHash C L kb k = some true ↔
      rootHashOf C L (committed k) = rootHashOf C L (kb.smembers k) := by
  rw [checkRootHash_eq (hled.roots k h1 h2), Option.some.injEq, decide_eq_true_eq]

/-- What a kept witness lists is expected. -/
theorem Kept.listed (hled : LedgerAt R C L kb E committed) (hgenuine : Genuine R C kb) {k : Int}
    {context : WitnessContext} (hk : 1 ≤ k ∧ k ≤ E - 2) (hkept : Kept R C L kb committed k context)
    {h : Bytes} (hh : h ∈ context.ins) : Listed R C L kb E h := by
  obtain ⟨w, ins, hw, hfunc, hins, hsub⟩ := hkept.record
  exact ⟨k, context.out, w, ins, hk, (hled.checkRootHash_iff hk.1 hk.2).2 hkept.root, hkept.key,
    ⟨hw, hgenuine _ _ hw⟩, hfunc, hins, hsub hh⟩

/-- A witness whose hashes are expected is kept, if nothing else lists them. -/
theorem kept_of_listed (hled : LedgerAt R C L kb E committed)
    (honce : ListedOnce R C Signed kb E committed) {k : Int} {context : WitnessContext}
    (hcom : CommittedAt C Signed E committed k context) (hne : context.ins ≠ [])
    (hall : ∀ h ∈ context.ins, Listed R C L kb E h) : Kept R C L kb committed k context := by
  -- each hash is listed under the key of the witness, in its epoch
  have hunder : ∀ h ∈ context.ins, checkRootHash C L kb k = some true ∧
      context.out ∈ kb.smembers k ∧ ∃ w ins, kb.hget context.out = some w ∧
        crawlerFunc C <:+: w ∧ readIn R w = some ins ∧ h ∈ ins := by
    intro h hh
    obtain ⟨e, key, w, ins, he, hroot, hkey, hw, hfunc, hins, hmem⟩ := hall h hh
    obtain ⟨hrecord, hepoch⟩ := honce k context h hcom hh
    obtain rfl := hrecord key w ins hw.1 hfunc hins hmem
    obtain rfl := hepoch e he.1 he.2 hkey
    exact ⟨hroot, hkey, w, ins, hw.1, hfunc, hins, hmem⟩
  obtain ⟨h, hh⟩ := List.exists_mem_of_ne_nil _ hne
  obtain ⟨hroot, hkey, w, ins, hw, hfunc, hins, -⟩ := hunder h hh
  refine ⟨(hled.checkRootHash_iff hcom.audited.1 hcom.audited.2).1 hroot, hkey, w, ins, hw, hfunc,
    hins, fun h' hh' => ?_⟩
  obtain ⟨-, -, w', ins', hw', -, hins', hmem⟩ := hunder h' hh'
  obtain rfl := Option.some.inj (hw.symm.trans hw')
  obtain rfl := Option.some.inj (hins.symm.trans hins')
  exact hmem

/-- **The expected set.** If no committed crawler witness was deleted or altered, no pass expects
less than was committed. And if nothing else in the store lists the same hashes and some audit
passes, this is the only way. -/
theorem pass_expects_committed_iff (hled : LedgerAt R C L kb E committed) :
    (AllKept R C L Signed kb E committed → PassExpects R C L Signed kb E committed) ∧
    (ListedOnce R C Signed kb E committed →
      (∃ fuel needs scratchPad, readIn R needs = some scratchPad ∧
        slowPath R C L kb fuel E scratchPad = some true) →
      (PassExpects R C L Signed kb E committed ↔ AllKept R C L Signed kb E committed)) := by
  have hkept : AllKept R C L Signed kb E committed →
      PassExpects R C L Signed kb E committed := by
    intro hall fuel needs scratchPad _ hslow
    obtain ⟨leaves, items, hleaves, hitems, -⟩ := slowPath_eq_true.1 hslow
    obtain ⟨records, hrec, -⟩ := Option.bind_eq_some_iff.1 hleaves
    refine ⟨items, hitems, ?_⟩
    rintro h ⟨k, context, hcom, hh⟩
    refine (mem_expectedSet hitems h).2 ?_
    exact (hall k context hcom (List.ne_nil_of_mem hh)).listed hled (genuine_of_kbWitness hrec)
      hcom.audited hh
  refine ⟨hkept, fun honce ⟨fuel, needs, scratchPad, hneeds, hslow⟩ => ⟨fun hpass => ?_, hkept⟩⟩
  obtain ⟨items, hitems, hall⟩ := hpass fuel needs scratchPad hneeds hslow
  intro k context hcom hne
  refine kept_of_listed hled honce hcom hne fun h hh => ?_
  exact (mem_expectedSet hitems h).1 (hall h ⟨k, context, hcom, hh⟩)

end

/-! ## An epoch whose keys are gone -/

/-- A block without transactions. -/
def auditBlock : Bytes := ascii "\x7b\x7d"

/-- What a crawler enclave makes of it. -/
def auditDocs : Bytes := (parseSteemitItem samplePlatform [auditBlock]).getD []

/-- The witness the enclave signs for it. -/
def auditWitness : WitnessContext :=
  witnessOf sampleCrypto (ascii "STEEMIT CRAWLER") (ascii "cralwer") [auditBlock] auditDocs

theorem filled_auditWitness : auditWitness.Filled sampleCrypto := ⟨_, _, _, _, rfl⟩

theorem auditWitness_eq : auditWitness = ⟨ascii "STEEMIT CRAWLER", [sampleCrypto.sha256 auditBlock],
    sampleCrypto.sha256 auditDocs, crawlerFunc sampleCrypto, 4⟩ :=
  witnessOf_eq _ _ _ _

/-- A store of the third epoch. The first epoch committed one witness, which is there, but the set
of its keys is not. -/
def emptiedStore : Kanban :=
  ((Kanban.empty.hset auditWitness.out (witnessText sampleCrypto auditWitness)).set (.rootHash 1)
    (rootHashOf sampleCrypto sampleDeployment.sort [auditWitness.out])).set .epoch
      (epochPacket sampleCrypto 3)

/-- The same store with the set of keys. -/
def intactStore : Kanban := emptiedStore.sadd 1 auditWitness.out

theorem ledgerAt_of_get {kb : Kanban} (h : ∀ k, kb.get k = emptiedStore.get k) :
    LedgerAt sampleRuntime sampleCrypto sampleDeployment.sort kb 3 fun _ => [auditWitness.out] where
  epoch := getEpochInt_epochPacket (by decide) ((h _).trans (Kanban.get_set_self _ _ _))
  roots k h1 h2 := by
    obtain rfl : k = 1 := by omega
    rw [h, emptiedStore, Kanban.get_set_of_ne _ (by decide), Kanban.get_set_self]

theorem ledgerAt_intactStore : LedgerAt sampleRuntime sampleCrypto sampleDeployment.sort intactStore
    3 fun _ => [auditWitness.out] :=
  ledgerAt_of_get fun k => Kanban.get_sadd emptiedStore 1 auditWitness.out k

theorem hget_emptiedStore {k w : Bytes} (h : emptiedStore.hget k = some w) :
    w = witnessText sampleCrypto auditWitness :=
  (Prod.mk.inj (List.mem_singleton.1 (mem_of_lookup h))).2

theorem genuine_emptiedStore : Genuine sampleRuntime sampleCrypto emptiedStore := by
  intro k w hw
  rw [hget_emptiedStore hw]
  exact checkWitness_witnessText

theorem committed_auditBlock : Committed sampleCrypto (· = auditWitness) 3
    (fun _ => [auditWitness.out]) (sampleCrypto.sha256 auditBlock) := by
  refine ⟨1, auditWitness, ⟨by decide, rfl, ?_, List.mem_singleton_self _⟩, ?_⟩ <;>
    rw [auditWitness_eq]
  exact List.mem_singleton_self _

/-- With the set of keys emptied, an audit of nothing passes and expects nothing. -/
theorem emptied_set_passes :
    LedgerAt sampleRuntime sampleCrypto sampleDeployment.sort emptiedStore 3
        (fun _ => [auditWitness.out]) ∧
      (∃ fuel, slowPath sampleRuntime sampleCrypto sampleDeployment.sort emptiedStore fuel 3 [] =
        some true) ∧
      readIn sampleRuntime (verifyIn []) = some [] ∧
      ∃ h items, Committed sampleCrypto (· = auditWitness) 3 (fun _ => [auditWitness.out]) h ∧
        expectedSet sampleRuntime sampleCrypto sampleDeployment.sort emptiedStore 3 = some items ∧
        h ∉ items := by
  have hled := ledgerAt_of_get fun k => rfl
  have hgenuine := genuine_emptiedStore
  obtain ⟨items, hitems⟩ := exists_expectedSet hgenuine hled.exists_checkRootHash
  have hnone : ∀ h, h ∉ items := by
    intro h hmem
    obtain ⟨e, k, w, ins, -, -, hk, -⟩ := (mem_expectedSet hitems h).1 hmem
    cases hk
  have hground : ∀ x ∈ ([] : List Bytes), Grounded sampleRuntime sampleCrypto emptiedStore x :=
    fun x hx => absurd hx List.not_mem_nil
  obtain ⟨fuel, leaves, hleaves⟩ := exists_retrievedSet hgenuine hground
  refine ⟨hled, ⟨fuel, ?_⟩, readIn_verifyIn [], _, items, committed_auditBlock, hitems, hnone _⟩
  exact slowPath_eq_true.2 ⟨leaves, items, hleaves, hitems, fun h hmem => absurd hmem (hnone h)⟩

/-- With the set of keys in place, the witness is kept. -/
theorem allKept_intactStore : AllKept sampleRuntime sampleCrypto sampleDeployment.sort
    (· = auditWitness) intactStore 3 fun _ => [auditWitness.out] := by
  rintro k _ ⟨hk, rfl, hbin, -⟩ -
  obtain rfl : k = 1 := by omega
  have hfilled := filled_auditWitness
  exact ⟨rfl, List.mem_singleton_self _, witnessText sampleCrypto auditWitness, auditWitness.ins,
    List.lookup_cons_self, hbin ▸ infix_witnessText hfilled, readIn_witnessText hfilled,
    List.Subset.refl _⟩

theorem listed_intactStore {h : Bytes}
    (hh : Committed sampleCrypto (· = auditWitness) 3 (fun _ => [auditWitness.out]) h) :
    Listed sampleRuntime sampleCrypto sampleDeployment.sort intactStore 3 h := by
  obtain ⟨k, context, hcom, hmem⟩ := hh
  exact (allKept_intactStore k context hcom (List.ne_nil_of_mem hmem)).listed ledgerAt_intactStore
    genuine_emptiedStore hcom.audited hmem

/-- So no audit passes without expecting the block. -/
theorem pass_expects_committed_intact :
    LedgerAt sampleRuntime sampleCrypto sampleDeployment.sort intactStore 3
        (fun _ => [auditWitness.out]) ∧
      PassExpects sampleRuntime sampleCrypto sampleDeployment.sort (· = auditWitness) intactStore 3
        fun _ => [auditWitness.out] := by
  have hled := ledgerAt_intactStore
  exact ⟨hled, (pass_expects_committed_iff hled).1 allKept_intactStore⟩

/-! ## What is retrieved -/

/-- Signatures cannot be forged: what verifies in the store was signed, as a witness by an
enclave, or as an epoch by the manager, who has the same key. -/
structure Unforged (R : Runtime) (C : Crypto) (Signed : WitnessContext → Prop) (kb : Kanban) :
    Prop where
  filled : ∀ context, Signed context → context.Filled C
  signed : ∀ k w original, kb.hget k = some w → load R w = some original →
    C.verify (signedText original) (stringToSig R (original.get (ascii "SIG")).toStr) = true →
    (∃ context, Signed context ∧ signedText original = witnessMessage context) ∨
      ∃ e, signedText original = toDecimal e

/-- An enclave signed a witness with `OUT` `h` and `h'` in its `IN`. -/
def SignedEdge (Signed : WitnessContext → Prop) (h h' : Bytes) : Prop :=
  ∃ context, Signed context ∧ context.out = h ∧ h' ∈ context.ins

section

variable {Signed : WitnessContext → Prop} {k w : Bytes}

/-- An accepted text is read as a witness that was signed. -/
theorem Accepted.signed (hun : Unforged R C Signed kb) (h : Accepted R C kb k w) :
    ∃ context, Signed context ∧ readIn R w = some context.ins ∧
      witnessKey R w = some context.out := by
  obtain ⟨original, hload, hverify⟩ := Option.map_eq_some_iff.1 h.2
  rcases hun.signed k w original h.1 hload hverify with ⟨context, hsigned, heq⟩ | ⟨e, he⟩
  · have hfilled := hun.filled context hsigned
    exact ⟨context, hsigned, readIn_of_signedText hfilled.hex.1 hload heq,
      witnessKey_of_signedText hfilled hload heq⟩
  · exact absurd he (signedText_ne_toDecimal original e)

/-- A witness that is filed under its own `OUT` leads where it was signed for. -/
theorem signedEdge_of_filed (hun : Unforged R C Signed kb) {y z : Bytes}
    (hfiled : ∀ w, Accepted R C kb y w → witnessKey R w = some y) (h : Points R C kb y z) :
    SignedEdge Signed y z := by
  obtain ⟨w, ins, hw, hins, hz⟩ := h
  obtain ⟨context, hsigned, hctx, hout⟩ := hw.signed hun
  rw [hins] at hctx
  rw [hfiled w hw] at hout
  cases hctx
  exact ⟨context, hsigned, (Option.some.inj hout).symm, hz⟩

/-- **The retrieved set.** If every witness that the walk comes to is filed under its own `OUT`,
whatever the auditor retrieves can be reached through witnesses that enclaves signed. A witness
under a field that is the `OUT` of none spoils that: all that is retrieved from there is out of
reach. -/
theorem retrieved_reachable (hun : Unforged R C Signed kb) (fuel : Nat) :
    (∀ scratchPad leaves,
      (∀ y ∈ scratchPad, ∀ k w, ReflTransGen (Points R C kb) y k → Accepted R C kb k w →
        witnessKey R w = some k) →
      retrievedSet R C kb fuel scratchPad = some leaves →
      ∀ x ∈ leaves, ∃ y ∈ scratchPad, ReflTransGen (SignedEdge Signed) y x) ∧
    ∀ k w leaves, Accepted R C kb k w → (∀ context, Signed context → context.out ≠ k) →
      retrievedSet R C kb fuel [k] = some leaves →
      ∀ x ∈ leaves, ¬ReflTransGen (SignedEdge Signed) k x := by
  constructor
  · intro scratchPad leaves hfiled h x hx
    obtain ⟨-, y, hy, hpath⟩ := (mem_retrievedSet h x).1 hx
    refine ⟨y, hy, ?_⟩
    clear hx
    induction hpath with
    | refl => exact .refl
    | @tail b c hreach hstep ih =>
        exact ih.tail (signedEdge_of_filed hun (fun w => hfiled y hy b w hreach) hstep)
  · intro k w leaves hw hnone h x hx hpath
    have hterm := ((mem_retrievedSet h x).1 hx).1
    rcases hpath.cases_head with rfl | ⟨z, ⟨context, hsigned, hout, -⟩, -⟩
    · exact hterm w hw
    · exact hnone context hsigned hout

end

/-- The walk from the only stored witness to its only input. -/
theorem retrievedSet_single {k h : Bytes} {context : WitnessContext}
    (hkb : kb.hsets = [(k, witnessText C context)]) (hfilled : context.Filled C)
    (hins : context.ins = [h]) (hne : h ≠ k) : retrievedSet R C kb 3 [k] = some [h] := by
  have hall : kb.hgetall = [(k, witnessText C context)] := by
    simp [Kanban.hgetall, Kanban.hget, hkb]
  have hrec : kbWitness R C kb = some [(k, witnessText C context)] := by
    simp [kbWitness, hall, checkWitness_witnessText]
  have hread : readIn R (witnessText C context) = some [h] := by
    rw [readIn_witnessText hfilled, hins]
  have hnone : [(k, witnessText C context)].lookup h = none := by
    rw [List.lookup_cons, beq_false_of_ne hne]
    rfl
  simp [retrievedSet, hrec, leavesSet, Walk.collect, visitHash, hread, hnone]

/-- A hash that no witness has as its `OUT`. -/
def misfiledKey : Bytes := sampleCrypto.sha256 (ascii "index")

/-- A store with a signed witness under that hash. -/
def misfiledStore : Kanban :=
  Kanban.empty.hset misfiledKey (witnessText sampleCrypto auditWitness)

theorem unforged_of_auditWitness {kb : Kanban}
    (h : ∀ k w, kb.hget k = some w → w = witnessText sampleCrypto auditWitness) :
    Unforged sampleRuntime sampleCrypto (· = auditWitness) kb where
  filled := by
    rintro _ rfl
    exact filled_auditWitness
  signed k w original hw hload _ := by
    rw [h k w hw, load_witnessText] at hload
    cases hload
    exact .inl ⟨auditWitness, rfl, rfl⟩

/-- Asked for a hash that leads nowhere, the auditor retrieves the inputs of the witness that is
filed under it. -/
theorem misfiled_witness_retrieved :
    Unforged sampleRuntime sampleCrypto (· = auditWitness) misfiledStore ∧
      retrievedSet sampleRuntime sampleCrypto misfiledStore 3 [misfiledKey] =
        some [sampleCrypto.sha256 auditBlock] ∧
      ∀ y ∈ [misfiledKey], ¬ReflTransGen (SignedEdge (· = auditWitness)) y
        (sampleCrypto.sha256 auditBlock) := by
  have hun : Unforged sampleRuntime sampleCrypto (· = auditWitness) misfiledStore :=
    unforged_of_auditWitness fun k w hw =>
      (Prod.mk.inj (List.mem_singleton.1 (mem_of_lookup hw))).2
  refine ⟨hun, ?_, ?_⟩
  · refine retrievedSet_single rfl filled_auditWitness ?_ (by decide +kernel)
    rw [auditWitness_eq]
  intro y hy hpath
  obtain rfl := List.mem_singleton.1 hy
  rcases hpath.cases_head with heq | ⟨z, ⟨context, rfl, hout, -⟩, -⟩
  · exact absurd heq (by decide +kernel)
  · exact absurd hout (by decide +kernel)

theorem retrievedSet_intactStore :
    retrievedSet sampleRuntime sampleCrypto intactStore 3 [auditWitness.out] =
      some [sampleCrypto.sha256 auditBlock] := by
  refine retrievedSet_single rfl filled_auditWitness ?_ (by decide +kernel)
  rw [auditWitness_eq]

theorem getEpoch_intactStore :
    getEpoch sampleRuntime sampleCrypto intactStore = some (ascii "3") := by
  have hget : intactStore.get .epoch = some (epochPacket sampleCrypto 3) := by
    rw [intactStore, Kanban.get_sadd, emptiedStore, Kanban.get_set_self]
  rw [getEpoch_epochPacket hget]
  decide

theorem exists_expectedSet_intactStore : ∃ items,
    expectedSet sampleRuntime sampleCrypto sampleDeployment.sort intactStore 3 = some items :=
  exists_expectedSet genuine_emptiedStore ledgerAt_intactStore.exists_checkRootHash

/-- An audit of the intact store passes if it retrieves the block. -/
theorem slowPath_intactStore {fuel : Nat} {scratchPad leaves : List Bytes}
    (hleaves : retrievedSet sampleRuntime sampleCrypto intactStore fuel scratchPad = some leaves)
    (hblock : sampleCrypto.sha256 auditBlock ∈ leaves) :
    slowPath sampleRuntime sampleCrypto sampleDeployment.sort intactStore fuel 3 scratchPad =
      some true := by
  obtain ⟨items, hitems⟩ := exists_expectedSet_intactStore
  refine slowPath_eq_true.2 ⟨leaves, items, hleaves, hitems, fun h hmem => ?_⟩
  obtain ⟨e, k, w, ins, -, -, -, hw, -, hins, hmem⟩ := (mem_expectedSet hitems h).1 hmem
  rw [hget_emptiedStore hw.1, readIn_witnessText filled_auditWitness] at hins
  cases hins
  rw [auditWitness_eq] at hmem
  rwa [List.mem_singleton.1 hmem]

/-- Filed under its own `OUT`, the same witness leads to its block. -/
theorem retrieved_reachable_intact :
    Unforged sampleRuntime sampleCrypto (· = auditWitness) intactStore ∧
      retrievedSet sampleRuntime sampleCrypto intactStore 3 [auditWitness.out] =
        some [sampleCrypto.sha256 auditBlock] ∧
      ∀ x ∈ [sampleCrypto.sha256 auditBlock], ∃ y ∈ [auditWitness.out],
        ReflTransGen (SignedEdge (· = auditWitness)) y x := by
  have hun : Unforged sampleRuntime sampleCrypto (· = auditWitness) intactStore :=
    unforged_of_auditWitness fun k w hw => hget_emptiedStore hw
  have hfiled : ∀ k w, Accepted sampleRuntime sampleCrypto intactStore k w →
      witnessKey sampleRuntime w = some k := by
    intro k w hw
    obtain ⟨rfl, rfl⟩ := Prod.mk.inj (List.mem_singleton.1 (mem_of_lookup hw.1))
    exact witnessKey_of_signedText filled_auditWitness (load_witnessText auditWitness) rfl
  exact ⟨hun, retrievedSet_intactStore, (retrieved_reachable hun 3).1 _ _
    (fun _ _ k w _ => hfiled k w) retrievedSet_intactStore⟩

end DeSearch
