import DeSearch.Auditor

/-!
# The auditor, step by step

What each step of `do_local_verify` computes, said once, over the store.

* `mem_retrievedSet`: STEP-1 and STEP-2 retrieve the hashes without an accepted witness that a
  path through accepted witnesses reaches.
* `mem_expectedSet`: STEP-1, STEP-3 and STEP-4 expect the hashes that are `Listed`.
* `slowPath_eq_true`: STEP-5 compares the two.
-/

namespace DeSearch

open JSON Relation

variable {R : Runtime} {C : Crypto} {L : LastCharSort} {kb : Kanban}
  {records : List (Bytes × Bytes)}

/-! ## Accepted witnesses -/

theorem Kanban.mem_hgetall {k w : Bytes} : (k, w) ∈ kb.hgetall ↔ kb.hget k = some w := by
  have hkey : kb.hget k = some w → k ∈ (kb.hsets.map Prod.fst).dedup := fun h =>
    List.mem_dedup.2 (List.mem_map_of_mem (mem_of_lookup h))
  simp only [hgetall, List.mem_filterMap, Option.map_eq_some_iff, Prod.mk.injEq]
  constructor
  · rintro ⟨k', -, w', hw, rfl, rfl⟩
    exact hw
  · intro h
    exact ⟨k, hkey h, w, h, rfl, rfl⟩

/-- A witness text is filed under `k`, and `check_witness` accepts it. -/
def Accepted (R : Runtime) (C : Crypto) (kb : Kanban) (k w : Bytes) : Prop :=
  kb.hget k = some w ∧ checkWitness R C w = some true

/-- `check_witness` accepts every stored witness. -/
def Genuine (R : Runtime) (C : Crypto) (kb : Kanban) : Prop :=
  ∀ k w, kb.hget k = some w → checkWitness R C w = some true

theorem Accepted.exists_readIn {k w : Bytes} (h : Accepted R C kb k w) :
    ∃ ins, readIn R w = some ins := by
  obtain ⟨j, hj, -⟩ := Option.map_eq_some_iff.1 h.2
  exact ⟨_, by rw [readIn, hj, Option.map_some]⟩

theorem genuine_iff : Genuine R C kb ↔ ∀ w ∈ kb.hgetall, checkWitness R C w.2 = some true := by
  simp only [Genuine, Prod.forall, Kanban.mem_hgetall]

theorem exists_kbWitness (h : Genuine R C kb) : ∃ records, kbWitness R C kb = some records :=
  ⟨_, if_pos (genuine_iff.1 h)⟩

theorem genuine_of_kbWitness (h : kbWitness R C kb = some records) : Genuine R C kb := by
  by_contra hgenuine
  rw [kbWitness, if_neg (mt genuine_iff.2 hgenuine)] at h
  cases h

/-- STEP-1 keeps the accepted witnesses. -/
theorem lookup_kbWitness (h : kbWitness R C kb = some records) (k w : Bytes) :
    records.lookup k = some w ↔ Accepted R C kb k w := by
  have hgenuine := genuine_of_kbWitness h
  rw [kbWitness, if_pos (genuine_iff.1 hgenuine)] at h
  rw [← Option.some.inj h, lookup_eq_some_iff, Kanban.mem_hgetall]
  · exact ⟨fun hw => ⟨hw, hgenuine k w hw⟩, And.left⟩
  · intro k v v' hv hv'
    exact Option.some.inj ((Kanban.mem_hgetall.1 hv).symm.trans (Kanban.mem_hgetall.1 hv'))

/-! ## The retrieved set -/

/-- The stored witness of `h` lists `h'`. -/
def Points (R : Runtime) (C : Crypto) (kb : Kanban) (h h' : Bytes) : Prop :=
  ∃ w ins, Accepted R C kb h w ∧ readIn R w = some ins ∧ h' ∈ ins

/-- No accepted witness is filed under `h`. -/
def Terminal (R : Runtime) (C : Crypto) (kb : Kanban) (h : Bytes) : Prop :=
  ∀ w, ¬Accepted R C kb h w

theorem leaf_iff (hrec : kbWitness R C kb = some records) {h : Bytes} :
    Walk.Leaf (visitHash R records) h ↔ Terminal R C kb h := by
  unfold Walk.Leaf visitHash Terminal
  cases hlook : records.lookup h with
  | none =>
      refine iff_of_true rfl fun w hw => ?_
      rw [(lookup_kbWitness hrec h w).2 hw] at hlook
      cases hlook
  | some w =>
      have hw := (lookup_kbWitness hrec h w).1 hlook
      obtain ⟨ins, hins⟩ := hw.exists_readIn
      refine iff_of_false ?_ fun hterm => hterm w hw
      simp [hins]

theorem edge_iff (hrec : kbWitness R C kb = some records) {h h' : Bytes} :
    Walk.Edge (visitHash R records) h h' ↔ Points R C kb h h' := by
  unfold Walk.Edge visitHash Points
  cases hlook : records.lookup h with
  | none =>
      refine iff_of_false (by simp) ?_
      rintro ⟨w, ins, hw, -, -⟩
      rw [(lookup_kbWitness hrec h w).2 hw] at hlook
      cases hlook
  | some w =>
      have hw := (lookup_kbWitness hrec h w).1 hlook
      obtain ⟨ins, hins⟩ := hw.exists_readIn
      simp only [hins, Option.map_some, Option.some.injEq, Walk.Visit.inner.injEq,
        exists_eq_left']
      constructor
      · intro hmem
        exact ⟨w, ins, hw, hins, hmem⟩
      · rintro ⟨w', ins', hw', hins', hmem⟩
        obtain rfl : w = w' := Option.some.inj (hw.1.symm.trans hw'.1)
        rw [hins] at hins'
        cases hins'
        exact hmem

/-- STEP-1 and STEP-2 retrieve what can be reached through accepted witnesses and has none
itself. -/
theorem mem_retrievedSet {fuel : Nat} {scratchPad leaves : List Bytes}
    (h : retrievedSet R C kb fuel scratchPad = some leaves) (x : Bytes) :
    x ∈ leaves ↔ Terminal R C kb x ∧ ∃ y ∈ scratchPad, ReflTransGen (Points R C kb) y x := by
  obtain ⟨records, hrec, hwalk⟩ := Option.bind_eq_some_iff.1 h
  have hedge : Walk.Edge (visitHash R records) = Points R C kb := by
    funext y z
    exact propext (edge_iff hrec)
  rw [Walk.mem_collect hwalk, leaf_iff hrec, hedge]
  simp

/-- All paths from `h` through accepted witnesses end. -/
inductive Grounded (R : Runtime) (C : Crypto) (kb : Kanban) : Bytes → Prop where
  | terminal {h} (hterm : Terminal R C kb h) : Grounded R C kb h
  | node {h w ins} (hw : Accepted R C kb h w) (hins : readIn R w = some ins)
      (hall : ∀ h' ∈ ins, Grounded R C kb h') : Grounded R C kb h

theorem Grounded.walk (hrec : kbWitness R C kb = some records) {h : Bytes}
    (hg : Grounded R C kb h) : Walk.Grounded (visitHash R records) h := by
  induction hg with
  | terminal hterm => exact .leaf ((leaf_iff hrec).2 hterm)
  | @node h w ins hw hins _ ih =>
      refine .inner ?_ ih
      rw [visitHash, (lookup_kbWitness hrec h w).2 hw]
      simp only [hins, Option.map_some]

/-- The walk from grounded hashes ends. -/
theorem exists_retrievedSet (hgenuine : Genuine R C kb) {scratchPad : List Bytes}
    (h : ∀ x ∈ scratchPad, Grounded R C kb x) :
    ∃ fuel leaves, retrievedSet R C kb fuel scratchPad = some leaves := by
  obtain ⟨records, hrec⟩ := exists_kbWitness hgenuine
  have hwork : ∀ x ∈ scratchPad.reverse, Walk.Grounded (visitHash R records) x := fun x hx =>
    (h x (List.mem_reverse.1 hx)).walk hrec
  obtain ⟨fuel, leaves, hwalk⟩ := Walk.exists_collect [] hwork
  exact ⟨fuel, leaves, Option.bind_eq_some_iff.2 ⟨records, hrec, hwalk⟩⟩

/-! ## The expected set -/

theorem mem_auditedEpochs {E e : Int} : e ∈ auditedEpochs E ↔ 1 ≤ e ∧ e ≤ E - 2 := by
  simp only [auditedEpochs, List.mem_map, List.mem_range]
  constructor
  · rintro ⟨n, hn, rfl⟩
    omega
  · rintro ⟨h1, h2⟩
    exact ⟨(e - 1).toNat, by omega, by omega⟩

/-- An accepted witness with the crawlers' `func` in its text lists `h`, and it is filed under a
key of an audited epoch whose keys match the root hash. -/
def Listed (R : Runtime) (C : Crypto) (L : LastCharSort) (kb : Kanban) (E : Int) (h : Bytes) :
    Prop :=
  ∃ e k w ins, (1 ≤ e ∧ e ≤ E - 2) ∧ checkRootHash C L kb e = some true ∧ k ∈ kb.smembers e ∧
    Accepted R C kb k w ∧ crawlerFunc C <:+: w ∧ readIn R w = some ins ∧ h ∈ ins

theorem mem_wellKeys {es : List Int} {keys : List Bytes} (h : wellKeys C L kb es = some keys)
    (k : Bytes) :
    k ∈ keys ↔ ∃ e ∈ es, checkRootHash C L kb e = some true ∧ k ∈ kb.smembers e := by
  induction es generalizing keys with
  | nil =>
      cases h
      simp
  | cons e es ih =>
      obtain ⟨well, hwell, hrest⟩ := Option.bind_eq_some_iff.1 h
      obtain ⟨keys', hkeys', heq⟩ := Option.bind_eq_some_iff.1 hrest
      cases heq
      rw [List.exists_mem_cons_iff, hwell, ← ih hkeys']
      cases well <;> simp

theorem exists_wellKeys (es : List Int)
    (h : ∀ e ∈ es, ∃ well, checkRootHash C L kb e = some well) :
    ∃ keys, wellKeys C L kb es = some keys := by
  induction es with
  | nil => exact ⟨[], rfl⟩
  | cons e es ih =>
      rw [List.forall_mem_cons] at h
      obtain ⟨well, hwell⟩ := h.1
      obtain ⟨keys, hkeys⟩ := ih h.2
      exact ⟨_, by rw [wellKeys, hwell, hkeys]; rfl⟩

theorem crawlerFunc_not_infix_nil : ¬crawlerFunc C <:+: [] := by
  intro h
  have hlen : (crawlerFunc C).length = 64 := C.sha256_length _
  rw [List.infix_nil.1 h] at hlen
  cases hlen

/-- STEP-4 under one key. -/
theorem crawlerIn_getD (hrec : kbWitness R C kb = some records) (k : Bytes) :
    ∃ ins, crawlerIn R C ((records.lookup k).getD []) = some ins ∧ ∀ h, h ∈ ins ↔
      ∃ w ins, Accepted R C kb k w ∧ crawlerFunc C <:+: w ∧ readIn R w = some ins ∧ h ∈ ins := by
  cases hlook : records.lookup k with
  | none =>
      refine ⟨[], if_neg crawlerFunc_not_infix_nil, fun h => ?_⟩
      refine iff_of_false List.not_mem_nil ?_
      rintro ⟨w, ins, hw, -⟩
      rw [(lookup_kbWitness hrec k w).2 hw] at hlook
      cases hlook
  | some w =>
      have hw := (lookup_kbWitness hrec k w).1 hlook
      obtain ⟨ins, hins⟩ := hw.exists_readIn
      have huniq : ∀ w', Accepted R C kb k w' → w' = w := fun w' hw' =>
        Option.some.inj (hw'.1.symm.trans hw.1)
      by_cases hfunc : crawlerFunc C <:+: w
      · refine ⟨ins, by rw [Option.getD_some, crawlerIn, if_pos hfunc, hins], fun h => ?_⟩
        refine ⟨fun hmem => ⟨w, ins, hw, hfunc, hins, hmem⟩, ?_⟩
        rintro ⟨w', ins', hw', -, hins', hmem⟩
        obtain rfl := huniq w' hw'
        rw [hins] at hins'
        cases hins'
        exact hmem
      · refine ⟨[], if_neg hfunc, fun h => ?_⟩
        refine iff_of_false List.not_mem_nil ?_
        rintro ⟨w', ins', hw', hfunc', -⟩
        exact hfunc (huniq w' hw' ▸ hfunc')

theorem itemsSet_spec (hrec : kbWitness R C kb = some records) (keys : List Bytes) :
    ∃ items, itemsSet R C records keys = some items ∧ ∀ h, h ∈ items ↔ ∃ k ∈ keys,
      ∃ w ins, Accepted R C kb k w ∧ crawlerFunc C <:+: w ∧ readIn R w = some ins ∧ h ∈ ins := by
  induction keys with
  | nil => exact ⟨[], rfl, by simp⟩
  | cons k keys ih =>
      obtain ⟨items, hitems, hmem⟩ := ih
      obtain ⟨ins, hins, hmemIns⟩ := crawlerIn_getD hrec k
      refine ⟨ins ++ items, by rw [itemsSet, hins, hitems]; rfl, fun h => ?_⟩
      rw [List.mem_append, hmemIns, hmem, List.exists_mem_cons_iff]

/-- STEP-1, STEP-3 and STEP-4 expect what is listed. -/
theorem mem_expectedSet {E : Int} {items : List Bytes}
    (h : expectedSet R C L kb E = some items) (x : Bytes) :
    x ∈ items ↔ Listed R C L kb E x := by
  obtain ⟨records, hrec, h⟩ := Option.bind_eq_some_iff.1 h
  obtain ⟨keys, hkeys, hitems⟩ := Option.bind_eq_some_iff.1 h
  obtain ⟨items', hitems', hmem⟩ := itemsSet_spec hrec keys
  rw [hitems] at hitems'
  cases hitems'
  rw [hmem]
  simp only [mem_wellKeys hkeys, mem_auditedEpochs]
  constructor
  · rintro ⟨k, ⟨e, he, hroot, hk⟩, w, ins, hw⟩
    exact ⟨e, k, w, ins, he, hroot, hk, hw⟩
  · rintro ⟨e, k, w, ins, he, hroot, hk, hw⟩
    exact ⟨k, ⟨e, he, hroot, hk⟩, w, ins, hw⟩

theorem exists_expectedSet {E : Int} (hgenuine : Genuine R C kb)
    (hroots : ∀ e, 1 ≤ e → e ≤ E - 2 → ∃ well, checkRootHash C L kb e = some well) :
    ∃ items, expectedSet R C L kb E = some items := by
  obtain ⟨records, hrec⟩ := exists_kbWitness hgenuine
  obtain ⟨keys, hkeys⟩ := exists_wellKeys (auditedEpochs E) fun e he =>
    hroots e (mem_auditedEpochs.1 he).1 (mem_auditedEpochs.1 he).2
  obtain ⟨items, hitems, -⟩ := itemsSet_spec hrec keys
  refine ⟨items, ?_⟩
  rw [expectedSet, hrec, Option.bind_eq_bind, Option.bind_some, hkeys]
  exact hitems

/-! ## The verdict -/

/-- The slow path passes if all that is expected is retrieved. -/
theorem slowPath_eq_true {fuel : Nat} {E : Int} {scratchPad : List Bytes} :
    slowPath R C L kb fuel E scratchPad = some true ↔
      ∃ leaves items, retrievedSet R C kb fuel scratchPad = some leaves ∧
        expectedSet R C L kb E = some items ∧ ∀ h ∈ items, h ∈ leaves := by
  constructor
  · intro h
    obtain ⟨leaves, hleaves, h⟩ := Option.bind_eq_some_iff.1 h
    obtain ⟨items, hitems, h⟩ := Option.bind_eq_some_iff.1 h
    exact ⟨leaves, items, hleaves, hitems, by simpa using h⟩
  · rintro ⟨leaves, items, hleaves, hitems, hall⟩
    rw [slowPath, hleaves, hitems]
    simpa using hall

/-- `do_local_verify` from the third epoch on, past the cache. -/
theorem doLocalVerify_slow {fuel : Nat} {cache : VerifyCache} {needs results epoch : Bytes}
    {E : Int} {scratchPad : List Bytes} {pass : Bool} (hepoch : getEpoch R C kb = some epoch)
    (hE : getEpochInt R C kb = some E) (h3 : 3 ≤ E) (hneeds : readIn R needs = some scratchPad)
    (hmiss : ¬cache.Hit E scratchPad) (hslow : slowPath R C L kb fuel E scratchPad = some pass) :
    doLocalVerify R C L kb fuel cache needs results =
      some (verifyResults epoch pass, if pass then ⟨scratchPad, E⟩ else cache.refresh E) := by
  have hlt : ¬E < 3 := by omega
  simp only [doLocalVerify, hepoch, hE, hneeds, hslow, if_neg hlt, if_neg hmiss,
    Option.bind_eq_bind, Option.bind_some]
  rfl

end DeSearch
