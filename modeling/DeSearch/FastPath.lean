import DeSearch.Traversal
import Mathlib.Data.List.Perm.Subperm

/-!
# The cache of the auditor

STEP-0 of `do_local_verify` answers from the last hashes that passed: if as many of the hashes to
verify are in the cache as the cache has elements, the verdict is `pass`. Over a store that does not
change the cache does hold hashes that passed, whatever calls came before (`Passed.runVerify`). But
the count does not say that all of them are there: a hash that is given twice counts twice.

* `fastPath_iff`: when the slow path would pass on a hit.
* `slowPath_of_nodup`: it would if no hash is given twice and the new ones lead into no cycle.
-/

namespace DeSearch

open JSON Relation

variable {R : Runtime} {C : Crypto} {L : LastCharSort} {kb : Kanban} {E : Int}
  {cache cache' : VerifyCache} {scratchPad : List Bytes}

/-! ## The calls before -/

/-- A call of `do_local_verify` that returned, with the fuel of its walk. -/
structure VerifyCall where
  fuel : Nat
  needsToVerify : Bytes
  results : Bytes

/-- The cache after a sequence of calls. -/
def runVerify (R : Runtime) (C : Crypto) (L : LastCharSort) (kb : Kanban) :
    VerifyCache → List VerifyCall → Option VerifyCache
  | cache, [] => some cache
  | cache, call :: calls =>
      (doLocalVerify R C L kb call.fuel cache call.needsToVerify call.results).bind fun r =>
        runVerify R C L kb r.2 calls

/-- The slow path passes. -/
def Passes (R : Runtime) (C : Crypto) (L : LastCharSort) (kb : Kanban) (E : Int)
    (scratchPad : List Bytes) : Prop :=
  ∃ fuel, slowPath R C L kb fuel E scratchPad = some true

/-- The cache is empty, or its hashes passed in this epoch. -/
def Passed (R : Runtime) (C : Crypto) (L : LastCharSort) (kb : Kanban) (E : Int)
    (cache : VerifyCache) : Prop :=
  cache.hashes = [] ∨ cache.epoch = E ∧ Passes R C L kb E cache.hashes

/-- What a call does to the cache. -/
theorem doLocalVerify_cases (hE : getEpochInt R C kb = some E) {fuel : Nat}
    {needs results text : Bytes}
    (h : doLocalVerify R C L kb fuel cache needs results = some (text, cache')) :
    cache' = cache ∨ cache' = cache.refresh E ∨
      ∃ scratchPad, slowPath R C L kb fuel E scratchPad = some true ∧ cache' = ⟨scratchPad, E⟩ := by
  obtain ⟨epoch, -, h⟩ := Option.bind_eq_some_iff.1 h
  obtain ⟨E', hE', h⟩ := Option.bind_eq_some_iff.1 h
  obtain rfl := Option.some.inj (hE.symm.trans hE')
  split_ifs at h
  · exact .inl (Prod.mk.inj (Option.some.inj h)).2.symm
  obtain ⟨scratchPad, -, h⟩ := Option.bind_eq_some_iff.1 h
  split_ifs at h
  · exact .inl (Prod.mk.inj (Option.some.inj h)).2.symm
  obtain ⟨pass, hslow, h⟩ := Option.bind_eq_some_iff.1 h
  have hcache := (Prod.mk.inj (Option.some.inj h)).2.symm
  cases pass with
  | false => exact .inr (.inl hcache)
  | true => exact .inr (.inr ⟨scratchPad, hslow, hcache⟩)

theorem Passed.doLocalVerify (hE : getEpochInt R C kb = some E) (hcache : Passed R C L kb E cache)
    {fuel : Nat} {needs results text : Bytes}
    (h : doLocalVerify R C L kb fuel cache needs results = some (text, cache')) :
    Passed R C L kb E cache' := by
  rcases doLocalVerify_cases hE h with rfl | rfl | ⟨scratchPad, hslow, rfl⟩
  · exact hcache
  · rw [VerifyCache.refresh]
    split_ifs
    · exact hcache
    · exact .inl rfl
  · exact .inr ⟨rfl, fuel, hslow⟩

/-- Whatever calls came before, the cache holds what passed. -/
theorem Passed.runVerify (hE : getEpochInt R C kb = some E) {calls : List VerifyCall}
    (hcache : Passed R C L kb E cache) (h : runVerify R C L kb cache calls = some cache') :
    Passed R C L kb E cache' := by
  induction calls generalizing cache with
  | nil =>
      cases h
      exact hcache
  | cons call calls ih =>
      obtain ⟨r, hcall, hrest⟩ := Option.bind_eq_some_iff.1 h
      exact ih (hcache.doLocalVerify hE hcall) hrest

/-- What STEP-0 answers on a hit. -/
theorem doLocalVerify_hit {fuel : Nat} {needs results epoch : Bytes}
    (hepoch : getEpoch R C kb = some epoch) (hE : getEpochInt R C kb = some E) (h3 : 3 ≤ E)
    (hneeds : readIn R needs = some scratchPad) (hhit : cache.Hit E scratchPad) :
    doLocalVerify R C L kb fuel cache needs results = some (verifyResults epoch true, cache) := by
  have hlt : ¬E < 3 := by omega
  simp only [doLocalVerify, hepoch, hE, hneeds, if_neg hlt, if_pos hhit, Option.bind_eq_bind,
    Option.bind_some]
  rfl

/-! ## A hit -/

/-- Whatever is expected below a cached hash that is not among the hashes to verify is also below
one of these. -/
def MissingCovered (R : Runtime) (C : Crypto) (L : LastCharSort) (kb : Kanban) (E : Int)
    (cached scratchPad : List Bytes) : Prop :=
  ∀ x ∈ cached, x ∉ scratchPad → ∀ h, Listed R C L kb E h → ReflTransGen (Points R C kb) x h →
    ∃ y ∈ scratchPad, ReflTransGen (Points R C kb) y h

theorem passes_of_covered {cached : List Bytes} (hcached : Passes R C L kb E cached)
    (hfree : ∀ h ∈ scratchPad, CycleFree R C kb h)
    (hcovered : MissingCovered R C L kb E cached scratchPad) : Passes R C L kb E scratchPad := by
  obtain ⟨fuel, hslow⟩ := hcached
  obtain ⟨leaves, items, hleaves, hitems, hall⟩ := slowPath_eq_true.1 hslow
  obtain ⟨records, hrec, -⟩ := Option.bind_eq_some_iff.1 hleaves
  obtain ⟨fuel', leaves', hleaves'⟩ :=
    exists_retrievedSet_of_cycleFree (genuine_of_kbWitness hrec) hfree
  refine ⟨fuel', slowPath_eq_true.2 ⟨leaves', items, hleaves', hitems, fun h hmem => ?_⟩⟩
  obtain ⟨hterm, x, hx, hpath⟩ := (mem_retrievedSet hleaves h).1 (hall h hmem)
  refine (mem_retrievedSet hleaves' h).2 ⟨hterm, ?_⟩
  by_cases hxs : x ∈ scratchPad
  · exact ⟨x, hxs, hpath⟩
  · exact hcovered x hx hxs h ((mem_expectedSet hitems h).1 hmem) hpath

theorem Passed.passes_of_hit (hcache : Passed R C L kb E cache) (hhit : cache.Hit E scratchPad) :
    Passes R C L kb E cache.hashes :=
  (hcache.resolve_left hhit.2.1).2

/-- **Fast path.** After any calls over the same store, a hit gives the verdict of the slow path
exactly if the hashes to verify lead into no cycle and cover what the cached hashes that are missing
from them lead to. -/
theorem fastPath_iff (hE : getEpochInt R C kb = some E) {calls : List VerifyCall}
    (hrun : runVerify R C L kb .init calls = some cache) (hhit : cache.Hit E scratchPad) :
    (∃ fuel, slowPath R C L kb fuel E scratchPad = some true) ↔
      (∀ h ∈ scratchPad, CycleFree R C kb h) ∧
        MissingCovered R C L kb E cache.hashes scratchPad := by
  have hinit : Passed R C L kb E .init := .inl rfl
  constructor
  · rintro ⟨fuel, hslow⟩
    obtain ⟨leaves, items, hleaves, hitems, hall⟩ := slowPath_eq_true.1 hslow
    refine ⟨cycleFree_of_retrievedSet hleaves, fun x _ _ h hlisted _ => ?_⟩
    exact ((mem_retrievedSet hleaves h).1 (hall h ((mem_expectedSet hitems h).2 hlisted))).2
  · rintro ⟨hfree, hcovered⟩
    exact passes_of_covered ((hinit.runVerify hE hrun).passes_of_hit hhit) hfree hcovered

/-- Without repetition a hit means that all of the cache is there. -/
theorem subset_of_hit (hnodup : scratchPad.Nodup) (hhit : cache.Hit E scratchPad) :
    cache.hashes ⊆ scratchPad := by
  have hlen : cache.hashes.length = (scratchPad.filter (· ∈ cache.hashes)).length := by
    rw [hhit.2.2, List.countP_eq_length_filter]
  have hsub : scratchPad.filter (· ∈ cache.hashes) ⊆ cache.hashes := fun x hx => by
    simpa using (List.mem_filter.1 hx).2
  have hperm := ((hnodup.filter _).subperm hsub).perm_of_length_le hlen.le
  exact fun x hx => (List.mem_filter.1 (hperm.mem_iff.2 hx)).1

/-- A hit of hashes that are all different is right if those that are new lead into no cycle. -/
theorem slowPath_of_nodup (hE : getEpochInt R C kb = some E) {calls : List VerifyCall}
    (hrun : runVerify R C L kb .init calls = some cache) (hhit : cache.Hit E scratchPad)
    (hnodup : scratchPad.Nodup)
    (hfree : ∀ h ∈ scratchPad, h ∉ cache.hashes → CycleFree R C kb h) :
    Passes R C L kb E scratchPad := by
  have hinit : Passed R C L kb E .init := .inl rfl
  have hpasses := (hinit.runVerify hE hrun).passes_of_hit hhit
  refine passes_of_covered hpasses (fun h hmem => ?_) fun x hx hxs => ?_
  · by_cases hcached : h ∈ cache.hashes
    · obtain ⟨fuel, hslow⟩ := hpasses
      obtain ⟨leaves, -, hleaves, -⟩ := slowPath_eq_true.1 hslow
      exact cycleFree_of_retrievedSet hleaves h hcached
    · exact hfree h hmem hcached
  · exact absurd (subset_of_hit hnodup hhit hx) hxs

/-! ## Two audits of one store -/

theorem cycleFree_intactStore (h : Bytes) :
    CycleFree sampleRuntime sampleCrypto intactStore h :=
  cycleFree_single rfl filled_auditWitness out_not_mem_ins h

/-- What passes and is not answered from the cache is in it afterwards. -/
theorem runVerify_intactStore {us : List Bytes} (hus : ∀ u ∈ us, ∀ c ∈ u, isHex c)
    (hout : auditWitness.out ∈ us) : ∃ fuel,
      runVerify sampleRuntime sampleCrypto sampleDeployment.sort intactStore .init
        [⟨fuel, verifyIn us, []⟩] = some ⟨us, 3⟩ := by
  obtain ⟨fuel, leaves, hleaves⟩ := exists_retrievedSet_of_cycleFree genuine_intactStore
    fun h (_ : h ∈ us) => cycleFree_intactStore h
  have hterm : Terminal sampleRuntime sampleCrypto intactStore
      (sampleCrypto.sha256 auditBlock) := by
    intro w hw
    obtain ⟨hkey, -⟩ := Prod.mk.inj (List.mem_singleton.1 (mem_of_lookup hw.1))
    exact absurd hkey (by decide +kernel)
  have hstep : Points sampleRuntime sampleCrypto intactStore auditWitness.out
      (sampleCrypto.sha256 auditBlock) := by
    refine (points_single rfl filled_auditWitness).2 ⟨rfl, ?_⟩
    rw [auditWitness_eq]
    exact List.mem_singleton_self _
  have hslow := slowPath_intactStore hleaves
    ((mem_retrievedSet hleaves _).2 ⟨hterm, _, hout, .single hstep⟩)
  have hread : readIn sampleRuntime (verifyIn us) = some us := by
    rw [readIn_verifyIn, map_escape_of_hex hus]
  have hmiss : ¬VerifyCache.init.Hit 3 us := fun h => h.2.1 rfl
  refine ⟨fuel, ?_⟩
  rw [runVerify, doLocalVerify_slow getEpoch_intactStore ledgerAt_intactStore.epoch le_rfl hread
    hmiss hslow]
  rfl

/-- The same hash again. -/
theorem fastPath_same_hash : ∃ fuel, slowPath sampleRuntime sampleCrypto sampleDeployment.sort
    intactStore fuel 3 [auditWitness.out] = some true := by
  have hhex : ∀ u ∈ [auditWitness.out], ∀ c ∈ u, isHex c := by
    rintro u hu
    rw [List.mem_singleton.1 hu]
    exact filled_auditWitness.hex.2.1
  obtain ⟨fuel, hrun⟩ := runVerify_intactStore hhex List.mem_cons_self
  refine (fastPath_iff ledgerAt_intactStore.epoch hrun ⟨rfl, by simp, by simp⟩).2
    ⟨fun h _ => cycleFree_intactStore h, fun x hx hxs => absurd hx hxs⟩

/-- After an audit of a good hash and a hash of nothing, an audit of the hash of nothing alone,
given twice, passes from the cache. The slow path would fail. -/
theorem repeated_hash_passes : ∃ calls cache needs scratchPad,
    runVerify sampleRuntime sampleCrypto sampleDeployment.sort intactStore .init calls =
      some cache ∧
    readIn sampleRuntime needs = some scratchPad ∧
    (∀ fuel, doLocalVerify sampleRuntime sampleCrypto sampleDeployment.sort intactStore fuel cache
      needs [] = some (verifyResults (ascii "3") true, cache)) ∧
    ∃ fuel, slowPath sampleRuntime sampleCrypto sampleDeployment.sort intactStore fuel 3
      scratchPad = some false := by
  have hkey : ∀ c ∈ misfiledKey, isHex c := sampleCrypto.sha256_hex _
  have hhex : ∀ u ∈ [auditWitness.out, misfiledKey], ∀ c ∈ u, isHex c :=
    List.forall_mem_cons.2 ⟨filled_auditWitness.hex.2.1, List.forall_mem_singleton.2 hkey⟩
  obtain ⟨fuel, hrun⟩ := runVerify_intactStore hhex List.mem_cons_self
  have hread : readIn sampleRuntime (verifyIn [misfiledKey, misfiledKey]) =
      some [misfiledKey, misfiledKey] := by
    rw [readIn_verifyIn, map_escape_of_hex]
    simpa using hkey
  have hhit : VerifyCache.Hit ⟨[auditWitness.out, misfiledKey], 3⟩ 3 [misfiledKey, misfiledKey] :=
    ⟨rfl, by simp, by simp⟩
  refine ⟨_, _, _, _, hrun, hread, fun fuel => doLocalVerify_hit getEpoch_intactStore
    ledgerAt_intactStore.epoch le_rfl hread hhit, ?_⟩
  -- no witness is filed under the hash, so the block is not retrieved
  have hreach : ∀ {h}, ReflTransGen (Points sampleRuntime sampleCrypto intactStore) misfiledKey h →
      h = misfiledKey := by
    intro h hpath
    rcases hpath.cases_head with heq | ⟨z, hstep, -⟩
    · exact heq.symm
    · exact absurd ((points_single rfl filled_auditWitness).1 hstep).1 (by decide +kernel)
  obtain ⟨items, hitems⟩ := exists_expectedSet_intactStore
  obtain ⟨fuel', leaves, hleaves⟩ := exists_retrievedSet_of_cycleFree genuine_intactStore
    fun h (_ : h ∈ [misfiledKey, misfiledKey]) => cycleFree_intactStore h
  have hblock : sampleCrypto.sha256 auditBlock ∉ leaves := by
    intro hmem
    obtain ⟨-, y, hy, hpath⟩ := (mem_retrievedSet hleaves _).1 hmem
    obtain rfl : y = misfiledKey := by simpa using hy
    exact absurd (hreach hpath) (by decide +kernel)
  have hexpected := (mem_expectedSet hitems _).2 (listed_intactStore committed_auditBlock)
  refine ⟨fuel', ?_⟩
  rw [slowPath, hleaves, hitems]
  refine congrArg some (List.all_eq_false.2 ⟨_, hexpected, ?_⟩)
  simpa using hblock

end DeSearch
