import DeSearch.Audit

/-!
# When the auditor's walk ends

STEP-2 of `do_local_verify` keeps a work list of hashes and replaces a hash by the `IN` of the
witness that is filed under it. Nothing remembers which hashes were visited, and the key of a
witness is never compared with its `OUT`. So the graph is what the store makes of it, and a signed
witness that is filed under a hash of its own `IN` keeps the walk busy forever.

* `traversal_ends_iff`: the walk ends exactly if it does not lead into a cycle.
-/

namespace DeSearch

open JSON Relation

variable {R : Runtime} {C : Crypto} {kb : Kanban} {scratchPad : List Bytes}

/-- No path through accepted witnesses leads from the hash into a cycle. -/
def CycleFree (R : Runtime) (C : Crypto) (kb : Kanban) (h : Bytes) : Prop :=
  ∀ h', ReflTransGen (Points R C kb) h h' → ¬TransGen (Points R C kb) h' h'

theorem visitHash_ne_none {records : List (Bytes × Bytes)} (hrec : kbWitness R C kb = some records)
    (h : Bytes) : visitHash R records h ≠ none := by
  rw [visitHash]
  cases hlook : records.lookup h with
  | none => simp
  | some w =>
      obtain ⟨ins, hins⟩ := ((lookup_kbWitness hrec h w).1 hlook).exists_readIn
      simp [hins]

/-- There are finitely many witnesses. -/
theorem finite_points (R : Runtime) (C : Crypto) (kb : Kanban) :
    {h | ∃ h', Points R C kb h h'}.Finite := by
  refine (List.finite_toSet (kb.hgetall.map Prod.fst)).subset ?_
  rintro h ⟨h', w, ins, hw, -⟩
  exact List.mem_map.2 ⟨(h, w), Kanban.mem_hgetall.2 hw.1, rfl⟩

/-- The walk goes through grounded hashes only. -/
theorem walk_grounded_iff {records : List (Bytes × Bytes)}
    (hrec : kbWitness R C kb = some records) (h : Bytes) :
    Walk.Grounded (visitHash R records) h ↔ CycleFree R C kb h := by
  have hedge : Walk.Edge (visitHash R records) = Points R C kb := by
    funext y z
    exact propext (edge_iff hrec)
  constructor
  · intro hg h' hreach
    rw [← hedge] at hreach ⊢
    exact hg.not_transGen h' hreach
  · intro hfree
    refine Walk.grounded_of_acyclic ?_ (fun y _ => visitHash_ne_none hrec y) ?_
    · rw [hedge]
      exact finite_points R C kb
    · rw [hedge]
      exact hfree

/-- A walk that ended started from hashes that lead into no cycle. -/
theorem cycleFree_of_retrievedSet {fuel : Nat} {leaves : List Bytes}
    (h : retrievedSet R C kb fuel scratchPad = some leaves) :
    ∀ x ∈ scratchPad, CycleFree R C kb x := by
  obtain ⟨records, hrec, hwalk⟩ := Option.bind_eq_some_iff.1 h
  intro x hx
  exact (walk_grounded_iff hrec x).1 (Walk.grounded_of_collect hwalk x (List.mem_reverse.2 hx))

theorem exists_retrievedSet_of_cycleFree (hgenuine : Genuine R C kb)
    (h : ∀ x ∈ scratchPad, CycleFree R C kb x) :
    ∃ fuel leaves, retrievedSet R C kb fuel scratchPad = some leaves := by
  obtain ⟨records, hrec⟩ := exists_kbWitness hgenuine
  obtain ⟨fuel, leaves, hwalk⟩ := @Walk.exists_collect _ (visitHash R records) scratchPad.reverse []
    fun x hx => (walk_grounded_iff hrec x).2 (h x (List.mem_reverse.1 hx))
  exact ⟨fuel, leaves, Option.bind_eq_some_iff.2 ⟨records, hrec, hwalk⟩⟩

/-- **Termination.** Over stored witnesses that `check_witness` accepts, STEP-2 ends exactly if no
hash it starts from leads into a cycle. -/
theorem traversal_ends_iff (hgenuine : Genuine R C kb) (scratchPad : List Bytes) :
    (∃ fuel leaves, retrievedSet R C kb fuel scratchPad = some leaves) ↔
      ∀ h ∈ scratchPad, CycleFree R C kb h := by
  constructor
  · rintro ⟨fuel, leaves, hends⟩
    exact cycleFree_of_retrievedSet hends
  · exact exists_retrievedSet_of_cycleFree hgenuine

/-! ## A store with one witness -/

section

variable {k : Bytes} {context : WitnessContext}

theorem genuine_single (hkb : kb.hsets = [(k, witnessText C context)]) : Genuine R C kb := by
  intro k' w hw
  rw [Kanban.hget, hkb] at hw
  obtain ⟨rfl, rfl⟩ := Prod.mk.inj (List.mem_singleton.1 (mem_of_lookup hw))
  exact checkWitness_witnessText

theorem points_single (hkb : kb.hsets = [(k, witnessText C context)]) (hfilled : context.Filled C)
    {h h' : Bytes} : Points R C kb h h' ↔ h = k ∧ h' ∈ context.ins := by
  constructor
  · rintro ⟨w, ins, hw, hins, hmem⟩
    have hget := hw.1
    rw [Kanban.hget, hkb] at hget
    obtain ⟨rfl, rfl⟩ := Prod.mk.inj (List.mem_singleton.1 (mem_of_lookup hget))
    rw [readIn_witnessText hfilled] at hins
    cases hins
    exact ⟨rfl, hmem⟩
  · rintro ⟨rfl, hmem⟩
    refine ⟨_, _, ⟨?_, checkWitness_witnessText⟩, readIn_witnessText hfilled, hmem⟩
    rw [Kanban.hget, hkb]
    exact List.lookup_cons_self

/-- The only cycle is that of a witness under a hash of its own `IN`. -/
theorem cycleFree_single (hkb : kb.hsets = [(k, witnessText C context)])
    (hfilled : context.Filled C) (hk : k ∉ context.ins) (h : Bytes) : CycleFree R C kb h := by
  intro h' _ hcycle
  obtain ⟨x, hfirst, -⟩ := TransGen.head'_iff.1 hcycle
  obtain ⟨y, -, hlast⟩ := TransGen.tail'_iff.1 hcycle
  obtain ⟨rfl, -⟩ := (points_single hkb hfilled).1 hfirst
  exact hk ((points_single hkb hfilled).1 hlast).2

end

theorem out_not_mem_ins : auditWitness.out ∉ auditWitness.ins := by
  rw [auditWitness_eq, List.mem_singleton]
  decide +kernel

theorem genuine_intactStore : Genuine sampleRuntime sampleCrypto intactStore :=
  @genuine_single _ sampleCrypto _ auditWitness.out auditWitness rfl

/-- A witness under its own `OUT`. -/
theorem traversal_ends_intact : ∃ fuel leaves,
    retrievedSet sampleRuntime sampleCrypto intactStore fuel [auditWitness.out] = some leaves := by
  refine (traversal_ends_iff genuine_intactStore _).2 fun h _ => ?_
  exact cycleFree_single rfl filled_auditWitness out_not_mem_ins h

/-- A signed witness that is filed under the hash of its own input. -/
def loopStore : Kanban :=
  Kanban.empty.hset (sampleCrypto.sha256 auditBlock) (witnessText sampleCrypto auditWitness)

/-- All witnesses of the store are accepted, and the walk from that hash never ends. -/
theorem misfiled_witness_loops :
    (∀ k w, loopStore.hget k = some w → checkWitness sampleRuntime sampleCrypto w = some true) ∧
      ∀ fuel, retrievedSet sampleRuntime sampleCrypto loopStore fuel
        [sampleCrypto.sha256 auditBlock] = none := by
  have hself : Points sampleRuntime sampleCrypto loopStore (sampleCrypto.sha256 auditBlock)
      (sampleCrypto.sha256 auditBlock) := by
    refine (points_single rfl filled_auditWitness).2 ⟨rfl, ?_⟩
    rw [auditWitness_eq]
    exact List.mem_singleton_self _
  refine ⟨fun k w hw => ?_, fun fuel => ?_⟩
  · obtain ⟨-, rfl⟩ := Prod.mk.inj (List.mem_singleton.1 (mem_of_lookup hw))
    exact checkWitness_witnessText
  · refine Option.eq_none_iff_forall_ne_some.2 fun leaves hends => ?_
    exact cycleFree_of_retrievedSet hends _ List.mem_cons_self _ .refl (.single hself)

end DeSearch
