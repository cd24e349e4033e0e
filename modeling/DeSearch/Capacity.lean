import DeSearch.Chain
import DeSearch.OramProof

/-!
# The capacity of the ORAM querier

The two ORAM instances are created for a fixed number of blocks, while the global index of a shard
grows with every epoch. On what the pipeline stores, the ORAM querier stays in range exactly as long
as the digests and the posting lists have room (`oramServesInRange_iff`). Nothing keeps them that
small: one epoch of blank posts is enough (`crowded_index_overflows`).
-/

namespace DeSearch

open Run

/-! ## What is stored is a blob of the pipeline -/

section

variable (P : Platform)

/-- The output of an indexer or a reducer is a blob of the pipeline. -/
def Task.BlobCall : Task → Inputs → Prop
  | .crawl _ _ _, _ => True
  | t, xs => ∀ out, t.call P xs = some out → PipelineBlob P out.data

/-- The keys of the indexes. -/
def Key.isBlob : Key → Bool
  | .index _ _ => true
  | .globalIndex _ _ => true
  | _ => false

end

section

variable {P : Platform} {src : Source} {s : State}

theorem pipelineBlob_indexCall {O : HashOrder} {items : List Bytes} {out : Output}
    (hfits : ∀ output, indexOutput P O items = some output → output.length < indexOutputMaxLength)
    (h : indexCall P O items = some out) :
    PipelineBlob P out.data := by
  obtain ⟨⟨o, n, w⟩, hecall, hout⟩ := Option.bind_eq_some_iff.1 h
  obtain ⟨data, hread, hpair⟩ := Option.bind_eq_some_iff.1 hout
  obtain ⟨inputs, hinputs, hrest⟩ := Option.bind_eq_some_iff.1 hecall
  obtain ⟨⟨digestTbl, indexTbl⟩, hbuild, hpure⟩ := Option.bind_eq_some_iff.1 hrest
  have hsize := hfits _ (by
    rw [indexOutput, hinputs, Option.bind_eq_bind, Option.bind_some, hbuild]
    rfl)
  cases hpure
  cases hpair
  rw [readOut_copyOut hsize] at hread
  cases hread
  rw [copyOut, if_pos hsize] at hecall
  exact @PipelineBlob.build P O _ _ _ _ _ hecall (hsize.trans (by decide))

theorem pipelineBlob_mergeCall {O : HashOrder} {blob₁ blob₂ : Bytes} {out : Output}
    (h₁ : PipelineBlob P blob₁) (h₂ : PipelineBlob P blob₂)
    (hfits : ∀ output, mergeOutput O blob₁ blob₂ = some output →
      output.length < reducerOutputMaxLength) (h : mergeCall P O blob₁ blob₂ = some out) :
    PipelineBlob P out.data := by
  obtain ⟨⟨o, n, w⟩, hecall, hout⟩ := Option.bind_eq_some_iff.1 h
  obtain ⟨data, hread, hpair⟩ := Option.bind_eq_some_iff.1 hout
  obtain ⟨⟨tbl₁, digest₁⟩, hread₁, hrest⟩ := Option.bind_eq_some_iff.1 hecall
  obtain ⟨⟨tbl₂, digest₂⟩, hread₂, hpure⟩ := Option.bind_eq_some_iff.1 hrest
  have hsize := hfits _ (by
    rw [mergeOutput, hread₁, hread₂]
    rfl)
  cases hpure
  cases hpair
  rw [readOut_copyOut hsize] at hread
  cases hread
  rw [copyOut, if_pos hsize] at hecall
  exact @PipelineBlob.merge P O _ _ _ _ _ _ h₁ h₂ hecall (hsize.trans (by decide))

/-- All indexes in Kanban are blobs of the pipeline. -/
theorem Traced.pipelineBlob (h : Traced P src (Task.BlobCall P) s) {k : Key} {v : Bytes}
    (hv : s.kanban.Stored k v) (hk : k.isBlob) : PipelineBlob P v := by
  have hdata : k.isData := by cases k <;> first | rfl | cases hk
  obtain ⟨t, out, ⟨xs, hblob, -, hcall⟩, rfl, hwrites⟩ := h.data k v hv hdata
  cases t with
  | crawl e b i =>
      rcases hwrites with rfl | ⟨_, _, ht, -⟩
      · cases hk
      · cases ht
  | index e i pos => exact hblob out hcall
  | reduce e i => exact hblob out hcall

/-- If all indexes are, the next call makes one. -/
theorem Sourced.blobCall (h : Traced P src (Task.BlobCall P) s) {t : Task} {xs : Inputs}
    (hs : Sourced src s.kanban t xs) (hfits : t.Fits P xs) : t.BlobCall P xs := by
  cases t with
  | crawl e b i => trivial
  | index e i pos =>
      exact fun out hcall => pipelineBlob_indexCall hfits (Task.indexCall_of_call hcall)
  | reduce e i =>
      intro out hcall
      match xs, hs, hfits, hcall with
      | ⟨[g, n], O⟩, .cons hg (.cons hn .nil), hfits, hcall =>
          exact pipelineBlob_mergeCall (h.pipelineBlob hg rfl) (h.pipelineBlob hn rfl) hfits hcall

end

/-- In a run whose outputs fit their buffers, every index is a blob of the pipeline. -/
theorem traced_blobCall {D : Deployment} {src : Source} {as : List Action}
    (h : Meets D.step
      (fun s a => Answered src s a ∧ CallsMeet (Task.Fits D.platform) s a) .init as) :
    Traced D.platform src (Task.BlobCall D.platform) (exec D.step .init as) := by
  refine h.invariant traced_init ?_
  rintro s a ⟨hans, hfits⟩ htr
  refine htr.step hans ?_
  cases a with
  | exec p answers =>
      exact fun t xs hc => (hc.sourced (htr.procs p) hans).blobCall htr (hfits t xs hc)
  | _ => trivial

/-! ## Staying in range -/

variable {P : Platform}

/-- The ORAM querier is set up on the blob and serves requests without an access out of range. -/
def OramServesInRange (P : Platform) (blob : Bytes) : Prop :=
  ∀ O requests, (∀ r ∈ requests, Servable P r.1) → InRange (oramServe P O blob requests)

theorem oramQuerierSetup_eq_range (O : HashOrder) {blob : Bytes} {index : IndexTbl}
    {digest : List Bytes} (hread : readBlob blob = some (index, digest))
    (hfull : ¬(digest.length / 2 < digestBlockNum ∧ vlbTotal index / blockSize < indexBlockNum)) :
    oramQuerierSetup P O blob = .error .range := by
  rw [oramQuerierSetup, loadBlob_eq_ok.2 hread, ok_bind]
  by_cases hdigest : digest.length / 2 < digestBlockNum
  · obtain ⟨blocks, hcreate, -⟩ := createDigestOram_eq_ok (R := P.runtime) hdigest
    have hindex : indexBlockNum ≤ (linear (vlbRecords O index)).length / blockSize := by
      rw [length_linear]
      exact not_lt.1 fun hlt => hfull ⟨hdigest, hlt⟩
    dsimp only
    rw [hcreate, ok_bind, storeIndex_eq_range hindex, error_bind]
  · have hcreate : createDigestOram P.runtime digest = .error .range :=
      storeDigests_eq_range (by rw [Nat.zero_add]; exact not_lt.1 hdigest)
    dsimp only
    rw [hcreate, error_bind]

/-- Setup alone already needs the room. -/
theorem oramFits_of_inRange {O : HashOrder} {blob : Bytes}
    (h : InRange (oramQuerierSetup P O blob)) : OramFits blob := by
  intro index digest hread
  by_contra hfull
  exact h (oramQuerierSetup_eq_range O hread hfull)

theorem oramServesInRange_of_fits {blob : Bytes} (h : PipelineBlob P blob) (hfits : OramFits blob) :
    OramServesInRange P blob := by
  intro O requests hrequests
  obtain ⟨docs, hcount, hnul, index, hread, hidx⟩ := h.represents
  have hwf := wellFormed_of_indexes hidx hnul hcount
  obtain ⟨hdigest, hindex⟩ := hfits index _ hread
  obtain ⟨oq, hsetup, hsim⟩ := simulates_of_fits (P := P) O hread hwf hdigest hindex
  rw [oramServe, hsetup, ok_bind]
  refine inRange_mapM fun r hr => ?_
  obtain ⟨query, hwfr, hpage⟩ := hrequests r hr
  obtain ⟨results, -, hresults⟩ := exists_queryResults hwf (querierContext P.crypto blob) hpage
  rw [oramDoQuery, hwfr.2.1, ok_bind]
  dsimp only
  rw [hsim.results, hresults, ok_bind]
  exact inRange_bind.2 ⟨inRange_finalResponse _ _ _, fun _ _ => inRange_ok _⟩

/-- Two bytes at most for each byte of the posting lists in the blob. -/
theorem vlbTotal_le (index : IndexTbl) : vlbTotal index ≤ 8 * index.cells := by
  have hsub : vlbTotal index ≤
      (index.entries.map fun p => (VlbCoder.zipAll p.2).marshall.length).sum :=
    ((List.filter_sublist).map _).sum_le_sum fun _ _ => Nat.zero_le _
  have hle : (index.entries.map fun p => (VlbCoder.zipAll p.2).marshall.length).sum ≤
      (index.entries.map fun p => 8 * (p.2.length + 2)).sum := by
    refine List.sum_le_sum fun p _ => ?_
    have := VlbCoder.length_marshall_zipAll_le p.2
    omega
  rw [List.sum_map_mul_left] at hle
  exact hsub.trans hle

/-- **Capacity.** In every run whose outputs fit their buffers, on every global index ever stored,
the ORAM querier stays in range exactly if the digests and the posting lists have room. -/
theorem oramServesInRange_iff (D : Deployment) (src : Source) (as : List Action)
    (h : Meets D.step
      (fun s a => Answered src s a ∧ CallsMeet (Task.Fits D.platform) s a) .init as)
    (e : Int) (i : Nat) (v : Bytes)
    (hv : (exec D.step .init as).kanban.Stored (.globalIndex e i) v) :
    OramServesInRange D.platform v ↔ OramFits v := by
  refine ⟨fun hserves => ?_, oramServesInRange_of_fits ((traced_blobCall h).pipelineBlob hv rfl)⟩
  have hsetup := hserves insertionOrder [] fun _ h => absurd h List.not_mem_nil
  exact oramFits_of_inRange (inRange_bind.1 hsetup).1

/-! ## One epoch of equal posts -/

/-- A chain of equal posts on which every block has at least `base`, and no two shards of the first
epoch have equally many. -/
def crowdedChain (body : Bytes) (base : Nat) (h1 : 1 ≤ base) (hbody : Unescaped body)
    (hsize : (body.length + 6) * (base + 15) ≤ 1000) : Chain where
  body := body
  count n := base + ((n - startSteemBlockId - 1) / 64 % 16).toNat
  unescaped := hbody
  count_pos n := h1.trans (Nat.le_add_right _ _)
  count_le n := (Nat.mul_le_mul_left _ (by omega)).trans hsize

/-- Blank posts, 130 in each block and more. -/
def fullChain : Chain := crowdedChain [] 130 (by decide) ⟨by decide, by decide⟩ (by decide)

/-- Few posts, with a word. -/
def quietChain : Chain :=
  crowdedChain (ascii "alpha") 1 (by decide) unescaped_alpha (by decide)

/-- A hash without collisions on the batches of the first epoch. -/
def firstCrypto (c : Chain) : Crypto := tableCrypto ((List.range' 1 16).map c.items)

/-- A run of one epoch and the indexes made of it. -/
theorem leads_firstIndexes {c : Chain} (hspare : c.Spare)
    (hnodup : ((List.range' 1 16).map fun i => (c.counts startSteemBlockId i).sum).Nodup) :
    ∃ as, Meets (chainDeployment (firstCrypto c)).step (fun s a => Answered c.source s a ∧
        CallsMeet (Task.Fits (chainPlatform (firstCrypto c))) s a) .init as ∧
      (exec (chainDeployment (firstCrypto c)).step .init as).kanban.Stored (.globalIndex 2 1)
        (c.blob (c.total 1)) := by
  have hok := (lenient_answered c.source).and
    (lenient_callsMeet (Task.Fits (chainPlatform (firstCrypto c))))
  have hmem : ∀ i ∈ List.range' 1 16, c.batch (c.counts startSteemBlockId i).sum ∈
      (List.range' 1 16).map c.items := by
    intro i hi
    have hitem := List.mem_map_of_mem (f := c.items) hi
    rwa [Chain.items] at hitem
  have hkeys := nodup_chainKeys (by simp) startSteemBlockId hmem hnodup
  have hfirst := leads_chainFirst (C := firstCrypto c) hok hkeys
    ⟨answered_of_ne_gather (by simp), callsMeet_of_ne_gather (by simp)⟩
    fun i kb m f => ⟨answered_crawl (s := ⟨kb, m, f⟩) (answers_chainAnswers _ _ _ _),
      callsMeet_crawl (s := ⟨kb, m, f⟩) (admits_chainAnswers _ _ _ _).fits_crawl⟩
  have hwindow : ∀ i, 1 ≤ i → i ≤ indexPoolMax →
      (i - 1) * indexBulkMax + 1 + 3 ≤ itemsPoolMax := by decide
  have hindexed := leads_chainIndexed (C := firstCrypto c) hok hspare
    (m := ⟨.openEpoch, secondBlockId⟩) get_chainFirst_epoch
    (fun j h1 h16 => by rw [get_chainFirst_items h1 h16, Chain.items])
    (fun j => get_chainFirst_of_ne (by simp) (by simp) (by simp))
    fun i n kb hi hi4 hn hitems => ⟨answered_index (s := ⟨kb, _, fun _ => .idle⟩),
      callsMeet_index (s := ⟨kb, _, fun _ => .idle⟩) (fits_chainItems 2 i _)
        (hitems _ (by omega) (hwindow i hi hi4)) hn⟩
  have hrun := hfirst.append hindexed
  refine ⟨_, hrun.meets, ?_⟩
  rw [hrun.exec_eq]
  refine Kanban.mem_of_get ?_
  rw [Kanban.get_indexed (.inl rfl) 4 1 le_rfl (by decide), (chainIndex_spec 1).2.1]

/-- The tables of its first global index: a digest for each post, and posting lists. -/
theorem readBlob_firstIndex (c : Chain) :
    ∃ tbl, readBlob (c.blob (c.total 1)) = some (tbl, digests (c.docs (c.total 1))) ∧
      4 * tbl.cells ≤ 13 * ((c.body.length + 3) * c.total 1) := by
  have hsize := size_chainTotal c 1
  have hmul : (c.body.length + 3) * c.total 1 ≤ (c.body.length + 6) * c.total 1 :=
    Nat.mul_le_mul_right _ (by omega)
  obtain ⟨-, tbl, hread, hidx⟩ :=
    represents_chainBlob (c := c) sampleCrypto (n := c.total 1) (by omega)
  have hcount : (c.docs (c.total 1)).length + 1 < 2 ^ 32 := by
    rw [length_chainDocs]
    exact chainTotal_lt c 1
  have hcells := Multimap.cells_eq_of_get?_eq (hidx.get?_eq (indexes_indexOf hcount))
  have hblob := blobSize_chainDocs_le (c := c) sampleCrypto (c.total 1)
  rw [blobSize] at hblob
  exact ⟨tbl, hread, by omega⟩

theorem length_digests_chainDocs (c : Chain) (n : Nat) : (digests (c.docs n)).length = n := by
  rw [digests, List.length_map, length_chainDocs]

/-- **A full ORAM.** With 130 posts in each block, the first global index of epoch 2 has 33664
digests, more than two for each block of the digest ORAM. -/
theorem crowded_index_overflows : ∃ as v,
    Meets (chainDeployment (firstCrypto fullChain)).step (fun s a =>
      Answered fullChain.source s a ∧
        CallsMeet (Task.Fits (chainPlatform (firstCrypto fullChain))) s a) .init as ∧
    (exec (chainDeployment (firstCrypto fullChain)).step .init as).kanban.Stored
      (.globalIndex 2 1) v ∧
    ¬OramServesInRange (chainPlatform (firstCrypto fullChain)) v := by
  have hspare : fullChain.Spare := by
    unfold Chain.Spare
    decide +kernel
  obtain ⟨as, hmeets, hstored⟩ := leads_firstIndexes hspare (by decide +kernel)
  refine ⟨as, _, hmeets, hstored, fun hserves => ?_⟩
  have hsetup := hserves insertionOrder [] fun _ h => absurd h List.not_mem_nil
  obtain ⟨tbl, hread, -⟩ := readBlob_firstIndex fullChain
  have hroom := (oramFits_of_inRange (inRange_bind.1 hsetup).1 _ _ hread).1
  have htotal : fullChain.total 1 = 33664 := by decide +kernel
  rw [length_digests_chainDocs, htotal] at hroom
  exact absurd hroom (by decide)

/-- With a few posts in each block it has room. -/
theorem oramServesInRange_few_posts : ∃ as v,
    (exec (chainDeployment (firstCrypto quietChain)).step .init as).kanban.Stored
      (.globalIndex 2 1) v ∧
    OramServesInRange (chainPlatform (firstCrypto quietChain)) v := by
  have hspare : quietChain.Spare := by
    unfold Chain.Spare
    decide +kernel
  obtain ⟨as, hmeets, hstored⟩ := leads_firstIndexes hspare (by decide +kernel)
  refine ⟨as, _, hstored, (oramServesInRange_iff _ _ as hmeets 2 1 _ hstored).2 ?_⟩
  intro index digest hread
  obtain ⟨tbl, hread', hcells⟩ := readBlob_firstIndex quietChain
  obtain ⟨rfl, rfl⟩ := Prod.mk.inj (Option.some.inj (hread'.symm.trans hread))
  have htotal : quietChain.total 1 = 640 := by decide +kernel
  have hvlb := vlbTotal_le tbl
  have hblocks : indexBlockNum = 8192 := rfl
  have hsize : blockSize = 512 := rfl
  have hbody : quietChain.body.length = 5 := rfl
  rw [htotal, hbody] at hcells
  rw [length_digests_chainDocs, htotal, hblocks, hsize]
  exact ⟨by decide, by omega⟩

end DeSearch
